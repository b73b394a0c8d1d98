import OnlineAuction.Lib.SharedFiles

/-!
# OnlineAuction.Lib.MarkingPass

Passes that put a mark on records of a file while others append to it.

A pass reads record after record and writes back those it looks for, marked; between the two
steps others append, and other passes put their marks.  If nobody writes to the file otherwise
(`Mark.Tame`), it holds at any time the records that it held and those that were appended since,
in this order, each as it was or marked, and a pass that has come to its end has left none
unmarked of those it looks for (`Mark.run_tame`).
-/

namespace OnlineAuction.Posix

/-- A mark: to put it twice is to put it once. -/
structure Mark (α : Type) where
  put : α → α
  put_put : ∀ x, put (put x) = put x

namespace Mark

/-! ## lists with marks -/

section Lists

variable {α : Type} (m : Mark α)

/-- The one list becomes the other: records are marked, and others appended. -/
def Becomes (l l' : List α) : Prop :=
  ∀ (i : Nat) x, l[i]? = some x → l'[i]? = some x ∨ l'[i]? = some (m.put x)

/-- The records as they were or marked. -/
structure Kept (l l' : List α) : Prop where
  length : l'.length = l.length
  becomes : m.Becomes l l'

/-- A pass puts the mark. -/
def Puts (change : α → Option α) : Prop := ∀ x y, change x = some y → y = m.put x

/-- Of the first `n` records, those that the pass looks for are marked. -/
def MarkedTo (change : α → Option α) (n : Nat) (l l' : List α) : Prop :=
  ∀ (i : Nat) x, i < n → l[i]? = some x → (change x).isSome → l'[i]? = some (m.put x)

variable {m} {change : α → Option α} {l l' l'' base : List α} {x y z : α} {i n : Nat}

/-- A list becomes itself. -/
theorem Becomes.refl (l : List α) : m.Becomes l l := fun _ _ h => .inl h

/-- Or one with more behind it. -/
theorem Becomes.append (l tail : List α) : m.Becomes l (l ++ tail) := fun i x hx =>
  .inl (by rw [List.getElem?_append_left (List.getElem?_eq_some_iff.mp hx).1, hx])

/-- No element goes away. -/
theorem Becomes.length_le (h : m.Becomes l l') : l.length ≤ l'.length := by
  by_contra hlt
  have hi : l'.length < l.length := by omega
  have hx := h l'.length l[l'.length] (List.getElem?_eq_getElem hi)
  rw [List.getElem?_eq_none (Nat.le_refl _)] at hx
  rcases hx with hx | hx <;> cases hx

/-- A record that may be marked stays so. -/
theorem Becomes.step (h : m.Becomes l l') (hz : l[i]? = some z ∨ l[i]? = some (m.put z)) :
    l'[i]? = some z ∨ l'[i]? = some (m.put z) := by
  rcases hz with hz | hz
  · exact h i z hz
  · exact .inr ((h i _ hz).elim id fun hz' => by rwa [m.put_put] at hz')

/-- And then what that becomes. -/
theorem Becomes.trans (h : m.Becomes l l') (h' : m.Becomes l' l'') : m.Becomes l l'' :=
  fun i x hx => h'.step (h i x hx)

/-- A record is written back marked. -/
theorem Becomes.set (hz : l[i]? = some z ∨ l[i]? = some (m.put z)) :
    m.Becomes l (l.set i (m.put z)) := by
  intro j x hx
  by_cases hj : i = j
  · subst hj
    have hlt : i < l.length := (List.getElem?_eq_some_iff.mp hx).1
    rw [List.getElem?_set_self hlt]
    rw [hx] at hz
    rcases hz with hz | hz
    · exact .inr (by rw [Option.some.inj hz])
    · exact .inl (by rw [Option.some.inj hz])
  · exact .inl (by rw [List.getElem?_set_ne hj, hx])

/-- Marking an element keeps the base. -/
theorem Kept.set (h : m.Kept base l) (hz : l[i]? = some z ∨ l[i]? = some (m.put z)) :
    m.Kept base (l.set i (m.put z)) :=
  ⟨by rw [List.length_set, h.length], h.becomes.trans (.set hz)⟩

/-- What is appended belongs to the base from then on. -/
theorem Kept.append (h : m.Kept base l) (x : α) : m.Kept (base ++ [x]) (l ++ [x]) := by
  refine ⟨by simp [h.length], fun i y hy => ?_⟩
  rcases getElem?_concat_eq_some hy with hy | ⟨hi, rfl⟩
  · have hi : i < l.length := h.length ▸ (List.getElem?_eq_some_iff.mp hy).1
    rw [List.getElem?_append_left hi]
    exact h.becomes i y hy
  · exact .inl (by simp [hi, ← h.length])

/-- Marks stay. -/
theorem MarkedTo.becomes (hm : m.MarkedTo change n base l) (h : m.Becomes l l') :
    m.MarkedTo change n base l' := by
  intro i x hi hx hchange
  refine (h i _ (hm i x hi hx hchange)).elim id fun hx' => ?_
  rwa [m.put_put] at hx'

/-- The pass has come past a record. -/
theorem MarkedTo.succ (hm : m.MarkedTo change i base l)
    (h : ∀ x, base[i]? = some x → (change x).isSome → l[i]? = some (m.put x)) :
    m.MarkedTo change (i + 1) base l := by
  intro j x hj hx hchange
  rcases Nat.lt_succ_iff_lt_or_eq.mp hj with hj | rfl
  · exact hm j x hj hx hchange
  · exact h x hx hchange

end Lists

/-! ## what is known of the file -/

section Passes

variable {ι π υ : Type} [DecidableEq π] {O : Sig} {size : π → Nat} {path : π}

/-- The record that an access appends to the file. -/
def appendedBy (path : π) : Event ((RecordSig size).sum O) → Option (CharArray (size path))
  | ⟨.inl (.append p x), _⟩ => if h : p = path then some (h ▸ x) else none
  | _ => none

/-- The records that were appended to the file, in order. -/
def appended (path : π) (log : List (ι × Event ((RecordSig size).sum O))) :
    List (CharArray (size path)) := log.filterMap fun e => appendedBy path e.2

/-- The records of all files, and the accesses that were made. -/
abbrev Logged (ι υ : Type) (O : Sig) (size : π → Nat) : Type :=
  (Records size × υ) × List (ι × Event ((RecordSig size).sum O))

variable (m : Mark (CharArray (size path))) (other : System O ι υ)
  (l₀ : List (CharArray (size path)))

/-- Records stay in the file, perhaps marked. -/
def logic : Logic ((RecordSig size).sum O) ι (Logged ι υ O size) Unit where
  sys := (recordSystem other).logged
  inv w := m.Kept (l₀ ++ appended path w.1.2) (w.1.1.1 path)
  rely _ w w' := m.Becomes (w.1.1.1 path) (w'.1.1.1 path)
  guar w w' := m.Becomes (w.1.1.1 path) (w'.1.1.1 path)
  adm _ _ _ := True
  node _ _ _ := True
  rely_refl _ _ := .refl _
  rely_trans h h' := h.trans h'
  guar_refl _ := .refl _
  guar_trans h h' := h.trans h'

/-- A program that writes to the file nothing but marks, and ends with `R`. -/
def Ends (R : Logged ι υ O size × Unit → Prop) {α : Type} (p : Prog ((RecordSig size).sum O) α) :
    Prop :=
  ∀ (t : ι) (Q : Logged ι υ O size × Unit → Prop) (f : α → Prog ((RecordSig size).sum O) Unit)
    (w : Logged ι υ O size × Unit), (m.logic other l₀).inv w →
    (∀ a w, (m.logic other l₀).inv w → R w → (m.logic other l₀).wp t Q (f a) w) →
    (m.logic other l₀).wp t Q (p >>= f) w

/-- A program that writes to the file nothing but marks. -/
abbrev Tame {α : Type} (p : Prog ((RecordSig size).sum O) α) : Prop :=
  m.Ends other l₀ (fun _ => True) p

variable {m} {other} {l₀} {t : ι} {Q : Logged ι υ O size × Unit → Prop}
  {w : Logged ι υ O size × Unit}

/-- A further event may append a record. -/
theorem appended_concat {ι : Type} (log : List (ι × Event ((RecordSig size).sum O)))
    (e : ι × Event ((RecordSig size).sum O)) :
    appended path (log ++ [e]) = appended path log ++ (appendedBy path e.2).toList := by
  rw [appended, List.filterMap_append, ← appended]
  cases h : appendedBy path e.2 <;> simp [h]

/-- An access that does not write to the file. -/
def Spares (path : π) : RecordCall size → Prop
  | .writeAt p _ _ => p ≠ path
  | _ => True

/-- A call that does not. -/
def CallSpares (path : π) : ((RecordSig size).sum O).Op → Prop
  | .inl c => Spares path c
  | .inr _ => True

/-- Such a call leaves the file or appends to it. -/
theorem step_of_spares {o : ((RecordSig size).sum O).Op} (ho : CallSpares path o)
    {x x' : Records size × υ} {r : ((RecordSig size).sum O).Res o}
    (h : (recordSystem other).step t o x = some (r, x')) :
    x'.1 path = x.1 path ++ (appendedBy path ⟨o, r⟩).toList := by
  cases o with
  | inr o =>
      obtain ⟨y, -, hy⟩ := Option.map_eq_some_iff.mp h
      obtain ⟨-, rfl⟩ := Prod.mk.inj hy
      exact (List.append_nil _).symm
  | inl c =>
      obtain ⟨rfl, rfl⟩ := Prod.mk.inj (Option.some.inj h)
      cases c with
      | readAt p i => exact (List.append_nil _).symm
      | count p => exact (List.append_nil _).symm
      | writeAt p i y =>
          have hne : path ≠ p := fun heq => ho heq.symm
          exact (Function.update_of_ne hne _ _).trans (List.append_nil _).symm
      | append p y =>
          by_cases hp : p = path
          · subst hp
            simp [RecordCall.exec, appendedBy]
          · simp [RecordCall.exec, appendedBy, hp, Function.update_of_ne (Ne.symm hp)]

/-- A call that spares the file is silent. -/
theorem silent_of_spares {o : ((RecordSig size).sum O).Op} (ho : CallSpares path o) :
    (m.logic other l₀).Silent t o := by
  intro w r s hinv hs
  obtain ⟨hstep, hlog⟩ := System.logged_step.mp hs
  have hfile := step_of_spares ho hstep
  have hbecomes : m.Becomes (w.1.1.1 path) (s.1.1 path) := hfile ▸ .append _ _
  refine ⟨⟨?_, hbecomes, fun _ _ => hbecomes⟩, hbecomes⟩
  show m.Kept (l₀ ++ appended path s.2) (s.1.1 path)
  rw [hlog, appended_concat, hfile, ← List.append_assoc]
  cases appendedBy path ⟨o, r⟩ with
  | none => simpa using (show m.Kept (l₀ ++ appended path w.1.2) (w.1.1.1 path) from hinv)
  | some y => exact Kept.append hinv y

/-- A program that does not write to the file. -/
theorem tame_of_spares {α : Type} {p : Prog ((RecordSig size).sum O) α}
    (hp : p.Respects (CallSpares path) (fun _ _ => True) fun _ => True) : m.Tame other l₀ p := by
  intro t Q f w hinv hf
  exact Logic.wp_silent (P := fun _ => True) (fun o ho => silent_of_spares ho)
    (fun _ _ _ _ _ => id) (fun _ _ _ _ _ _ => trivial) hp hf hinv trivial

omit [DecidableEq π] in
/-- A program of such accesses. -/
theorem respects_inl {α : Type} {p : Prog (RecordSig size) α}
    (hp : p.Respects (Spares path) (fun _ _ => True) fun _ => True) :
    p.inl.Respects (CallSpares (O := O) path) (fun _ _ => True) fun _ => True := by
  refine Prog.Respects.subst (fun c hc => ?_) hp
  exact ⟨hc, fun _ _ => trivial⟩

omit [DecidableEq π] in
/-- The loops that read, and those that write elsewhere. -/
theorem spares_recordLoop {σ : Type} {path' : π} {guard : σ → Bool}
    {body : Nat → σ → CharArray (size path') → Prog (RecordSig size) (Bool × σ)}
    (hbody : ∀ i s x, (body i s x).Respects (Spares path) (fun _ _ => True) fun _ => True)
    (fuel i : Nat) (s : σ) : (recordLoop path' guard body fuel i s).Respects (Spares path)
      (fun _ _ => True) fun _ => True := by
  induction fuel generalizing i s with
  | zero => trivial
  | succ fuel ih =>
      rw [recordLoop]
      split
      · refine ⟨trivial, fun got _ => ?_⟩
        cases got with
        | none => trivial
        | some x =>
            refine (hbody i s x).bind fun a _ => ?_
            show Prog.Respects _ _ (if a.1 = true then _ else _) _
            split
            · exact ih (i + 1) a.2
            · trivial
      · trivial

/-- A program of tame implementations is tame. -/
theorem Tame.subst {U : Sig} {impl : (o : U.Op) → Prog ((RecordSig size).sum O) (U.Res o)}
    (h : ∀ o, m.Tame other l₀ (impl o)) {α : Type} (p : Prog U α) :
    m.Tame other l₀ (p.subst impl) := by
  induction p with
  | pure a => exact fun _ _ f w hinv hf => hf a w hinv trivial
  | call o k ih =>
      intro t Q f w hinv hf
      rw [Prog.subst_call, Prog.bind_assoc]
      exact h o t Q _ w hinv fun a w hinv _ => ih a t Q f w hinv hf

/-- What lasts is there at the end of a program, if it was there before. -/
theorem Tame.keeps {R : Logged ι υ O size × Unit → Prop}
    (hlasts : ∀ w w', m.Becomes (w.1.1.1 path) (w'.1.1.1 path) → R w → R w')
    {p : Prog ((RecordSig size).sum O) Unit} (hp : m.Tame other l₀ p)
    (hinv : (m.logic other l₀).inv w) (hR : R w) : (m.logic other l₀).wp t R p w := by
  have hstable : (m.logic other l₀).Stable t R := fun w w' _ _ hb => hlasts w w' hb
  have htame := hp t (fun _ => True) .pure w hinv fun a w hinv _ =>
    Logic.wp_pure (P := fun _ => True) (fun _ _ _ _ _ => id) hinv trivial
      (fun _ _ _ => trivial) fun _ _ _ => trivial
  rw [Prog.bind_pure_right] at htame
  exact Logic.wp_mono (Logic.wp_frame hstable hlasts htame hinv hR) fun _ _ hw => hw.2

/-- Or if a call that the program must make brings it about. -/
theorem wp_subst_of_must {U : Sig} {impl : (o : U.Op) → Prog ((RecordSig size).sum O) (U.Res o)}
    {R : Logged ι υ O size × Unit → Prop}
    (hlasts : ∀ w w', m.Becomes (w.1.1.1 path) (w'.1.1.1 path) → R w → R w')
    (h : ∀ o, m.Tame other l₀ (impl o)) {P : U.Op → Prop}
    (hP : ∀ o, P o → m.Ends other l₀ R (impl o)) {p : Prog U Unit} (hp : p.Must P)
    (hinv : (m.logic other l₀).inv w) : (m.logic other l₀).wp t R (p.subst impl) w := by
  induction p generalizing w with
  | pure a => exact absurd hp (Prog.must_pure a)
  | call o k ih =>
      rw [Prog.subst_call]
      rcases hp with ho | hk
      · exact hP o ho t R _ w hinv fun a w hinv hR =>
          (Tame.subst h (k a)).keeps hlasts hinv hR
      · exact h o t R _ w hinv fun a w hinv _ => ih a (hk a) hinv

/-! ## a pass -/

section Pass

variable {change : CharArray (size path) → Option (CharArray (size path))}

/-- Where a pass is: it has read `i` records, and those it looks for are marked. -/
structure PassAt (m : Mark (CharArray (size path))) (l₀ : List (CharArray (size path)))
    (change : CharArray (size path) → Option (CharArray (size path))) (i : Nat)
    (w : Logged ι υ O size × Unit) : Prop where
  marked : m.MarkedTo change i l₀ (w.1.1.1 path)
  passed : i ≤ (w.1.1.1 path).length

/-- What a pass of `fuel` turns has done: it has marked what it looks for, unless there are more
records than turns. -/
def Passed (m : Mark (CharArray (size path))) (l₀ : List (CharArray (size path)))
    (change : CharArray (size path) → Option (CharArray (size path))) (fuel : Nat)
    (w : Logged ι υ O size × Unit) : Prop :=
  fuel ≤ (w.1.1.1 path).length ∨ m.MarkedTo change l₀.length l₀ (w.1.1.1 path)

/-- Where a pass is it stays while others move. -/
theorem stable_passAt (i : Nat) : (m.logic other l₀).Stable t (PassAt m l₀ change i) :=
  fun _ _ _ _ hb h => ⟨h.marked.becomes hb, h.passed.trans (Becomes.length_le hb)⟩

omit [DecidableEq π] in
/-- What a pass has marked stays marked. -/
theorem Passed.lasts {fuel : Nat} {w w' : Logged ι υ O size × Unit}
    (hb : m.Becomes (w.1.1.1 path) (w'.1.1.1 path)) (h : Passed m l₀ change fuel w) :
    Passed m l₀ change fuel w' :=
  h.imp (fun hle => hle.trans (Becomes.length_le hb)) fun hm => hm.becomes hb

/-- The record that a pass has read is there, perhaps marked since. -/
theorem stable_read (i : Nat) (z : CharArray (size path)) : (m.logic other l₀).Stable t fun w =>
    (w.1.1.1 path)[i]? = some z ∨ (w.1.1.1 path)[i]? = some (m.put z) :=
  fun _ _ _ _ hb h => Becomes.step hb h

/-- What there is in place of a record that was there from the beginning. -/
theorem kept_of_inv (hinv : (m.logic other l₀).inv w) {i : Nat} {x : CharArray (size path)}
    (hx : l₀[i]? = some x) :
    (w.1.1.1 path)[i]? = some x ∨ (w.1.1.1 path)[i]? = some (m.put x) := by
  have hkept : m.Kept (l₀ ++ appended path w.1.2) (w.1.1.1 path) := hinv
  exact hkept.becomes i x
    (by rw [List.getElem?_append_left (List.getElem?_eq_some_iff.mp hx).1, hx])

omit [DecidableEq π] in
/-- What a record is marked to, whichever of the two it was read as. -/
theorem put_eq_put {x z : CharArray (size path)} {y : Option (CharArray (size path))}
    (hx : y = some x ∨ y = some (m.put x)) (hz : y = some z ∨ y = some (m.put z)) :
    m.put z = m.put x := by
  rcases hx with rfl | rfl <;> rcases hz with hz | hz
  · rw [Option.some.inj hz]
  · rw [Option.some.inj hz, m.put_put]
  · rw [← Option.some.inj hz, m.put_put]
  · exact (Option.some.inj hz).symm

/-- A record is written back marked. -/
theorem moves_mark {i : Nat} {z : CharArray (size path)}
    {s : Logged ι υ O size} {r : ((RecordSig size).sum O).Res (.inl (.writeAt path i (m.put z)))}
    (hinv : (m.logic other l₀).inv w)
    (hz : (w.1.1.1 path)[i]? = some z ∨ (w.1.1.1 path)[i]? = some (m.put z))
    (hs : (m.logic other l₀).sys.step t (.inl (.writeAt path i (m.put z))) w.1 = some (r, s)) :
    (m.logic other l₀).Moves t w (s, ()) ∧ s.1.1 path = (w.1.1.1 path).set i (m.put z) := by
  obtain ⟨hstep, hlog⟩ := System.logged_step.mp hs
  obtain ⟨-, hs'⟩ := Prod.mk.inj (Option.some.inj hstep)
  have hlt : i < (w.1.1.1 path).length := by
    rcases hz with hz | hz <;> exact (List.getElem?_eq_some_iff.mp hz).1
  have hfile : s.1.1 path = (w.1.1.1 path).set i (m.put z) := by
    rw [← hs', ← OnlineAuction.writeAt_of_lt hlt]
    exact Function.update_self ..
  have hbecomes : m.Becomes (w.1.1.1 path) (s.1.1 path) := hfile ▸ .set hz
  refine ⟨⟨?_, hbecomes, fun _ _ => hbecomes⟩, hfile⟩
  show m.Kept (l₀ ++ appended path s.2) (s.1.1 path)
  have happended : appended path s.2 = appended path w.1.2 := by
    rw [hlog, appended_concat]
    exact List.append_nil _
  rw [happended, hfile]
  exact Kept.set hinv hz

/-- **A pass** reads a record and writes it back, in two steps, for each that it looks for. -/
theorem wp_recordLoop (hputs : m.Puts change) (total fuel i offset : Nat)
    (htotal : i + fuel = total) {f : Option Nat → Prog ((RecordSig size).sum O) Unit}
    (hinv : (m.logic other l₀).inv w) (hat : PassAt m l₀ change i w)
    (hf : ∀ a w, (m.logic other l₀).inv w → Passed m l₀ change total w →
      (m.logic other l₀).wp t Q (f a) w) :
    (m.logic other l₀).wp t Q
      ((recordLoop path (fun _ => true) (writeBackAt path change) fuel i offset).inl >>= f) w := by
  induction fuel generalizing i offset w with
  | zero => exact hf none w hinv (.inl (by have hle := hat.passed; omega))
  | succ fuel ih =>
      rw [recordLoop, if_pos rfl]
      refine Logic.wp_call (stable_passAt i) hinv hat (fun _ _ _ => trivial) ?_
      intro w r s hinv hat _ hs
      obtain ⟨hmove, hrely⟩ :=
        silent_of_spares (o := Sum.inl (.readAt path i)) trivial w r s hinv hs
      refine ⟨(), hmove, ?_⟩
      have hat' : PassAt m l₀ change i (s, ()) := stable_passAt i w (s, ()) hinv hmove.inv hrely hat
      obtain ⟨hstep, -⟩ := System.logged_step.mp hs
      obtain ⟨hr, hs'⟩ := Prod.mk.inj (Option.some.inj hstep)
      have hread : (s.1.1 path)[i]? = r := by
        rw [← hs']
        exact hr
      cases r with
      | none =>
          refine hf (some offset) (s, ()) hmove.inv (.inr fun j x hj hx hchange => ?_)
          have hlen := List.getElem?_eq_none_iff.mp hread
          have hjlt : j < i := by
            rcases kept_of_inv hmove.inv hx with hj' | hj' <;>
              exact Nat.lt_of_lt_of_le (List.getElem?_eq_some_iff.mp hj').1 hlen
          exact hat'.marked j x hjlt hx hchange
      | some z =>
          have hlt : i < (s.1.1 path).length := (List.getElem?_eq_some_iff.mp hread).1
          show (m.logic other l₀).wp t Q ((writeBackAt path change i offset z >>= fun x =>
            if x.1 = true then
              recordLoop path (fun _ => true) (writeBackAt path change) fuel (i + 1) x.2
            else pure (some x.2)).inl >>= f) (s, ())
          cases hz : change z with
          | none =>
              have hnext : PassAt m l₀ change (i + 1) (s, ()) := by
                refine ⟨hat'.marked.succ fun x hx hchange => ?_, hlt⟩
                refine (kept_of_inv hmove.inv hx).elim (fun hx' => ?_) id
                obtain rfl : z = x := Option.some.inj (hread.symm.trans hx')
                rw [hz] at hchange
                cases hchange
              have hbody :
                  writeBackAt path change i offset z = .pure (true, offset + size path) := by
                rw [writeBackAt, hz]
              rw [hbody]
              exact ih (i + 1) (offset + size path) (by omega) hmove.inv hnext
          | some y =>
              obtain rfl : y = m.put z := hputs z y hz
              have hbody : writeBackAt path change i offset z =
                  .call (.writeAt path i (m.put z)) fun _ => .pure (true, offset + size path) := by
                rw [writeBackAt, hz]
              rw [hbody]
              refine Logic.wp_call (P := fun w => PassAt m l₀ change i w ∧
                  ((w.1.1.1 path)[i]? = some z ∨ (w.1.1.1 path)[i]? = some (m.put z))) ?_
                hmove.inv ⟨hat', .inl hread⟩ (fun _ _ _ => trivial) ?_
              · exact fun w w' hw hw' hb h => ⟨stable_passAt i w w' hw hw' hb h.1,
                  stable_read i z w w' hw hw' hb h.2⟩
              · rintro w r' s' hinv ⟨hat, hthere⟩ - hs
                obtain ⟨hmove, hfile⟩ := moves_mark hinv hthere hs
                refine ⟨(), hmove, ih (i + 1) (offset + size path) (by omega) hmove.inv ⟨?_, ?_⟩⟩
                · have hb : m.Becomes (w.1.1.1 path) (s'.1.1 path) := hfile ▸ .set hthere
                  refine (hat.marked.becomes hb).succ fun x hx _ => ?_
                  have hlt' : i < (w.1.1.1 path).length := by
                    rcases hthere with h | h <;> exact (List.getElem?_eq_some_iff.mp h).1
                  show (s'.1.1 path)[i]? = some (m.put x)
                  rw [hfile, List.getElem?_set_self hlt',
                    put_eq_put (kept_of_inv hinv hx) hthere]
                · show i + 1 ≤ (s'.1.1 path).length
                  rw [hfile, List.length_set]
                  rcases hthere with h | h <;> exact (List.getElem?_eq_some_iff.mp h).1

omit [DecidableEq π] in
/-- A pass begins with nothing behind it. -/
theorem passAt_zero : PassAt m l₀ change 0 w :=
  ⟨fun _ _ hlt => absurd hlt (Nat.not_lt_zero _), Nat.zero_le _⟩

/-- A pass has marked what it looks for. -/
theorem ends_recordPass (hputs : m.Puts change) (fuel : Nat) :
    m.Ends other l₀ (Passed m l₀ change fuel) (recordPass path change fuel).inl :=
  fun _ _ _ _ hinv hf => wp_recordLoop hputs fuel fuel 0 0 (Nat.zero_add fuel) hinv passAt_zero hf

/-- It writes nothing but marks. -/
theorem tame_recordPass (hputs : m.Puts change) (fuel : Nat) :
    m.Tame other l₀ (recordPass path change fuel).inl := fun t Q f w hinv hf =>
  ends_recordPass hputs fuel t Q f w hinv fun a w hinv _ => hf a w hinv trivial

end Pass

/-! ## runs -/

section Runs

variable {U : Sig} {impl : (o : U.Op) → Prog ((RecordSig size).sum O) (U.Res o)}
  {queue : ι → List (Prog U Unit)} {x : Records size × υ}
  {e : Config ((RecordSig size).sum O) ι (Logged ι υ O size)}
  {change : CharArray (size path) → Option (CharArray (size path))}

/-- What a thread knows between two programs: a pass that one of them had to make has marked. -/
def AfterPass (impl : (o : U.Op) → Prog ((RecordSig size).sum O) (U.Res o))
    (queue : ι → List (Prog U Unit)) (P : U.Op → Prop) (R : Logged ι υ O size × Unit → Prop) (t : ι)
    (qs : List (Prog ((RecordSig size).sum O) Unit)) (w : Logged ι υ O size × Unit) : Prop :=
  ∃ n, qs = ((queue t).drop n).map (Prog.subst impl) ∧ (∀ p ∈ (queue t).take n, p.Must P → R w)

/-- A thread begins its next program. -/
theorem begins_afterPass {P : U.Op → Prop} {R : Logged ι υ O size × Unit → Prop}
    (hlasts : ∀ w w', m.Becomes (w.1.1.1 path) (w'.1.1.1 path) → R w → R w')
    (htame : ∀ o, m.Tame other l₀ (impl o)) (hP : ∀ o, P o → m.Ends other l₀ R (impl o)) :
    (m.logic other l₀).Begins (AfterPass impl queue P R) := by
  rintro t p ps w hinv ⟨n, hps, hR⟩
  have hlt : n < (queue t).length := by
    by_contra hle
    rw [List.drop_eq_nil_of_le (by omega)] at hps
    cases hps
  rw [List.drop_eq_getElem_cons hlt, List.map_cons, List.cons.injEq] at hps
  obtain ⟨rfl, hps⟩ := hps
  have htake : (queue t).take (n + 1) = (queue t).take n ++ [(queue t)[n]] :=
    (List.take_append_getElem hlt).symm
  refine ⟨(), .refl hinv, ?_⟩
  by_cases hmust : (queue t)[n].Must P
  · exact Logic.wp_mono (wp_subst_of_must hlasts htame hP hmust hinv) fun w _ hw =>
      ⟨n + 1, hps, fun _ _ _ => hw⟩
  · have hnow : ∀ p ∈ (queue t).take (n + 1), p.Must P → R w := by
      intro p hp hpmust
      rw [htake, List.mem_append, List.mem_singleton] at hp
      rcases hp with hp | rfl
      · exact hR p hp hpmust
      · exact absurd hpmust hmust
    have hkeeps := (Tame.subst htame (queue t)[n]).keeps (t := t)
      (R := fun w => ∀ p ∈ (queue t).take (n + 1), p.Must P → R w)
      (fun w w' hb h p hp hpmust => hlasts w w' hb (h p hp hpmust)) hinv hnow
    exact Logic.wp_mono hkeeps fun w _ hw => ⟨n + 1, hps, hw⟩

variable [DecidableEq ι]

/-- **Run lemma**: the file holds what it held and what was appended, each record as it was or
marked; and a pass that a program of a thread had to make has marked what it looks for. -/
theorem run_tame {P : U.Op → Prop} (fuel : Nat) (htame : ∀ o, m.Tame other (x.1 path) (impl o))
    (hP : ∀ o, P o → m.Ends other (x.1 path) (Passed m (x.1 path) change fuel) (impl o))
    (h : Reach (recordSystem other).logged
      (.start (x, []) fun t => (queue t).map (Prog.subst impl)) e) :
    m.Kept (x.1 path ++ appended path e.shared.2) (e.shared.1.1 path) ∧
      ∀ t before after, e.prog t = .pure () → queue t = before ++ after →
        e.queue t = after.map (Prog.subst impl) → (∃ p ∈ before, p.Must P) →
          (e.shared.1.1 path).length < fuel →
            m.MarkedTo change (x.1 path).length (x.1 path) (e.shared.1.1 path) := by
  have hfits : (m.logic other (x.1 path)).Fits anyStep := {
    adm := fun _ _ _ _ _ _ _ _ _ => trivial
    env := fun w s hinv hs => by
      have hfile : s.1.1 = w.1.1.1 := hs.1.1
      have hbecomes : m.Becomes (w.1.1.1 path) (s.1.1 path) := hfile ▸ .refl _
      refine ⟨(), ?_, hbecomes, fun _ => hbecomes⟩
      show m.Kept (x.1 path ++ appended path s.2) (s.1.1 path)
      rw [hs.2, hfile]
      exact hinv }
  have hholds : (m.logic other (x.1 path)).Holds
      (AfterPass impl queue P (Passed m (x.1 path) change fuel))
      (.start (x, []) fun t => (queue t).map (Prog.subst impl)) () := by
    refine .start ?_ ?_ (fun _ _ _ _ => trivial) fun t => ⟨0, rfl, fun p hp => by cases hp⟩
    · exact ⟨by simp [appended], fun i y hy => .inl (by simpa [appended] using hy)⟩
    · rintro t w w' - - hb ⟨n, hqs, hpassed⟩
      exact ⟨n, hqs, fun p hp hmust => (hpassed p hp hmust).lasts hb⟩
  obtain ⟨⟨⟩, he, -⟩ := hholds.run hfits
    (begins_afterPass (fun _ _ hb h => h.lasts hb) htame hP) h
  refine ⟨he.inv, fun t before after ht hqueue hafter hmust hlt => ?_⟩
  obtain ⟨p, hp, hmust⟩ := hmust
  obtain ⟨n, hqs, hpassed⟩ := he.quiet ht
  have hlength := congrArg List.length (hafter.symm.trans hqs)
  rw [List.length_map, List.length_map, hqueue, List.length_drop, List.length_append] at hlength
  have hin : p ∈ (queue t).take n := by
    rw [hqueue]
    exact List.mem_take_iff_getElem.mpr (by
      obtain ⟨i, hi, rfl⟩ := List.mem_iff_getElem.mp hp
      exact ⟨i, by rw [List.length_append]; omega, List.getElem_append_left hi⟩)
  exact (hpassed p hin hmust).resolve_left (Nat.not_le_of_lt hlt)

end Runs

end Passes

end Mark

end OnlineAuction.Posix
