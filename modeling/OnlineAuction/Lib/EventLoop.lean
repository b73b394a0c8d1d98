import OnlineAuction.Lib.Machine

/-!
# OnlineAuction.Lib.EventLoop

Threads that serve messages in a loop.

A thread waits for a message and serves it by a program that answers the new locals
and whether to go on; when the loop is over it runs a last program (`EventLoop`).
`Workers` are such threads over shared state: it can be seen where each of them is
and what its locals are.  `Workers.covers` says that the machine of
`OnlineAuction.Lib.Machine`, which runs each loop as one program, does nothing else.

`LoopLogic` is a proof rule for such threads in the manner of rely and guarantee:
what holds of a thread's locals while it waits (`idle`) and while it serves a message
(`during`), and what its next call means (`point`).
-/

namespace OnlineAuction

/-! ## loops -/

/-- How a thread serves a message with its locals, and what it does at the end. -/
structure EventLoop (S : Sig) (ι Λ M : Type) where
  serve : ι → Λ → M → Prog S (Λ × Bool)
  finish : ι → Λ → Prog S Unit

section Loops

variable {S : Sig} {ι σ Λ M : Type}

/-- The loop as one program, over the messages that are received. -/
def EventLoop.prog (L : EventLoop S ι Λ M) (t : ι) : Λ → List M → Prog S Unit
  | l, [] => L.finish t l
  | l, m :: ms => L.serve t l m >>= fun x => if x.2 then L.prog t x.1 ms else L.finish t x.1

/-- Where a thread is, with its locals: those it had before, while it serves. -/
inductive Worker (S : Sig) (Λ M : Type)
  | waiting (l : Λ)
  | serving (l : Λ) (m : M) (p : Prog S (Λ × Bool))
  | closing (l : Λ) (p : Prog S Unit)

/-- The locals of a thread that is in its loop. -/
def Worker.locals : Worker S Λ M → Option Λ
  | .waiting l | .serving l _ _ => some l
  | .closing _ _ => none

/-- The call that comes next. -/
def Worker.op : Worker S Λ M → Option S.Op
  | .serving _ _ (.call o _) | .closing _ (.call o _) => some o
  | _ => none

/-- What is left of a thread's loop, with the messages still to come. -/
def Worker.rest (L : EventLoop S ι Λ M) (t : ι) (ms : List M) : Worker S Λ M → Prog S Unit
  | .waiting l => L.prog t l ms
  | .serving _ _ p => p >>= fun x => if x.2 then L.prog t x.1 ms else L.finish t x.1
  | .closing _ p => p

/-- Threads over shared state. -/
structure Workers (S : Sig) (ι σ Λ M : Type) where
  shared : σ
  worker : ι → Worker S Λ M

namespace Workers

/-- Threads that have received nothing yet. -/
def start (s : σ) (l : ι → Λ) : Workers S ι σ Λ M := ⟨s, fun t => .waiting (l t)⟩

variable [DecidableEq ι]

/-- Thread `t` is somewhere else. -/
def put (w : Workers S ι σ Λ M) (t : ι) (x : Worker S Λ M) : Workers S ι σ Λ M :=
  { w with worker := Function.update w.worker t x }

/-- And the shared state has changed. -/
def goOn (w : Workers S ι σ Λ M) (t : ι) (x : Worker S Λ M) (s : σ) : Workers S ι σ Λ M :=
  ⟨s, Function.update w.worker t x⟩

@[simp] theorem put_shared (w : Workers S ι σ Λ M) (t : ι) (x) :
    (w.put t x).shared = w.shared := rfl

@[simp] theorem put_worker (w : Workers S ι σ Λ M) (t : ι) (x) :
    (w.put t x).worker = Function.update w.worker t x := rfl

@[simp] theorem goOn_shared (w : Workers S ι σ Λ M) (t : ι) (x) (s : σ) :
    (w.goOn t x s).shared = s := rfl

@[simp] theorem goOn_worker (w : Workers S ι σ Λ M) (t : ι) (x) (s : σ) :
    (w.goOn t x s).worker = Function.update w.worker t x := rfl

/-- The worker that was put is there. -/
theorem put_self (w : Workers S ι σ Λ M) (t : ι) (x) : (w.put t x).worker t = x :=
  Function.update_self ..

variable (sys : System S ι σ) (L : EventLoop S ι Λ M)

/-- One step of the threads, of those that satisfy `ok` when the thread goes on with
what it is doing. -/
inductive Step (ok : Workers S ι σ Λ M → ι → Prop) :
    Workers S ι σ Λ M → Workers S ι σ Λ M → Prop
  | receive {w : Workers S ι σ Λ M} {t : ι} {l : Λ} (hw : w.worker t = .waiting l) (m : M) :
      Step ok w (w.put t (.serving l m (L.serve t l m)))
  | hangUp {w : Workers S ι σ Λ M} {t : ι} {l : Λ} (hw : w.worker t = .waiting l) :
      Step ok w (w.put t (.closing l (L.finish t l)))
  | call {w : Workers S ι σ Λ M} {t : ι} {l : Λ} {m : M} {o : S.Op}
      {k : S.Res o → Prog S (Λ × Bool)} {r : S.Res o} {s : σ}
      (hw : w.worker t = .serving l m (.call o k)) (hok : ok w t)
      (hs : sys.step t o w.shared = some (r, s)) : Step ok w (w.goOn t (.serving l m (k r)) s)
  | answer {w : Workers S ι σ Λ M} {t : ι} {l l' : Λ} {m : M}
      (hw : w.worker t = .serving l m (.pure (l', true))) (hok : ok w t) :
      Step ok w (w.put t (.waiting l'))
  | leave {w : Workers S ι σ Λ M} {t : ι} {l l' : Λ} {m : M}
      (hw : w.worker t = .serving l m (.pure (l', false))) (hok : ok w t) :
      Step ok w (w.put t (.closing l' (L.finish t l')))
  | close {w : Workers S ι σ Λ M} {t : ι} {l : Λ} {o : S.Op} {k : S.Res o → Prog S Unit}
      {r : S.Res o} {s : σ} (hw : w.worker t = .closing l (.call o k)) (hok : ok w t)
      (hs : sys.step t o w.shared = some (r, s)) : Step ok w (w.goOn t (.closing l (k r)) s)
  | env {w : Workers S ι σ Λ M} {s : σ} (hs : sys.env w.shared s) : Step ok w { w with shared := s }

/-- Any number of steps. -/
inductive Run (ok : Workers S ι σ Λ M → ι → Prop) (w : Workers S ι σ Λ M) :
    Workers S ι σ Λ M → Prop
  | refl : Run ok w w
  | tail {v x : Workers S ι σ Λ M} (hrun : Run ok w v) (hstep : Step sys L ok v x) : Run ok w x

/-- The condition of the unrestricted runs. -/
def anyTurn : Workers S ι σ Λ M → ι → Prop := fun _ _ => True

variable {sys L} {ok : Workers S ι σ Λ M → ι → Prop} {u v w : Workers S ι σ Λ M}

/-- One run after another. -/
theorem Run.trans (h : Run sys L ok u v) (h' : Run sys L ok v w) : Run sys L ok u w := by
  induction h' with
  | refl => exact h
  | tail _ hstep ih => exact .tail ih hstep

/-- **Invariant rule**. -/
theorem Run.inv {P : Workers S ι σ Λ M → Prop} (hstep : ∀ v w, P v → Step sys L ok v w → P w)
    (h : Run sys L ok u v) (hu : P u) : P v := by
  induction h with
  | refl => exact hu
  | tail _ hs ih => exact hstep _ _ ih hs

/-! ## executing an interleaving -/

/-- What a thread does next: it receives a message, loses its client, or goes on. -/
inductive Turn (M : Type)
  | receive (m : M)
  | hangUp
  | go

section Schedule

instance (w : Workers S ι σ Λ M) (t : ι) : Decidable (anyTurn w t) := isTrue trivial

variable (sys L ok) [∀ w t, Decidable (ok w t)]

/-- Let thread `t` make this turn, if it can and, when it goes on, satisfies `ok`. -/
def next (w : Workers S ι σ Λ M) (t : ι) : Turn M → Option (Workers S ι σ Λ M)
  | .receive m => match w.worker t with
      | .waiting l => some (w.put t (.serving l m (L.serve t l m)))
      | _ => none
  | .hangUp => match w.worker t with
      | .waiting l => some (w.put t (.closing l (L.finish t l)))
      | _ => none
  | .go => if ok w t then match w.worker t with
        | .serving l m (.call o k) =>
            (sys.step t o w.shared).map fun x => w.goOn t (.serving l m (k x.1)) x.2
        | .serving _ _ (.pure (l', true)) => some (w.put t (.waiting l'))
        | .serving _ _ (.pure (l', false)) => some (w.put t (.closing l' (L.finish t l')))
        | .closing l (.call o k) =>
            (sys.step t o w.shared).map fun x => w.goOn t (.closing l (k x.1)) x.2
        | _ => none
      else none

/-- Let the listed threads make these turns; one that cannot is passed over. -/
def after (w : Workers S ι σ Λ M) : List (ι × Turn M) → Workers S ι σ Λ M
  | [] => w
  | (t, turn) :: ts => ((w.next sys L ok t turn).getD w).after ts

variable {sys L ok}

/-- A step that was computed is one. -/
theorem Step.of_next {t : ι} {turn : Turn M} (h : u.next sys L ok t turn = some v) :
    Step sys L ok u v := by
  unfold next at h
  split at h
  · split at h
    · next hw => obtain rfl := Option.some.inj h; exact .receive hw _
    · cases h
  · split at h
    · next hw => obtain rfl := Option.some.inj h; exact .hangUp hw
    · cases h
  · split at h
    · next hok =>
        split at h
        · next hw =>
            obtain ⟨⟨r, s⟩, hs, rfl⟩ := Option.map_eq_some_iff.mp h
            exact .call hw hok hs
        · next hw => obtain rfl := Option.some.inj h; exact .answer hw hok
        · next hw => obtain rfl := Option.some.inj h; exact .leave hw hok
        · next hw =>
            obtain ⟨⟨r, s⟩, hs, rfl⟩ := Option.map_eq_some_iff.mp h
            exact .close hw hok hs
        · cases h
    · cases h

/-- What a schedule executes is a run. -/
theorem Run.after (ts : List (ι × Turn M)) : Run sys L ok u (u.after sys L ok ts) := by
  induction ts generalizing u with
  | nil => exact .refl
  | cons x ts ih =>
      obtain ⟨t, turn⟩ := x
      simp only [Workers.after]
      cases h : u.next sys L ok t turn with
      | none => exact ih
      | some v => exact Run.trans (.tail .refl (Step.of_next h)) ih

end Schedule

/-! ## the loops as programs -/

variable (sys L) in
/-- Thread `t` gets by itself to where it makes the call `o`, and then has the rest `k`. -/
def Reaches (w : Workers S ι σ Λ M) (t : ι) (o : S.Op) (k : S.Res o → Prog S Unit) : Prop :=
  ∃ (x : S.Res o → Worker S Λ M) (ms : List M) (v : Workers S ι σ Λ M),
    (∀ r, (x r).rest L t ms = k r) ∧ Run sys L anyTurn w v ∧ v.shared = w.shared ∧
    (∀ u, u ≠ t → v.worker u = w.worker u) ∧
    ∀ r s, sys.step t o v.shared = some (r, s) → Step sys L anyTurn v (v.goOn t (x r) s)

section Reaches

variable {t : ι} {o : S.Op} {k : S.Res o → Prog S Unit}

/-- What is reached after a step is reached. -/
theorem Reaches.of_put {x : Worker S Λ M} (h : Reaches sys L (w.put t x) t o k)
    (hstep : Step sys L anyTurn w (w.put t x)) : Reaches sys L w t o k := by
  obtain ⟨x', ms, v, hrest, hrun, hshared, hothers, hcall⟩ := h
  refine ⟨x', ms, v, hrest, Run.trans (.tail .refl hstep) hrun, hshared, fun u hu => ?_, hcall⟩
  rw [hothers u hu, put_worker, Function.update_of_ne hu]

/-- A worker that closes reaches its next call. -/
theorem reaches_closing {l : Λ} (hw : w.worker t = .closing l (.call o k)) :
    Reaches sys L w t o k :=
  ⟨fun r => .closing l (k r), [], w, fun _ => rfl, .refl, rfl, fun _ _ => rfl,
    fun _ _ hs => .close hw trivial hs⟩

/-- So does one that serves, in the program or in the loop after it. -/
theorem reaches_serving {l : Λ} {m : M} {p : Prog S (Λ × Bool)} {ms : List M}
    (hw : w.worker t = .serving l m p) (hp : (Worker.serving l m p).rest L t ms = .call o k)
    (hloop : ∀ (l : Λ) (w : Workers S ι σ Λ M), w.worker t = .waiting l →
      L.prog t l ms = .call o k → Reaches sys L w t o k) : Reaches sys L w t o k := by
  cases p with
  | call o' k' =>
      obtain ⟨rfl, hk⟩ := Prog.call.inj hp
      obtain rfl := eq_of_heq hk
      exact ⟨fun r => .serving l m (k' r), ms, w, fun _ => rfl, .refl, rfl, fun _ _ => rfl,
        fun _ _ hs => .call hw trivial hs⟩
  | pure x =>
      obtain ⟨l', running⟩ := x
      cases running with
      | true => exact (hloop l' _ (put_self ..) hp).of_put (.answer hw trivial)
      | false =>
          have hfinish : L.finish t l' = .call o k := hp
          have hstep : Step sys L anyTurn w _ := .leave hw trivial
          rw [hfinish] at hstep
          exact (reaches_closing (put_self ..)).of_put hstep

/-- A thread whose rest is a call gets to it by itself. -/
theorem reaches_waiting (ms : List M) : ∀ (l : Λ) (w : Workers S ι σ Λ M),
    w.worker t = .waiting l → L.prog t l ms = .call o k → Reaches sys L w t o k := by
  induction ms with
  | nil =>
      intro l w hw hp
      have hfinish : L.finish t l = .call o k := hp
      have hstep : Step sys L anyTurn w _ := .hangUp hw
      rw [hfinish] at hstep
      exact (reaches_closing (put_self ..)).of_put hstep
  | cons m ms ih =>
      intro l w hw hp
      have hreaches : Reaches sys L (w.put t (.serving l m (L.serve t l m))) t o k :=
        reaches_serving (put_self ..) hp ih
      exact hreaches.of_put (.receive hw m)

/-- What is left of a worker is reached. -/
theorem reaches_rest {ms : List M} {x : Worker S Λ M} (hw : w.worker t = x)
    (hp : x.rest L t ms = .call o k) : Reaches sys L w t o k := by
  cases x with
  | waiting l => exact reaches_waiting ms l w hw hp
  | serving l m p => exact reaches_serving hw hp (reaches_waiting ms)
  | closing l p =>
      obtain rfl : p = .call o k := hp
      exact reaches_closing hw

end Reaches

/-- A thread of `w` is where the program of its loop is in `c`; at first that program has
not begun. -/
structure Follows (L : EventLoop S ι Λ M) (c : Config S ι σ) (w : Workers S ι σ Λ M) : Prop where
  shared : w.shared = c.shared
  thread : ∀ t, (∃ ms, c.prog t = (w.worker t).rest L t ms ∧ c.queue t = []) ∨
    ∃ l ms, c.prog t = .pure () ∧ w.worker t = .waiting l ∧ c.queue t = [L.prog t l ms]

/-- **Coverage**: what the loops do as programs is a run of the threads. -/
theorem covers {s : σ} {l : ι → Λ} {ms : ι → List M} {c : Config S ι σ}
    (h : Reach sys (.start s fun t => [L.prog t (l t) (ms t)]) c) :
    ∃ w, Run sys L anyTurn (start s l) w ∧ Follows L c w := by
  induction h with
  | refl => exact ⟨_, .refl, rfl, fun t => .inr ⟨l t, ms t, rfl, rfl, rfl⟩⟩
  | @tail c d _ hstep ih =>
      obtain ⟨w, hrun, hfollows⟩ := ih
      cases hstep with
      | @begin t p ps hidle hq =>
          refine ⟨w, hrun, hfollows.shared, fun u => ?_⟩
          by_cases hu : u = t
          · subst hu
            rcases hfollows.thread u with ⟨ms, -, hnil⟩ | ⟨l, ms, -, hw, hqueue⟩
            · rw [hnil] at hq
              cases hq
            · rw [hqueue] at hq
              obtain ⟨rfl, rfl⟩ := List.cons.inj hq
              exact .inl ⟨ms, by simp [hw, Worker.rest], by simp⟩
          · simpa [hu] using hfollows.thread u
      | @call t o k r s hp _ hs =>
          rcases hfollows.thread t with ⟨ms, hprog, hnil⟩ | ⟨l, ms, hpure, -⟩
          · have hreaches : Reaches sys L w t o k := reaches_rest rfl (hprog.symm.trans hp)
            obtain ⟨x, ms', v, hrest, hrun', hshared, hothers, hcall⟩ := hreaches
            have hs' : sys.step t o v.shared = some (r, s) := by
              rw [hshared, hfollows.shared]
              exact hs
            refine ⟨_, .tail (hrun.trans hrun') (hcall r s hs'), rfl, fun u => ?_⟩
            by_cases hu : u = t
            · subst hu
              exact .inl ⟨ms', by simp [hrest], hnil⟩
            · simpa [hu, hothers u hu] using hfollows.thread u
          · rw [hp] at hpure
            cases hpure
      | env hs =>
          have hs' : sys.env w.shared _ := hfollows.shared.symm ▸ hs
          exact ⟨_, .tail hrun (.env hs'), rfl, hfollows.thread⟩

end Workers

end Loops

/-! ## the proof rule -/

/-- What the threads agree on: what holds always, what the others may do, what may be
assumed of one's own steps, and what the points of a thread mean. -/
structure LoopLogic (S : Sig) (ι σ Λ M : Type) where
  sys : System S ι σ
  loop : EventLoop S ι Λ M
  inv : σ → Prop
  rely : ι → σ → σ → Prop
  adm : ι → S.Op → σ → Prop
  point : ι → S.Op → σ → Prop
  idle : ι → Λ → σ → Prop
  during : ι → Λ → M → σ → Prop
  rely_refl : ∀ t s, rely t s s
  rely_trans : ∀ {t s s' s''}, rely t s s' → rely t s' s'' → rely t s s''
  idle_stable : ∀ {t l s s'}, rely t s s' → idle t l s → idle t l s'

namespace LoopLogic

variable {S : Sig} {ι σ Λ M α β : Type} {L : LoopLogic S ι σ Λ M}

variable (L) in
/-- A step of thread `t` that the others accept. -/
structure Moves (t : ι) (s s' : σ) : Prop where
  inv : L.inv s'
  rely : ∀ u, u ≠ t → L.rely u s s'

variable (L) in
/-- The weakest precondition under which thread `t` can run a program in any company,
with `D` all the while and `Q` of its result at the end. -/
def wp (t : ι) (D : σ → Prop) (Q : α → σ → Prop) : Prog S α → σ → Prop
  | .pure a, s => ∀ s', L.inv s' → L.rely t s s' → D s' ∧ Q a s'
  | .call o k, s => ∀ s', L.inv s' → L.rely t s s' → (D s' ∧ L.point t o s') ∧
      ∀ r s'', L.adm t o s' → L.sys.step t o s' = some (r, s'') →
        L.Moves t s' s'' ∧ wp t D Q (k r) s''

section Rules

variable {t : ι} {D P : σ → Prop} {Q : α → σ → Prop} {s s' : σ}

/-- What the others do does not hurt. -/
theorem wp_later {p : Prog S α} (h : L.wp t D Q p s) (hrely : L.rely t s s') : L.wp t D Q p s' := by
  cases p with
  | pure a => exact fun s'' hinv hr => h s'' hinv (L.rely_trans hrely hr)
  | call o k => exact fun s'' hinv hr => h s'' hinv (L.rely_trans hrely hr)

/-- The conditions may be weakened. -/
theorem wp_mono {D' : σ → Prop} {Q' : α → σ → Prop} {p : Prog S α} (h : L.wp t D Q p s)
    (hD : ∀ s, D s → D' s) (hQ : ∀ a s, L.inv s → Q a s → Q' a s) : L.wp t D' Q' p s := by
  induction p generalizing s with
  | pure a => exact fun s' hinv hr => (h s' hinv hr).imp (hD s') (hQ a s' hinv)
  | call o k ih =>
      intro s' hinv hr
      obtain ⟨⟨hd, hpoint⟩, hstep⟩ := h s' hinv hr
      refine ⟨⟨hD s' hd, hpoint⟩, fun r s'' hadm hs => ?_⟩
      obtain ⟨hmove, hk⟩ := hstep r s'' hadm hs
      exact ⟨hmove, ih r hk⟩

/-- One program after the other. -/
theorem wp_bind {Q' : β → σ → Prop} {p : Prog S α} {f : α → Prog S β} (hinv : L.inv s)
    (h : L.wp t D (fun a => L.wp t D Q' (f a)) p s) : L.wp t D Q' (p >>= f) s := by
  induction p generalizing s with
  | pure a => exact (h s hinv (L.rely_refl t s)).2
  | call o k ih =>
      intro s' hinv' hr
      obtain ⟨hd, hstep⟩ := h s' hinv' hr
      refine ⟨hd, fun r s'' hadm hs => ?_⟩
      obtain ⟨hmove, hk⟩ := hstep r s'' hadm hs
      exact ⟨hmove, ih r hmove.inv hk⟩

/-- An assertion of thread `t` that the others cannot make false. -/
def Stable (L : LoopLogic S ι σ Λ M) (t : ι) (P : σ → Prop) : Prop :=
  ∀ s s', L.rely t s s' → P s → P s'

/-- The rule for a call. -/
theorem wp_call {o : S.Op} {k : S.Res o → Prog S α} (hstable : L.Stable t P) (hP : P s)
    (hD : ∀ s, P s → D s) (hpoint : ∀ s, L.inv s → P s → L.point t o s)
    (hstep : ∀ s r s', L.inv s → P s → L.adm t o s → L.sys.step t o s = some (r, s') →
      L.Moves t s s' ∧ L.wp t D Q (k r) s') : L.wp t D Q (.call o k) s := by
  intro s' hinv' hrely
  have hP' := hstable s s' hrely hP
  exact ⟨⟨hD s' hP', hpoint s' hinv' hP'⟩, fun r s'' hadm hs => hstep s' r s'' hinv' hP' hadm hs⟩

/-- The rule for the end of a program. -/
theorem wp_pure {a : α} (hstable : L.Stable t P) (hP : P s) (hD : ∀ s, P s → D s)
    (hQ : ∀ s, L.inv s → P s → Q a s) : L.wp t D Q (.pure a) s := by
  intro s' hinv' hrely
  have hP' := hstable s s' hrely hP
  exact ⟨hD s' hP', hQ s' hinv' hP'⟩

/-- A call that changes nothing that anyone, the caller included, looks at. -/
def Silent (L : LoopLogic S ι σ Λ M) (t : ι) (o : S.Op) : Prop :=
  (∀ s, L.point t o s) ∧ ∀ s r s', L.inv s → L.sys.step t o s = some (r, s') →
    L.Moves t s s' ∧ L.rely t s s'

/-- A program that makes only silent calls keeps a stable assertion. -/
theorem wp_silent {N : S.Op → Prop} {R : α → Prop} (hN : ∀ o, N o → L.Silent t o)
    (hstable : L.Stable t P) (hD : ∀ s, P s → D s) {p : Prog S α}
    (hp : p.Respects N (fun _ _ => True) R) (hP : P s) :
    L.wp t D (fun a s => R a ∧ P s) p s := by
  induction p generalizing s with
  | pure a => exact wp_pure hstable hP hD fun _ _ h => ⟨hp, h⟩
  | call o k ih =>
      refine wp_call hstable hP hD (fun s _ _ => (hN o hp.1).1 s) ?_
      intro s r s' hinv hP _ hs
      obtain ⟨hmove, hrely⟩ := (hN o hp.1).2 s r s' hinv hs
      exact ⟨hmove, ih r (hp.2 r trivial) (hstable s s' hrely hP)⟩

end Rules

/-! ## soundness -/

variable (L) in
/-- What holds when a message has been served. -/
def served (t : ι) (x : Λ × Bool) (s : σ) : Prop :=
  if x.2 then L.idle t x.1 s
  else L.wp t (fun _ => True) (fun _ _ => True) (L.loop.finish t x.1) s

variable (L) in
/-- What is known of a thread by where it is. -/
def At (t : ι) : Worker S Λ M → σ → Prop
  | .waiting l, s => L.idle t l s
  | .serving l m p, s => L.wp t (L.during t l m) (L.served t) p s
  | .closing _ p, s => L.wp t (fun _ => True) (fun _ _ => True) p s

/-- Where a worker is it stays while others move. -/
theorem At.later {t : ι} {x : Worker S Λ M} {s s' : σ} (h : L.At t x s) (hrely : L.rely t s s') :
    L.At t x s' := by
  cases x with
  | waiting l => exact L.idle_stable hrely h
  | serving l m p => exact wp_later h hrely
  | closing l p => exact wp_later h hrely

/-- What is to be proved of the programs. -/
structure Proved (L : LoopLogic S ι σ Λ M) : Prop where
  serve : ∀ t l m s, L.inv s → L.idle t l s →
    L.wp t (L.during t l m) (L.served t) (L.loop.serve t l m) s
  finish : ∀ t l s, L.inv s → L.idle t l s →
    L.wp t (fun _ => True) (fun _ _ => True) (L.loop.finish t l) s

/-- The condition on the steps of a run gives what the proofs assume, and the
environment is harmless. -/
structure Fits (L : LoopLogic S ι σ Λ M) (ok : Workers S ι σ Λ M → ι → Prop) : Prop where
  adm : ∀ w t o, (w.worker t).op = some o → ok w t → L.adm t o w.shared
  env : ∀ s s', L.inv s → L.sys.env s s' → L.inv s' ∧ ∀ t, L.rely t s s'

/-- Every thread is where it may be. -/
structure Holds (L : LoopLogic S ι σ Λ M) (w : Workers S ι σ Λ M) : Prop where
  inv : L.inv w.shared
  thread : ∀ t, L.At t (w.worker t) w.shared

variable {ok : Workers S ι σ Λ M → ι → Prop} {w w' : Workers S ι σ Λ M}

/-- What the next call of a thread means. -/
theorem Holds.point (h : L.Holds w) {t : ι} {o : S.Op} (ho : (w.worker t).op = some o) :
    L.point t o w.shared := by
  have ht := h.thread t
  cases hw : w.worker t with
  | waiting l => simp [hw, Worker.op] at ho
  | serving l m p =>
      rw [hw] at ht ho
      cases p with
      | pure a => simp [Worker.op] at ho
      | call o' k =>
          obtain rfl := Option.some.inj ho
          exact (ht _ h.inv (L.rely_refl t _)).1.2
  | closing l p =>
      rw [hw] at ht ho
      cases p with
      | pure a => simp [Worker.op] at ho
      | call o' k =>
          obtain rfl := Option.some.inj ho
          exact (ht _ h.inv (L.rely_refl t _)).1.2

/-- What holds of the locals of a thread that serves a message. -/
theorem Holds.during (h : L.Holds w) {t : ι} {l : Λ} {m : M} {p : Prog S (Λ × Bool)}
    (hw : w.worker t = .serving l m p) : L.during t l m w.shared := by
  have ht := h.thread t
  rw [hw] at ht
  cases p with
  | pure a => exact (ht _ h.inv (L.rely_refl t _)).1
  | call o k => exact (ht _ h.inv (L.rely_refl t _)).1.1

/-- What holds when a thread has served a message. -/
theorem Holds.served (h : L.Holds w) {t : ι} {l : Λ} {m : M} {x : Λ × Bool}
    (hw : w.worker t = .serving l m (.pure x)) : L.served t x w.shared := by
  have ht := h.thread t
  rw [hw] at ht
  exact (ht _ h.inv (L.rely_refl t _)).2

variable [DecidableEq ι]

/-- One thread is somewhere else. -/
theorem Holds.put (h : L.Holds w) {t : ι} {x : Worker S Λ M} (hx : L.At t x w.shared) :
    L.Holds (w.put t x) where
  inv := h.inv
  thread u := by
    by_cases hu : u = t
    · subst hu
      simpa using hx
    · simpa [hu] using h.thread u

/-- One thread has made a call. -/
theorem Holds.goOn (h : L.Holds w) {t : ι} {x : Worker S Λ M} {s : σ}
    (hmove : L.Moves t w.shared s) (hx : L.At t x s) : L.Holds (w.goOn t x s) where
  inv := hmove.inv
  thread u := by
    by_cases hu : u = t
    · subst hu
      simpa using hx
    · simpa [hu] using (h.thread u).later (hmove.rely u hu)

/-- **Step lemma**: threads stay where they may be. -/
theorem Holds.step (hproved : L.Proved) (hfits : L.Fits ok) (h : L.Holds w)
    (hstep : Workers.Step L.sys L.loop ok w w') : L.Holds w' := by
  cases hstep with
  | @receive t l hw m =>
      have hidle : L.At t (.waiting l) w.shared := hw ▸ h.thread t
      exact h.put (hproved.serve t l m _ h.inv hidle)
  | @hangUp t l hw =>
      have hidle : L.At t (.waiting l) w.shared := hw ▸ h.thread t
      exact h.put (hproved.finish t l _ h.inv hidle)
  | @call t l m o k r s hw hok hs =>
      have hadm := hfits.adm w t o (by rw [hw]; rfl) hok
      have ht : L.At t (.serving l m (.call o k)) w.shared := hw ▸ h.thread t
      obtain ⟨hmove, hk⟩ := (ht _ h.inv (L.rely_refl t _)).2 r s hadm hs
      exact h.goOn hmove hk
  | answer hw => exact h.put (h.served hw)
  | leave hw => exact h.put (h.served hw)
  | @close t l o k r s hw hok hs =>
      have hadm := hfits.adm w t o (by rw [hw]; rfl) hok
      have ht : L.At t (.closing l (.call o k)) w.shared := hw ▸ h.thread t
      obtain ⟨hmove, hk⟩ := (ht _ h.inv (L.rely_refl t _)).2 r s hadm hs
      exact h.goOn hmove hk
  | env hs =>
      obtain ⟨hinv, hrely⟩ := hfits.env _ _ h.inv hs
      exact ⟨hinv, fun t => (h.thread t).later (hrely t)⟩

/-- **Run lemma**. -/
theorem Holds.run (hproved : L.Proved) (hfits : L.Fits ok) (h : L.Holds w)
    (hrun : Workers.Run L.sys L.loop ok w w') : L.Holds w' :=
  hrun.inv (fun _ _ h hstep => h.step hproved hfits hstep) h

end LoopLogic

end OnlineAuction
