import Mathlib.Data.List.Induction
import OnlineAuction.Lib.Machine

/-!
# OnlineAuction.Lib.Conduct

What a thread does, by what it remembers.

A program that is run among others sees of the shared state only the answers of its own
calls.  A `Conduct` says what a thread remembers of these (`note`), which call it makes
next (`pre`) and which answers it counts on (`post`); `Keeps` says that a program keeps
to a conduct.  What a thread remembers can be read off the log of the calls (`memory`),
so that an invariant of the shared state and the log may speak of it.

`Run.conduct` is the rule: an invariant that is kept by every call that a conduct allows
holds along every run of programs that keep to their conducts.
-/

namespace OnlineAuction

/-- What a thread remembers at first and after a call, and what it calls and expects. -/
structure Conduct (S : Sig) (γ : Type) where
  first : γ
  note : γ → Event S → γ
  pre : γ → S.Op → Prop
  post : γ → (o : S.Op) → S.Res o → Prop

section Conducts

variable {S : Sig} {γ ι σ α β : Type} (C : Conduct S γ)

/-- What a thread remembers of its calls in a log. -/
def Conduct.memory [DecidableEq ι] (t : ι) (log : List (ι × Event S)) : γ :=
  log.foldl (fun g e => if e.1 = t then C.note g e.2 else g) C.first

/-- A thread that remembers `g` can run the program and end with `Q`. -/
def Conduct.Keeps (Q : α → γ → Prop) : Prog S α → γ → Prop
  | .pure a, g => Q a g
  | .call o k, g => C.pre g o ∧ ∀ r, C.post g o r → Keeps Q (k r) (C.note g ⟨o, r⟩)

section Memory

variable [DecidableEq ι] {t u : ι} {log : List (ι × Event S)} {e : Event S}

@[simp] theorem Conduct.memory_nil : C.memory t [] = C.first := rfl

@[simp] theorem Conduct.memory_append_self :
    C.memory t (log ++ [(t, e)]) = C.note (C.memory t log) e := by
  simp [memory]

theorem Conduct.memory_append_of_ne (h : u ≠ t) :
    C.memory t (log ++ [(u, e)]) = C.memory t log := by
  simp [memory, h]

end Memory

section Calls

variable [DecidableEq ι] {t u : ι} {log : List (ι × Event S)} {e : Event S}

/-- The calls of a thread in a log. -/
def callsOf (t : ι) (log : List (ι × Event S)) : List (Event S) :=
  log.filterMap fun e => if e.1 = t then some e.2 else none

/-- A call is one of the thread's when the log says so. -/
theorem mem_callsOf : e ∈ callsOf t log ↔ (t, e) ∈ log := by
  rw [callsOf, List.mem_filterMap]
  constructor
  · rintro ⟨⟨u, e'⟩, hmem, he⟩
    obtain ⟨rfl, ⟨⟩⟩ := Option.ite_none_right_eq_some.mp he
    exact hmem
  · exact fun hmem => ⟨(t, e), hmem, if_pos rfl⟩

/-- A thread that remembers all of its calls, and that may make any. -/
def recorder (S : Sig) : Conduct S (List (Event S)) where
  first := []
  note es e := es ++ [e]
  pre _ _ := True
  post _ _ _ := True

/-- What the recorder remembers are the calls in the log. -/
theorem memory_recorder (t : ι) (log : List (ι × Event S)) :
    (recorder S).memory t log = callsOf t log := by
  induction log using List.reverseRecOn with
  | nil => rfl
  | append_singleton log e ih =>
      obtain ⟨u, e⟩ := e
      rw [callsOf, List.filterMap_append, ← callsOf]
      by_cases hu : u = t
      · subst hu
        rw [Conduct.memory_append_self, ih]
        simp [recorder]
      · rw [Conduct.memory_append_of_ne _ hu, ih]
        simp [hu]

end Calls

section Gathered

/-- What the events of a log are about, with the thread of each. -/
def gathered (f : Event S → Option α) (log : List (ι × Event S)) : List (ι × α) :=
  log.filterMap fun e => (f e.2).map fun x => (e.1, x)

variable {f : Event S → Option α} {t u : ι} {log : List (ι × Event S)} {e : Event S} {x : α}

@[simp] theorem gathered_nil : gathered f ([] : List (ι × Event S)) = [] := rfl

/-- A further event adds what it is about. -/
theorem gathered_append : gathered f (log ++ [(t, e)]) =
    gathered f log ++ ((f e).map fun x => (t, x)).toList := by
  rw [gathered, List.filterMap_append]
  cases h : f e <;> simp [gathered, h]

/-- An event about nothing adds nothing. -/
theorem gathered_append_none (h : f e = none) : gathered f (log ++ [(t, e)]) = gathered f log := by
  simp [gathered_append, h]

theorem gathered_append_some (h : f e = some x) :
    gathered f (log ++ [(t, e)]) = gathered f log ++ [(t, x)] := by
  simp [gathered_append, h]

/-- What is gathered was so before, or is what the event is about. -/
theorem mem_gathered_append :
    (u, x) ∈ gathered f (log ++ [(t, e)]) ↔ (u, x) ∈ gathered f log ∨ u = t ∧ f e = some x := by
  rw [gathered_append, List.mem_append, Option.mem_toList, Option.map_eq_some_iff]
  simp only [Prod.mk.injEq]
  grind

variable [DecidableEq ι]

/-- What a thread remembers to have seen last is in the log. -/
theorem Conduct.mem_gathered (proj : γ → Option α) (hfirst : proj C.first = none)
    (hnote : ∀ g e, proj (C.note g e) = (f e).or (proj g)) (t : ι) (log : List (ι × Event S))
    {x : α} (h : proj (C.memory t log) = some x) : (t, x) ∈ gathered f log := by
  induction log using List.reverseRecOn with
  | nil =>
      rw [Conduct.memory_nil, hfirst] at h
      cases h
  | append_singleton log e ih =>
      obtain ⟨u, e⟩ := e
      rw [mem_gathered_append]
      by_cases hu : u = t
      · subst hu
        rw [Conduct.memory_append_self, hnote, Option.or_eq_some_iff] at h
        rcases h with h | ⟨-, h⟩
        · exact .inr ⟨rfl, h⟩
        · exact .inl (ih h)
      · rw [Conduct.memory_append_of_ne _ hu] at h
        exact .inl (ih h)

/-- What a thread notes for good it remembers. -/
theorem Conduct.memory_of_gathered (flag : γ → Bool)
    (hnote : ∀ g e, flag (C.note g e) = (flag g || (f e).isSome)) {t : ι}
    {log : List (ι × Event S)} {x : α} (h : (t, x) ∈ gathered f log) :
    flag (C.memory t log) = true := by
  induction log using List.reverseRecOn with
  | nil => cases h
  | append_singleton log e ih =>
      obtain ⟨u, e⟩ := e
      rw [mem_gathered_append] at h
      by_cases hu : u = t
      · subst hu
        rw [Conduct.memory_append_self, hnote]
        rcases h with h | ⟨-, h⟩
        · simp [ih h]
        · simp [h]
      · rw [Conduct.memory_append_of_ne _ hu]
        exact ih (h.resolve_right fun hx => hu hx.1.symm)

end Gathered

/-! ## programs -/

section Keeps

variable {C} {Q : α → γ → Prop} {g : γ}

@[simp] theorem Conduct.keeps_pure (a : α) : C.Keeps Q (.pure a) g ↔ Q a g := Iff.rfl

/-- The call is allowed, and the rest keeps to the conduct after each expected answer. -/
@[simp] theorem Conduct.keeps_call (o : S.Op) (k : S.Res o → Prog S α) :
    C.Keeps Q (.call o k) g ↔
      C.pre g o ∧ ∀ r, C.post g o r → C.Keeps Q (k r) (C.note g ⟨o, r⟩) := Iff.rfl

/-- What is asked of the rest is what the first part ends with. -/
theorem Conduct.keeps_bind {Q : β → γ → Prop} (p : Prog S α) (f : α → Prog S β) :
    C.Keeps Q (p >>= f) g ↔ C.Keeps (fun a g => C.Keeps Q (f a) g) p g := by
  induction p generalizing g with
  | pure a => rfl
  | call o k ih => simp only [Prog.bind_call, Conduct.keeps_call, ih]

/-- Both branches are needed, each under its condition. -/
@[simp] theorem Conduct.keeps_ite {c : Prop} [Decidable c] (p q : Prog S α) :
    C.Keeps Q (if c then p else q) g ↔ (c → C.Keeps Q p g) ∧ (¬ c → C.Keeps Q q g) := by
  by_cases hc : c <;> simp [hc]

/-- The end may be weakened. -/
theorem Conduct.Keeps.mono {Q' : α → γ → Prop} {p : Prog S α} (h : C.Keeps Q p g)
    (hQ : ∀ a g, Q a g → Q' a g) : C.Keeps Q' p g := by
  induction p generalizing g with
  | pure a => exact hQ a g h
  | call o k ih => exact ⟨h.1, fun r hr => ih r (h.2 r hr)⟩

end Keeps

/-! ## runs -/

section Runs

variable [DecidableEq ι] {M : System S ι σ} {law : ι → Conduct S γ} {prog : ι → Prog S Unit}
  {fin : ι → γ → Prop} {adm : ι → S.Op → σ × List (ι × Event S) → Prop}

/-- Where a thread is that runs one program: before it, or in what is left of it. -/
def Conduct.At (C : Conduct S γ) (fin : γ → Prop) (p : Prog S Unit) (rest : Prog S Unit)
    (queue : List (Prog S Unit)) (g : γ) : Prop :=
  (queue = [p] ∧ rest = .pure () ∧ g = C.first) ∨ (queue = [] ∧ C.Keeps (fun _ => fin) rest g)

/-- Threads of which each runs its program once. -/
def each (s : σ) (prog : ι → Prog S Unit) : Config S ι (σ × List (ι × Event S)) :=
  .start (s, []) fun t => [prog t]

/-- **Conduct rule**: what the calls that the conducts allow keep holds along every run, and
a thread that is through with its program remembers what was promised. -/
theorem Run.conduct {s : σ} {d : Config S ι (σ × List (ι × Event S))}
    {inv : σ × List (ι × Event S) → Prop}
    (hprog : ∀ t, (law t).Keeps (fun _ => fin t) (prog t) (law t).first)
    (hstep : ∀ t o w r w', inv w → (law t).pre ((law t).memory t w.2) o → adm t o w →
      M.logged.step t o w = some (r, w') →
      inv w' ∧ (law t).post ((law t).memory t w.2) o r)
    (henv : ∀ w w', inv w → M.logged.env w w' → inv w') (hinv : inv (s, []))
    (h : Run M.logged (fun c t o => adm t o c.shared) (each s prog) d) :
    inv d.shared ∧ ∀ t, (law t).At (fin t) (prog t) (d.prog t) (d.queue t)
      ((law t).memory t d.shared.2) := by
  refine h.inv (P := fun d => inv d.shared ∧ ∀ t, (law t).At (fin t) (prog t) (d.prog t)
    (d.queue t) ((law t).memory t d.shared.2)) ?_ ⟨hinv, fun t => .inl ⟨rfl, rfl, rfl⟩⟩
  rintro c d ⟨hinv, hat⟩ hstep'
  cases hstep' with
  | @begin t p ps hidle hq =>
      refine ⟨hinv, fun u => ?_⟩
      by_cases hu : u = t
      · subst hu
        rcases hat u with ⟨hqueue, -, hg⟩ | ⟨hqueue, -⟩
        · rw [hqueue] at hq
          obtain ⟨rfl, rfl⟩ := List.cons.inj hq
          refine .inr ⟨by simp, ?_⟩
          simpa [hg] using hprog u
        · rw [hqueue] at hq
          cases hq
      · simpa [hu] using hat u
  | @call t o k r w hp hok hs =>
      rcases hat t with ⟨-, hpure, -⟩ | ⟨hqueue, hkeeps⟩
      · rw [hp] at hpure
        cases hpure
      · rw [hp] at hkeeps
        obtain ⟨hinv', hpost⟩ := hstep t o _ r w hinv hkeeps.1 hok hs
        have hlog := (System.logged_step.mp hs).2
        refine ⟨hinv', fun u => ?_⟩
        by_cases hu : u = t
        · subst hu
          refine .inr ⟨hqueue, ?_⟩
          rw [Config.goOn_shared, hlog, Conduct.memory_append_self]
          simpa using hkeeps.2 r hpost
        · rw [Config.goOn_shared, hlog, Conduct.memory_append_of_ne _ (Ne.symm hu)]
          simpa [hu] using hat u
  | @env w hs =>
      refine ⟨henv _ _ hinv hs, fun u => ?_⟩
      have hlog : w.2 = c.shared.2 := hs.2
      rw [hlog]
      exact hat u

/-- A thread that is through with its program remembers what was promised. -/
theorem Conduct.At.done {C : Conduct S γ} {fin : γ → Prop} {p rest : Prog S Unit}
    {queue : List (Prog S Unit)} {g : γ} (h : C.At fin p rest queue g) (hrest : rest = .pure ())
    (hqueue : queue = []) : fin g := by
  rcases h with ⟨hq, -, -⟩ | ⟨-, hkeeps⟩
  · rw [hqueue] at hq
    cases hq
  · rw [hrest] at hkeeps
    exact hkeeps

/-- A program remembers the calls after which it returns. -/
theorem keeps_recorder (p : Prog S α) (es : List (Event S)) :
    (recorder S).Keeps (fun a es' => ∃ new, es' = es ++ new ∧ p.Returns new a) p es := by
  induction p generalizing es with
  | pure a => exact ⟨[], (List.append_nil es).symm, .pure⟩
  | call o k ih =>
      refine ⟨trivial, fun r _ => (ih r (es ++ [⟨o, r⟩])).mono ?_⟩
      rintro a es' ⟨new, rfl, hnew⟩
      exact ⟨⟨o, r⟩ :: new, by rw [List.append_assoc, List.singleton_append], .call hnew⟩

/-- **What a thread has done** that is through with its program: the calls in the log are those of
the program, from its beginning to its end. -/
theorem Run.returns {s : σ} {d : Config S ι (σ × List (ι × Event S))}
    {ok : Config S ι (σ × List (ι × Event S)) → ι → S.Op → Prop}
    (h : Run M.logged ok (each s prog) d) {t : ι} (hrest : d.prog t = .pure ())
    (hqueue : d.queue t = []) : (prog t).Returns (callsOf t d.shared.2) () := by
  have hprog (t : ι) : (recorder S).Keeps (fun _ es => (prog t).Returns es ()) (prog t) [] :=
    (keeps_recorder (prog t) []).mono fun _ _ ⟨_, hes, hnew⟩ => hes ▸ hnew
  have hat := @Run.conduct S (List (Event S)) ι σ _ M (fun _ => recorder S) prog
    (fun t es => (prog t).Returns es ()) (fun _ _ _ => True) s d (fun _ => True) hprog
    (fun _ _ _ _ _ _ _ _ _ => ⟨trivial, trivial⟩) (fun _ _ _ _ => trivial) trivial
    (h.weaken fun _ _ _ _ => trivial)
  rw [← memory_recorder]
  exact (hat.2 t).done hrest hqueue

end Runs

end Conducts

end OnlineAuction
