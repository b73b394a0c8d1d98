import OnlineAuction.Lib.Prog
import Mathlib.Data.Fintype.Basic
import Mathlib.Logic.Function.Basic

/-!
# OnlineAuction.Lib.Machine

Threads that run programs over shared state.

Each thread has a current program and a queue of programs to run after it
(`Config`).  A step lets one thread make the next call of its program, lets an
idle thread begin the next program of its queue, or lets the environment move
(`Step`).  A call may be refused (`System.step` answers `none`): the thread
then waits, which is how locks are modelled.

A run may be restricted to steps that satisfy a condition on the state before
them (`Run ok`), so that a property which needs such a condition can be stated
of whole runs.  `Run.inv` is the invariant rule, `Run.respects` derives an
invariant of every interleaving from a contract of the calls alone, and
`Config.after` executes a given interleaving.
-/

namespace OnlineAuction

/-- Shared state on which threads named by `ι` make the calls of `S`: what a
call of a thread answers and does, `none` when it has to wait, and how the
state can change by itself. -/
structure System (S : Sig) (ι σ : Type) where
  step : ι → (op : S.Op) → σ → Option (S.Res op × σ)
  env : σ → σ → Prop

/-- The system that also keeps a log of the calls, with who made them and what
they answered. -/
def System.logged {S : Sig} {ι σ : Type} (M : System S ι σ) :
    System S ι (σ × List (ι × Event S)) where
  step t op s := (M.step t op s.1).map fun x => (x.1, x.2, s.2 ++ [(t, ⟨op, x.1⟩)])
  env s s' := M.env s.1 s'.1 ∧ s'.2 = s.2

/-- A step with a log is one without, and a line in the log. -/
theorem System.logged_step {S : Sig} {ι σ : Type} {M : System S ι σ} {t : ι} {op : S.Op}
    {s s' : σ × List (ι × Event S)} {r : S.Res op} :
    M.logged.step t op s = some (r, s') ↔
      M.step t op s.1 = some (r, s'.1) ∧ s'.2 = s.2 ++ [(t, ⟨op, r⟩)] := by
  obtain ⟨x, log⟩ := s'
  simp only [logged, Option.map_eq_some_iff, Prod.mk.injEq, Prod.exists]
  constructor
  · rintro ⟨r', x', hstep, rfl, rfl, rfl⟩
    exact ⟨hstep, rfl⟩
  · rintro ⟨hstep, rfl⟩
    exact ⟨r, x, hstep, rfl, rfl, rfl⟩

/-- The shared state, and for each thread its current program and the programs
it will run next. -/
structure Config (S : Sig) (ι σ : Type) where
  shared : σ
  prog : ι → Prog S Unit
  queue : ι → List (Prog S Unit)

namespace Config

variable {S : Sig} {ι σ : Type} [DecidableEq ι]

/-- Threads with the given queues, none of which has begun. -/
def start (s : σ) (queue : ι → List (Prog S Unit)) : Config S ι σ :=
  ⟨s, fun _ => .pure (), queue⟩

/-- No thread is inside a program. -/
def Quiescent (c : Config S ι σ) : Prop := ∀ t, c.prog t = .pure ()

/-- Every thread has run all its programs. -/
def Done (c : Config S ι σ) : Prop := ∀ t, c.prog t = .pure () ∧ c.queue t = []

/-- Thread `t` begins the program `p`. -/
def begin (c : Config S ι σ) (t : ι) (p : Prog S Unit) (ps : List (Prog S Unit)) :
    Config S ι σ :=
  { c with prog := Function.update c.prog t p, queue := Function.update c.queue t ps }

/-- Thread `t` goes on as `p` in the shared state `s`. -/
def goOn (c : Config S ι σ) (t : ι) (p : Prog S Unit) (s : σ) : Config S ι σ :=
  { c with shared := s, prog := Function.update c.prog t p }

@[simp] theorem begin_shared (c : Config S ι σ) (t : ι) (p ps) :
    (c.begin t p ps).shared = c.shared := rfl

@[simp] theorem begin_prog (c : Config S ι σ) (t : ι) (p ps) :
    (c.begin t p ps).prog = Function.update c.prog t p := rfl

@[simp] theorem begin_queue (c : Config S ι σ) (t : ι) (p ps) :
    (c.begin t p ps).queue = Function.update c.queue t ps := rfl

@[simp] theorem goOn_shared (c : Config S ι σ) (t : ι) (p) (s : σ) :
    (c.goOn t p s).shared = s := rfl

@[simp] theorem goOn_prog (c : Config S ι σ) (t : ι) (p) (s : σ) :
    (c.goOn t p s).prog = Function.update c.prog t p := rfl

@[simp] theorem goOn_queue (c : Config S ι σ) (t : ι) (p) (s : σ) :
    (c.goOn t p s).queue = c.queue := rfl

end Config

section Steps

variable {S : Sig} {ι σ : Type} [DecidableEq ι] (M : System S ι σ)

/-- One step of the threads, of those that satisfy `ok` when the step is a
call. -/
inductive Step (ok : Config S ι σ → ι → S.Op → Prop) : Config S ι σ → Config S ι σ → Prop
  | begin {c : Config S ι σ} {t : ι} {p : Prog S Unit} {ps : List (Prog S Unit)}
      (hidle : c.prog t = .pure ()) (hq : c.queue t = p :: ps) : Step ok c (c.begin t p ps)
  | call {c : Config S ι σ} {t : ι} {op : S.Op} {k : S.Res op → Prog S Unit}
      {r : S.Res op} {s : σ} (hp : c.prog t = .call op k) (hok : ok c t op)
      (hs : M.step t op c.shared = some (r, s)) : Step ok c (c.goOn t (k r) s)
  | env {c : Config S ι σ} {s : σ} (hs : M.env c.shared s) :
      Step ok c { c with shared := s }

/-- Any number of steps that satisfy `ok`. -/
inductive Run (ok : Config S ι σ → ι → S.Op → Prop) (c : Config S ι σ) :
    Config S ι σ → Prop
  | refl : Run ok c c
  | tail {d e : Config S ι σ} (hrun : Run ok c d) (hstep : Step M ok d e) : Run ok c e

/-- A condition that every step satisfies: the unrestricted runs. -/
def anyStep : Config S ι σ → ι → S.Op → Prop := fun _ _ _ => True

/-- Any number of steps, in any interleaving. -/
abbrev Reach (c d : Config S ι σ) : Prop := Run M anyStep c d

variable {M} {ok : Config S ι σ → ι → S.Op → Prop} {c d e : Config S ι σ}

/-- The condition of a step may be weakened. -/
theorem Step.weaken {ok' : Config S ι σ → ι → S.Op → Prop}
    (h : Step M ok c d) (hok : ∀ t op, ok c t op → ok' c t op) : Step M ok' c d := by
  cases h with
  | begin hidle hq => exact .begin hidle hq
  | call hp hc hs => exact .call hp (hok _ _ hc) hs
  | env hs => exact .env hs

/-- One run after another. -/
theorem Run.trans (h : Run M ok c d) (h' : Run M ok d e) : Run M ok c e := by
  induction h' with
  | refl => exact h
  | tail _ hstep ih => exact .tail ih hstep

/-- The condition of a run may be weakened. -/
theorem Run.weaken {ok' : Config S ι σ → ι → S.Op → Prop} (h : Run M ok c d)
    (hok : ∀ c t op, ok c t op → ok' c t op) : Run M ok' c d := by
  induction h with
  | refl => exact .refl
  | tail _ hstep ih => exact .tail ih (hstep.weaken (hok _))

/-- A condition that all calls meet wherever a run comes to may be added. -/
theorem Run.strengthen {ok' : Config S ι σ → ι → S.Op → Prop} (h : Run M ok c d)
    (hok : ∀ e, Run M ok c e → ∀ t op k, e.prog t = .call op k → ok' e t op) :
    Run M ok' c d := by
  induction h with
  | refl => exact .refl
  | tail hrun hstep ih =>
      refine ih.tail ?_
      cases hstep with
      | begin hidle hq => exact .begin hidle hq
      | call hp _ hs => exact .call hp (hok _ hrun _ _ _ hp) hs
      | env hs => exact .env hs

/-- **Invariant rule**: what every step preserves holds along every run. -/
theorem Run.inv {P : Config S ι σ → Prop} (hstep : ∀ c d, P c → Step M ok c d → P d)
    (h : Run M ok c d) (hc : P c) : P d := by
  induction h with
  | refl => exact hc
  | tail _ hs ih => exact hstep _ _ ih hs

/-! ## invariants from a contract of the calls -/

/-- Every program of every thread keeps to the contract `pre`, `post`. -/
def Config.Respects (pre : S.Op → Prop) (post : (o : S.Op) → S.Res o → Prop)
    (c : Config S ι σ) : Prop :=
  ∀ t, (c.prog t).Respects pre post (fun _ => True) ∧
    ∀ p ∈ c.queue t, Prog.Respects pre post p (fun _ => True)

/-- **Contract rule**: if every call that meets `pre` keeps the invariant of
the shared state and answers as `post` says, then the invariant holds in every
interleaving of programs that keep to the contract. -/
theorem Run.respects {I : σ → Prop} {pre : S.Op → Prop} {post : (o : S.Op) → S.Res o → Prop}
    (hcall : ∀ t op s r s', I s → pre op → M.step t op s = some (r, s') → I s' ∧ post op r)
    (henv : ∀ s s', I s → M.env s s' → I s') (h : Run M ok c d)
    (hI : I c.shared) (hc : c.Respects pre post) : I d.shared ∧ d.Respects pre post := by
  refine h.inv (P := fun c => I c.shared ∧ c.Respects pre post) ?_ ⟨hI, hc⟩
  intro c d hcd hstep
  obtain ⟨hI, hc⟩ := hcd
  cases hstep with
  | @begin t p ps hidle hq =>
      refine ⟨hI, fun u => ?_⟩
      by_cases hu : u = t
      · subst hu
        have hall := (hc u).2
        rw [hq] at hall
        simp only [Config.begin_prog, Config.begin_queue, Function.update_self]
        exact ⟨hall p (by simp), fun q hmem => hall q (by simp [hmem])⟩
      · simpa [hu] using hc u
  | @call t op k r s hp hok hs =>
      have hpt := (hc t).1
      rw [hp] at hpt
      obtain ⟨hI', hr⟩ := hcall t op _ r s hI hpt.1 hs
      refine ⟨hI', fun u => ?_⟩
      by_cases hu : u = t
      · subst hu
        simpa using ⟨hpt.2 r hr, (hc u).2⟩
      · simpa [hu] using hc u
  | env hs => exact ⟨henv _ _ hI hs, hc⟩

/-- The programs of each thread make only the calls that are `pre` for it. -/
def Config.CallsIn (pre : ι → S.Op → Prop) (c : Config S ι σ) : Prop :=
  ∀ t, (c.prog t).Respects (pre t) (fun _ _ => True) (fun _ => True) ∧
    ∀ p ∈ c.queue t, Prog.Respects (pre t) (fun _ _ => True) p fun _ => True

/-- Whatever the calls answer and the other threads do, a thread makes no other calls. -/
theorem Config.CallsIn.step {pre : ι → S.Op → Prop} (hc : c.CallsIn pre)
    (h : Step M ok c d) : d.CallsIn pre := by
  intro u
  cases h with
  | @begin t p ps hidle hq =>
      by_cases hu : u = t
      · subst hu
        have hall := (hc u).2
        rw [hq] at hall
        simp only [Config.begin_prog, Config.begin_queue, Function.update_self]
        exact ⟨hall p (by simp), fun q hmem => hall q (by simp [hmem])⟩
      · simpa [hu] using hc u
  | @call t op k r s hp hok hs =>
      by_cases hu : u = t
      · subst hu
        have hpt := (hc u).1
        rw [hp] at hpt
        simpa using ⟨hpt.2 r trivial, (hc u).2⟩
      · simpa [hu] using hc u
  | env hs => exact hc u

/-! ## executing an interleaving -/

section Schedule

instance : Decidable (anyStep c t op) := isTrue trivial

instance decidablePure (p : Prog S Unit) : Decidable (p = .pure ()) :=
  match p with
  | .pure () => isTrue rfl
  | .call _ _ => isFalse nofun

instance decidableNil (l : List (Prog S Unit)) : Decidable (l = []) :=
  match l with
  | [] => isTrue rfl
  | _ :: _ => isFalse nofun

instance [Fintype ι] : Decidable c.Quiescent :=
  inferInstanceAs (Decidable (∀ t, c.prog t = .pure ()))

instance [Fintype ι] : Decidable c.Done :=
  inferInstanceAs (Decidable (∀ t, c.prog t = .pure () ∧ c.queue t = []))

variable (M) (ok) [∀ c t op, Decidable (ok c t op)]

/-- Let thread `t` make its next step: begin its next program when it is idle,
otherwise make its next call, if it satisfies `ok`. -/
def Config.next (c : Config S ι σ) (t : ι) : Option (Config S ι σ) :=
  match c.prog t with
  | .pure () => match c.queue t with
      | [] => none
      | p :: ps => some (c.begin t p ps)
  | .call op k =>
      if ok c t op then match M.step t op c.shared with
        | none => none
        | some (r, s) => some (c.goOn t (k r) s)
      else none

/-- Let the listed threads make their next steps, in this order; a thread that
cannot make a step is passed over. -/
def Config.after (c : Config S ι σ) : List ι → Config S ι σ
  | [] => c
  | t :: ts => ((c.next M ok t).getD c).after ts

variable {M} {ok}

/-- A step that was computed is one. -/
theorem Step.of_next {t : ι} (h : c.next M ok t = some d) : Step M ok c d := by
  unfold Config.next at h
  split at h
  · next hidle =>
      split at h
      · contradiction
      · next hq => obtain rfl := Option.some.inj h; exact .begin hidle hq
  · next hp =>
      split at h
      · next hok =>
          split at h
          · contradiction
          · next hs => obtain rfl := Option.some.inj h; exact .call hp hok hs
      · contradiction

/-- What a schedule executes is a run. -/
theorem Run.after (ts : List ι) : Run M ok c (c.after M ok ts) := by
  induction ts generalizing c with
  | nil => exact .refl
  | cons t ts ih =>
      simp only [Config.after]
      cases h : c.next M ok t with
      | none => exact ih
      | some d => exact Run.trans (.tail .refl (Step.of_next h)) ih

/-- A thread that is not on the schedule stays where it is. -/
theorem Config.after_prog_of_not_mem {t : ι} {ts : List ι} (h : t ∉ ts) :
    (c.after M ok ts).prog t = c.prog t := by
  induction ts generalizing c with
  | nil => rfl
  | cons u ts ih =>
      obtain ⟨hu, hts⟩ := not_or.mp (mt List.mem_cons.mpr h)
      rw [Config.after, ih hts]
      unfold Config.next
      repeat' split
      all_goals simp [hu]

/-- Only the scheduled threads can be inside a program. -/
theorem Config.quiescent_after {ts : List ι} (hc : c.Quiescent)
    (h : ∀ t ∈ ts, (c.after M ok ts).prog t = .pure ()) : (c.after M ok ts).Quiescent := by
  intro t
  by_cases ht : t ∈ ts
  · exact h t ht
  · rw [after_prog_of_not_mem ht]
    exact hc t

end Schedule

end Steps

end OnlineAuction
