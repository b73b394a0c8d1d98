import Mathlib.Algebra.BigOperators.Group.Finset.Basic
import Mathlib.Algebra.Group.Action.Defs
import Mathlib.Algebra.Order.BigOperators.Group.Finset
import Mathlib.Data.Fintype.BigOperators

/-!
# OnlineAuction.Lib.JobPool

A pool of workers that wait for jobs on a condition variable.

One producer puts jobs into a queue and signals; the workers test the queue in a loop, wait while
it is empty, and take a job otherwise.  A mutex guards the queue, `wait` gives it up and takes it
again, a signal wakes at least one worker that waits, and a worker may wake without a signal
(`Pool.Step`).

`Pool.Sound` holds in every run: no wake-up is lost (`Sound.awake`), every job that was accepted
is in one place, and jobs are taken in the order in which they came.  What the threads do by
themselves comes to an end (`WorkRun.rank_le`), and then no job waits for a worker that waits for
a job (`Settled.no_waiting`).
-/

namespace OnlineAuction

variable {Q ι α : Type}

/-! ## the threads -/

/-- What a worker does: it takes the mutex, tests the queue, waits, takes the mutex again after it
has been woken, or works on a job. -/
inductive Pool.Worker (α : Type)
  | entering
  | testing
  | asleep
  | woken
  | serving (job : α)
  deriving DecidableEq

/-- What the producer does: it waits for a job, takes the mutex, finds room or not, signals, and
gives up the mutex. -/
inductive Pool.Producer (α : Type)
  | idle
  | entering (job : α)
  | inside (job : α)
  | pushed
  | leaving
  deriving DecidableEq

/-- The queue that they share: `push` refuses a job, and `pop` finds none. -/
structure JobQueue (Q α : Type) where
  push : Q → α → Option Q
  pop : Q → Option (α × Q)

/-- The queue is a list, first in first out. -/
structure JobQueue.Lawful (O : JobQueue Q α) (sound : Q → Prop) (contents : Q → List α) :
    Prop where
  push : ∀ {q q' x}, sound q → O.push q x = some q' → sound q' ∧ contents q' = contents q ++ [x]
  pop_none : ∀ {q}, sound q → O.pop q = none → contents q = []
  pop_some : ∀ {q q' x}, sound q → O.pop q = some (x, q') →
    sound q' ∧ contents q = x :: contents q'

/-- The state, with what has become of the jobs. -/
structure Pool (Q ι α : Type) where
  queue : Q
  locked : Bool
  producer : Pool.Producer α
  worker : ι → Pool.Worker α
  accepted : List α
  dropped : List α
  taken : List α
  finished : List α

/-- Who moves: the outside, with a job, a wake-up without a signal or the end of a job, or the
threads by themselves. -/
inductive Mover
  | outside
  | inside
  deriving DecidableEq

/-- One step. -/
inductive Pool.Step [DecidableEq ι] (O : JobQueue Q α) : Mover → Pool Q ι α → Pool Q ι α → Prop
  | accept {s : Pool Q ι α} (job : α) (hs : s.producer = .idle) :
      Step O .outside s
        { s with producer := .entering job, accepted := s.accepted ++ [job] }
  | wake {s : Pool Q ι α} {i : ι} (hs : s.worker i = .asleep) :
      Step O .outside s { s with worker := Function.update s.worker i .woken }
  | finish {s : Pool Q ι α} {i : ι} {job : α} (hs : s.worker i = .serving job) :
      Step O .outside s
        { s with
          worker := Function.update s.worker i .entering
          finished := s.finished ++ [job] }
  | lock {s : Pool Q ι α} {job : α} (hs : s.producer = .entering job) (hfree : s.locked = false) :
      Step O .inside s { s with producer := .inside job, locked := true }
  | refuse {s : Pool Q ι α} {job : α} (hs : s.producer = .inside job)
      (hfull : O.push s.queue job = none) :
      Step O .inside s
        { s with producer := .idle, locked := false, dropped := s.dropped ++ [job] }
  | push {s : Pool Q ι α} {job : α} {q : Q} (hs : s.producer = .inside job)
      (hroom : O.push s.queue job = some q) :
      Step O .inside s { s with producer := .pushed, queue := q }
  | signal {s : Pool Q ι α} (woken : Finset ι) (hs : s.producer = .pushed)
      (hwoken : ∀ i ∈ woken, s.worker i = .asleep)
      (hone : (∃ i, s.worker i = .asleep) → woken.Nonempty) :
      Step O .inside s
        { s with producer := .leaving, worker := fun i => if i ∈ woken then .woken else s.worker i }
  | unlock {s : Pool Q ι α} (hs : s.producer = .leaving) :
      Step O .inside s { s with producer := .idle, locked := false }
  | enter {s : Pool Q ι α} {i : ι} (hs : s.worker i = .entering ∨ s.worker i = .woken)
      (hfree : s.locked = false) :
      Step O .inside s
        { s with worker := Function.update s.worker i .testing, locked := true }
  | wait {s : Pool Q ι α} {i : ι} (hs : s.worker i = .testing) (hempty : O.pop s.queue = none) :
      Step O .inside s
        { s with worker := Function.update s.worker i .asleep, locked := false }
  | take {s : Pool Q ι α} {i : ι} {job : α} {q : Q} (hs : s.worker i = .testing)
      (hjob : O.pop s.queue = some (job, q)) :
      Step O .inside s
        { s with
          worker := Function.update s.worker i (.serving job)
          locked := false
          queue := q
          taken := s.taken ++ [job] }

/-- Any number of steps. -/
inductive Pool.Run [DecidableEq ι] (O : JobQueue Q α) (s : Pool Q ι α) : Pool Q ι α → Prop
  | refl : Run O s s
  | tail {t u : Pool Q ι α} {m : Mover} (hrun : Run O s t) (hstep : Step O m t u) : Run O s u

/-- So many steps of the threads by themselves. -/
inductive Pool.WorkRun [DecidableEq ι] (O : JobQueue Q α) (s : Pool Q ι α) :
    Nat → Pool Q ι α → Prop
  | refl : WorkRun O s 0 s
  | tail {n : Nat} {t u : Pool Q ι α} (hrun : WorkRun O s n t) (hstep : Step O .inside t u) :
      WorkRun O s (n + 1) u

/-! ## schedules -/

/-- What a step is about. -/
inductive Pool.Move (ι α : Type)
  | accept (job : α)
  | wake (i : ι)
  | finish (i : ι)
  | lock
  | put
  | signal (woken : Finset ι)
  | unlock
  | enter (i : ι)
  | look (i : ι)

section Schedules

variable [DecidableEq ι] [Fintype ι] [DecidableEq α]

/-- The step, where it is possible. -/
def Pool.next (O : JobQueue Q α) (s : Pool Q ι α) : Pool.Move ι α → Option (Pool Q ι α)
  | .accept job =>
      if s.producer = .idle then
        some { s with producer := .entering job, accepted := s.accepted ++ [job] }
      else none
  | .wake i =>
      if s.worker i = .asleep then some { s with worker := Function.update s.worker i .woken }
      else none
  | .finish i =>
      match s.worker i with
      | .serving job =>
          some { s with
            worker := Function.update s.worker i .entering
            finished := s.finished ++ [job] }
      | _ => none
  | .lock =>
      match s.producer with
      | .entering job =>
          if s.locked = false then some { s with producer := .inside job, locked := true } else none
      | _ => none
  | .put =>
      match s.producer with
      | .inside job =>
          match O.push s.queue job with
          | none =>
              some { s with producer := .idle, locked := false, dropped := s.dropped ++ [job] }
          | some q => some { s with producer := .pushed, queue := q }
      | _ => none
  | .signal woken =>
      if s.producer = .pushed ∧ (∀ i ∈ woken, s.worker i = .asleep) ∧
          ((∃ i, s.worker i = .asleep) → woken.Nonempty) then
        some { s with
          producer := .leaving
          worker := fun i => if i ∈ woken then .woken else s.worker i }
      else none
  | .unlock =>
      if s.producer = .leaving then some { s with producer := .idle, locked := false } else none
  | .enter i =>
      if (s.worker i = .entering ∨ s.worker i = .woken) ∧ s.locked = false then
        some { s with worker := Function.update s.worker i .testing, locked := true }
      else none
  | .look i =>
      if s.worker i = .testing then
        match O.pop s.queue with
        | none => some { s with worker := Function.update s.worker i .asleep, locked := false }
        | some (job, q) =>
            some { s with
              worker := Function.update s.worker i (.serving job)
              locked := false
              queue := q
              taken := s.taken ++ [job] }
      else none

/-- One step after another. -/
def Pool.play (O : JobQueue Q α) (s : Pool Q ι α) (moves : List (Pool.Move ι α)) :
    Option (Pool Q ι α) := moves.foldlM (Pool.next O) s

variable {O : JobQueue Q α} {s t : Pool Q ι α}

theorem Pool.step_of_next {move : Pool.Move ι α} (h : s.next O move = some t) :
    ∃ m, Pool.Step O m s t := by
  cases move with
  | accept job =>
      obtain ⟨hs, ⟨⟩⟩ := Option.ite_none_right_eq_some.mp h
      exact ⟨_, .accept job hs⟩
  | wake i =>
      obtain ⟨hs, ⟨⟩⟩ := Option.ite_none_right_eq_some.mp h
      exact ⟨_, .wake hs⟩
  | finish i =>
      simp only [Pool.next] at h
      split at h
      · next hs => exact Option.some.inj h ▸ ⟨_, .finish hs⟩
      · cases h
  | lock =>
      simp only [Pool.next] at h
      split at h
      · next hs =>
          obtain ⟨hfree, ⟨⟩⟩ := Option.ite_none_right_eq_some.mp h
          exact ⟨_, .lock hs hfree⟩
      · cases h
  | put =>
      simp only [Pool.next] at h
      split at h
      · next hs =>
          split at h
          · next hfull => exact Option.some.inj h ▸ ⟨_, .refuse hs hfull⟩
          · next hroom => exact Option.some.inj h ▸ ⟨_, .push hs hroom⟩
      · cases h
  | signal woken =>
      obtain ⟨⟨hs, hwoken, hone⟩, ⟨⟩⟩ := Option.ite_none_right_eq_some.mp h
      exact ⟨_, .signal woken hs hwoken hone⟩
  | unlock =>
      obtain ⟨hs, ⟨⟩⟩ := Option.ite_none_right_eq_some.mp h
      exact ⟨_, .unlock hs⟩
  | enter i =>
      obtain ⟨⟨hs, hfree⟩, ⟨⟩⟩ := Option.ite_none_right_eq_some.mp h
      exact ⟨_, .enter hs hfree⟩
  | look i =>
      obtain ⟨hs, h⟩ := Option.ite_none_right_eq_some.mp h
      split at h
      · next hempty => exact Option.some.inj h ▸ ⟨_, .wait hs hempty⟩
      · next hjob => exact Option.some.inj h ▸ ⟨_, .take hs hjob⟩

/-- What is played is a run. -/
theorem Pool.run_of_play {moves : List (Pool.Move ι α)} (h : s.play O moves = some t) :
    Pool.Run O s t := by
  have hrun {t : Pool Q ι α} (hst : Pool.Run O s t) {moves : List (Pool.Move ι α)}
      {u : Pool Q ι α} (h : t.play O moves = some u) : Pool.Run O s u := by
    induction moves generalizing t with
    | nil => exact Option.some.inj h ▸ hst
    | cons move moves ih =>
        rw [Pool.play, List.foldlM_cons] at h
        obtain ⟨t', hnext, hrest⟩ := Option.bind_eq_some_iff.mp h
        obtain ⟨m, hstep⟩ := Pool.step_of_next hnext
        exact ih (.tail hst hstep) hrest
  exact hrun .refl h

end Schedules

/-! ## sums over the workers -/

section Sums

variable [Fintype ι] [DecidableEq ι] {w : ι → Pool.Worker α} {i : ι} {x : Pool.Worker α}

/-- A worker changes. -/
theorem sum_update (f : Pool.Worker α → Nat) (hw : w i = x) (y : Pool.Worker α) (a b : Nat)
    (ha : f x = a) (hb : f y = b) :
    (∑ j, f (Function.update w i y j)) + a = (∑ j, f (w j)) + b := by
  have hsplit (v : ι → Pool.Worker α) :
      (∑ j, f (v j)) = f (v i) + ∑ j ∈ Finset.univ.erase i, f (v j) :=
    (Finset.add_sum_erase _ _ (Finset.mem_univ i)).symm
  have hrest : (∑ j ∈ Finset.univ.erase i, f (Function.update w i y j)) =
      ∑ j ∈ Finset.univ.erase i, f (w j) :=
    Finset.sum_congr rfl fun j hj => by
      rw [Function.update_of_ne (Finset.ne_of_mem_erase hj)]
  rw [hsplit, hsplit w, hrest, Function.update_self, hw, ha, hb]
  omega

/-- Workers that wait are woken. -/
theorem sum_woken (f : Pool.Worker α → Nat) {woken : Finset ι} (hwoken : ∀ i ∈ woken, w i = .asleep)
    (b : Nat) (ha : f .asleep = 0) (hb : f .woken = b) :
    (∑ j, f (if j ∈ woken then .woken else w j)) = (∑ j, f (w j)) + woken.card * b := by
  have hone (j : ι) : f (if j ∈ woken then .woken else w j) =
      f (w j) + if j ∈ woken then b else 0 := by
    split
    · next hj => rw [hwoken j hj, ha, hb, Nat.zero_add]
    · rfl
  simp only [hone, Finset.sum_add_distrib, Finset.sum_ite_mem, Finset.univ_inter,
    Finset.sum_const, smul_eq_mul]

omit [Fintype ι] in
/-- If a worker waits after another has changed, it has waited before. -/
theorem exists_asleep (hx : x ≠ .asleep) (h : ∃ j, Function.update w i x j = .asleep) :
    ∃ j, w j = .asleep := by
  obtain ⟨j, hj⟩ := h
  by_cases hji : j = i
  · rw [hji, Function.update_self] at hj
    exact absurd hj hx
  · exact ⟨j, by rwa [Function.update_of_ne hji] at hj⟩

end Sums

/-! ## what holds in every run -/

/-- A worker that will look at the queue. -/
def Pool.Worker.isAwake : Pool.Worker α → Nat
  | .entering | .testing | .woken => 1
  | .asleep | .serving _ => 0

/-- A worker that holds the mutex. -/
def Pool.Worker.holds : Pool.Worker α → Nat
  | .testing => 1
  | _ => 0

/-- A worker on a job of this kind. -/
def Pool.Worker.serves (p : α → Bool) : Pool.Worker α → Nat
  | .serving job => if p job then 1 else 0
  | _ => 0

/-- The steps that a worker may have before it, until it waits or serves. -/
def Pool.Worker.rank : Pool.Worker α → Nat
  | .entering | .woken => 2
  | .testing => 1
  | .asleep | .serving _ => 0

/-- The producer holds the mutex. -/
def Pool.Producer.holds : Pool.Producer α → Nat
  | .inside _ | .pushed | .leaving => 1
  | .idle | .entering _ => 0

/-- The producer has still to signal. -/
def Pool.Producer.owes : Pool.Producer α → Nat
  | .pushed => 1
  | _ => 0

/-- The job that the producer has. -/
def Pool.Producer.held : Pool.Producer α → List α
  | .entering job | .inside job => [job]
  | _ => []

/-- The steps that the producer may have before it, and those of the `n` workers that it wakes. -/
def Pool.Producer.rank (n : Nat) : Pool.Producer α → Nat
  | .entering _ => 2 * n + 4
  | .inside _ => 2 * n + 3
  | .pushed => 2 * n + 2
  | .leaving => 1
  | .idle => 0

namespace Pool

/-- A pool that has just started. -/
def start (q : Q) : Pool Q ι α := ⟨q, false, .idle, fun _ => .entering, [], [], [], []⟩

variable [Fintype ι]

/-- **The invariant**: one thread holds the mutex if it is locked; if a worker waits, the jobs that
wait are no more than the workers that will look at the queue; and every job is in one place. -/
structure Sound (sound : Q → Prop) (contents : Q → List α) (s : Pool Q ι α) : Prop where
  queue : sound s.queue
  mutex : (∑ i, (s.worker i).holds) + s.producer.holds = s.locked.toNat
  awake : (∃ i, s.worker i = .asleep) →
    (contents s.queue).length ≤ (∑ i, (s.worker i).isAwake) + s.producer.owes
  order : (s.taken ++ contents s.queue ++ s.producer.held).Sublist s.accepted
  placed : ∀ p, s.accepted.countP p = s.dropped.countP p + s.producer.held.countP p +
    (contents s.queue).countP p + s.taken.countP p
  served : ∀ p, s.taken.countP p = s.finished.countP p + ∑ i, (s.worker i).serves p

variable {O : JobQueue Q α} {sound : Q → Prop} {contents : Q → List α} {s t : Pool Q ι α}
  {m : Mover}

theorem sound_start {q : Q} (hq : sound q) (hempty : contents q = []) :
    (start q : Pool Q ι α).Sound sound contents where
  queue := hq
  mutex := by simp [start, Worker.holds, Producer.holds]
  awake := by simp [start]
  order := by simp [start, hempty, Producer.held]
  placed := by simp [start, hempty, Producer.held]
  served := by simp [start, Worker.serves]

variable [DecidableEq ι]

/-- **Step**: one step keeps the invariant. -/
theorem Sound.step (hO : O.Lawful sound contents) (h : s.Sound sound contents)
    (hstep : Step O m s t) : t.Sound sound contents := by
  obtain ⟨hqueue, hmutex, hawake, horder, hplaced, hserved⟩ := h
  cases hstep with
  | accept job hs =>
      rw [hs] at hmutex hawake horder hplaced
      refine ⟨hqueue, hmutex, hawake, ?_, fun x => ?_, hserved⟩
      · simpa [Producer.held] using horder.append_right [job]
      · have := hplaced x
        simp only [Producer.held, List.countP_append, List.countP_nil] at this ⊢
        omega
  | @wake _ i hs =>
      have hholds := sum_update Worker.holds hs .woken 0 0 rfl rfl
      have hsum := sum_update Worker.isAwake hs .woken 0 1 rfl rfl
      have hserves x := sum_update (Worker.serves x) hs .woken 0 0 rfl rfl
      have hone := hawake ⟨i, hs⟩
      refine ⟨hqueue, ?_, fun _ => ?_, horder, hplaced, fun x => ?_⟩
      · dsimp only
        omega
      · dsimp only
        omega
      · have := hserved x
        have := hserves x
        dsimp only
        omega
  | @finish _ i job hs =>
      have hholds := sum_update Worker.holds hs .entering 0 0 rfl rfl
      have hsum := sum_update Worker.isAwake hs .entering 0 1 rfl rfl
      have hserves x := sum_update (Worker.serves x) hs .entering
        (if x job then 1 else 0) 0 rfl rfl
      refine ⟨hqueue, ?_, ?_, horder, hplaced, fun x => ?_⟩
      · dsimp only
        omega
      · intro hj
        have := hawake (exists_asleep (by simp) hj)
        dsimp only
        omega
      · have := hserved x
        have := hserves x
        simp only [List.countP_append, List.countP_singleton]
        omega
  | lock hs hfree =>
      rw [hs] at hmutex hawake horder hplaced
      rw [hfree] at hmutex
      refine ⟨hqueue, ?_, hawake, horder, hplaced, hserved⟩
      simp only [Producer.holds, Bool.toNat_false, Bool.toNat_true] at hmutex ⊢
      omega
  | refuse hs hfull =>
      rw [hs] at hmutex hawake horder hplaced
      have hlocked := s.locked.toNat_le
      refine ⟨hqueue, ?_, hawake, ?_, fun x => ?_, hserved⟩
      · simp only [Producer.holds, Bool.toNat_false] at hmutex ⊢
        omega
      · dsimp only [Producer.held]
        rw [List.append_nil]
        exact (List.sublist_append_left _ _).trans horder
      · have := hplaced x
        simp only [Producer.held, List.countP_append, List.countP_nil] at this ⊢
        omega
  | @push _ job q hs hroom =>
      rw [hs] at hmutex hawake horder hplaced
      obtain ⟨hsound, hcontents⟩ := hO.push hqueue hroom
      refine ⟨hsound, hmutex, fun hasleep => ?_, ?_, fun x => ?_, hserved⟩
      · have := hawake hasleep
        simp only [Producer.owes, hcontents, List.length_append, List.length_singleton] at this ⊢
        omega
      · simpa [Producer.held, hcontents] using horder
      · have := hplaced x
        simp only [Producer.held, hcontents, List.countP_append, List.countP_nil] at this ⊢
        omega
  | @signal _ woken hs hwoken hone =>
      rw [hs] at hmutex hawake horder hplaced
      have hholds := sum_woken Worker.holds hwoken 0 rfl rfl
      have hsum := sum_woken Worker.isAwake hwoken 1 rfl rfl
      have hserves x := sum_woken (Worker.serves x) hwoken 0 rfl rfl
      refine ⟨hqueue, ?_, ?_, horder, hplaced, fun x => ?_⟩
      · dsimp only [Producer.holds] at hmutex ⊢
        omega
      · rintro ⟨j, hj⟩
        dsimp only at hj ⊢
        have hasleep : s.worker j = .asleep := by
          split at hj
          · cases hj
          · exact hj
        -- someone is woken, and looks at the job that was put into the queue
        have hcard : 1 ≤ woken.card := Finset.card_pos.mpr (hone ⟨j, hasleep⟩)
        have := hawake ⟨j, hasleep⟩
        dsimp only [Producer.owes] at this ⊢
        omega
      · have := hserved x
        have := hserves x
        dsimp only
        omega
  | unlock hs =>
      rw [hs] at hmutex hawake horder hplaced
      have hlocked := s.locked.toNat_le
      refine ⟨hqueue, ?_, hawake, horder, hplaced, hserved⟩
      simp only [Producer.holds, Bool.toNat_false] at hmutex ⊢
      omega
  | @enter _ i hs hfree =>
      rw [hfree] at hmutex
      have hholds : (∑ j, (Function.update s.worker i .testing j).holds) + 0 =
          (∑ j, (s.worker j).holds) + 1 := by
        rcases hs with hs | hs <;> exact sum_update Worker.holds hs .testing 0 1 rfl rfl
      have hsum : (∑ j, (Function.update s.worker i .testing j).isAwake) + 1 =
          (∑ j, (s.worker j).isAwake) + 1 := by
        rcases hs with hs | hs <;> exact sum_update Worker.isAwake hs .testing 1 1 rfl rfl
      have hserves x : (∑ j, (Function.update s.worker i .testing j).serves x) + 0 =
          (∑ j, (s.worker j).serves x) + 0 := by
        rcases hs with hs | hs <;> exact sum_update (Worker.serves x) hs .testing 0 0 rfl rfl
      have hasleep : s.worker i ≠ .asleep := by
        rcases hs with hs | hs <;> simp [hs]
      refine ⟨hqueue, ?_, fun hj => ?_, horder, hplaced, fun x => ?_⟩
      · simp only [Bool.toNat_false, Bool.toNat_true] at hmutex ⊢
        omega
      · have := hawake (exists_asleep (by simp) hj)
        dsimp only
        omega
      · have := hserved x
        have := hserves x
        dsimp only
        omega
  | @wait _ i hs hempty =>
      have hlocked := s.locked.toNat_le
      have hholds := sum_update Worker.holds hs .asleep 1 0 rfl rfl
      have hserves x := sum_update (Worker.serves x) hs .asleep 0 0 rfl rfl
      refine ⟨hqueue, ?_, fun _ => ?_, horder, hplaced, fun x => ?_⟩
      · simp only [Bool.toNat_false]
        omega
      · dsimp only
        rw [hO.pop_none hqueue hempty]
        exact Nat.zero_le _
      · have := hserved x
        have := hserves x
        dsimp only
        omega
  | @take _ i job q hs hjob =>
      have hlocked := s.locked.toNat_le
      obtain ⟨hsound, hcontents⟩ := hO.pop_some hqueue hjob
      have hholds := sum_update Worker.holds hs (.serving job) 1 0 rfl rfl
      have hsum := sum_update Worker.isAwake hs (.serving job) 1 0 rfl rfl
      have hserves x := sum_update (Worker.serves x) hs (.serving job) 0
        (if x job then 1 else 0) rfl rfl
      refine ⟨hsound, ?_, fun hj => ?_, ?_, fun x => ?_, fun x => ?_⟩
      · simp only [Bool.toNat_false]
        omega
      · have := hawake (exists_asleep (by simp) hj)
        rw [hcontents, List.length_cons] at this
        dsimp only
        omega
      · simpa [hcontents] using horder
      · have := hplaced x
        simp only [hcontents, List.countP_append, List.countP_cons, List.countP_nil] at this ⊢
        omega
      · have := hserved x
        have := hserves x
        simp only [List.countP_append, List.countP_singleton]
        omega

/-- **Run**: the invariant holds in every run. -/
theorem Sound.run (hO : O.Lawful sound contents) (h : s.Sound sound contents) (hrun : Run O s t) :
    t.Sound sound contents := by
  induction hrun with
  | refl => exact h
  | tail _ hstep ih => exact ih.step hO hstep

/-! ## the work of the threads comes to an end -/

/-- The steps of the threads by themselves that are before them. -/
def rank (s : Pool Q ι α) : Nat := (∑ i, (s.worker i).rank) + s.producer.rank (Fintype.card ι)

omit [DecidableEq ι] in
theorem rank_le (s : Pool Q ι α) : s.rank ≤ 4 * Fintype.card ι + 4 := by
  have hworkers : (∑ i, (s.worker i).rank) ≤ Fintype.card ι * 2 :=
    Finset.sum_le_card_nsmul Finset.univ _ 2 fun i _ => by cases s.worker i <;> simp [Worker.rank]
  have hproducer : s.producer.rank (Fintype.card ι) ≤ 2 * Fintype.card ι + 4 := by
    cases s.producer <;> simp [Producer.rank]
  rw [rank]
  omega

/-- **Step**: a step of the threads by themselves leaves fewer of them. -/
theorem rank_lt (hstep : Step O .inside s t) : t.rank < s.rank := by
  cases hstep with
  | lock hs _ =>
      simp only [rank, hs, Producer.rank]
      omega
  | refuse hs _ =>
      simp only [rank, hs, Producer.rank]
      omega
  | push hs _ =>
      simp only [rank, hs, Producer.rank]
      omega
  | @signal _ woken hs hwoken hone =>
      have hsum := sum_woken Worker.rank hwoken 2 rfl rfl
      have hcard : woken.card ≤ Fintype.card ι := Finset.card_le_univ woken
      simp only [rank, hs, Producer.rank]
      omega
  | unlock hs =>
      simp only [rank, hs, Producer.rank]
      omega
  | @enter _ i hs hfree =>
      have hsum : (∑ j, (Function.update s.worker i .testing j).rank) + 2 =
          (∑ j, (s.worker j).rank) + 1 := by
        rcases hs with hs | hs <;> exact sum_update Worker.rank hs .testing 2 1 rfl rfl
      simp only [rank]
      omega
  | @wait _ i hs hempty =>
      have hsum := sum_update Worker.rank hs .asleep 1 0 rfl rfl
      simp only [rank]
      omega
  | @take _ i job q hs hjob =>
      have hsum := sum_update Worker.rank hs (.serving job) 1 0 rfl rfl
      simp only [rank]
      omega

/-- **Run**: the threads by themselves come to an end. -/
theorem WorkRun.rank_le {n : Nat} (hrun : WorkRun O s n t) : t.rank + n ≤ s.rank := by
  induction hrun with
  | refl => exact Nat.le_refl _
  | tail _ hstep ih =>
      have := rank_lt hstep
      omega

omit [Fintype ι] in
theorem WorkRun.run {n : Nat} (hrun : WorkRun O s n t) : Run O s t := by
  induction hrun with
  | refl => exact .refl
  | tail _ hstep ih => exact .tail ih hstep

/-- No thread has anything to do by itself. -/
structure Settled (s : Pool Q ι α) : Prop where
  idle : s.producer = .idle
  unlocked : s.locked = false
  workers : ∀ i, s.worker i = .asleep ∨ ∃ job, s.worker i = .serving job

/-- Where no thread can move by itself, none has anything to do. -/
theorem Sound.settled (h : s.Sound sound contents) (hstuck : ∀ t, ¬ Step O .inside s t) :
    s.Settled := by
  have hproducer : s.producer.holds = 0 := by
    cases hs : s.producer with
    | idle | entering job => rfl
    | inside job =>
        cases hpush : O.push s.queue job with
        | none => exact absurd (.refuse hs hpush) (hstuck _)
        | some q => exact absurd (.push hs hpush) (hstuck _)
    | pushed =>
        classical
        refine absurd (.signal (Finset.univ.filter fun i => s.worker i = .asleep) hs ?_ ?_)
          (hstuck _)
        · exact fun i hi => (Finset.mem_filter.mp hi).2
        · rintro ⟨i, hi⟩
          exact ⟨i, Finset.mem_filter.mpr ⟨Finset.mem_univ i, hi⟩⟩
    | leaving => exact absurd (.unlock hs) (hstuck _)
  have hworkers (i : ι) : (s.worker i).holds = 0 := by
    cases hs : s.worker i with
    | entering | asleep | woken | serving job => rfl
    | testing =>
        cases hpop : O.pop s.queue with
        | none => exact absurd (.wait hs hpop) (hstuck _)
        | some r => exact absurd (.take hs hpop) (hstuck _)
  have hfree : s.locked = false := by
    have hmutex := h.mutex
    rw [hproducer, Finset.sum_eq_zero fun i _ => hworkers i] at hmutex
    cases hs : s.locked with
    | false => rfl
    | true => simp [hs] at hmutex
  refine ⟨?_, hfree, fun i => ?_⟩
  · cases hs : s.producer with
    | idle => rfl
    | entering job => exact absurd (.lock hs hfree) (hstuck _)
    | inside job | pushed | leaving => simp [hs, Producer.holds] at hproducer
  · cases hs : s.worker i with
    | entering => exact absurd (.enter (.inl hs) hfree) (hstuck _)
    | woken => exact absurd (.enter (.inr hs) hfree) (hstuck _)
    | testing =>
        have := hworkers i
        simp [hs, Worker.holds] at this
    | asleep => exact .inl rfl
    | serving job => exact .inr ⟨job, rfl⟩

omit [DecidableEq ι] in
/-- **No job waits for a worker that waits for a job.** -/
theorem Settled.no_waiting (hset : s.Settled) (h : s.Sound sound contents)
    (hasleep : ∃ i, s.worker i = .asleep) : contents s.queue = [] := by
  have hnone : (∑ i, (s.worker i).isAwake) = 0 :=
    Finset.sum_eq_zero fun i _ => by
      rcases hset.workers i with hi | ⟨job, hi⟩ <;> simp [hi, Worker.isAwake]
  have hle := h.awake hasleep
  rw [hnone, hset.idle] at hle
  exact List.length_eq_zero_iff.mp (Nat.le_zero.mp hle)

omit [DecidableEq ι] in
/-- If jobs wait, every worker is on one. -/
theorem Settled.busy (hset : s.Settled) (h : s.Sound sound contents)
    (hwaits : contents s.queue ≠ []) :
    (∀ i, ∃ job, s.worker i = .serving job) ∧
      s.taken.length = s.finished.length + Fintype.card ι := by
  have hserving (i : ι) : ∃ job, s.worker i = .serving job :=
    (hset.workers i).resolve_left fun hi => hwaits (hset.no_waiting h ⟨i, hi⟩)
  refine ⟨hserving, ?_⟩
  have hall : (∑ i, (s.worker i).serves fun _ => true) = ∑ _i : ι, 1 :=
    Finset.sum_congr rfl fun i _ => by
      obtain ⟨job, hi⟩ := hserving i
      simp [hi, Worker.serves]
  simpa [hall] using h.served fun _ => true

end Pool

end OnlineAuction
