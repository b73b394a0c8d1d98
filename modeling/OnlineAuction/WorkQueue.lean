import OnlineAuction.LockCalls
import OnlineAuction.Lib.Refinement
import OnlineAuction.Lib.Ring

/-!
# OnlineAuction.WorkQueue

The queue of connections of `server.c`.

The accept loop puts the descriptor of a new connection into a circular buffer, from which the
workers take them.  Every critical section is one step of `queueMachine`; a worker that finds
nothing in the buffer waits for `available`, which gives up the lock.  The buffer is a window of
a ring (`WorkQueue.contents`), and the machine does what a list of bounded length does
(`fifoMachine`, `simulates_fifo`), so that in every run the connections are served in the order
in which they were accepted (`boundedFifo_of_reach`).
-/

namespace OnlineAuction.Queue

/-! ## the circular buffer -/

/-- `WorkQueue` without its lock and its condition variable. -/
structure WorkQueue where
  fds : Vector Int workQueueSize
  front : Int
  rear : Int
  count : Int
  ready : Int

/-- `init_work_queue`. -/
def initWorkQueue : WorkQueue := ⟨.replicate workQueueSize (-1), 0, 0, 0, 0⟩

/-- `enqueue_client`, with the descriptors that it has closed. -/
def enqueueClient (fd : Int) : WorkQueue × List Int → Int × (WorkQueue × List Int)
  | (wq, closed) =>
      if wq.count = workQueueSize then (-1, (wq, closed ++ [fd]))
      else
        (0, ({ fds := wq.fds.setIfInBounds wq.rear.toNat fd
               front := wq.front
               rear := (wq.rear + 1).tmod workQueueSize
               count := wq.count + 1
               ready := 1 }, closed))

/-- The slot of an index; the source has no answer for one out of range. -/
def WorkQueue.slot (wq : WorkQueue) (i : Nat) : Int := wq.fds[i]?.getD 0

/-- `dequeue_client`; `none` where it waits. -/
def dequeueClient : WorkQueue × List Int → Option (Int × (WorkQueue × List Int))
  | (wq, closed) =>
      if wq.count = 0 then none
      else
        some (wq.slot wq.front.toNat,
          ({ wq with front := (wq.front + 1).tmod workQueueSize, count := wq.count - 1 }, closed))

/-! ## the threads -/

/-- The calls of the threads. -/
inductive QueueOp
  | enqueue (fd : Int)
  | dequeue

abbrev QueueSig : Sig := ⟨QueueOp, fun _ => Int⟩

/-- The accept loop of `main`, and the workers. -/
inductive QueueThread (ι : Type)
  | acceptLoop
  | worker (i : ι)
  deriving DecidableEq

section Machines

variable {ι : Type}

/-- Threads that share the queue. -/
def queueMachine : System QueueSig ι (WorkQueue × List Int) where
  step _ op s := match op with
    | .enqueue fd => some (enqueueClient fd s)
    | .dequeue => dequeueClient s
  env _ _ := False

/-- A list of at most `WORK_QUEUE_SIZE` descriptors, first in first out, and what is closed for
want of room. -/
def fifoMachine : System QueueSig ι (List Int × List Int) where
  step _ op s := match op, s with
    | .enqueue fd, (l, closed) =>
        if l.length = workQueueSize then some (-1, (l, closed ++ [fd]))
        else some (0, (l ++ [fd], closed))
    | .dequeue, ([], _) => none
    | .dequeue, (fd :: l, closed) => some (fd, (l, closed))
  env _ _ := False

/-- What the threads have to do: connections to enqueue, and how often each worker comes back
for the next one. -/
def queueWork (fds : List Int) (turns : ι → Nat) : QueueThread ι → List (Prog QueueSig Unit)
  | .acceptLoop => fds.map fun fd => .call (.enqueue fd) fun _ => .pure ()
  | .worker i => List.replicate (turns i) (.call .dequeue fun _ => .pure ())

end Machines

/-! ## the buffer is a list -/

/-- The descriptors in the buffer, first to last. -/
def WorkQueue.contents (wq : WorkQueue) : List Int :=
  window wq.slot workQueueSize wq.front.toNat wq.count.toNat

/-- The indices of the buffer. -/
structure WorkQueue.Sound (wq : WorkQueue) : Prop where
  count_nonneg : 0 ≤ wq.count
  count_le : wq.count ≤ workQueueSize
  front_nonneg : 0 ≤ wq.front
  front_lt : wq.front < workQueueSize
  rear_nonneg : 0 ≤ wq.rear
  rear_lt : wq.rear < workQueueSize
  rear_eq : wq.rear = (wq.front + wq.count) % workQueueSize

section Buffer

variable {ι : Type} {t : ι} {wq : WorkQueue} {fd : Int} {closed : List Int} {op : QueueOp}

theorem WorkQueue.Sound.length_contents (h : wq.Sound) : (wq.contents.length : Int) = wq.count := by
  rw [contents, length_window]
  exact Int.toNat_of_nonneg h.count_nonneg

/-- Writing a slot of the buffer. -/
theorem slot_setIfInBounds {i : Nat} (hi : i < workQueueSize) (rear count ready : Int) :
    WorkQueue.slot ⟨wq.fds.setIfInBounds i fd, wq.front, rear, count, ready⟩ =
      Function.update wq.slot i fd := by
  funext j
  rw [WorkQueue.slot, Function.update_apply, WorkQueue.slot, Vector.getElem?_setIfInBounds]
  by_cases hij : i = j
  · simp [← hij, hi]
  · simp [hij, Ne.symm hij]

/-- The next index. -/
theorem tmod_succ {i : Int} (h : 0 ≤ i) :
    (i + 1).tmod workQueueSize = (i + 1) % workQueueSize :=
  Int.tmod_eq_emod_of_nonneg (by omega)

theorem sound_initWorkQueue : initWorkQueue.Sound := by
  constructor <;> decide

/-- `enqueue_client` refuses a connection exactly if the buffer is full. -/
theorem enqueueClient_full (h : wq.Sound) (hfull : wq.contents.length = workQueueSize) :
    enqueueClient fd (wq, closed) = (-1, (wq, closed ++ [fd])) := by
  have hlength := h.length_contents
  rw [enqueueClient, if_pos (by omega)]

/-- `enqueue_client` puts a connection behind the others. -/
theorem enqueueClient_room (h : wq.Sound) (hroom : wq.contents.length ≠ workQueueSize) :
    ∃ wq', enqueueClient fd (wq, closed) = (0, (wq', closed)) ∧ wq'.Sound ∧
      wq'.contents = wq.contents ++ [fd] := by
  have hlength := h.length_contents
  have hcount := h.count_nonneg
  have hfront := h.front_nonneg
  have hle := h.count_le
  have heq := h.rear_eq
  have hlt := h.rear_lt
  have hrear : wq.rear.toNat = (wq.front.toNat + wq.count.toNat) % workQueueSize := by
    dsimp only [workQueueSize] at heq ⊢
    omega
  have hin : wq.rear.toNat < workQueueSize := by omega
  rw [enqueueClient, if_neg (by omega), tmod_succ h.rear_nonneg]
  refine ⟨_, rfl, ?_, ?_⟩
  · dsimp only [workQueueSize] at hlength hroom hle heq
    constructor <;> dsimp only [workQueueSize]
    · omega
    · omega
    · exact h.front_nonneg
    · exact h.front_lt
    · omega
    · omega
    · omega
  · rw [WorkQueue.contents, slot_setIfInBounds hin, hrear]
    dsimp only
    rw [show (wq.count + 1).toNat = wq.count.toNat + 1 by omega, window_push (by omega)]
    rfl

/-- `dequeue_client` waits exactly if the buffer is empty. -/
theorem dequeueClient_nil (h : wq.Sound) (hempty : wq.contents = []) :
    dequeueClient (wq, closed) = none := by
  have hlength := h.length_contents
  rw [hempty, List.length_nil] at hlength
  rw [dequeueClient, if_pos (by omega)]

/-- `dequeue_client` takes the first connection. -/
theorem dequeueClient_cons (h : wq.Sound) {l : List Int} (hcontents : wq.contents = fd :: l) :
    ∃ wq', dequeueClient (wq, closed) = some (fd, (wq', closed)) ∧ wq'.Sound ∧
      wq'.contents = l := by
  have hlength := h.length_contents
  have hfront := h.front_nonneg
  have hlt := h.front_lt
  have hle := h.count_le
  have hrear := h.rear_eq
  rw [hcontents, List.length_cons] at hlength
  have hcount : wq.count.toNat = l.length + 1 := by omega
  rw [WorkQueue.contents, hcount, window_succ (by omega)] at hcontents
  obtain ⟨hfirst, hrest⟩ := List.cons.inj hcontents
  rw [dequeueClient, if_neg (by omega), hfirst, tmod_succ hfront]
  refine ⟨_, rfl, ?_, ?_⟩
  · dsimp only [workQueueSize] at hle hlt hrear
    constructor <;> dsimp only [workQueueSize]
    · omega
    · omega
    · omega
    · omega
    · exact h.rear_nonneg
    · exact h.rear_lt
    · omega
  · rw [← hrest, WorkQueue.contents]
    dsimp only
    rw [show (wq.count - 1).toNat = l.length by omega,
      show ((wq.front + 1) % (64 : Nat)).toNat = (wq.front.toNat + 1) % 64 by omega]
    rfl

/-- The list that the threads share where their locks are modelled is the one in the buffer. -/
theorem run_enqueueClient (h : wq.Sound) (closed : List Int) (s : Store) :
    Prog.run LockOp.exec (OnlineAuction.enqueueClient fd) (s, wq.contents) =
      ((enqueueClient fd (wq, closed)).1, s, (enqueueClient fd (wq, closed)).2.1.contents) := by
  by_cases hfull : wq.contents.length = workQueueSize
  · rw [enqueueClient_full h hfull]
    simp [OnlineAuction.enqueueClient, LockOp.exec, hfull]
  · obtain ⟨wq', heq, -, hcontents⟩ : ∃ wq', enqueueClient fd (wq, closed) = (0, (wq', closed)) ∧
        wq'.Sound ∧ wq'.contents = wq.contents ++ [fd] := enqueueClient_room h hfull
    rw [heq, hcontents]
    simp [OnlineAuction.enqueueClient, LockOp.exec, hfull]

theorem run_dequeueClient (h : wq.Sound) {l : List Int} (hcontents : wq.contents = fd :: l)
    (closed : List Int) (s : Store) (wakeups : Nat) :
    ∃ wq', dequeueClient (wq, closed) = some (fd, (wq', closed)) ∧
      Prog.run LockOp.exec (OnlineAuction.dequeueClient wakeups) (s, wq.contents) =
        (some fd, s, wq'.contents) := by
  obtain ⟨wq', heq, -, hcontents'⟩ : ∃ wq', dequeueClient (wq, closed) = some (fd, (wq', closed)) ∧
      wq'.Sound ∧ wq'.contents = l := dequeueClient_cons h hcontents
  refine ⟨wq', heq, ?_⟩
  rw [hcontents, hcontents']
  cases wakeups <;>
    simp [OnlineAuction.dequeueClient, awaitClient, takeClient, LockOp.exec]

end Buffer

/-! ## runs -/

/-- The descriptor that a call has accepted. -/
def acceptedFd : Event QueueSig → Option Int
  | ⟨.enqueue fd, r⟩ => if r = 0 then some fd else none
  | ⟨.dequeue, _⟩ => none

/-- The descriptor that a call has refused. -/
def refusedFd : Event QueueSig → Option Int
  | ⟨.enqueue fd, r⟩ => if r = 0 then none else some fd
  | ⟨.dequeue, _⟩ => none

/-- The descriptor that a call has given to a worker. -/
def dequeuedFd : Event QueueSig → Option Int
  | ⟨.enqueue _, _⟩ => none
  | ⟨.dequeue, fd⟩ => some fd

section Runs

variable {ι : Type}

/-- The calls of a log of which `f` says something, in order. -/
def fdsOf (f : Event QueueSig → Option Int) (log : List (ι × Event QueueSig)) : List Int :=
  log.filterMap fun e => f e.2

@[simp] theorem fdsOf_append (f : Event QueueSig → Option Int)
    (log log' : List (ι × Event QueueSig)) : fdsOf f (log ++ log') = fdsOf f log ++ fdsOf f log' :=
  List.filterMap_append

@[simp] theorem fdsOf_singleton (f : Event QueueSig → Option Int) (e : ι × Event QueueSig) :
    fdsOf f [e] = (f e.2).toList := by
  cases h : f e.2 <;> simp [fdsOf, h]

/-- The calls so far as the list sees them: what was accepted is what was given out, and behind
it what waits. -/
structure InOrder (s : (List Int × List Int) × List (ι × Event QueueSig)) : Prop where
  length_le : s.1.1.length ≤ workQueueSize
  accepted : fdsOf acceptedFd s.2 = fdsOf dequeuedFd s.2 ++ s.1.1
  refused : fdsOf refusedFd s.2 = s.1.2

/-- **Step**: a call of the list keeps the order. -/
theorem InOrder.step {s s' : (List Int × List Int) × List (ι × Event QueueSig)} {t : ι}
    {op : QueueOp} {r : Int} (h : InOrder s)
    (hstep : fifoMachine.logged.step t op s = some (r, s')) : InOrder s' := by
  obtain ⟨⟨l, closed⟩, log⟩ := s
  obtain ⟨⟨l', closed'⟩, log'⟩ := s'
  obtain ⟨hcall, hlog⟩ := System.logged_step.mp hstep
  obtain ⟨hle, haccepted, hrefused⟩ := h
  dsimp only at hcall hlog hle haccepted hrefused
  subst hlog
  cases op with
  | enqueue fd =>
      simp only [fifoMachine] at hcall
      split at hcall
      · cases hcall
        exact ⟨hle, by simp [acceptedFd, dequeuedFd, haccepted], by simp [refusedFd, hrefused]⟩
      · next hroom =>
          cases hcall
          refine ⟨?_, by simp [acceptedFd, dequeuedFd, haccepted], by simp [refusedFd, hrefused]⟩
          rw [List.length_append, List.length_singleton]
          exact Nat.lt_of_le_of_ne hle hroom
  | dequeue =>
      cases l with
      | nil => cases hcall
      | cons fd l =>
          cases hcall
          refine ⟨?_, by simp [acceptedFd, dequeuedFd, haccepted], by simp [refusedFd, hrefused]⟩
          exact Nat.le_of_succ_le hle

variable [DecidableEq ι]

/-- **Run**: the list keeps the order. -/
theorem InOrder.reach {c d : Config QueueSig ι ((List Int × List Int) × List (ι × Event QueueSig))}
    (h : Reach fifoMachine.logged c d) (hc : InOrder c.shared) : InOrder d.shared :=
  h.inv (P := fun c => InOrder c.shared) (fun _ _ hd hstep => by
    cases hstep with
    | begin _ _ => exact hd
    | call _ _ hs => exact hd.step hs
    | env hs => exact hs.1.elim) hc

/-- The buffer has sound indices and holds the list. -/
structure Represents (s : WorkQueue × List Int) (x : List Int × List Int) : Prop where
  sound : s.1.Sound
  contents : s.1.contents = x.1
  closed : s.2 = x.2

omit [DecidableEq ι] in
/-- **Refinement**: the buffer does what the list does. -/
theorem simulates_fifo : Simulates (ι := ι) queueMachine fifoMachine Represents where
  step := by
    rintro t op ⟨wq, closed⟩ r s' ⟨l, closed'⟩ ⟨hsound, hcontents, hclosed⟩ hstep
    dsimp only at hsound hcontents hclosed
    subst hcontents hclosed
    cases op with
    | enqueue fd =>
        by_cases hfull : wq.contents.length = workQueueSize
        · obtain ⟨rfl, rfl⟩ := Prod.mk.inj
            ((enqueueClient_full hsound hfull).symm.trans (Option.some.inj hstep))
          exact ⟨(wq.contents, closed ++ [fd]), if_pos hfull, hsound, rfl, rfl⟩
        · obtain ⟨wq', heq, hsound', hcontents'⟩ := enqueueClient_room hsound hfull
          obtain ⟨rfl, rfl⟩ := Prod.mk.inj (heq.symm.trans (Option.some.inj hstep))
          exact ⟨(wq.contents ++ [fd], closed), if_neg hfull, hsound', hcontents', rfl⟩
    | dequeue =>
        cases hcontents : wq.contents with
        | nil =>
            have hwaits : dequeueClient (wq, closed) = none := dequeueClient_nil hsound hcontents
            cases hwaits.symm.trans hstep
        | cons fd l =>
            obtain ⟨wq', heq, hsound', hcontents'⟩ := dequeueClient_cons hsound hcontents
            obtain ⟨rfl, rfl⟩ := Prod.mk.inj (Option.some.inj (heq.symm.trans hstep))
            exact ⟨(l, closed), rfl, hsound', hcontents', rfl⟩
  env := fun _ _ _ _ h => h.elim

/-- A run of the threads up to here: the indices are sound, the run is one of a list of bounded
length with the contents of the buffer, the descriptors were given out in the order in which they
were accepted, each once, and the next `enqueue_client` and `dequeue_client` do what they do to
that list. -/
structure BoundedFifo (fds : List Int) (turns : ι → Nat)
    (d : Config QueueSig (QueueThread ι)
      ((WorkQueue × List Int) × List (QueueThread ι × Event QueueSig))) : Prop where
  sound : d.shared.1.1.Sound
  length : (d.shared.1.1.contents.length : Int) = d.shared.1.1.count
  refines : Reach fifoMachine.logged (.start (([], []), []) (queueWork fds turns))
    ⟨((d.shared.1.1.contents, d.shared.1.2), d.shared.2), d.prog, d.queue⟩
  order : fdsOf acceptedFd d.shared.2 = fdsOf dequeuedFd d.shared.2 ++ d.shared.1.1.contents
  closed : fdsOf refusedFd d.shared.2 = d.shared.1.2
  full : ∀ fd, d.shared.1.1.contents.length = workQueueSize →
    enqueueClient fd d.shared.1 = (-1, (d.shared.1.1, d.shared.1.2 ++ [fd]))
  room : ∀ fd, d.shared.1.1.contents.length ≠ workQueueSize →
    ∃ wq, enqueueClient fd d.shared.1 = (0, (wq, d.shared.1.2)) ∧
      wq.contents = d.shared.1.1.contents ++ [fd]
  empty : d.shared.1.1.contents = [] → dequeueClient d.shared.1 = none
  first : ∀ fd l, d.shared.1.1.contents = fd :: l →
    ∃ wq, dequeueClient d.shared.1 = some (fd, (wq, d.shared.1.2)) ∧ wq.contents = l

/-- **The queue of connections** is a list of bounded length, first in first out, whatever the
interleaving of the accept loop and the workers. -/
theorem boundedFifo_of_reach (fds : List Int) (turns : ι → Nat)
    {d : Config QueueSig (QueueThread ι)
      ((WorkQueue × List Int) × List (QueueThread ι × Event QueueSig))}
    (h : Reach queueMachine.logged (.start ((initWorkQueue, []), []) (queueWork fds turns)) d) :
    BoundedFifo fds turns d := by
  have hinit : Represents (initWorkQueue, []) ([], []) := ⟨sound_initWorkQueue, rfl, rfl⟩
  obtain ⟨⟨⟨l, closed⟩, log⟩, hreach, ⟨hsound, hcontents, hclosed⟩, hlog⟩ :=
    simulates_fifo.logged.reach h (x := (([], []), [])) ⟨hinit, rfl⟩
  dsimp only at hsound hcontents hclosed hlog
  subst hcontents hclosed hlog
  have horder : InOrder ((d.shared.1.1.contents, d.shared.1.2), d.shared.2) :=
    InOrder.reach hreach ⟨Nat.zero_le _, rfl, rfl⟩
  exact {
    sound := hsound
    length := hsound.length_contents
    refines := hreach
    order := horder.accepted
    closed := horder.refused
    full := fun fd hfull => enqueueClient_full hsound hfull
    room := fun fd hroom => by
      obtain ⟨wq, heq, -, hcontents⟩ := enqueueClient_room hsound hroom
      exact ⟨wq, heq, hcontents⟩
    empty := dequeueClient_nil hsound
    first := fun fd l hcons => by
      obtain ⟨wq, heq, -, hcontents⟩ := dequeueClient_cons hsound hcons
      exact ⟨wq, heq, hcontents⟩ }

/-- Two connections come in and a worker takes the first. -/
theorem boundedFifo_of_reach_two :
    BoundedFifo (ι := Unit) [7, 8] (fun _ => 1)
      (Config.after queueMachine.logged anyStep
        (.start ((initWorkQueue, []), []) (queueWork [7, 8] fun _ => 1))
        [.acceptLoop, .acceptLoop, .worker (), .acceptLoop, .worker (), .acceptLoop]) :=
  boundedFifo_of_reach [7, 8] (fun _ => 1) (Run.after _)

end Runs

end OnlineAuction.Queue
