import OnlineAuction.WorkQueue
import OnlineAuction.Lib.JobPool

/-!
# OnlineAuction.ThreadPool

The thread pool of `server.c`.

`main` accepts a connection, puts it into the work queue under the lock and signals `available`;
eight workers take connections from the queue and serve them, and wait for `available` while the
queue is empty.  `pthread_cond_signal` wakes at least one of the workers that wait, and
`pthread_cond_wait` may return without a signal, for which `dequeue_client` tests in a loop.

No wake-up is lost, and a connection waits only while every worker is busy
(`workConserving_of_run`); every connection that was accepted is in one place, and the workers
take them in the order in which they came (`placed_of_run`).
-/

namespace OnlineAuction.Queue

/-- `THREAD_POOL_SIZE`. -/
abbrev threadPoolSize : Nat := 8

/-- `enqueue_client` and `dequeue_client` between the locking and the unlocking. -/
def clientQueue : JobQueue WorkQueue Int where
  push wq fd :=
    if (enqueueClient fd (wq, [])).1 = 0 then some (enqueueClient fd (wq, [])).2.1 else none
  pop wq := (dequeueClient (wq, [])).map fun r => (r.1, r.2.1)

/-- The accept loop and the workers. -/
abbrev ClientPool := Pool WorkQueue (Fin threadPoolSize) Int

/-- After `init_work_queue` and `init_thread_pool`. -/
def initThreadPool : ClientPool := .start initWorkQueue

section Lawful

variable {wq wq' : WorkQueue} {fd : Int}

/-- `enqueue_client` refuses a connection if 64 wait. -/
theorem push_eq_none (h : wq.Sound) (hpush : clientQueue.push wq fd = none) :
    wq.contents.length = workQueueSize := by
  by_contra hroom
  obtain ⟨wq', heq, -⟩ : ∃ wq', enqueueClient fd (wq, []) = (0, (wq', [])) ∧ wq'.Sound ∧
      wq'.contents = wq.contents ++ [fd] := enqueueClient_room h hroom
  simp [clientQueue, heq] at hpush

/-- The buffer is a queue of connections. -/
theorem lawful_clientQueue : clientQueue.Lawful WorkQueue.Sound WorkQueue.contents where
  push := fun {wq wq' fd} h hpush => by
    by_cases hfull : wq.contents.length = workQueueSize
    · simp [clientQueue, enqueueClient_full h hfull] at hpush
    · obtain ⟨wq₁, heq, hsound, hcontents⟩ : ∃ wq₁, enqueueClient fd (wq, []) =
          (0, (wq₁, [])) ∧ wq₁.Sound ∧ wq₁.contents = wq.contents ++ [fd] :=
        enqueueClient_room h hfull
      simp only [clientQueue, heq, if_true, Option.some.injEq] at hpush
      rw [← hpush]
      exact ⟨hsound, hcontents⟩
  pop_none := fun {wq} h hpop => by
    cases hcontents : wq.contents with
    | nil => rfl
    | cons fd l =>
        obtain ⟨wq₁, heq, -⟩ : ∃ wq₁, dequeueClient (wq, []) = some (fd, (wq₁, [])) ∧
            wq₁.Sound ∧ wq₁.contents = l := dequeueClient_cons h hcontents
        simp [clientQueue, heq] at hpop
  pop_some := fun {wq wq' fd} h hpop => by
    cases hcontents : wq.contents with
    | nil => simp [clientQueue, dequeueClient_nil h hcontents] at hpop
    | cons fd' l =>
        obtain ⟨wq₁, heq, hsound, hrest⟩ : ∃ wq₁, dequeueClient (wq, []) =
            some (fd', (wq₁, [])) ∧ wq₁.Sound ∧ wq₁.contents = l := dequeueClient_cons h hcontents
        simp only [clientQueue, heq, Option.map_some, Option.some.injEq, Prod.mk.injEq] at hpop
        obtain ⟨rfl, rfl⟩ := hpop
        exact ⟨hsound, by rw [hrest]⟩

end Lawful

section Runs

variable {s : ClientPool}

theorem sound_of_run (h : Pool.Run clientQueue initThreadPool s) :
    s.Sound WorkQueue.Sound WorkQueue.contents :=
  (Pool.sound_start sound_initWorkQueue rfl).run lawful_clientQueue h

/-- A worker waits only while nothing else can be done: the connections that wait are no more than
the workers that will look at the queue, and one more if the accept loop has put one there and has
not signalled yet; left to themselves the threads come to an end within 36 steps, and then a
connection that waits finds every worker busy. -/
structure WorkConserving (s : ClientPool) : Prop where
  awake : (∃ i, s.worker i = .asleep) →
    s.queue.contents.length ≤ (∑ i, (s.worker i).isAwake) + s.producer.owes
  ends : ∀ n t, Pool.WorkRun clientQueue s n t → n ≤ 36
  settled : ∀ n t, Pool.WorkRun clientQueue s n t → (∀ u, ¬ Pool.Step clientQueue .inside t u) →
    t.Settled ∧ ((∃ i, t.worker i = .asleep) → t.queue.contents = []) ∧
      (t.queue.contents ≠ [] → (∀ i, ∃ fd, t.worker i = .serving fd) ∧
        t.taken.length = t.finished.length + threadPoolSize)

/-- **No wake-up is lost**, whatever the accept loop and the workers do, and in which order. -/
theorem workConserving_of_run (h : Pool.Run clientQueue initThreadPool s) : WorkConserving s where
  awake := (sound_of_run h).awake
  ends := fun n t hrun => by
    have hle := hrun.rank_le
    have hbound : s.rank ≤ 4 * Fintype.card (Fin threadPoolSize) + 4 := s.rank_le
    rw [Fintype.card_fin] at hbound
    dsimp only [threadPoolSize] at hbound
    omega
  settled := fun n t hrun hstuck => by
    have hsound : t.Sound WorkQueue.Sound WorkQueue.contents :=
      (sound_of_run h).run lawful_clientQueue hrun.run
    have hset : t.Settled := hsound.settled hstuck
    refine ⟨hset, hset.no_waiting hsound, fun hwaits => ?_⟩
    obtain ⟨hserving, hlength⟩ := hset.busy hsound hwaits
    rw [Fintype.card_fin] at hlength
    exact ⟨hserving, hlength⟩

/-- What the accept loop does with a connection that finds room, while no worker waits. -/
def putClient (fd : Int) : List (Pool.Move (Fin threadPoolSize) Int) :=
  [.accept fd, .lock, .put, .signal ∅, .unlock]

/-- What a worker does to look at the queue. -/
def lookAtQueue (i : Fin threadPoolSize) : List (Pool.Move (Fin threadPoolSize) Int) :=
  [.enter i, .look i]

/-- All workers wait while the accept loop has put a connection into the queue and has not signalled
yet; and all are busy while a ninth connection waits. -/
theorem workConserving_waiting :
    (∃ s ∈ Pool.play clientQueue initThreadPool
        ((List.finRange threadPoolSize).flatMap lookAtQueue ++ [.accept 7, .lock, .put]),
      ((∀ i, s.worker i = .asleep) ∧ s.queue.contents = [7] ∧ s.producer.owes = 1) ∧
        WorkConserving s) ∧
    ∃ s ∈ Pool.play clientQueue initThreadPool
        ([7, 8, 9, 10, 11, 12, 13, 14, 15].flatMap putClient ++
          (List.finRange threadPoolSize).flatMap lookAtQueue),
      (s.queue.contents = [15] ∧ s.taken.length = 8 ∧ s.finished = []) ∧ WorkConserving s := by
  constructor
  · obtain ⟨s, hs, hwaits⟩ : ∃ s ∈ Pool.play clientQueue initThreadPool
        ((List.finRange threadPoolSize).flatMap lookAtQueue ++ [.accept 7, .lock, .put]),
        (∀ i, s.worker i = .asleep) ∧ s.queue.contents = [7] ∧ s.producer.owes = 1 := by
      decide +kernel
    exact ⟨s, hs, hwaits, workConserving_of_run (Pool.run_of_play hs)⟩
  · obtain ⟨s, hs, hbusy⟩ : ∃ s ∈ Pool.play clientQueue initThreadPool
        ([7, 8, 9, 10, 11, 12, 13, 14, 15].flatMap putClient ++
          (List.finRange threadPoolSize).flatMap lookAtQueue),
        s.queue.contents = [15] ∧ s.taken.length = 8 ∧ s.finished = [] := by
      decide +kernel
    exact ⟨s, hs, hbusy, workConserving_of_run (Pool.run_of_play hs)⟩

/-- Every connection that was accepted was refused, is in the hands of the accept loop, waits, or
was taken; it was taken once, and is served or finished; the connections are taken in the order in
which they came; at most 64 wait, and one is refused only if 64 do. -/
structure Placed (s : ClientPool) : Prop where
  accepted : s.accepted.Perm (s.dropped ++ s.producer.held ++ s.queue.contents ++ s.taken)
  order : (s.taken ++ s.queue.contents ++ s.producer.held).Sublist s.accepted
  taken : ∀ fd, s.taken.count fd = s.finished.count fd +
    (Finset.univ.filter fun i => s.worker i = .serving fd).card
  bound : s.queue.contents.length ≤ workQueueSize
  refused : ∀ m t, Pool.Step clientQueue m s t → t.dropped ≠ s.dropped →
    s.queue.contents.length = workQueueSize

/-- **Every connection is in one place.** -/
theorem placed_of_run (h : Pool.Run clientQueue initThreadPool s) : Placed s where
  accepted := by
    refine List.perm_iff_count.mpr fun fd => ?_
    have := (sound_of_run h).placed (· == fd)
    simp only [List.count, List.countP_append]
    omega
  order := (sound_of_run h).order
  taken := fun fd => by
    rw [Finset.card_filter]
    refine ((sound_of_run h).served (· == fd)).trans ?_
    refine congrArg _ (Finset.sum_congr rfl fun i _ => ?_)
    cases s.worker i <;> simp [Pool.Worker.serves]
  bound := by
    have hqueue : s.queue.Sound := (sound_of_run h).queue
    have hlength := hqueue.length_contents
    have hle := hqueue.count_le
    omega
  refused := fun m t hstep hdropped => by
    cases hstep with
    | refuse hs hfull => exact push_eq_none (sound_of_run h).queue hfull
    | _ => exact absurd rfl hdropped

/-- Of 65 connections the last is refused, the first is served and finished, the second is being
served, and the others wait. -/
theorem placed_refusedOne :
    ∃ s ∈ Pool.play clientQueue initThreadPool
        (((List.range 64).map Int.ofNat).flatMap putClient ++ [.accept 64, .lock, .put] ++
          lookAtQueue 0 ++ lookAtQueue 1 ++ [.finish 0]),
      (s.dropped = [64] ∧ s.taken = [0, 1] ∧ s.finished = [0] ∧ s.queue.contents.length = 62) ∧
        Placed s := by
  obtain ⟨s, hs, hplaced⟩ : ∃ s ∈ Pool.play clientQueue initThreadPool
      (((List.range 64).map Int.ofNat).flatMap putClient ++ [.accept 64, .lock, .put] ++
        lookAtQueue 0 ++ lookAtQueue 1 ++ [.finish 0]),
      s.dropped = [64] ∧ s.taken = [0, 1] ∧ s.finished = [0] ∧ s.queue.contents.length = 62 := by
    decide +kernel
  exact ⟨s, hs, hplaced, placed_of_run (Pool.run_of_play hs)⟩

end Runs

end OnlineAuction.Queue
