import OnlineAuction.Lib.LockOrder
import OnlineAuction.Server
import Mathlib.Data.Fintype.Basic

/-!
# OnlineAuction.LockCalls

The server's threads as sequences of lock acquisitions and releases.

A call of `OnlineAuction.FileIO` is here what it is in the source: a function
of `common/file_io.h` takes the mutex of its file, with a release on each of its
error returns, and the wallet functions take the mutex of a bucket around two
such functions.  The file mutexes are `static` in a header, so every C file that
includes it has mutexes of its own (`TransUnit`).  Nothing is said of what the
calls answer: the files, the registry and the sockets are any shared state.

The record locks of `fcntl` are not among the locks: they belong to the process
and never make one of its threads wait for another.
-/

namespace OnlineAuction

/-! ## the locks -/

/-- The C files that `Makefile` links the server from. -/
inductive TransUnit
  | server | auth | auctionEngine | bidHandler | wallet | dispute | admin | notify
  deriving DecidableEq, Repr

instance : Fintype TransUnit where
  elems := {.server, .auth, .auctionEngine, .bidHandler, .wallet, .dispute, .admin, .notify}
  complete unit := by cases unit <;> decide

/-- The files that have a mutex in `common/file_io.h`. -/
inductive DataFile
  | users | auctions | bids | sessions | disputes | feedback | txnLog
  deriving DecidableEq, Repr

/-- All the locks: those of the handlers, the mutexes of the files, one for
each C file, and the lock of the work queue. -/
inductive LockId
  | lock (l : Lock)
  | mtx (unit : TransUnit) (f : DataFile)
  | workQueue
  deriving DecidableEq, Repr

/-- The order in which locks are taken: first those of the handlers, then the
bucket of a wallet, then the mutex of a file. -/
def LockId.rank : LockId → Nat
  | .lock (.wallet _) => 1
  | .lock _ | .workQueue => 0
  | .mtx _ _ => 2

/-- There are three ranks. -/
theorem LockId.rank_le (l : LockId) : l.rank ≤ 2 := by
  unfold LockId.rank
  split <;> omega

/-! ## the calls -/

inductive LockOp
  | acquire (l : LockId)
  | release (l : LockId)
  | openFile (f : DataFile)
  | seekFile (f : DataFile)
  | access (op : SysOp)
  | recvMsg (fd : Int)
  | queueFull
  | queueEmpty
  | pushFd (fd : Int)
  | popFd
  | condWait

/-- The answers: whether `open` and `lseek` succeed, and what a system call
reads once the file is open. -/
abbrev LockOp.Res : LockOp → Type
  | .openFile _ | .seekFile _ | .queueFull | .queueEmpty => Bool
  | .access op => op.Res
  | .popFd => Int
  | .acquire _ | .release _ | .recvMsg _ | .pushFd _ | .condWait => Unit

abbrev LockSig : Sig := ⟨LockOp, LockOp.Res⟩

/-- Reading from a socket and writing to one. -/
def LockOp.Socket : LockOp → Prop
  | .recvMsg _ | .access (.send _ _) => True
  | _ => False

/-- What the calls are for the locks.  A thread also waits when it sleeps on
the condition of the work queue. -/
def serverLocks : Locking LockSig LockId where
  use
    | .acquire l => .acquire l
    | .release l => .release l
    | _ => .plain
  waits op := op.Socket ∨ op = .condWait
  rank := LockId.rank

section Calls

@[simp] def acquire (l : LockId) : Prog LockSig Unit := .call (.acquire l) .pure
@[simp] def release (l : LockId) : Prog LockSig Unit := .call (.release l) .pure
@[simp] def openFile (f : DataFile) : Prog LockSig Bool := .call (.openFile f) .pure
@[simp] def seekFile (f : DataFile) : Prog LockSig Bool := .call (.seekFile f) .pure
@[simp] def access (op : SysOp) : Prog LockSig op.Res := .call (.access op) .pure
@[simp] def recvMsg (fd : Int) : Prog LockSig Unit := .call (.recvMsg fd) .pure
@[simp] def queueFull : Prog LockSig Bool := .call .queueFull .pure
@[simp] def queueEmpty : Prog LockSig Bool := .call .queueEmpty .pure
@[simp] def pushFd (fd : Int) : Prog LockSig Unit := .call (.pushFd fd) .pure
@[simp] def popFd : Prog LockSig Int := .call .popFd .pure
@[simp] def condWait : Prog LockSig Unit := .call .condWait .pure

end Calls

/-- `WORK_QUEUE_SIZE`. -/
abbrev workQueueSize : Nat := 64

/-- What the calls do over a store whose files open, and the descriptors that
wait in the queue.  The locks are left to who runs (`Locking.system`). -/
def LockOp.exec : Prog.Handler LockSig (Store × List Int)
  | .access op, s => ((Store.exec op s.1).1, (Store.exec op s.1).2, s.2)
  | .openFile _, s | .seekFile _, s => (true, s)
  | .queueFull, s => (s.2.length == workQueueSize, s)
  | .queueEmpty, s => (s.2.isEmpty, s)
  | .pushFd fd, s => ((), s.1, s.2 ++ [fd])
  | .popFd, s => (s.2.headD (-1), s.1, s.2.tail)
  | .acquire _, s | .release _, s | .recvMsg _, s | .condWait, s => ((), s)

/-! ## the functions of `file_io.h` -/

/-- A function on the file `f`: its body runs between lock and unlock, and it
returns `failed` when the file does not open. -/
def guarded {α : Type} (unit : TransUnit) (f : DataFile) (failed : α)
    (body : Prog LockSig α) : Prog LockSig α := do
  acquire (.mtx unit f)
  if !(← openFile f) then do
    release (.mtx unit f)
    pure failed
  else do
    let r ← body
    release (.mtx unit f)
    pure r

/-- The two functions on users that also check what `lseek` returns. -/
def seekThen {α : Type} (f : DataFile) (failed : α) (body : Prog LockSig α) : Prog LockSig α := do
  if !(← seekFile f) then pure failed else body

/-- What a system call does with locks when it is made in `unit`.  The
functions that return the next identifier, the passes over a file and the
registry take none. -/
def SysOp.expand (unit : TransUnit) : (op : SysOp) → Prog LockSig op.Res
  | .lock l => acquire (.lock l)
  | .unlock l => release (.lock l)
  | .readUser id => guarded unit .users none (seekThen .users none (access (.readUser id)))
  | .writeUser u => guarded unit .users (-1) (seekThen .users (-1) (access (.writeUser u)))
  | .findUserByUsername name => guarded unit .users none (access (.findUserByUsername name))
  | .readAuction id => guarded unit .auctions none (access (.readAuction id))
  | .writeAuction a => guarded unit .auctions (-1) (access (.writeAuction a))
  | .appendBid b => guarded unit .bids (-1) (access (.appendBid b))
  | .findSessionSlot id => guarded unit .sessions none (access (.findSessionSlot id))
  | .findFreeSlot => guarded unit .sessions (some 0) (access .findFreeSlot)
  | .writeSession slot x => guarded unit .sessions (-1) (access (.writeSession slot x))
  | .logTxn line => guarded unit .txnLog () (access (.logTxn line))
  | .appendFeedback f => guarded unit .feedback (-1) (access (.appendFeedback f))
  | .readDispute id => guarded unit .disputes none (access (.readDispute id))
  | .writeDispute d => guarded unit .disputes (-1) (access (.writeDispute d))
  | op => access op

/-- The wallet functions are in `wallet.c`, whoever calls them. -/
def ApiOp.expand (unit : TransUnit) : (o : ApiOp) → Prog LockSig o.Res
  | .sys op => op.expand unit
  | .wallet _ c => c.prog.subst (SysOp.expand .wallet)

/-! ## the work queue -/

/-- `enqueue_client`: a full queue drops the connection. -/
def enqueueClient (fd : Int) : Prog LockSig Int := do
  acquire .workQueue
  if ← queueFull then do
    release .workQueue
    pure (-1)
  else do
    pushFd fd
    release .workQueue
    pure 0

/-- The end of `dequeue_client`. -/
def takeClient : Prog LockSig (Option Int) := do
  let fd ← popFd
  release .workQueue
  pure (some fd)

/-- The loop of `dequeue_client`, with the lock held: `pthread_cond_wait`
releases it, sleeps and takes it again.  A worker that is not woken again has
no descriptor. -/
def awaitClient : Nat → Prog LockSig (Option Int)
  | 0 => do
      if ← queueEmpty then do
        release .workQueue
        condWait
        pure none
      else takeClient
  | wakeups + 1 => do
      if ← queueEmpty then do
        release .workQueue
        condWait
        acquire .workQueue
        awaitClient wakeups
      else takeClient

def dequeueClient (wakeups : Nat) : Prog LockSig (Option Int) := do
  acquire .workQueue
  awaitClient wakeups

/-! ## the threads -/

/-- The C file of the handler that serves a request; the others are answered
by `handle_client` itself. -/
def Request.unit : Request → TransUnit
  | .login _ | .logout | .changePass _ => .auth
  | .viewAuctions | .placeBid _ | .viewMyBids | .submitFeedback _ => .bidHandler
  | .viewBalance | .deposit _ => .wallet
  | .createAuction _ | .closeAuction _ => .auctionEngine
  | .fileDispute _ | .viewDisputes | .resolveDispute _ | .viewFeedback | .toggleAccount _ =>
      .dispute
  | .addUser _ | .listUsers | .changeRole _ => .admin
  | _ => .server

variable (sha256Hex : List UInt8 → List UInt8)

/-- The loop of `handle_client`, with the reads from the socket: the last one
finds the client gone. -/
def conversation (fd : Int) (c : Conn) : List Request → Prog LockSig Unit
  | [] => do
      recvMsg fd
      (cleanUp c).subst (ApiOp.expand .server)
  | m :: ms => do
      recvMsg fd
      let (c, running) ← (serve sha256Hex fd c m).subst (ApiOp.expand m.unit)
      if running then conversation fd c ms
      else (cleanUp c).subst (ApiOp.expand .server)

/-- A piece of the work of the server's threads: one turn of the loop of
`main`, of `worker_thread` and of `timer_thread`, a conversation from any state
of its locals on, or a notification. -/
inductive Duty
  | enqueue (fd : Int)
  | work (wakeups : Nat) (messages : List Request)
  | converse (fd : Int) (c : Conn) (messages : List Request)
  | timer
  | notify (userId : UInt32) (type : MessageType) (payload : Payload)

/-- The program of a piece of work. -/
def Duty.prog : Duty → Prog LockSig Unit
  | .enqueue fd => do
      let _ ← enqueueClient fd
      pure ()
  | .work wakeups messages => do
      match ← dequeueClient wakeups with
      | none => pure ()
      | some fd => if fd ≤ 0 then pure () else conversation sha256Hex fd .fresh messages
  | .converse fd c messages => conversation sha256Hex fd c messages
  | .timer => timerPass.subst (ApiOp.expand .auctionEngine)
  | .notify userId type payload =>
      (pushNotification userId type payload).subst (ApiOp.expand .notify)

end OnlineAuction
