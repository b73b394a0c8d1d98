import OnlineAuction.Accounting
import OnlineAuction.LockCalls

/-!
# OnlineAuction.LockDiscipline

The server's threads take locks in one order, and never wait for each other.

The handlers are checked against a conduct over their own calls
(`handlerLocks`): at most one lock at a time, none while a message is sent.
`keeps_expand` carries that down to the mutexes of the wallets and of the files,
which are taken above it and released on every path; `Duty.tidy` says so of every
piece of work, and `locksInOrder_of_run` of every state that any threads reach.
-/

namespace OnlineAuction

/-! ## the handlers -/

/-- What a handler may do with locks: it takes one only when it holds none, and
never the bucket of a wallet; it releases the one it holds, and sends with none
in hand. -/
def handlerLocks : Conduct ApiSig (List Lock) where
  first := []
  note g e :=
    match e.1 with
    | .sys (.lock l) => l :: g
    | .sys (.unlock l) => g.erase l
    | _ => g
  pre g o :=
    (∀ l ∈ g, (LockId.lock l).rank = 0) ∧
      match o with
      | .sys (.lock l) => g = [] ∧ (LockId.lock l).rank = 0
      | .sys (.unlock l) => l ∈ g
      | .sys (.send _ _) => g = []
      | _ => True
  post _ _ _ := True

/-- The program starts and ends with no lock in hand, and keeps to the conduct
in between. -/
def LocksTidy {α : Type} (p : Prog ApiSig α) : Prop :=
  handlerLocks.Keeps (fun _ g => g = []) p []

/-- One tidy program after another is tidy. -/
theorem LocksTidy.bind {α β : Type} {p : Prog ApiSig α} {f : α → Prog ApiSig β}
    (h : LocksTidy p) (hf : ∀ a, LocksTidy (f a)) : LocksTidy (p >>= f) := by
  unfold LocksTidy
  rw [Conduct.keeps_bind]
  exact h.mono fun a g hg => by rw [hg]; exact hf a

/-- A call that takes and releases nothing needs no care between two sections. -/
def ApiOp.Unlocked : ApiOp → Prop
  | .sys (.lock _) | .sys (.unlock _) => False
  | _ => True

/-- A call that takes and frees no lock leaves the locks that are remembered. -/
theorem ApiOp.Unlocked.note {o : ApiOp} (ho : o.Unlocked) (g : List Lock) (r : o.Res) :
    handlerLocks.note g ⟨o, r⟩ = g := by
  simp only [handlerLocks]
  split
  · exact ho.elim
  · exact ho.elim
  · rfl

/-- A call without locks comes before a tidy program. -/
theorem LocksTidy.call {α : Type} {o : ApiOp} {k : o.Res → Prog ApiSig α} (ho : o.Unlocked)
    (hk : ∀ r, LocksTidy (k r)) : LocksTidy (.call o k) := by
  have hpre : handlerLocks.pre [] o := by
    refine ⟨by simp, ?_⟩
    split
    · exact ho.elim
    · exact ho.elim
    · rfl
    · trivial
  exact ⟨hpre, fun r _ => by rw [ho.note [] r]; exact hk r⟩

section Handlers

variable (sha256Hex : List UInt8 → List UInt8) (clientFd : Int) (u : User)

/-- Notifications lock the registry only while they look it up. -/
theorem locksTidy_pushNotification (userId : UInt32) (type : MessageType) (payload : Payload) :
    LocksTidy (pushNotification userId type payload) := by
  simp [LocksTidy, pushNotification, handlerLocks, LockId.rank]

theorem locksTidy_handleViewAuctions : LocksTidy (handleViewAuctions clientFd) := by
  simp [LocksTidy, handleViewAuctions, Option.forall, handlerLocks]

theorem locksTidy_handleViewMyBids : LocksTidy (handleViewMyBids clientFd u) := by
  simp [LocksTidy, handleViewMyBids, Option.forall, handlerLocks]

theorem locksTidy_handleViewBalance : LocksTidy (handleViewBalance clientFd u) := by
  simp [LocksTidy, handleViewBalance, Option.forall, handlerLocks]

theorem locksTidy_handleListUsers : LocksTidy (handleListUsers clientFd) := by
  simp [LocksTidy, handleListUsers, Option.forall, handlerLocks]

theorem locksTidy_handleViewDisputes : LocksTidy (handleViewDisputes clientFd) := by
  simp [LocksTidy, handleViewDisputes, Option.forall, handlerLocks]

theorem locksTidy_handleViewFeedback : LocksTidy (handleViewFeedback clientFd) := by
  simp [LocksTidy, handleViewFeedback, Option.forall, handlerLocks]

theorem locksTidy_handleSubmitFeedback (req : FeedbackPayload) :
    LocksTidy (handleSubmitFeedback clientFd req u) := by
  simp [LocksTidy, handleSubmitFeedback, handlerLocks]

/-- The wallet functions and the file functions are called with the semaphore
in hand, and it is released on each of the three error returns. -/
theorem locksTidy_handlePlaceBid (req : PlaceBidPayload) :
    LocksTidy (handlePlaceBid clientFd req u) := by
  simp [LocksTidy, handlePlaceBid, placeBidLocked, getAuctionSem, recordBid, releaseLeader,
    Conduct.keeps_bind, notifyOutbid, pushNotification, Option.forall, handlerLocks, LockId.rank,
    auctionSem]

/-- `close_auction_internal` itself takes no lock. -/
theorem locksTidy_closeAuctionInternal (a : Auction) : LocksTidy (closeAuctionInternal a) := by
  have hclosed : LocksTidy (notifyAuctionClosed a.sellerId a.auctionId) :=
    locksTidy_pushNotification _ _ _
  have hrelease (site : Site) (b : Auction) : LocksTidy (releaseLeader site b) := by
    unfold releaseLeader
    split
    · exact .call trivial fun _ => rfl
    · rfl
  unfold closeAuctionInternal
  refine .call trivial fun _ => ?_
  split
  · refine .call trivial fun _ => .call trivial fun _ => .call trivial fun _ =>
      .call trivial fun _ => ?_
    exact (locksTidy_pushNotification _ _ _).bind fun _ => hclosed.bind fun _ => rfl
  · exact (hrelease _ _).bind fun _ => hclosed.bind fun _ => rfl

theorem locksTidy_handleCloseAuction (req : CloseAuctionPayload) :
    LocksTidy (handleCloseAuction clientFd req u) := by
  refine .call trivial fun r => ?_
  cases r with
  | none => exact .call trivial fun _ => rfl
  | some a =>
      simp only [Prog.bind_of_pure]
      split
      · exact .call trivial fun _ => rfl
      split
      · exact .call trivial fun _ => rfl
      · exact (locksTidy_closeAuctionInternal a).bind fun _ =>
          .call trivial fun _ => .call trivial fun _ => rfl

theorem locksTidy_timerClose (auctionId : UInt32) : LocksTidy (timerClose auctionId) := by
  refine .call trivial fun r => ?_
  cases r with
  | none => rfl
  | some ea =>
      simp only [Prog.bind_of_pure]
      split
      · rfl
      · exact (locksTidy_closeAuctionInternal ea).bind fun _ => .call trivial fun _ => rfl

theorem locksTidy_closeExpired (ids : List UInt32) : LocksTidy (closeExpired ids) := by
  induction ids with
  | nil => rfl
  | cons id ids ih => exact (locksTidy_timerClose id).bind fun _ => ih

/-- A pass of the timer holds no lock from one auction to the next. -/
theorem locksTidy_timerPass : LocksTidy timerPass := by
  refine .call trivial fun now => .call trivial fun r => ?_
  cases r with
  | none => rfl
  | some l => exact locksTidy_closeExpired (expiredIds now l)

theorem locksTidy_handleCreateAuction (req : CreateAuctionPayload) :
    LocksTidy (handleCreateAuction clientFd req u) := by
  simp [LocksTidy, handleCreateAuction, handlerLocks]

theorem locksTidy_handleDeposit (req : DepositPayload) :
    LocksTidy (handleDeposit clientFd req u) := by
  simp [LocksTidy, handleDeposit, handlerLocks]

theorem locksTidy_handleFileDispute (req : FileDisputePayload) :
    LocksTidy (handleFileDispute clientFd req u) := by
  simp [LocksTidy, handleFileDispute, Option.forall, handlerLocks]

theorem locksTidy_handleResolveDispute (req : ResolveDisputePayload) :
    LocksTidy (handleResolveDispute clientFd req u) := by
  unfold handleResolveDispute
  split
  · simp [LocksTidy, handlerLocks]
  · simp [LocksTidy, handlerLocks]
  · simp [LocksTidy, concludeDispute, refund, Option.forall, Conduct.keeps_bind, handlerLocks]

theorem locksTidy_handleToggleAccount (req : ToggleAccountPayload) :
    LocksTidy (handleToggleAccount clientFd req u) := by
  simp [LocksTidy, handleToggleAccount, Option.forall, handlerLocks]

theorem locksTidy_handleAddUser (req : AddUserPayload) :
    LocksTidy (handleAddUser sha256Hex clientFd req) := by
  simp [LocksTidy, handleAddUser, handlerLocks]

theorem locksTidy_handleChangeRole (req : ChangeRolePayload) :
    LocksTidy (handleChangeRole clientFd req) := by
  simp [LocksTidy, handleChangeRole, demotesLastAdmin, Option.forall, Conduct.keeps_bind,
    handlerLocks]

/-- A login frees the mutex of the sessions on each of its paths. -/
theorem locksTidy_handleLogin (req : LoginPayload) :
    LocksTidy (handleLogin sha256Hex clientFd req u) := by
  simp [LocksTidy, handleLogin, createSession, notifyRegister, Option.forall, handlerLocks,
    LockId.rank]

/-- A logout clears the session under the mutex. -/
theorem locksTidy_handleLogout : LocksTidy (handleLogout clientFd u) := by
  simp [LocksTidy, handleLogout, clearSession, notifyUnregister, Option.forall, handlerLocks,
    LockId.rank]

/-- The end of a connection takes the mutex of the registry only. -/
theorem locksTidy_cleanUp (c : Conn) : LocksTidy (cleanUp c) := by
  simp [LocksTidy, cleanUp, clearSession, notifyUnregister, Option.forall, handlerLocks,
    LockId.rank]

theorem locksTidy_handleChangePassword (req : ChangePassPayload) :
    LocksTidy (handleChangePassword sha256Hex clientFd req u) := by
  simp [LocksTidy, handleChangePassword, handlerLocks]

/-! ### dispatch -/

/-- A refusal takes no lock. -/
theorem locksTidy_whenAllowed (allowed : Bool) {p : Prog ApiSig Unit} (h : LocksTidy p) :
    LocksTidy (whenAllowed allowed clientFd p) := by
  unfold whenAllowed
  split
  · exact h
  · exact .call trivial fun _ => rfl

/-- Every request is handled with the locks in order. -/
theorem locksTidy_dispatch (m : Request) :
    LocksTidy (dispatch sha256Hex clientFd u m) := by
  cases m with
  | fileDispute req => exact locksTidy_whenAllowed _ _ (locksTidy_handleFileDispute _ _ req)
  | viewAuctions => exact locksTidy_handleViewAuctions _
  | placeBid req => exact locksTidy_whenAllowed _ _ (locksTidy_handlePlaceBid _ _ req)
  | viewBalance => exact locksTidy_handleViewBalance _ _
  | viewMyBids => exact locksTidy_handleViewMyBids _ _
  | submitFeedback req => exact locksTidy_handleSubmitFeedback _ _ req
  | createAuction req => exact locksTidy_whenAllowed _ _ (locksTidy_handleCreateAuction _ _ req)
  | closeAuction req => exact locksTidy_whenAllowed _ _ (locksTidy_handleCloseAuction _ _ req)
  | viewDisputes => exact locksTidy_whenAllowed _ _ (locksTidy_handleViewDisputes _)
  | resolveDispute req =>
      exact locksTidy_whenAllowed _ _ (locksTidy_handleResolveDispute _ _ req)
  | viewFeedback => exact locksTidy_whenAllowed _ _ (locksTidy_handleViewFeedback _)
  | toggleAccount req => exact locksTidy_whenAllowed _ _ (locksTidy_handleToggleAccount _ _ req)
  | addUser req => exact locksTidy_whenAllowed _ _ (locksTidy_handleAddUser _ _ req)
  | listUsers => exact locksTidy_whenAllowed _ _ (locksTidy_handleListUsers _)
  | changeRole req => exact locksTidy_whenAllowed _ _ (locksTidy_handleChangeRole _ req)
  | _ => exact .call trivial fun _ => rfl

/-- So is every message of a connection. -/
theorem locksTidy_serve (c : Conn) (m : Request) :
    LocksTidy (serve sha256Hex clientFd c m) := by
  cases m with
  | login req => exact (locksTidy_handleLogin _ _ _ req).bind fun _ => rfl
  | logout =>
      simp only [serve]
      split
      · exact .call trivial fun _ => rfl
      · exact (locksTidy_handleLogout _ _).bind fun _ => rfl
  | changePass req =>
      simp only [serve]
      split
      · exact .call trivial fun _ => rfl
      · exact (locksTidy_handleChangePassword _ _ _ req).bind fun _ => rfl
  | deposit req =>
      simp only [serve]
      split
      · exact .call trivial fun _ => rfl
      · exact (locksTidy_handleDeposit _ _ req).bind fun _ => rfl
  | _ =>
      simp only [serve]
      split
      · exact .call trivial fun _ => rfl
      · exact (locksTidy_dispatch sha256Hex clientFd _ _).bind fun _ => rfl

end Handlers

/-! ## down to the mutexes -/

section Expand

variable {g : List LockId} {α : Type}

/-- A file function takes and frees the mutex of its file. -/
theorem balanced_access {op : SysOp} (hs : (LockOp.access op).Socket → g = []) :
    serverLocks.Balanced (access op) g :=
  .plain rfl (fun hw => hw.elim hs nofun) fun _ => rfl

/-- A function of `file_io.h` gives its mutex back on both its returns. -/
theorem balanced_guarded {unit : TransUnit} {f : DataFile} {failed : α} {body : Prog LockSig α}
    (hg : ∀ l ∈ g, l.rank < 2) (hbody : serverLocks.Balanced body (.mtx unit f :: g)) :
    serverLocks.Balanced (guarded unit f failed body) g := by
  refine .acquire rfl hg fun _ => ⟨fun hw => hw.elim False.elim nofun, fun opened _ => ?_⟩
  cases opened with
  | false => exact Locking.keeps_release rfl fun _ => rfl
  | true =>
      have hend : serverLocks.conduct.Keeps (fun _ g' => g' = g)
          (body >>= fun r => release (.mtx unit f) >>= fun _ => Prog.pure r)
          (.mtx unit f :: g) := by
        rw [Conduct.keeps_bind]
        refine hbody.mono fun r g' hr => ?_
        rw [hr]
        exact Locking.keeps_release rfl fun _ => rfl
      exact hend

/-- What is done after a seek keeps the balance if the body does. -/
theorem balanced_seekThen {f : DataFile} {failed : α} {body : Prog LockSig α}
    (hbody : serverLocks.Balanced body g) :
    serverLocks.Balanced (seekThen f failed body) g := by
  refine .plain rfl (fun hw => hw.elim False.elim nofun) fun found => ?_
  cases found with
  | false => rfl
  | true => exact hbody

/-- A system call other than on a lock of the handlers: below the mutexes it
ends with the locks it started with. -/
theorem balanced_sysExpand (unit : TransUnit) (op : SysOp) (hop : (ApiOp.sys op).Unlocked)
    (hg : ∀ l ∈ g, l.rank < 2) (hs : (LockOp.access op).Socket → g = []) :
    serverLocks.Balanced (op.expand unit) g := by
  cases op with
  | lock l | unlock l => exact hop.elim
  | readUser id | writeUser u =>
      exact balanced_guarded hg (balanced_seekThen (balanced_access False.elim))
  | findUserByUsername name | readAuction id | writeAuction a | appendBid b
  | findSessionSlot id | findFreeSlot | writeSession slot x | logTxn line | appendFeedback f
  | readDispute id | writeDispute d =>
      exact balanced_guarded hg (balanced_access False.elim)
  | _ => exact balanced_access hs

/-! ### the wallet functions -/

/-- The body of the wallet functions takes the mutex of the users twice. -/
theorem balanced_applyWalletDelta (hg : ∀ l ∈ g, l.rank < 2) (userId : UInt32)
    (balanceDelta holdDelta : ℚ) :
    serverLocks.Balanced
      ((applyWalletDelta userId balanceDelta holdDelta).subst (SysOp.expand .wallet)) g := by
  refine (balanced_sysExpand .wallet (.readUser userId) trivial hg False.elim).bind fun r => ?_
  cases r with
  | none => rfl
  | some u =>
      simp only [Prog.bind_of_pure]
      split
      · rfl
      · next v _ =>
          exact (balanced_sysExpand .wallet (.writeUser v) trivial hg False.elim).bind fun _ => rfl

/-- Below a bucket there is still room for the mutex of a file. -/
theorem rank_lt_bucket (hg : ∀ l ∈ g, l.rank < 1) (userId : UInt32) :
    ∀ l ∈ LockId.lock (getWalletLock userId) :: g, l.rank < 2 := by
  intro l hl
  rcases List.mem_cons.mp hl with rfl | hl
  · exact Nat.one_lt_two
  · exact (hg l hl).trans Nat.one_lt_two

/-- The end of a wallet function: the bucket is released, then the log written. -/
theorem keeps_unlockThenLog (hg : ∀ l ∈ g, l.rank < 2) (userId : UInt32) (line : LogLine)
    (result : Int) :
    serverLocks.conduct.Keeps (fun _ g' => g' = g)
      ((do
        Sys.unlock (getWalletLock userId)
        Sys.logTxn line
        pure result : Prog SysSig Int).subst (SysOp.expand .wallet))
      (.lock (getWalletLock userId) :: g) :=
  Locking.keeps_release rfl fun _ =>
    (balanced_sysExpand .wallet (.logTxn line) trivial hg False.elim).bind fun _ => rfl

/-- `apply_wallet_delta` under the bucket of the user. -/
theorem keeps_deltaThenLog (hg : ∀ l ∈ g, l.rank < 1) (userId : UInt32)
    (balanceDelta holdDelta : ℚ) (line : LogLine) :
    serverLocks.conduct.Keeps (fun _ g' => g' = g)
      ((do
        let result ← applyWalletDelta userId balanceDelta holdDelta
        Sys.unlock (getWalletLock userId)
        Sys.logTxn line
        pure result : Prog SysSig Int).subst (SysOp.expand .wallet))
      (.lock (getWalletLock userId) :: g) := by
  rw [Prog.subst_bind, Conduct.keeps_bind]
  have hdelta := balanced_applyWalletDelta (rank_lt_bucket hg userId) userId balanceDelta holdDelta
  refine hdelta.mono fun r g' hr => ?_
  rw [hr]
  exact keeps_unlockThenLog (fun l hl => (hg l hl).trans Nat.one_lt_two) userId line r

/-- The wallet functions take the mutex of the user's bucket around it. -/
theorem balanced_lockedDelta (hg : ∀ l ∈ g, l.rank < 1) (userId : UInt32)
    (balanceDelta holdDelta : ℚ) (line : LogLine) :
    serverLocks.Balanced
      ((lockedDelta userId balanceDelta holdDelta line).subst (SysOp.expand .wallet)) g :=
  .acquire rfl hg fun _ => keeps_deltaThenLog hg userId balanceDelta holdDelta line

/-- `place_hold` frees the mutex on each of its three paths. -/
theorem balanced_placeHold (hg : ∀ l ∈ g, l.rank < 1) (userId : UInt32) (amount : ℚ) :
    serverLocks.Balanced ((placeHold userId amount).subst (SysOp.expand .wallet)) g := by
  have hread := balanced_sysExpand .wallet (.readUser userId) trivial (rank_lt_bucket hg userId)
    False.elim
  refine .acquire rfl hg fun _ => ?_
  simp only [Prog.bind_of_pure, Sys.readUser, Prog.bind_call, Prog.bind_pure, Prog.subst_call,
    Conduct.keeps_bind]
  refine hread.mono fun r g' hr => ?_
  rw [hr]
  cases r with
  | none => exact Locking.keeps_release rfl fun _ => rfl
  | some u =>
      simp only
      split
      · exact Locking.keeps_release rfl fun _ => rfl
      · exact keeps_deltaThenLog hg userId 0 amount (.hold userId amount)

/-- Every wallet call ends with the locks it began with. -/
theorem balanced_walletCall (hg : ∀ l ∈ g, l.rank < 1) (c : WalletCall) :
    serverLocks.Balanced (c.prog.subst (SysOp.expand .wallet)) g := by
  cases c with
  | placeHold userId amount => exact balanced_placeHold hg userId amount
  | releaseHold userId amount => exact balanced_lockedDelta hg userId _ _ _
  | settlePayment userId amount => exact balanced_lockedDelta hg userId _ _ _
  | creditWallet userId amount => exact balanced_lockedDelta hg userId _ _ _

/-! ### the handlers -/

/-- Different locks have different names. -/
theorem lockId_injective : Function.Injective LockId.lock := fun _ _ => LockId.lock.inj

/-- What a call of a handler does with the locks is what its conduct says. -/
theorem keeps_expand (unit : TransUnit) (g : List Lock) (o : ApiOp) (h : handlerLocks.pre g o) :
    serverLocks.conduct.Keeps
      (fun r g' => handlerLocks.post g o r ∧ g' = (handlerLocks.note g ⟨o, r⟩).map .lock)
      (o.expand unit) (g.map .lock) := by
  have hrank : ∀ l ∈ g.map LockId.lock, l.rank < 1 := by
    intro l hl
    obtain ⟨m, hm, rfl⟩ := List.mem_map.mp hl
    have := h.1 m hm
    omega
  have hlt : ∀ l ∈ g.map LockId.lock, l.rank < 2 := fun l hl => (hrank l hl).trans Nat.one_lt_two
  cases o with
  | wallet site c => exact (balanced_walletCall hrank c).mono fun _ _ hg' => ⟨trivial, hg'⟩
  | sys op =>
      by_cases hop : (ApiOp.sys op).Unlocked
      · have hs : (LockOp.access op).Socket → g.map LockId.lock = [] := by
          intro hsocket
          cases op with
          | send fd m => rw [show g = [] from h.2]; rfl
          | _ => exact hsocket.elim
        refine (balanced_sysExpand unit op hop hlt hs).mono fun r g' hg' => ⟨trivial, ?_⟩
        rw [hg', hop.note g r]
      · cases op with
        | lock l =>
            obtain ⟨rfl, -⟩ := h.2
            exact ⟨fun m hm => absurd hm List.not_mem_nil, fun _ _ => ⟨trivial, rfl⟩⟩
        | unlock l =>
            refine ⟨List.mem_map_of_mem h.2, fun _ _ => ⟨trivial, ?_⟩⟩
            exact (List.map_erase lockId_injective g).symm
        | _ => exact absurd trivial hop

/-- **A handler keeps to the order of the locks**, mutexes included. -/
theorem LocksTidy.expand {p : Prog ApiSig α} (h : LocksTidy p) (unit : TransUnit) :
    serverLocks.Tidy (p.subst (ApiOp.expand unit)) := by
  refine (Locking.keeps_subst (keeps_expand unit) h).mono fun a g' hg' => ?_
  obtain ⟨g, rfl, rfl⟩ := hg'
  rfl

end Expand

/-! ## the threads -/

section Threads

variable (sha256Hex : List UInt8 → List UInt8)

/-- A whole connection is tidy. -/
theorem tidy_conversation (fd : Int) (c : Conn) (messages : List Request) :
    serverLocks.Tidy (conversation sha256Hex fd c messages) := by
  induction messages generalizing c with
  | nil => exact .plain rfl (fun _ => rfl) fun _ => (locksTidy_cleanUp c).expand .server
  | cons m ms ih =>
      refine .plain rfl (fun _ => rfl) fun _ =>
        ((locksTidy_serve sha256Hex fd c m).expand m.unit).bind fun x => ?_
      obtain ⟨c', running⟩ := x
      simp only
      split
      · exact ih c'
      · exact (locksTidy_cleanUp c').expand .server

/-- Queueing frees the mutex of the queue, full or not. -/
theorem tidy_enqueueClient (fd : Int) : serverLocks.Tidy (enqueueClient fd) := by
  simp [Locking.Tidy, Locking.Balanced, enqueueClient, serverLocks, Locking.conduct,
    Locking.Allows, Locking.held, LockOp.Socket]

/-- The worker gives the lock of the queue back before it sleeps and before it
returns. -/
theorem keeps_awaitClient (wakeups : Nat) :
    serverLocks.conduct.Keeps (fun _ g => g = []) (awaitClient wakeups) [.workQueue] := by
  induction wakeups with
  | zero =>
      simp [awaitClient, takeClient, serverLocks, Locking.conduct, Locking.Allows, Locking.held,
        LockOp.Socket]
  | succ wakeups ih =>
      simpa [awaitClient, takeClient, serverLocks, Locking.conduct, Locking.Allows, Locking.held,
        LockOp.Socket] using ih

/-- So does taking, however often the worker is woken. -/
theorem tidy_dequeueClient (wakeups : Nat) : serverLocks.Tidy (dequeueClient wakeups) :=
  .acquire rfl (fun _ hm => absurd hm List.not_mem_nil) fun _ => keeps_awaitClient wakeups

/-- Whatever a thread is there for, it is tidy. -/
theorem Duty.tidy (duty : Duty) : serverLocks.Tidy (duty.prog sha256Hex) := by
  cases duty with
  | enqueue fd => exact (tidy_enqueueClient fd).bind fun _ => rfl
  | work wakeups messages =>
      refine (tidy_dequeueClient wakeups).bind fun r => ?_
      cases r with
      | none => rfl
      | some fd =>
          simp only
          split
          · rfl
          · exact tidy_conversation sha256Hex fd .fresh messages
  | converse fd c messages => exact tidy_conversation sha256Hex fd c messages
  | timer => exact locksTidy_timerPass.expand .auctionEngine
  | notify userId type payload =>
      exact (locksTidy_pushNotification userId type payload).expand .notify

/-- No work of any kind breaks the discipline of the locks. -/
theorem tidy_duties {ι : Type} (duties : ι → List Duty) (t : ι) :
    ∀ p ∈ (duties t).map (Duty.prog sha256Hex), serverLocks.Tidy p := by
  intro p hp
  obtain ⟨duty, -, rfl⟩ := List.mem_map.mp hp
  exact duty.tidy sha256Hex

/-- What holds of the locks in every state of the server's threads. -/
structure LocksInOrder {ι ρ : Type} (c : Config LockSig ι (Owned LockId ι ρ)) : Prop where
  /-- A thread that is through with its work has released what it took. -/
  released : ∀ t l, c.prog t = .pure () → c.shared.owner l ≠ some t
  owned : ∀ t l k, c.prog t = .call (.release l) k → c.shared.owner l = some t
  once : ∀ t l k, c.prog t = .call (.acquire l) k → c.shared.owner l ≠ some t
  oneSemaphore : ∀ t i j, c.shared.owner (.lock (.auctionSem i)) = some t →
    c.shared.owner (.lock (.auctionSem j)) = some t → i = j
  oneBucket : ∀ t i j, c.shared.owner (.lock (.wallet i)) = some t →
    c.shared.owner (.lock (.wallet j)) = some t → i = j
  socket : ∀ t o k l, c.prog t = .call o k → o.Socket → c.shared.owner l ≠ some t
  noDeadlock : ∀ T : Set ι, ¬ serverLocks.Deadlocked c T

/-- **Lock discipline and deadlock freedom**: any threads that do any of the
server's work, in any interleaving and whatever the calls answer. -/
theorem locksInOrder_of_reach {ι ρ : Type} [DecidableEq ι]
    (raw : ι → (o : LockOp) → ρ → o.Res × ρ) (env : ρ → ρ → Prop) (s : ρ)
    (duties : ι → List Duty)
    {d : Config LockSig ι (Owned LockId ι ρ)}
    (h : Reach (serverLocks.system raw env)
      (.start ⟨fun _ => none, s⟩ fun t => (duties t).map (Duty.prog sha256Hex)) d) :
    LocksInOrder d := by
  have hord : serverLocks.Ordered d := .of_run (tidy_duties sha256Hex duties) h
  constructor
  case released => exact fun t l hp => hord.idle hp
  case owned => exact fun t l k hp => hord.release hp rfl
  case once => exact fun t l k hp hl => (hord.acquire hp rfl hl).false
  case oneSemaphore =>
    intro t i j hi hj
    have heq := hord.eq_of_rank hi hj rfl
    injection heq with heq
    injection heq
  case oneBucket =>
    intro t i j hi hj
    have heq := hord.eq_of_rank hi hj rfl
    injection heq with heq
    injection heq
  case socket =>
    intro t o k l hp hs
    refine hord.waits hp ?_ (.inl hs)
    cases o with
    | acquire l | release l => exact hs.elim
    | _ => rfl
  case noDeadlock => exact hord.not_deadlocked LockId.rank_le

end Threads

/-- Two bids on one auction: the first bidder's hold is being placed, under the
semaphore, a bucket and the mutex of the users, while the second bidder waits. -/
theorem locksInOrder_of_reach_twoBids :
    let c : Conn := ⟨true, .sample 3 roleBidder 100 0⟩
    let bid (t : Fin 2) : List Duty := [.converse (4 + t) c [.placeBid ⟨1, 20⟩]]
    let d := (Config.start ⟨fun _ => none, .market, []⟩ fun t =>
      (bid t).map (Duty.prog fun _ => [])).after
        (serverLocks.system (fun _ => LockOp.exec) Eq) anyStep
          (List.replicate 44 0 ++ List.replicate 16 1)
    LocksInOrder d ∧
      d.shared.owner (.lock (.wallet 3)) = some 0 ∧ d.shared.owner (.mtx .wallet .users) = some 0 :=
  ⟨locksInOrder_of_reach (fun _ => []) (fun _ => LockOp.exec) Eq _ _ (Run.after _), by
    decide +kernel⟩

end OnlineAuction
