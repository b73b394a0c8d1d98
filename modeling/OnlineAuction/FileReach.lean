import OnlineAuction.LockDiscipline

/-!
# OnlineAuction.FileReach

Which C file reaches which data file.

A `FileSection` is a data file with a C file whose functions of `common/file_io.h`
work on it.  `Request.sections` lists the sections that a request can enter, by
its handler's own calls and by those of `wallet.c`, and `Duty.sections` those of
all of a thread's work.  `Duty.through_prog` says that the lists are complete:
no thread takes or releases a mutex that its work does not list.
-/

namespace OnlineAuction

/-- A data file, reached by the functions of one C file. -/
abbrev FileSection : Type := TransUnit × DataFile

/-! ## what a call enters -/

/-- The file whose mutex a system call takes, in whatever C file it is made. -/
@[simp] def SysOp.file : SysOp → Option DataFile
  | .readUser _ | .writeUser _ | .findUserByUsername _ => some .users
  | .readAuction _ | .writeAuction _ => some .auctions
  | .appendBid _ => some .bids
  | .findSessionSlot _ | .findFreeSlot | .writeSession _ _ => some .sessions
  | .logTxn _ => some .txnLog
  | .appendFeedback _ => some .feedback
  | .readDispute _ | .writeDispute _ => some .disputes
  | _ => none

/-- A wallet function reads and writes the user's record and logs, in `wallet.c`. -/
def walletSections : List FileSection := [(.wallet, .users), (.wallet, .txnLog)]

/-- The sections of a call made in `unit`. -/
@[simp] def ApiOp.sections (unit : TransUnit) : ApiOp → List FileSection
  | .sys op => (op.file.map fun f => (unit, f)).toList
  | .wallet _ _ => walletSections

/-- The program, made of calls in `unit`, enters no other section. -/
def Enters (unit : TransUnit) (l : List FileSection) {α : Type} (p : Prog ApiSig α) : Prop :=
  p.Respects (fun o : ApiOp => o.sections unit ⊆ l) (fun _ _ => True) fun _ => True

/-- The same of a program below the wallet functions. -/
def SysEnters (unit : TransUnit) (l : List FileSection) {α : Type} (p : Prog SysSig α) : Prop :=
  p.Respects (fun op => (ApiOp.sys op).sections unit ⊆ l) (fun _ _ => True) fun _ => True

/-- A call that takes and releases no mutex outside the list. -/
def LockOp.Through (l : List FileSection) : LockOp → Prop
  | .acquire (.mtx unit f) | .release (.mtx unit f) => (unit, f) ∈ l
  | _ => True

/-- A program of lock calls that takes no mutex outside the list. -/
def Through (l : List FileSection) {α : Type} (p : Prog LockSig α) : Prop :=
  p.Respects (LockOp.Through l) (fun _ _ => True) fun _ => True

section Calls

variable {unit : TransUnit} {l l' : List FileSection} {α β : Type}

/-- One program after another enters what both enter. -/
theorem Enters.bind {p : Prog ApiSig α} {f : α → Prog ApiSig β} (h : Enters unit l p)
    (hf : ∀ a, Enters unit l (f a)) : Enters unit l (p >>= f) :=
  Prog.Respects.bind h fun a _ => hf a

/-- More sections may be listed than are entered. -/
theorem Enters.subset {p : Prog ApiSig α} (h : Enters unit l p) (hsub : l ⊆ l') :
    Enters unit l' p :=
  h.weaken (fun _ ho => List.Subset.trans ho hsub) fun _ _ _ => trivial

/-- The same for programs over locks. -/
theorem Through.bind {p : Prog LockSig α} {f : α → Prog LockSig β} (h : Through l p)
    (hf : ∀ a, Through l (f a)) : Through l (p >>= f) :=
  Prog.Respects.bind h fun a _ => hf a

/-- There too more may be listed. -/
theorem Through.subset {p : Prog LockSig α} (h : Through l p) (hsub : l ⊆ l') : Through l' p := by
  refine h.weaken (fun o ho => ?_) fun _ _ _ => trivial
  cases o with
  | acquire k | release k =>
      cases k with
      | mtx unit f => exact hsub ho
      | lock _ | workQueue => trivial
  | _ => trivial

/-- A function of `file_io.h` takes the mutex that its C file has of the file. -/
theorem through_guarded {f : DataFile} {failed : α} {body : Prog LockSig α}
    (h : (unit, f) ∈ l) (hbody : Through l body) : Through l (guarded unit f failed body) := by
  refine ⟨h, fun _ _ => ⟨trivial, fun opened _ => ?_⟩⟩
  cases opened with
  | false => exact ⟨h, fun _ _ => trivial⟩
  | true => exact hbody.bind fun _ => ⟨h, fun _ _ => trivial⟩

/-- A plain call enters no file. -/
theorem through_access (op : SysOp) : Through l (access op) := ⟨trivial, fun _ _ => trivial⟩

/-- What is done after a seek enters what the body enters. -/
theorem through_seekThen {f : DataFile} {failed : α} {body : Prog LockSig α}
    (hbody : Through l body) : Through l (seekThen f failed body) := by
  refine ⟨trivial, fun found _ => ?_⟩
  cases found with
  | false => trivial
  | true => exact hbody

/-- A system call enters the section of its file, in the C file that makes it. -/
theorem through_sysExpand (op : SysOp) (h : (ApiOp.sys op).sections unit ⊆ l) :
    Through l (op.expand unit) := by
  have hmem (f : DataFile) (hf : op.file = some f) : (unit, f) ∈ l :=
    h (by rw [ApiOp.sections, hf]; exact List.mem_singleton_self _)
  cases op with
  | lock k | unlock k => exact ⟨trivial, fun _ _ => trivial⟩
  | readUser id | writeUser u =>
      exact through_guarded (hmem _ rfl) (through_seekThen (through_access _))
  | findUserByUsername name | readAuction id | writeAuction a | appendBid b
  | findSessionSlot id | findFreeSlot | writeSession slot x | logTxn line | appendFeedback f
  | readDispute id | writeDispute d =>
      exact through_guarded (hmem _ rfl) (through_access _)
  | _ => exact through_access _

section WalletFunctions

variable (userId : UInt32) (balanceDelta holdDelta : ℚ)

/-- The body of the wallet functions goes through `wallet.c`. -/
theorem sysEnters_applyWalletDelta :
    SysEnters .wallet walletSections (applyWalletDelta userId balanceDelta holdDelta) := by
  refine ⟨by simp [walletSections], fun r _ => ?_⟩
  cases r with
  | none => trivial
  | some u =>
      simp only [Prog.bind_of_pure]
      split
      · trivial
      · exact ⟨by simp [walletSections], fun _ _ => trivial⟩

/-- After the record the bucket is released and the log written. -/
theorem sysEnters_deltaThenLog (line : LogLine) :
    SysEnters .wallet walletSections (do
      let result ← applyWalletDelta userId balanceDelta holdDelta
      Sys.unlock (getWalletLock userId)
      Sys.logTxn line
      pure result) := by
  refine (sysEnters_applyWalletDelta userId balanceDelta holdDelta).bind fun _ _ => ?_
  simp [walletSections]

/-- So does `place_hold`. -/
theorem sysEnters_placeHold (amount : ℚ) :
    SysEnters .wallet walletSections (placeHold userId amount) := by
  refine ⟨by simp, fun _ _ => ⟨by simp [walletSections], fun r _ => ?_⟩⟩
  cases r with
  | none => simp
  | some u =>
      simp only [Prog.bind_of_pure]
      split
      · simp
      · exact sysEnters_deltaThenLog userId 0 amount _

/-- The wallet functions work on `users.dat` and on the log, and on nothing else. -/
theorem sysEnters_walletCall (c : WalletCall) : SysEnters .wallet walletSections c.prog := by
  cases c with
  | placeHold userId amount => exact sysEnters_placeHold userId amount
  | releaseHold userId amount | settlePayment userId amount | creditWallet userId amount =>
      exact ⟨by simp, fun _ _ => sysEnters_deltaThenLog userId _ _ _⟩

end WalletFunctions

/-- What is listed of system calls holds of the calls that they stand for. -/
theorem SysEnters.expand {p : Prog SysSig α} (h : SysEnters unit l p) :
    Through l (p.subst (SysOp.expand unit)) := by
  refine Prog.Respects.subst (fun op hop => ?_) h
  exact through_sysExpand op hop

/-- **Down to the mutexes**: what a handler takes is what its calls list. -/
theorem Enters.expand {p : Prog ApiSig α} (h : Enters unit l p) :
    Through l (p.subst (ApiOp.expand unit)) := by
  refine Prog.Respects.subst (fun o ho => ?_) h
  cases o with
  | sys op => exact through_sysExpand op ho
  | wallet site c => exact (sysEnters_walletCall c).expand.subset ho

end Calls

/-! ## the handlers -/

section Handlers

variable (sha256Hex : List UInt8 → List UInt8) (clientFd : Int) (u : User)

/-- A notification enters no data file. -/
theorem enters_pushNotification (unit : TransUnit) (userId : UInt32) (type : MessageType)
    (payload : Payload) : Enters unit [] (pushNotification userId type payload) := by
  simp [Enters, pushNotification]

/-- The lists are answered from a pass over the file, outside the mutexes. -/
theorem enters_handleViewAuctions : Enters .bidHandler [] (handleViewAuctions clientFd) := by
  simp [Enters, handleViewAuctions, Option.forall]

/-- The lists read their file in the handler itself, without the mutex. -/
theorem enters_handleViewMyBids : Enters .bidHandler [] (handleViewMyBids clientFd u) := by
  simp [Enters, handleViewMyBids, Option.forall]

theorem enters_handleListUsers : Enters .admin [] (handleListUsers clientFd) := by
  simp [Enters, handleListUsers, Option.forall]

theorem enters_handleViewDisputes : Enters .dispute [] (handleViewDisputes clientFd) := by
  simp [Enters, handleViewDisputes, Option.forall]

theorem enters_handleViewFeedback : Enters .dispute [] (handleViewFeedback clientFd) := by
  simp [Enters, handleViewFeedback, Option.forall]

/-- The balance is read through `wallet.c`. -/
theorem enters_handleViewBalance :
    Enters .wallet [(.wallet, .users)] (handleViewBalance clientFd u) := by
  simp [Enters, handleViewBalance, Option.forall]

/-- A deposit stays in `wallet.c`. -/
theorem enters_handleDeposit (req : DepositPayload) :
    Enters .wallet walletSections (handleDeposit clientFd req u) := by
  simp [Enters, handleDeposit, walletSections]

theorem enters_handleSubmitFeedback (req : FeedbackPayload) :
    Enters .bidHandler [(.bidHandler, .feedback)] (handleSubmitFeedback clientFd req u) := by
  simp [Enters, handleSubmitFeedback]

/-- What `handle_place_bid` enters: the files of `bid_handler.c`, and those of the wallet. -/
def placeBidSections : List FileSection :=
  [(.bidHandler, .users), (.bidHandler, .auctions), (.bidHandler, .bids),
    (.bidHandler, .txnLog)] ++ walletSections

/-- A bid reaches users, auctions and bids from `bid_handler.c`, and users and the log from
`wallet.c`. -/
theorem enters_handlePlaceBid (req : PlaceBidPayload) :
    Enters .bidHandler placeBidSections (handlePlaceBid clientFd req u) := by
  simp [Enters, handlePlaceBid, placeBidLocked, getAuctionSem, recordBid, releaseLeader,
    notifyOutbid, pushNotification, Option.forall, placeBidSections, walletSections]

/-- What a close enters, by a seller or by the timer. -/
def closeSections : List FileSection :=
  [(.auctionEngine, .auctions), (.auctionEngine, .txnLog)] ++ walletSections

/-- A close reaches the auctions and the log from `auction_engine.c`, and users and the log from
`wallet.c`. -/
theorem enters_closeAuctionInternal (a : Auction) :
    Enters .auctionEngine closeSections (closeAuctionInternal a) := by
  have hrelease (site : Site) (b : Auction) :
      Enters .auctionEngine closeSections (releaseLeader site b) := by
    unfold releaseLeader
    split <;> simp [Enters, closeSections, walletSections]
  simpa [Enters, closeAuctionInternal, notifyAuctionWon, notifyAuctionClosed, pushNotification,
    closeSections, walletSections] using fun _ => hrelease _ _

theorem enters_handleCloseAuction (req : CloseAuctionPayload) :
    Enters .auctionEngine closeSections (handleCloseAuction clientFd req u) := by
  simpa [Enters, handleCloseAuction, Option.forall, closeSections] using
    fun a _ _ => enters_closeAuctionInternal a

theorem enters_timerClose (auctionId : UInt32) :
    Enters .auctionEngine closeSections (timerClose auctionId) := by
  simpa [Enters, timerClose, Option.forall, closeSections] using
    fun a _ => enters_closeAuctionInternal a

theorem enters_closeExpired (ids : List UInt32) :
    Enters .auctionEngine closeSections (closeExpired ids) := by
  induction ids with
  | nil => trivial
  | cons id ids ih => exact (enters_timerClose id).bind fun _ => ih

/-- So does a pass of the timer. -/
theorem enters_timerPass : Enters .auctionEngine closeSections timerPass := by
  simpa [Enters, timerPass, Option.forall] using fun now l => enters_closeExpired (expiredIds now l)

theorem enters_handleCreateAuction (req : CreateAuctionPayload) :
    Enters .auctionEngine [(.auctionEngine, .auctions), (.auctionEngine, .txnLog)]
      (handleCreateAuction clientFd req u) := by
  simp [Enters, handleCreateAuction]

/-- A dispute is filed from `dispute.c` alone. -/
theorem enters_handleFileDispute (req : FileDisputePayload) :
    Enters .dispute [(.dispute, .auctions), (.dispute, .disputes), (.dispute, .txnLog)]
      (handleFileDispute clientFd req u) := by
  simp [Enters, handleFileDispute, Option.forall]

/-- The refund reads the seller in `dispute.c` and moves the money in `wallet.c`. -/
theorem enters_handleResolveDispute (req : ResolveDisputePayload) :
    Enters .dispute ([(.dispute, .users), (.dispute, .auctions), (.dispute, .disputes),
      (.dispute, .txnLog)] ++ walletSections) (handleResolveDispute clientFd req u) := by
  unfold handleResolveDispute
  split
  · simp [Enters]
  · simp [Enters]
  · simp [Enters, concludeDispute, refund, Option.forall, walletSections]

theorem enters_handleToggleAccount (req : ToggleAccountPayload) :
    Enters .dispute [(.dispute, .users), (.dispute, .txnLog)]
      (handleToggleAccount clientFd req u) := by
  simp [Enters, handleToggleAccount, Option.forall]

theorem enters_handleAddUser (req : AddUserPayload) :
    Enters .admin [(.admin, .users), (.admin, .txnLog)]
      (handleAddUser sha256Hex clientFd req) := by
  simp [Enters, handleAddUser]

theorem enters_handleChangeRole (req : ChangeRolePayload) :
    Enters .admin [(.admin, .users), (.admin, .txnLog)] (handleChangeRole clientFd req) := by
  simp [Enters, handleChangeRole, demotesLastAdmin, Option.forall]

/-- A login reaches users, sessions and the log from `auth.c`. -/
theorem enters_handleLogin (req : LoginPayload) :
    Enters .auth [(.auth, .users), (.auth, .sessions), (.auth, .txnLog)]
      (handleLogin sha256Hex clientFd req u) := by
  simp [Enters, handleLogin, createSession, notifyRegister, Option.forall]

theorem enters_handleLogout :
    Enters .auth [(.auth, .sessions), (.auth, .txnLog)] (handleLogout clientFd u) := by
  simp [Enters, handleLogout, clearSession, notifyUnregister, Option.forall]

theorem enters_handleChangePassword (req : ChangePassPayload) :
    Enters .auth [(.auth, .users), (.auth, .txnLog)]
      (handleChangePassword sha256Hex clientFd req u) := by
  simp [Enters, handleChangePassword]

/-- The clean-up frees the slot in `server.c`, whatever `auth.c` did before. -/
theorem enters_cleanUp (c : Conn) : Enters .server [(.server, .sessions)] (cleanUp c) := by
  simp [Enters, cleanUp, clearSession, notifyUnregister, Option.forall]

/-! ### dispatch -/

/-- The sections that a request can enter. -/
def Request.sections : Request → List FileSection
  | .login _ => [(.auth, .users), (.auth, .sessions), (.auth, .txnLog)]
  | .logout => [(.auth, .sessions), (.auth, .txnLog)]
  | .changePass _ => [(.auth, .users), (.auth, .txnLog)]
  | .placeBid _ => placeBidSections
  | .submitFeedback _ => [(.bidHandler, .feedback)]
  | .viewBalance => [(.wallet, .users)]
  | .deposit _ => walletSections
  | .createAuction _ => [(.auctionEngine, .auctions), (.auctionEngine, .txnLog)]
  | .closeAuction _ => closeSections
  | .fileDispute _ => [(.dispute, .auctions), (.dispute, .disputes), (.dispute, .txnLog)]
  | .resolveDispute _ =>
      [(.dispute, .users), (.dispute, .auctions), (.dispute, .disputes), (.dispute, .txnLog)] ++
        walletSections
  | .toggleAccount _ => [(.dispute, .users), (.dispute, .txnLog)]
  | .addUser _ | .changeRole _ => [(.admin, .users), (.admin, .txnLog)]
  | _ => []

theorem enters_send {unit : TransUnit} {l : List FileSection} (type : MessageType)
    (status : ErrCode) (payload : Payload) :
    Enters unit l (sendMsg clientFd type status payload) := by
  simp [Enters]

/-- A refusal enters no file. -/
theorem enters_whenAllowed {unit : TransUnit} {l : List FileSection} (allowed : Bool)
    {p : Prog ApiSig Unit} (h : Enters unit l p) :
    Enters unit l (whenAllowed allowed clientFd p) := by
  unfold whenAllowed
  split
  · exact h
  · exact enters_send clientFd _ _ _

/-- The table of the requests is complete for the handlers. -/
theorem enters_dispatch (m : Request) :
    Enters m.unit m.sections (dispatch sha256Hex clientFd u m) := by
  cases m with
  | fileDispute req => exact enters_whenAllowed _ _ (enters_handleFileDispute _ _ req)
  | viewAuctions => exact enters_handleViewAuctions _
  | placeBid req => exact enters_whenAllowed _ _ (enters_handlePlaceBid _ _ req)
  | viewBalance => exact enters_handleViewBalance _ _
  | viewMyBids => exact enters_handleViewMyBids _ _
  | submitFeedback req => exact enters_handleSubmitFeedback _ _ req
  | createAuction req => exact enters_whenAllowed _ _ (enters_handleCreateAuction _ _ req)
  | closeAuction req => exact enters_whenAllowed _ _ (enters_handleCloseAuction _ _ req)
  | viewDisputes => exact enters_whenAllowed _ _ (enters_handleViewDisputes _)
  | resolveDispute req => exact enters_whenAllowed _ _ (enters_handleResolveDispute _ _ req)
  | viewFeedback => exact enters_whenAllowed _ _ (enters_handleViewFeedback _)
  | toggleAccount req => exact enters_whenAllowed _ _ (enters_handleToggleAccount _ _ req)
  | addUser req => exact enters_whenAllowed _ _ (enters_handleAddUser _ _ req)
  | listUsers => exact enters_whenAllowed _ _ (enters_handleListUsers _)
  | changeRole req => exact enters_whenAllowed _ _ (enters_handleChangeRole _ req)
  | _ => exact enters_send clientFd _ _ _

/-- And for what a connection does with a message. -/
theorem enters_serve (c : Conn) (m : Request) :
    Enters m.unit m.sections (serve sha256Hex clientFd c m) := by
  have hpure {unit : TransUnit} {l : List FileSection} (x : Conn × Bool) :
      Enters unit l (.pure x) := trivial
  have hrefused {unit : TransUnit} {l : List FileSection} (p : Prog ApiSig (Conn × Bool))
      (hp : Enters unit l p) : Enters unit l
        (if !c.authenticated then do
          sendMsg clientFd .msgError .errAuthFail .empty
          pure (c, true)
        else p) := by
    split
    · exact (enters_send clientFd _ _ _).bind fun _ => hpure _
    · exact hp
  cases m with
  | login req => exact (enters_handleLogin _ _ _ req).bind fun _ => hpure _
  | logout => exact hrefused _ ((enters_handleLogout _ _).bind fun _ => hpure _)
  | changePass req =>
      exact hrefused _ ((enters_handleChangePassword _ _ _ req).bind fun _ => hpure _)
  | deposit req => exact hrefused _ ((enters_handleDeposit _ _ req).bind fun _ => hpure _)
  | _ => exact hrefused _ ((enters_dispatch sha256Hex clientFd _ _).bind fun _ => hpure _)

end Handlers

/-! ## the threads -/

/-- A conversation can enter what its requests can, and at its end the table of
sessions in `server.c`. -/
def conversationSections (messages : List Request) : List FileSection :=
  messages.flatMap Request.sections ++ [(.server, .sessions)]

/-- The sections that a piece of a thread's work can enter. -/
def Duty.sections : Duty → List FileSection
  | .work _ messages | .converse _ _ messages => conversationSections messages
  | .timer => closeSections
  | .enqueue _ | .notify _ _ _ => []

/-- The sections of all the work of a thread. -/
def workSections (duties : List Duty) : List FileSection := duties.flatMap Duty.sections

section Threads

variable (sha256Hex : List UInt8 → List UInt8)

/-- A whole connection enters what its messages and its end enter. -/
theorem through_conversation (fd : Int) (c : Conn) (messages : List Request) :
    Through (conversationSections messages) (conversation sha256Hex fd c messages) := by
  induction messages generalizing c with
  | nil => exact ⟨trivial, fun _ _ => (enters_cleanUp c).expand⟩
  | cons m ms ih =>
      have hserve : Through (conversationSections (m :: ms))
          ((serve sha256Hex fd c m).subst (ApiOp.expand m.unit)) :=
        (enters_serve sha256Hex fd c m).expand.subset (by simp [conversationSections])
      refine ⟨trivial, fun _ _ => hserve.bind fun x => ?_⟩
      obtain ⟨c', running⟩ := x
      simp only
      split
      · exact (ih c').subset (by simp [conversationSections])
      · exact (enters_cleanUp c').expand.subset (by simp [conversationSections])

/-- The queue has a lock of its own. -/
theorem through_dequeueClient {l : List FileSection} (wakeups : Nat) :
    Through l (dequeueClient wakeups) := by
  have hawait : Through l (awaitClient wakeups) := by
    induction wakeups with
    | zero => simp [Through, awaitClient, takeClient, LockOp.Through]
    | succ wakeups ih => simpa [Through, awaitClient, takeClient, LockOp.Through] using ih
  exact ⟨trivial, fun _ _ => hawait⟩

/-- **The lists are complete**: a piece of work takes and releases no mutex of a
file that it does not list. -/
theorem Duty.through_prog (duty : Duty) : Through duty.sections (duty.prog sha256Hex) := by
  cases duty with
  | enqueue fd => simp [Through, Duty.prog, enqueueClient, LockOp.Through]
  | work wakeups messages =>
      refine (through_dequeueClient wakeups).bind fun r => ?_
      cases r with
      | none => trivial
      | some fd =>
          simp only
          split
          · trivial
          · exact through_conversation sha256Hex fd .fresh messages
  | converse fd c messages => exact through_conversation sha256Hex fd c messages
  | timer => exact enters_timerPass.expand
  | notify userId type payload => exact (enters_pushNotification .notify _ _ _).expand

end Threads

end OnlineAuction
