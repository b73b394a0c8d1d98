import OnlineAuction.Threads
import OnlineAuction.WalletEffect

/-!
# OnlineAuction.Footprint

What each handler may write.

Every call belongs to the area of the store that it writes (`ApiOp.area`), and
`Within areas p` says that the program `p` makes no calls outside the listed
areas.  The area of a whole user record (`users`) is kept apart from that of
the wallet functions (`wallets`).
-/

namespace OnlineAuction

/-- The parts of the store that a call can write. -/
inductive Area
  | users | wallets | auctions | bids | sessions | feedback | disputes | registry
  | nothing
  deriving DecidableEq

/-- What a system call writes; the log, the locks and the messages sent are
not accounted for. -/
@[simp] def SysOp.area : SysOp → Area
  | .writeUser _ => .users
  | .writeAuction _ => .auctions
  | .appendBid _ | .markWinningBids _ _ => .bids
  | .writeSession _ _ => .sessions
  | .appendFeedback _ | .markFeedbackReviewed => .feedback
  | .writeDispute _ => .disputes
  | .registryInsert _ _ | .registryRemove _ => .registry
  | _ => .nothing

@[simp] def ApiOp.area : ApiOp → Area
  | .sys op => op.area
  | .wallet _ _ => .wallets

/-- The call writes nothing outside these areas. -/
def ApiOp.In (areas : List Area) (op : ApiOp) : Prop := op.area ∈ Area.nothing :: areas

/-- The program makes no call that writes outside these areas. -/
def Within (areas : List Area) {α : Type} (p : Prog ApiSig α) : Prop :=
  p.Respects (ApiOp.In areas) (fun _ _ => True) fun _ => True

/-! ## frames -/

section Frames

variable {areas : List Area} {α : Type} {p : Prog ApiSig α} {s : Store}

/-- Only calls of the area change the auctions. -/
theorem exec_auctions {op : ApiOp} (h : op.area ≠ .auctions) :
    (Api.exec op s).2.auctions = s.auctions := by
  cases op with
  | sys op =>
      cases op with
      | writeAuction a => exact absurd rfl h
      | _ => rfl
  | wallet site c => exact exec_wallet_auctions s site c

/-- Only calls of the area change the registry. -/
theorem exec_registry {op : ApiOp} (h : op.area ≠ .registry) :
    (Api.exec op s).2.registry = s.registry := by
  cases op with
  | sys op =>
      cases op with
      | registryInsert id fd | registryRemove id => exact absurd rfl h
      | _ => rfl
  | wallet site c => exact exec_wallet_registry s site c

/-- Only calls of the area change the disputes. -/
theorem exec_disputes {op : ApiOp} (h : op.area ≠ .disputes) :
    (Api.exec op s).2.disputes = s.disputes := by
  cases op with
  | sys op =>
      cases op with
      | writeDispute d => exact absurd rfl h
      | _ => rfl
  | wallet site c => exact exec_wallet_disputes s site c

/-- More areas may be listed than are written. -/
theorem Within.subset {areas' : List Area} (h : Within areas p) (hsub : areas ⊆ areas') :
    Within areas' p :=
  h.weaken (fun _ hop => List.cons_subset_cons _ hsub hop) fun _ _ _ => trivial

/-- What every call of a program leaves as it is, a run of it does. -/
theorem Within.run_eq {β : Type} (h : Within areas p) {f : Store → β}
    (hf : ∀ op s, ApiOp.In areas op → f (Api.exec op s).2 = f s) :
    f (Prog.run Api.exec p s).2 = f s := by
  refine (h.run (h := Api.exec) (I := fun x => f x = f s) ?_ rfl).1
  exact fun op x hx hop => ⟨(hf op x hop).trans hx, trivial⟩

end Frames

/-- A notification is one more message, if the user is connected. -/
theorem run_pushNotification (userId : UInt32) (type : MessageType) (payload : Payload)
    (s : Store) :
    Prog.run Api.exec (pushNotification userId type payload) s =
      ((), { s with sent := s.sent ++
        if lookupFdIn s.registry userId < 0 then []
        else [(lookupFdIn s.registry userId, ⟨type, .errOk, payload⟩)] }) := by
  change Prog.run Api.exec (if lookupFdIn s.registry userId < 0 then pure () else
    sendMsg (lookupFdIn s.registry userId) type .errOk payload) s = _
  split
  · simp
  · rfl

/-! ## the handlers -/

section Handlers

variable (sha256Hex : List UInt8 → List UInt8) (clientFd : Int) (u : User)

/-- The lists write nothing. -/
theorem within_handleViewAuctions : Within [] (handleViewAuctions clientFd) := by
  simp [Within, handleViewAuctions, Option.forall, ApiOp.In, ApiOp.area,
    SysOp.area]

theorem within_handleViewMyBids : Within [] (handleViewMyBids clientFd u) := by
  simp [Within, handleViewMyBids, Option.forall, ApiOp.In, ApiOp.area,
    SysOp.area]

theorem within_handleViewBalance : Within [] (handleViewBalance clientFd u) := by
  simp [Within, handleViewBalance, Option.forall, ApiOp.In, ApiOp.area,
    SysOp.area]

theorem within_handleListUsers : Within [] (handleListUsers clientFd) := by
  simp [Within, handleListUsers, Option.forall, ApiOp.In, ApiOp.area,
    SysOp.area]

theorem within_handleViewDisputes : Within [] (handleViewDisputes clientFd) := by
  simp [Within, handleViewDisputes, Option.forall, ApiOp.In, ApiOp.area,
    SysOp.area]

/-- Viewing the feedback writes back the flag of each record. -/
theorem within_handleViewFeedback : Within [.feedback] (handleViewFeedback clientFd) := by
  simp [Within, handleViewFeedback, Option.forall, ApiOp.In, ApiOp.area,
    SysOp.area]

theorem within_handleSubmitFeedback (req : FeedbackPayload) :
    Within [.feedback] (handleSubmitFeedback clientFd req u) := by
  simp [Within, handleSubmitFeedback, ApiOp.In, ApiOp.area,
    SysOp.area]

/-- A bid writes wallets, the auction and the bid, and no whole user record. -/
theorem within_handlePlaceBid (req : PlaceBidPayload) :
    Within [.wallets, .auctions, .bids] (handlePlaceBid clientFd req u) := by
  simp [Within, handlePlaceBid, placeBidLocked, getAuctionSem, recordBid, releaseLeader,
    notifyOutbid, pushNotification, Option.forall, ApiOp.In, ApiOp.area,
    SysOp.area]

/-- So does a close, which marks the winning bids. -/
theorem within_closeAuctionInternal (a : Auction) :
    Within [.wallets, .auctions, .bids] (closeAuctionInternal a) := by
  have hrelease (site : Site) (b : Auction) :
      Within [.wallets, .auctions, .bids] (releaseLeader site b) := by
    unfold releaseLeader
    split <;> simp [Within, ApiOp.In, ApiOp.area]
  simpa [Within, closeAuctionInternal, notifyAuctionWon, notifyAuctionClosed, pushNotification,
    ApiOp.In, ApiOp.area, SysOp.area] using fun _ => hrelease _ _

theorem within_handleCloseAuction (req : CloseAuctionPayload) :
    Within [.wallets, .auctions, .bids] (handleCloseAuction clientFd req u) := by
  simpa [Within, handleCloseAuction, Option.forall, ApiOp.In, ApiOp.area, SysOp.area] using
    fun a _ _ => within_closeAuctionInternal a

theorem within_timerClose (auctionId : UInt32) :
    Within [.wallets, .auctions, .bids] (timerClose auctionId) := by
  simpa [Within, timerClose, Option.forall, ApiOp.In, ApiOp.area, SysOp.area] using
    fun a _ => within_closeAuctionInternal a

theorem within_closeExpired (ids : List UInt32) :
    Within [.wallets, .auctions, .bids] (closeExpired ids) := by
  induction ids with
  | nil => simp [Within, closeExpired]
  | cons id ids ih =>
      simp only [Within, closeExpired, Prog.respects_bind]
      exact (within_timerClose id).mono fun _ _ => ih

/-- And so does a pass of the timer. -/
theorem within_timerPass : Within [.wallets, .auctions, .bids] timerPass := by
  simpa [Within, timerPass, Option.forall, ApiOp.In, ApiOp.area, SysOp.area] using
    fun now l => within_closeExpired (expiredIds now l)

theorem within_handleCreateAuction (req : CreateAuctionPayload) :
    Within [.auctions] (handleCreateAuction clientFd req u) := by
  simp [Within, handleCreateAuction, ApiOp.In, ApiOp.area, SysOp.area]

/-- A deposit writes a wallet. -/
theorem within_handleDeposit (req : DepositPayload) :
    Within [.wallets] (handleDeposit clientFd req u) := by
  simp [Within, handleDeposit, ApiOp.In, ApiOp.area, SysOp.area]

/-- A dispute is stored and marks its auction. -/
theorem within_handleFileDispute (req : FileDisputePayload) :
    Within [.auctions, .disputes] (handleFileDispute clientFd req u) := by
  simp [Within, handleFileDispute, Option.forall, ApiOp.In, ApiOp.area, SysOp.area]

/-- A resolution moves money too. -/
theorem within_handleResolveDispute (req : ResolveDisputePayload) :
    Within [.wallets, .auctions, .disputes] (handleResolveDispute clientFd req u) := by
  unfold handleResolveDispute
  split
  · simp [Within, ApiOp.In, ApiOp.area, SysOp.area]
  · simp [Within, ApiOp.In, ApiOp.area, SysOp.area]
  · simp [Within, concludeDispute, refund, Option.forall, ApiOp.In, ApiOp.area, SysOp.area]

/-- Switching an account writes the whole record of a user. -/
theorem within_handleToggleAccount (req : ToggleAccountPayload) :
    Within [.users] (handleToggleAccount clientFd req u) := by
  simp [Within, handleToggleAccount, Option.forall, ApiOp.In, ApiOp.area, SysOp.area]

/-- A login writes the session, the registry and the time in the user's record. -/
theorem within_handleLogin (req : LoginPayload) :
    Within [.sessions, .registry, .users] (handleLogin sha256Hex clientFd req u) := by
  simp [Within, handleLogin, createSession, notifyRegister, Option.forall, ApiOp.In,
    ApiOp.area, SysOp.area]

/-- A logout writes the session and the registry. -/
theorem within_handleLogout : Within [.sessions, .registry] (handleLogout clientFd u) := by
  simp [Within, handleLogout, clearSession, notifyUnregister, Option.forall, ApiOp.In,
    ApiOp.area, SysOp.area]

theorem within_cleanUp (c : Conn) : Within [.sessions, .registry] (cleanUp c) := by
  simp [Within, cleanUp, clearSession, notifyUnregister, Option.forall, ApiOp.In,
    ApiOp.area, SysOp.area]

/-- A change of password writes the whole record of a user. -/
theorem within_handleChangePassword (req : ChangePassPayload) :
    Within [.users] (handleChangePassword sha256Hex clientFd req u) := by
  simp [Within, handleChangePassword, ApiOp.In, ApiOp.area, SysOp.area]

/-- A new user is a whole record. -/
theorem within_handleAddUser (req : AddUserPayload) :
    Within [.users] (handleAddUser sha256Hex clientFd req) := by
  simp [Within, handleAddUser, ApiOp.In, ApiOp.area, SysOp.area]

/-- A change of role writes the whole record of a user. -/
theorem within_handleChangeRole (req : ChangeRolePayload) :
    Within [.users] (handleChangeRole clientFd req) := by
  simp [Within, handleChangeRole, demotesLastAdmin, Option.forall, ApiOp.In, ApiOp.area,
    SysOp.area]

/-! ## dispatch -/

/-- What the requests that only read `current_user` may write. -/
def dispatchAreas : List Area := [.users, .wallets, .auctions, .bids, .feedback, .disputes]

/-- A refusal writes nothing. -/
theorem within_whenAllowed {areas : List Area} (allowed : Bool) {p : Prog ApiSig Unit}
    (h : Within areas p) : Within areas (whenAllowed allowed clientFd p) := by
  unfold whenAllowed
  split
  · exact h
  · simp [Within, ApiOp.In]

/-- What each request may write. -/
def Request.areas : Request → List Area
  | .login _ => [.sessions, .registry, .users]
  | .logout => [.sessions, .registry]
  | .changePass _ | .toggleAccount _ | .addUser _ | .changeRole _ => [.users]
  | .deposit _ => [.wallets]
  | .placeBid _ | .closeAuction _ => [.wallets, .auctions, .bids]
  | .submitFeedback _ | .viewFeedback => [.feedback]
  | .createAuction _ => [.auctions]
  | .fileDispute _ => [.auctions, .disputes]
  | .resolveDispute _ => [.wallets, .auctions, .disputes]
  | _ => []

/-- Every request writes the areas of its table. -/
theorem within_dispatch_areas (m : Request) :
    Within m.areas (dispatch sha256Hex clientFd u m) := by
  cases m with
  | fileDispute req => exact within_whenAllowed _ _ (within_handleFileDispute _ _ req)
  | viewAuctions => exact within_handleViewAuctions _
  | placeBid req => exact within_whenAllowed _ _ (within_handlePlaceBid _ _ req)
  | viewBalance => exact within_handleViewBalance _ _
  | viewMyBids => exact within_handleViewMyBids _ _
  | submitFeedback req => exact within_handleSubmitFeedback _ _ req
  | createAuction req => exact within_whenAllowed _ _ (within_handleCreateAuction _ _ req)
  | closeAuction req => exact within_whenAllowed _ _ (within_handleCloseAuction _ _ req)
  | viewDisputes => exact within_whenAllowed _ _ (within_handleViewDisputes _)
  | resolveDispute req => exact within_whenAllowed _ _ (within_handleResolveDispute _ _ req)
  | viewFeedback => exact within_whenAllowed _ _ (within_handleViewFeedback _)
  | toggleAccount req => exact within_whenAllowed _ _ (within_handleToggleAccount _ _ req)
  | addUser req => exact within_whenAllowed _ _ (within_handleAddUser _ _ req)
  | listUsers => exact within_whenAllowed _ _ (within_handleListUsers _)
  | changeRole req => exact within_whenAllowed _ _ (within_handleChangeRole _ req)
  | _ => simp [Within, dispatch, ApiOp.In]

/-- Whatever the request, these areas are all. -/
theorem within_dispatch (m : Request) :
    Within dispatchAreas (dispatch sha256Hex clientFd u m) := by
  cases m with
  | login | logout => simp [Within, dispatch, ApiOp.In]
  | _ =>
      exact (within_dispatch_areas sha256Hex clientFd u _).subset
        (by simp [Request.areas, dispatchAreas])

/-- A message of a connection writes the areas of its request. -/
theorem within_serve (c : Conn) (m : Request) : Within m.areas (serve sha256Hex clientFd c m) := by
  have hdispatch := within_dispatch_areas sha256Hex clientFd c.currentUser m
  cases m with
  | login req =>
      exact (within_handleLogin sha256Hex clientFd c.currentUser req).bind fun _ _ => trivial
  | logout =>
      simpa [Within, serve, ApiOp.In, Request.areas] using
        fun _ => within_handleLogout clientFd c.currentUser
  | changePass req =>
      simpa [Within, serve, ApiOp.In, Request.areas] using
        fun _ => within_handleChangePassword sha256Hex clientFd c.currentUser req
  | deposit req =>
      simpa [Within, serve, ApiOp.In, Request.areas] using
        fun _ => within_handleDeposit clientFd c.currentUser req
  | _ => simpa [Within, serve, ApiOp.In] using fun _ => hdispatch

end Handlers

end OnlineAuction
