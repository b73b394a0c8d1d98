import OnlineAuction.Answers
import OnlineAuction.Menus

/-!
# OnlineAuction.MenuAnswers

What the server answers to a client that uses its menus.

The client shows the menu of the role that its login was answered with, and the server asks for a
role where it dispatches a request.  The two agree: as long as the user's record keeps the role,
nothing that a menu offers is answered with `MSG_ERROR` (`stay_noError`).  And whatever is written
while a request is served fits the buffer in which the client waits for its answer
(`received_whole`).
-/

namespace OnlineAuction

open Wire

/-! ## menus and roles -/

/-- The roles for which the server dispatches what the function sends; a login is not in a menu. -/
def Action.Permitted (role : Role) : Action → Prop
  | .doLogin => False
  | .bidderPlaceBid | .bidderFileDispute => role = roleBidder
  | .auctioneerCreate | .auctioneerClose => role = roleAuctioneer ∨ role = roleAdmin
  | .modDisputes | .modResolve | .modFeedback | .modToggle => roleModerator ≤ role
  | .adminAddUser | .adminListUsers | .adminChangeRole => role = roleAdmin
  | _ => True

/-- A menu has only what its role may do. -/
theorem permitted_of_item {role : Role} {items : Int32 → Option Action} {choice : Int32}
    {action : Action} (hmenu : menuOf role = some items) (hitem : items choice = some action) :
    action.Permitted role := by
  unfold menuOf at hmenu
  split at hmenu
  · next hrole =>
      cases hmenu
      unfold menuBidder at hitem
      split at hitem <;> cases hitem <;> simp [Action.Permitted, hrole]
  split at hmenu
  · next hrole =>
      cases hmenu
      unfold menuAuctioneer at hitem
      split at hitem <;> cases hitem <;> simp [Action.Permitted, hrole]
  split at hmenu
  · next hrole =>
      cases hmenu
      unfold menuModerator at hitem
      split at hitem <;> cases hitem <;> simp [Action.Permitted, hrole]
  split at hmenu
  · next hrole =>
      cases hmenu
      unfold menuAdmin at hitem
      split at hitem <;> cases hitem <;> simp [Action.Permitted, hrole]
  · cases hmenu

/-- Every type but `MSG_ERROR`. -/
def noError : List MessageType := messageTypes.filter fun t => t ≠ .msgError

/-- The user's record is there, and has this role. -/
def StillHas (userId : UInt32) (role : Role) : (o : ApiOp) → o.Res → Prop
  | .sys (.readUser id), r => id = userId → ∃ u, r = some u ∧ u.userId = userId ∧ u.role = role
  | _, _ => True

/-- The program writes no `MSG_ERROR` as long as the user's record has this role. -/
abbrev SaysNoError (userId : UInt32) (role : Role) {α : Type} (p : Prog ApiSig α)
    (Q : α → Prop) : Prop :=
  p.Respects (ApiOp.Says noError) (StillHas userId role) Q

/-- The connection is that of a user of this role. -/
structure Conn.Of (userId : UInt32) (role : Role) (c : Conn) : Prop where
  authenticated : c.authenticated = true
  userId : c.currentUser.userId = userId
  role : c.currentUser.role = role

section Roles

variable {sha256Hex : List UInt8 → List UInt8} {atof : List UInt8 → CharArray 8} {clientFd : Int}
  {userId : UInt32} {role : Role} {types : List MessageType} {α : Type}

theorem Says.noError {p : Prog ApiSig α} (h : Says types p)
    (hsub : types ⊆ OnlineAuction.noError) : SaysNoError userId role p fun _ => True :=
  (h.subset hsub).weaken (fun _ h => h) fun _ _ _ => trivial

/-- A handler that the role allows is run. -/
theorem noError_whenAllowed {allowed : Bool} {p : Prog ApiSig Unit} (hallowed : allowed = true)
    (h : SaysNoError userId role p fun _ => True) :
    SaysNoError userId role (whenAllowed allowed clientFd p) fun _ => True := by
  rw [whenAllowed, if_pos hallowed]
  exact h

/-- A dispatched request leaves the connection alone. -/
theorem noError_dispatched {c : Conn} (hof : c.Of userId role) {p : Prog ApiSig Unit}
    (h : SaysNoError userId role p fun _ => True) :
    SaysNoError userId role (do p; pure (c, true)) fun x => x.2 = true → x.1.Of userId role :=
  Prog.Respects.bind h fun _ _ _ => hof

/-- A user who changes the password stays the same. -/
theorem noError_handleChangePassword {u : User} {req : ChangePassPayload}
    (hid : u.userId = userId) (hrole : u.role = role) :
    SaysNoError userId role (handleChangePassword sha256Hex clientFd req u) fun u =>
      u.userId = userId ∧ u.role = role := by
  simp [SaysNoError, handleChangePassword, ApiOp.Says, noError, messageTypes, hid, hrole]

/-- A deposit reads the user's record again. -/
theorem noError_handleDeposit {u : User} {req : DepositPayload} (hid : u.userId = userId)
    (hrole : u.role = role) :
    SaysNoError userId role (handleDeposit clientFd req u) fun u =>
      u.userId = userId ∧ u.role = role := by
  have hread : ∀ r, StillHas userId role (.sys (.readUser u.userId)) r →
      (r.getD .zero).userId = userId ∧ (r.getD .zero).role = role := fun r hr => by
    obtain ⟨v, rfl, hv⟩ := hr hid
    exact hv
  have hreads : SaysNoError userId role (readUser u.userId) fun r =>
      (r.getD .zero).userId = userId ∧ (r.getD .zero).role = role :=
    ⟨trivial, hread⟩
  unfold handleDeposit
  split
  · simp [ApiOp.Says, noError, messageTypes, hid, hrole]
  · refine Prog.Respects.bind (Q := fun _ => True) (by simp [ApiOp.Says]) fun result _ => ?_
    split
    · simp [ApiOp.Says, noError, messageTypes, hid, hrole]
    · refine hreads.bind fun r hr => ?_
      exact ⟨by simp [ApiOp.Says, noError, messageTypes], fun _ _ => hr⟩

/-- **Step**: what a permitted function sends is served without `MSG_ERROR`. -/
theorem noError_serve {c : Command} {conn : Conn} (hof : conn.Of userId role)
    (hpermitted : c.action.Permitted role) {r : Request} (hr : c.request atof = some r) :
    SaysNoError userId role (serve sha256Hex clientFd conn r) fun x =>
      x.2 = true → x.1.Of userId role := by
  have hauth := hof.authenticated
  have hrole := hof.role
  simp only [Action.Permitted, Command.action] at hpermitted
  cases c with
  | login username password => exact hpermitted.elim
  | logout =>
      cases hr
      simp [SaysNoError, serve, hauth, handleLogout, clearSession, notifyUnregister, Option.forall,
        ApiOp.Says, noError, messageTypes]
  | changePassword old nw confirm =>
      simp only [Command.request, Option.ite_none_right_eq_some, Option.some.injEq] at hr
      obtain ⟨-, rfl⟩ := hr
      simp only [serve, hauth]
      exact (noError_handleChangePassword hof.userId hrole).bind fun u hu _ =>
        ⟨rfl, hu.1, hu.2⟩
  | deposit amount =>
      simp only [Command.request, Option.bind_eq_some_iff, Option.ite_none_left_eq_some,
        Option.some.injEq] at hr
      obtain ⟨q, -, -, rfl⟩ := hr
      simp only [serve, hauth]
      exact (noError_handleDeposit hof.userId hrole).bind fun u hu _ => ⟨rfl, hu.1, hu.2⟩
  | placeBid aid amount =>
      simp only [Command.request, Option.map_eq_some_iff] at hr
      obtain ⟨q, -, rfl⟩ := hr
      simp only [serve, hauth]
      exact noError_dispatched hof (noError_whenAllowed (by simp [hrole, hpermitted])
        ((says_handlePlaceBid _ _ _).noError (by decide)))
  | close aid =>
      cases hr
      simp only [serve, hauth]
      exact noError_dispatched hof (noError_whenAllowed (by simpa [hrole] using hpermitted)
        ((says_handleCloseAuction _ _ _).noError (by decide)))
  | resolve did choice notes =>
      cases hr
      simp only [serve, hauth]
      exact noError_dispatched hof (noError_whenAllowed (by simpa [hrole] using hpermitted)
        ((says_handleResolveDispute _ _ _).noError (by decide)))
  | create item desc start reserve dur =>
      simp only [Command.request, Option.bind_eq_some_iff, Option.map_eq_some_iff] at hr
      obtain ⟨q, -, q', -, rfl⟩ := hr
      simp only [serve, hauth]
      refine noError_dispatched hof (noError_whenAllowed (by simpa [hrole] using hpermitted) ?_)
      simp [SaysNoError, handleCreateAuction, ApiOp.Says, noError, messageTypes]
  | fileDispute aid reason =>
      cases hr
      simp only [serve, hauth]
      refine noError_dispatched hof (noError_whenAllowed (by simp [hrole, hpermitted]) ?_)
      simp [SaysNoError, handleFileDispute, Option.forall, ApiOp.Says, noError, messageTypes]
  | disputes =>
      cases hr
      simp only [serve, hauth]
      refine noError_dispatched hof (noError_whenAllowed (by simpa [hrole] using hpermitted) ?_)
      simp [SaysNoError, handleViewDisputes, Option.forall, ApiOp.Says, noError, messageTypes]
  | viewFeedback =>
      cases hr
      simp only [serve, hauth]
      refine noError_dispatched hof (noError_whenAllowed (by simpa [hrole] using hpermitted) ?_)
      simp [SaysNoError, handleViewFeedback, Option.forall, ApiOp.Says, noError, messageTypes]
  | toggle uid choice =>
      cases hr
      simp only [serve, hauth]
      refine noError_dispatched hof (noError_whenAllowed (by simpa [hrole] using hpermitted) ?_)
      simp [SaysNoError, handleToggleAccount, Option.forall, ApiOp.Says, noError, messageTypes]
  | addUser username password fullName newRole =>
      cases hr
      simp only [serve, hauth]
      have hspeaks (req : AddUserPayload) :
          Says [.msgAddUserResp] (handleAddUser sha256Hex clientFd req) := by
        simp [Says, handleAddUser, ApiOp.Says]
      exact noError_dispatched hof (noError_whenAllowed (by simp [hrole, hpermitted])
        ((hspeaks _).noError (by decide)))
  | listUsers =>
      cases hr
      simp only [serve, hauth]
      refine noError_dispatched hof (noError_whenAllowed (by simp [hrole, hpermitted]) ?_)
      simp [SaysNoError, handleListUsers, Option.forall, ApiOp.Says, noError, messageTypes]
  | changeRole uid newRole =>
      cases hr
      simp only [serve, hauth]
      refine noError_dispatched hof (noError_whenAllowed (by simp [hrole, hpermitted]) ?_)
      simp [SaysNoError, handleChangeRole, demotesLastAdmin, Option.forall, ApiOp.Says, noError,
        messageTypes]
  | viewAuctions =>
      cases hr
      simp only [serve, hauth]
      refine noError_dispatched hof ?_
      simp [SaysNoError, dispatch, handleViewAuctions, Option.forall, ApiOp.Says, noError,
        messageTypes]
  | balance =>
      cases hr
      simp only [serve, hauth]
      have hspeaks : Says [.msgViewBalanceResp] (handleViewBalance clientFd conn.currentUser) := by
        simp [Says, handleViewBalance, Option.forall, ApiOp.Says]
      exact noError_dispatched hof (hspeaks.noError (by decide))
  | myBids =>
      cases hr
      simp only [serve, hauth]
      refine noError_dispatched hof ?_
      simp [SaysNoError, dispatch, handleViewMyBids, Option.forall, ApiOp.Says, noError,
        messageTypes]
  | feedback aid message =>
      cases hr
      simp only [serve, hauth]
      refine noError_dispatched hof ?_
      simp [SaysNoError, dispatch, handleSubmitFeedback, ApiOp.Says, noError, messageTypes]

/-- **Run**: so is a conversation of them. -/
theorem noError_clientLoop (cs : List Command) (hpermitted : ∀ c ∈ cs, c.action.Permitted role)
    {conn : Conn} (hof : conn.Of userId role) :
    SaysNoError userId role
      (clientLoop sha256Hex clientFd conn (cs.filterMap (Command.request atof))) fun _ => True := by
  have hclean (conn : Conn) : SaysNoError userId role (cleanUp conn) fun _ => True :=
    (says_cleanUp conn noError).noError (List.Subset.refl _)
  induction cs generalizing conn with
  | nil => exact hclean conn
  | cons c cs ih =>
      have hrest {conn : Conn} (hof : conn.Of userId role) : SaysNoError userId role
          (clientLoop sha256Hex clientFd conn (cs.filterMap (Command.request atof)))
          fun _ => True :=
        ih (fun d hd => hpermitted d (List.mem_cons_of_mem _ hd)) hof
      cases hr : c.request atof with
      | none =>
          rw [List.filterMap_cons_none hr]
          exact hrest hof
      | some r =>
          rw [List.filterMap_cons_some hr, clientLoop]
          refine (noError_serve hof (hpermitted c (List.mem_cons_self ..)) hr).bind fun x hx => ?_
          obtain ⟨conn', running⟩ := x
          cases running with
          | true => exact hrest (hx rfl)
          | false => exact hclean conn'

/-- **What a menu offers is not refused**: a client that was logged in with this role and uses the
menu of the role is never answered `MSG_ERROR`, whatever other threads do, as long as they leave
the role in the user's record. -/
theorem stay_noError (s : Stay) (hfits : s.Fits) {conn : Conn} (hof : conn.Of userId s.role) :
    SaysNoError userId s.role
      (clientLoop sha256Hex clientFd conn (s.commands.filterMap (Command.request atof)))
      fun _ => True := by
  obtain ⟨items, hmenu, hturns, hbye⟩ := hfits
  refine noError_clientLoop s.commands (fun c hc => ?_) hof
  rcases List.mem_append.mp hc with hc | hc
  · obtain ⟨t, ht, heq⟩ := List.mem_filterMap.mp hc
    obtain ⟨hitem, -⟩ := hturns t ht
    rw [heq, Option.map_some] at hitem
    exact permitted_of_item hmenu hitem
  · obtain rfl := List.mem_singleton.mp hc
    exact trivial

/-- The bidder bids and logs out. -/
theorem stay_noError_bid :
    SaysNoError 7 roleBidder
      (clientLoop adminSha256Hex 4 ⟨true, { User.zero with userId := 7 }⟩
        ((Stay.commands ⟨roleBidder,
          [⟨12, none⟩, ⟨2, some (.placeBid 1 (.char 53 (by decide)))⟩], 9⟩).filterMap
            (Command.request atofFive)))
      fun _ => True :=
  stay_noError _ (fits_bidVisit bidVisit (List.mem_singleton_self _) _ rfl) ⟨rfl, rfl, rfl⟩

end Roles

/-! ## answers and buffers -/

/-- The buffer in which a function of the client waits for its answer. -/
def Action.bufSize : Action → Nat
  | .doLogin | .bidderBalance | .bidderDeposit | .modToggle | .adminAddUser | .adminChangeRole =>
      userSize
  | .doLogout | .doChangePassword | .bidderFeedback => 64
  | .viewAuctions => 256 * auctionSize
  | .bidderPlaceBid => bidSize
  | .bidderMyBids => 256 * bidSize
  | .bidderFileDispute | .modResolve => disputeSize
  | .auctioneerCreate | .auctioneerClose => auctionSize
  | .modDisputes => 128 * disputeSize
  | .modFeedback => 256 * feedbackSize
  | .adminListUsers => 512 * userSize

/-- The size of what a payload is sent as. -/
def Payload.size : Payload → Nat
  | .empty => 0
  | .user _ => userSize
  | .auction _ => auctionSize
  | .bid _ => bidSize
  | .dispute _ => disputeSize
  | .users l => l.length * userSize
  | .auctions l => l.length * auctionSize
  | .bids l => l.length * bidSize
  | .disputes l => l.length * disputeSize
  | .feedback l => l.length * feedbackSize
  | .outbid .. | .auctionWon .. => 16
  | .auctionClosed .. => 4

/-- The call writes no message that is longer. -/
def ApiOp.Fits (n : Nat) : ApiOp → Prop
  | .sys (.send _ m) => m.payload.size ≤ n
  | _ => True

/-- The program writes no message that is longer. -/
abbrev SaysFitting (n : Nat) {α : Type} (p : Prog ApiSig α) : Prop :=
  p.Respects (ApiOp.Fits n) (fun _ _ => True) fun _ => True

section Sizes

variable {sha256Hex : List UInt8 → List UInt8} {atof : List UInt8 → CharArray 8} {clientFd : Int}

theorem fits_closeAuctionInternal (a : Auction) : SaysFitting 16 (closeAuctionInternal a) := by
  have hrelease (site : Site) (b : Auction) : SaysFitting 16 (releaseLeader site b) := by
    unfold releaseLeader
    split <;> simp [SaysFitting, ApiOp.Fits]
  simpa [SaysFitting, closeAuctionInternal, notifyAuctionWon, notifyAuctionClosed,
    pushNotification, ApiOp.Fits, Payload.size] using fun _ => hrelease _ _

theorem fits_handleCloseAuction (req : CloseAuctionPayload) (u : User) :
    SaysFitting auctionSize (handleCloseAuction clientFd req u) := by
  simpa [SaysFitting, handleCloseAuction, Option.forall, ApiOp.Fits, Payload.size] using
    fun a _ _ => (fits_closeAuctionInternal a).weaken (fun op hop => by
      cases op with
      | sys op => cases op <;> first | exact Nat.le_trans hop (by decide) | trivial
      | wallet site c => trivial) fun _ _ _ => trivial

theorem fits_handleResolveDispute (req : ResolveDisputePayload) (u : User) :
    SaysFitting disputeSize (handleResolveDispute clientFd req u) := by
  unfold handleResolveDispute
  split
  · simp [SaysFitting, ApiOp.Fits, Payload.size]
  · simp [SaysFitting, ApiOp.Fits, Payload.size]
  · simp [SaysFitting, concludeDispute, refund, Option.forall, ApiOp.Fits, Payload.size]

/-- A request that is dispatched. -/
theorem fits_dispatched {n : Nat} {conn : Conn} {r : Request} {p : Prog ApiSig Unit}
    (hserve : serve sha256Hex clientFd conn r =
      if !conn.authenticated then do
        sendMsg clientFd .msgError .errAuthFail .empty
        pure (conn, true)
      else do
        p
        pure (conn, true))
    (h : SaysFitting n p) : SaysFitting n (serve sha256Hex clientFd conn r) := by
  rw [hserve]
  simpa [SaysFitting, ApiOp.Fits, Payload.size] using fun _ => h

theorem fits_whenAllowed {n : Nat} {allowed : Bool} {p : Prog ApiSig Unit} (h : SaysFitting n p) :
    SaysFitting n (whenAllowed allowed clientFd p) := by
  unfold whenAllowed
  split
  · exact h
  · simp [SaysFitting, ApiOp.Fits, Payload.size]

/-- **What is written while a request is served** fits the buffer that waits for its answer. -/
theorem fits_serve (c : Command) (conn : Conn) {r : Request} (hr : c.request atof = some r) :
    SaysFitting c.action.bufSize (serve sha256Hex clientFd conn r) := by
  cases c with
  | login username password =>
      cases hr
      have hlogin (req : LoginPayload) (u : User) :
          SaysFitting userSize (handleLogin sha256Hex clientFd req u) := by
        simp [SaysFitting, handleLogin, createSession, notifyRegister, Option.forall, ApiOp.Fits,
          Payload.size]
      exact (hlogin _ _).bind fun _ _ => trivial
  | logout =>
      cases hr
      simp [SaysFitting, serve, handleLogout, clearSession, notifyUnregister, Option.forall,
        ApiOp.Fits, Payload.size]
  | changePassword old nw confirm =>
      simp only [Command.request, Option.ite_none_right_eq_some, Option.some.injEq] at hr
      obtain ⟨-, rfl⟩ := hr
      have hchange (req : ChangePassPayload) (u : User) :
          SaysFitting 64 (handleChangePassword sha256Hex clientFd req u) := by
        simp [SaysFitting, handleChangePassword, ApiOp.Fits, Payload.size]
      have herror : SaysFitting 64 (sendMsg clientFd .msgError .errAuthFail .empty) := by
        simp [SaysFitting, ApiOp.Fits, Payload.size]
      unfold serve
      dsimp only
      split
      · exact herror.bind fun _ _ => trivial
      · exact (hchange _ _).bind fun _ _ => trivial
  | deposit amount =>
      simp only [Command.request, Option.bind_eq_some_iff, Option.ite_none_left_eq_some,
        Option.some.injEq] at hr
      obtain ⟨q, -, -, rfl⟩ := hr
      simp [SaysFitting, serve, handleDeposit, Command.action, Action.bufSize, ApiOp.Fits,
        Payload.size]
  | placeBid aid amount =>
      simp only [Command.request, Option.map_eq_some_iff] at hr
      obtain ⟨q, -, rfl⟩ := hr
      have hpush : 16 ≤ bidSize := by decide
      refine fits_dispatched rfl (fits_whenAllowed ?_)
      simp [SaysFitting, handlePlaceBid, placeBidLocked, getAuctionSem, recordBid, releaseLeader,
        notifyOutbid, pushNotification, Option.forall, Command.action, Action.bufSize, ApiOp.Fits,
        Payload.size, hpush]
  | close aid =>
      cases hr
      exact fits_dispatched rfl (fits_whenAllowed (fits_handleCloseAuction _ _))
  | resolve did choice notes =>
      cases hr
      exact fits_dispatched rfl (fits_whenAllowed (fits_handleResolveDispute _ _))
  | create item desc start reserve dur =>
      simp only [Command.request, Option.bind_eq_some_iff, Option.map_eq_some_iff] at hr
      obtain ⟨q, -, q', -, rfl⟩ := hr
      refine fits_dispatched rfl (fits_whenAllowed ?_)
      simp [SaysFitting, handleCreateAuction, Command.action, Action.bufSize, ApiOp.Fits,
        Payload.size]
  | fileDispute aid reason =>
      cases hr
      refine fits_dispatched rfl (fits_whenAllowed ?_)
      simp [SaysFitting, handleFileDispute, Option.forall, Command.action, Action.bufSize,
        ApiOp.Fits, Payload.size]
  | disputes =>
      cases hr
      refine fits_dispatched rfl (fits_whenAllowed ?_)
      simp [SaysFitting, handleViewDisputes, Option.forall, Command.action, Action.bufSize,
        ApiOp.Fits, Payload.size]
  | viewFeedback =>
      cases hr
      refine fits_dispatched rfl (fits_whenAllowed ?_)
      simp [SaysFitting, handleViewFeedback, Option.forall, Command.action, Action.bufSize,
        ApiOp.Fits, Payload.size]
  | toggle uid choice =>
      cases hr
      refine fits_dispatched rfl (fits_whenAllowed ?_)
      simp [SaysFitting, handleToggleAccount, Option.forall, Command.action, Action.bufSize,
        ApiOp.Fits, Payload.size]
  | addUser username password fullName newRole =>
      cases hr
      have hadd (req : AddUserPayload) :
          SaysFitting userSize (handleAddUser sha256Hex clientFd req) := by
        simp [SaysFitting, handleAddUser, ApiOp.Fits, Payload.size]
      exact fits_dispatched rfl (fits_whenAllowed (hadd _))
  | listUsers =>
      cases hr
      refine fits_dispatched rfl (fits_whenAllowed ?_)
      simp [SaysFitting, handleListUsers, Option.forall, Command.action, Action.bufSize,
        ApiOp.Fits, Payload.size]
  | changeRole uid newRole =>
      cases hr
      refine fits_dispatched rfl (fits_whenAllowed ?_)
      simp [SaysFitting, handleChangeRole, demotesLastAdmin, Option.forall, Command.action,
        Action.bufSize, ApiOp.Fits, Payload.size]
  | viewAuctions =>
      cases hr
      refine fits_dispatched rfl ?_
      simp [SaysFitting, dispatch, handleViewAuctions, Option.forall, Command.action,
        Action.bufSize, ApiOp.Fits, Payload.size]
  | balance =>
      cases hr
      refine fits_dispatched rfl ?_
      simp [SaysFitting, dispatch, handleViewBalance, Option.forall, Command.action,
        Action.bufSize, ApiOp.Fits, Payload.size]
  | myBids =>
      cases hr
      refine fits_dispatched rfl ?_
      simp [SaysFitting, dispatch, handleViewMyBids, Option.forall, Command.action,
        Action.bufSize, ApiOp.Fits, Payload.size]
  | feedback aid message =>
      cases hr
      refine fits_dispatched rfl ?_
      simp [SaysFitting, dispatch, handleSubmitFeedback, Command.action, Action.bufSize,
        ApiOp.Fits, Payload.size]

/-- The bytes of a payload: the records as they lie in the file, or the structure of a
notification. -/
inductive Payload.Sent : Payload → List UInt8 → Prop
  | empty : Sent .empty []
  | user {b u} (h : User.ofBytes b = some u) : Sent (.user u) b.val
  | auction {b a} (h : Auction.ofBytes b = some a) : Sent (.auction a) b.val
  | bid {b x} (h : Bid.ofBytes b = some x) : Sent (.bid x) b.val
  | dispute {b d} (h : Dispute.ofBytes b = some d) : Sent (.dispute d) b.val
  | users {bs l} (h : List.Forall₂ (fun b u => User.ofBytes b = some u) bs l) :
      Sent (.users l) (Posix.pack bs)
  | auctions {bs l} (h : List.Forall₂ (fun b a => Auction.ofBytes b = some a) bs l) :
      Sent (.auctions l) (Posix.pack bs)
  | bids {bs l} (h : List.Forall₂ (fun b x => Bid.ofBytes b = some x) bs l) :
      Sent (.bids l) (Posix.pack bs)
  | disputes {bs l} (h : List.Forall₂ (fun b d => Dispute.ofBytes b = some d) bs l) :
      Sent (.disputes l) (Posix.pack bs)
  | feedback {bs l} (h : List.Forall₂ (fun b f => Feedback.ofBytes b = some f) bs l) :
      Sent (.feedback l) (Posix.pack bs)
  | outbid {p : CharArray 16} {q} (h : double (member p 8 8) = some q) :
      Sent (.outbid (uint32 (member p 0 4)) q) p.val
  | auctionWon {p : CharArray 16} {q} (h : double (member p 8 8) = some q) :
      Sent (.auctionWon (uint32 (member p 0 4)) q) p.val
  | auctionClosed {p : CharArray 4} : Sent (.auctionClosed (uint32 (member p 0 4))) p.val

theorem Payload.Sent.length {p : Payload} {bs : List UInt8} (h : p.Sent bs) :
    bs.length = p.size := by
  cases h with
  | empty => rfl
  | user | auction | bid | dispute | outbid | auctionWon | auctionClosed =>
      exact CharArray.length_val _
  | users h | auctions h | bids h | disputes h | feedback h =>
      rw [Posix.length_pack, h.length_eq]
      rfl

/-- **Every answer is received whole**: a message that is written while a request of the client is
served, by whatever the other threads do meanwhile, is read by the client in one piece, and leaves
the stream where the next message begins. -/
theorem received_whole {σ : Type} (h : Prog.Handler ApiSig σ) (s : σ) {c : Command} {r : Request}
    (hr : c.request atof = some r) (conn : Conn) {fd : Int} {m : Message} {res : Unit}
    (hsend : (⟨.sys (.send fd m), res⟩ : Event ApiSig) ∈
      Prog.trace h (serve sha256Hex clientFd conn r) s)
    {f : Frame} (hf : m.payload.Sent f.payload) (rest : List UInt8) :
    Wire.recvMsg c.action.bufSize (f.bytes ++ rest) = some ((f.header, f.payload), rest) := by
  refine recvMsg_bytes f rest ?_
  rw [hf.length]
  exact (fits_serve c conn hr).of_mem_trace (I := fun _ => True) (fun _ _ _ _ => ⟨trivial, trivial⟩)
    trivial hsend

/-- The balance of a user is asked for. -/
theorem received_whole_balance :
    ∃ f : Frame, f.payload = (CharArray.zero userSize).val ∧
      Wire.recvMsg userSize (f.bytes ++ [7]) = some ((f.header, f.payload), [7]) := by
  let s : Store := ⟨[.zero], [], [], [], [], [], [], fun f => decide (f = .users), emptyRegistry,
    0, []⟩
  have hsend : (⟨.sys (.send 4 ⟨.msgViewBalanceResp, .errOk, .user .zero⟩), ()⟩ : Event ApiSig) ∈
      Prog.trace Api.exec (serve id 4 ⟨true, { User.zero with userId := 1 }⟩ .viewBalance) s :=
    List.mem_cons_of_mem _ (List.mem_singleton_self _)
  have hatof : Command.request (fun _ => .zero 8) .balance = some .viewBalance := rfl
  exact ⟨structFrame .msgViewBalanceResp (CharArray.zero userSize) (by decide), rfl,
    received_whole Api.exec s hatof _ hsend (.user User.ofBytes_zero) [7]⟩

end Sizes

end OnlineAuction
