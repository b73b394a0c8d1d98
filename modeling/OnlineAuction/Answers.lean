import OnlineAuction.Service

/-!
# OnlineAuction.Answers

What each request is answered with.

`Says types p` says that every message which the program `p` writes has one of the listed
types.  A request is answered with messages of its own kind (`Request.answerTypes`) or with
`MSG_ERROR`; what else it makes the server write are notifications (`says_turn`).
-/

namespace OnlineAuction

/-! ## messages of a program -/

/-- The call writes no message of another type. -/
def ApiOp.Says (types : List MessageType) : ApiOp → Prop
  | .sys (.send _ m) => m.type ∈ types
  | _ => True

/-- The program writes no message of another type. -/
abbrev Says (types : List MessageType) {α : Type} (p : Prog ApiSig α) : Prop :=
  p.Respects (ApiOp.Says types) (fun _ _ => True) fun _ => True

section Says

variable {types types' : List MessageType} {α β : Type} {p : Prog ApiSig α}

/-- More types may be listed than are sent. -/
theorem Says.subset (h : Says types p) (hsub : types ⊆ types') : Says types' p := by
  refine h.weaken (fun op hop => ?_) fun _ _ _ => trivial
  cases op with
  | sys op => cases op <;> first | exact hsub hop | trivial
  | wallet site c => trivial

/-- One program after another. -/
theorem Says.bind {k : α → Prog ApiSig β} (h : Says types p) (hk : ∀ a, Says types (k a)) :
    Says types (p >>= k) := Prog.Respects.bind h fun a _ => hk a

/-- Of what type a message is that has been written. -/
theorem Says.mem (h : Says types p) {s : Store} {fd : Int} {m : Message} {r : Unit}
    (hmem : (⟨.sys (.send fd m), r⟩ : Event ApiSig) ∈ Prog.trace Api.exec p s) :
    m.type ∈ types := by
  induction p generalizing s with
  | pure a => simp at hmem
  | call o k ih =>
      rcases List.mem_cons.mp hmem with heq | hmem
      · obtain ⟨rfl, -⟩ := Sigma.mk.inj heq
        exact h.1
      · exact ih _ (h.2 _ trivial) hmem

end Says

/-! ## the requests -/

/-- The type of the answer to a request. -/
def Request.answerTypes : Request → List MessageType
  | .login _ => [.msgLoginResp]
  | .logout => [.msgLogoutResp]
  | .changePass _ => [.msgChangePassResp]
  | .viewAuctions => [.msgViewAuctionsResp]
  | .placeBid _ => [.msgPlaceBidResp]
  | .viewBalance => [.msgViewBalanceResp]
  | .deposit _ => [.msgDepositResp]
  | .viewMyBids => [.msgViewMyBidsResp]
  | .submitFeedback _ => [.msgSubmitFeedbackResp]
  | .fileDispute _ | .resolveDispute _ => [.msgResolveDisputeResp]
  | .createAuction _ => [.msgCreateAuctionResp]
  | .closeAuction _ => [.msgCloseAuctionResp]
  | .viewDisputes => [.msgViewDisputesResp]
  | .viewFeedback => [.msgViewFeedbackResp]
  | .toggleAccount _ => [.msgToggleAccountResp]
  | .addUser _ => [.msgAddUserResp]
  | .listUsers => [.msgListUsersResp]
  | .changeRole _ => [.msgChangeRoleResp]
  | .other => []

/-- What may be written besides, to this client or to another. -/
def sideTypes : List MessageType :=
  [.msgError, .msgNotifyOutbid, .msgNotifyAuctionWon, .msgNotifyAuctionClosed]

section Requests

variable (sha256Hex : List UInt8 → List UInt8) (clientFd : Int) (u : User)

/-- A notification has the type that it is given. -/
theorem says_pushNotification (userId : UInt32) {type : MessageType} (payload : Payload)
    {types : List MessageType} (h : type ∈ types) :
    Says types (pushNotification userId type payload) := by
  simp [Says, pushNotification, ApiOp.Says, h]

/-- A close notifies the winner and the seller. -/
theorem says_closeAuctionInternal (a : Auction) :
    Says [.msgNotifyAuctionWon, .msgNotifyAuctionClosed] (closeAuctionInternal a) := by
  have hrelease (site : Site) (b : Auction) :
      Says [.msgNotifyAuctionWon, .msgNotifyAuctionClosed] (releaseLeader site b) := by
    unfold releaseLeader
    split <;> simp [Says, ApiOp.Says]
  simpa [Says, closeAuctionInternal, notifyAuctionWon, notifyAuctionClosed, pushNotification,
    ApiOp.Says] using fun _ => hrelease _ _

/-- So does the timer. -/
theorem says_timerClose (auctionId : UInt32) : Says sideTypes (timerClose auctionId) := by
  simpa [Says, timerClose, Option.forall, ApiOp.Says] using
    fun a _ => (says_closeAuctionInternal a).subset (by decide)

/-- A bid is answered, and the one who is outbid is told. -/
theorem says_handlePlaceBid (req : PlaceBidPayload) :
    Says [.msgPlaceBidResp, .msgNotifyOutbid] (handlePlaceBid clientFd req u) := by
  simp [Says, handlePlaceBid, placeBidLocked, getAuctionSem, recordBid, releaseLeader,
    notifyOutbid, pushNotification, Option.forall, ApiOp.Says]

/-- The seller is answered and notified. -/
theorem says_handleCloseAuction (req : CloseAuctionPayload) :
    Says [.msgCloseAuctionResp, .msgNotifyAuctionWon, .msgNotifyAuctionClosed]
      (handleCloseAuction clientFd req u) := by
  simpa [Says, handleCloseAuction, Option.forall, ApiOp.Says] using
    fun a _ _ => (says_closeAuctionInternal a).subset (by decide)

/-- A resolution is answered only. -/
theorem says_handleResolveDispute (req : ResolveDisputePayload) :
    Says [.msgResolveDisputeResp] (handleResolveDispute clientFd req u) := by
  unfold handleResolveDispute
  split
  · simp [Says, ApiOp.Says]
  · simp [Says, ApiOp.Says]
  · simp [Says, concludeDispute, refund, Option.forall, ApiOp.Says]

/-- A refusal is an error. -/
theorem says_whenAllowed {types : List MessageType} (h : .msgError ∈ types) (allowed : Bool)
    {p : Prog ApiSig Unit} (hp : Says types p) : Says types (whenAllowed allowed clientFd p) := by
  unfold whenAllowed
  split
  · exact hp
  · simp [Says, ApiOp.Says, h]

/-- Every request is answered by its own type, or an error, besides notifications. -/
theorem says_dispatch (m : Request) :
    Says (m.answerTypes ++ sideTypes) (dispatch sha256Hex clientFd u m) := by
  have herror (types : List MessageType) : .msgError ∈ types ++ sideTypes :=
    List.mem_append_right _ (by decide)
  cases m with
  | placeBid req =>
      exact says_whenAllowed _ (herror _) _
        ((says_handlePlaceBid _ _ req).subset (by simp [Request.answerTypes, sideTypes]))
  | closeAuction req =>
      exact says_whenAllowed _ (herror _) _
        ((says_handleCloseAuction _ _ req).subset (by simp [Request.answerTypes, sideTypes]))
  | resolveDispute req =>
      exact says_whenAllowed _ (herror _) _
        ((says_handleResolveDispute _ _ req).subset (by simp [Request.answerTypes]))
  | _ =>
      simp [Says, dispatch, whenAllowed, handleFileDispute, handleViewAuctions, handleViewMyBids,
        handleViewBalance, handleListUsers, handleViewDisputes, handleViewFeedback,
        handleSubmitFeedback, handleCreateAuction, handleToggleAccount, handleAddUser,
        handleChangeRole, demotesLastAdmin, Option.forall, ApiOp.Says, Request.answerTypes,
        sideTypes]

/-- The end of a connection says nothing. -/
theorem says_cleanUp (c : Conn) (types : List MessageType) : Says types (cleanUp c) := by
  simp [Says, cleanUp, clearSession, notifyUnregister, Option.forall, ApiOp.Says]

/-- A message of a connection is answered as its request is. -/
theorem says_serve (c : Conn) (m : Request) :
    Says (m.answerTypes ++ sideTypes) (serve sha256Hex clientFd c m) := by
  have hdispatch := says_dispatch sha256Hex clientFd c.currentUser m
  cases m with
  | login | logout | changePass | deposit =>
      simp [Says, serve, handleLogin, createSession, notifyRegister, handleLogout, clearSession,
        notifyUnregister, handleChangePassword, handleDeposit, Option.forall, ApiOp.Says,
        Request.answerTypes, sideTypes]
  | _ => simpa [Says, serve, ApiOp.Says, sideTypes] using fun _ => hdispatch

/-- So is a turn of it. -/
theorem says_turn (c : Conn) (m : Request) :
    Says (m.answerTypes ++ sideTypes) (turn sha256Hex clientFd c m) := by
  refine (says_serve sha256Hex clientFd c m).bind fun r => ?_
  obtain ⟨c', running⟩ := r
  cases running with
  | true => exact trivial
  | false => simpa [Says] using says_cleanUp c' (m.answerTypes ++ sideTypes)

end Requests

/-- **Answers**: a message that a step writes is a notification, `MSG_ERROR`, or an answer to
the request of that step. -/
theorem Server.type_of_send {sha256Hex : List UInt8 → List UInt8} {s : Server} {i : Input}
    {fd : Int} {m : Message} {r : Unit}
    (h : (⟨.sys (.send fd m), r⟩ : Event ApiSig) ∈ s.calls sha256Hex i) :
    m.type ∈ sideTypes ∨
      ∃ clientFd req, i = .message clientFd req ∧ (s.conns clientFd).isSome ∧
        m.type ∈ req.answerTypes := by
  cases i with
  | message clientFd req =>
      cases hc : s.conns clientFd with
      | none => simp [Server.calls, Input.prog, hc] at h
      | some c =>
          simp only [Server.calls, Input.prog, Input.before, hc, Prog.trace_bind, Prog.pure_eq,
            Prog.trace_pure, List.append_nil] at h
          rcases List.mem_append.mp ((says_turn sha256Hex clientFd c req).mem h) with hm | hm
          · exact .inr ⟨clientFd, req, rfl, by rw [hc]; rfl, hm⟩
          · exact .inl hm
  | disconnect clientFd =>
      cases hc : s.conns clientFd with
      | none => simp [Server.calls, Input.prog, hc] at h
      | some c =>
          simp only [Server.calls, Input.prog, Input.before, hc, Prog.trace_bind, Prog.pure_eq,
            Prog.trace_pure, List.append_nil] at h
          exact .inl ((says_cleanUp c sideTypes).mem h)
  | timerClose id =>
      simp only [Server.calls, Input.prog, Input.before, Prog.trace_bind, Prog.pure_eq,
        Prog.trace_pure, List.append_nil] at h
      exact .inl ((says_timerClose id).mem h)
  | _ => simp [Server.calls, Input.prog] at h

end OnlineAuction
