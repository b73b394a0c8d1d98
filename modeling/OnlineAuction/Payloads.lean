import OnlineAuction.ListQueries

/-!
# OnlineAuction.Payloads

The casts of the receive buffer.

`handle_client` hands the 4096 bytes of its buffer to the handler that `hdr.type` selects, and the
handler casts them to the structure of its payload.  `castRequest` is the request that it then
sees; it is none where an amount is not finite, of which this model has no value.
-/

namespace OnlineAuction

open Wire Socket

/-- The enumeration, in order. -/
def messageTypes : List MessageType :=
  [.msgLoginReq, .msgLoginResp, .msgLogoutReq, .msgLogoutResp, .msgChangePassReq,
    .msgChangePassResp, .msgViewAuctionsReq, .msgViewAuctionsResp, .msgPlaceBidReq,
    .msgPlaceBidResp, .msgViewBalanceReq, .msgViewBalanceResp, .msgDepositReq, .msgDepositResp,
    .msgViewMyBidsReq, .msgViewMyBidsResp, .msgSubmitFeedbackReq, .msgSubmitFeedbackResp,
    .msgFileDisputeReq, .msgFileDisputeResp, .msgCreateAuctionReq, .msgCreateAuctionResp,
    .msgCloseAuctionReq, .msgCloseAuctionResp, .msgViewDisputesReq, .msgViewDisputesResp,
    .msgResolveDisputeReq, .msgResolveDisputeResp, .msgViewFeedbackReq, .msgViewFeedbackResp,
    .msgToggleAccountReq, .msgToggleAccountResp, .msgAddUserReq, .msgAddUserResp,
    .msgListUsersReq, .msgListUsersResp, .msgChangeRoleReq, .msgChangeRoleResp,
    .msgNotifyOutbid, .msgNotifyAuctionWon, .msgNotifyAuctionClosed, .msgError]

/-- The message type of a 32-bit value, if it is one. -/
def MessageType.ofCode (code : UInt32) : Option MessageType :=
  messageTypes.find? fun t => t.code == code

theorem MessageType.ofCode_code (t : MessageType) : ofCode t.code = some t := by
  cases t <;> rfl

/-! ## the casts -/

/-- The bytes of a member of a structure that lies in the buffer. -/
def member {n : Nat} (buf : CharArray n) (offset width : Nat) : CharArray width :=
  .ofBytes width (buf.load offset width)

section Casts

variable (buf : CharArray recvBuf)

def LoginPayload.cast : LoginPayload where
  username := member buf 0 maxUsername
  password := member buf 32 maxPassword
  rest := buf.val.drop 96

def ChangePassPayload.cast : ChangePassPayload where
  oldPassword := member buf 0 maxPassword
  newPassword := member buf 64 maxPassword
  rest := buf.val.drop 128

def PlaceBidPayload.cast : Option PlaceBidPayload := do
  return ⟨uint32 (member buf 0 4), ← double (member buf 8 8)⟩

def DepositPayload.cast : Option DepositPayload := do
  return ⟨← double (member buf 0 8)⟩

def FeedbackPayload.cast : FeedbackPayload where
  auctionId := uint32 (member buf 0 4)
  message := member buf 4 maxFeedback

def FileDisputePayload.cast : FileDisputePayload where
  auctionId := uint32 (member buf 0 4)
  reason := member buf 4 maxDesc

def CreateAuctionPayload.cast : Option CreateAuctionPayload := do
  return {
    itemName := member buf 0 maxItemName
    description := member buf 64 maxDesc
    startPrice := ← double (member buf 320 8)
    reservePrice := ← double (member buf 328 8)
    durationSeconds := uint32 (member buf 336 4) }

def CloseAuctionPayload.cast : CloseAuctionPayload where
  auctionId := uint32 (member buf 0 4)

def ResolveDisputePayload.cast : ResolveDisputePayload where
  disputeId := uint32 (member buf 0 4)
  newStatus := uint32 (member buf 4 4)
  resolution := member buf 8 maxDesc

def ToggleAccountPayload.cast : ToggleAccountPayload where
  targetUserId := uint32 (member buf 0 4)
  newStatus := uint32 (member buf 4 4)

def AddUserPayload.cast : AddUserPayload where
  username := member buf 0 maxUsername
  password := member buf 32 maxPassword
  fullName := member buf 96 maxName
  role := uint32 (member buf 160 4)
  rest := buf.val.drop 160

def ChangeRolePayload.cast : ChangeRolePayload where
  targetUserId := uint32 (member buf 0 4)
  newRole := uint32 (member buf 4 4)

end Casts

/-- The `switch` of `handle_client`, with what each handler makes of the buffer. -/
def castRequest (hdr : MessageHeader) (buf : CharArray recvBuf) : Option Request :=
  match MessageType.ofCode hdr.type with
  | some .msgLoginReq => some (.login (.cast buf))
  | some .msgLogoutReq => some .logout
  | some .msgChangePassReq => some (.changePass (.cast buf))
  | some .msgViewAuctionsReq => some .viewAuctions
  | some .msgPlaceBidReq => (PlaceBidPayload.cast buf).map .placeBid
  | some .msgViewBalanceReq => some .viewBalance
  | some .msgDepositReq => (DepositPayload.cast buf).map .deposit
  | some .msgViewMyBidsReq => some .viewMyBids
  | some .msgSubmitFeedbackReq => some (.submitFeedback (.cast buf))
  | some .msgFileDisputeReq => some (.fileDispute (.cast buf))
  | some .msgCreateAuctionReq => (CreateAuctionPayload.cast buf).map .createAuction
  | some .msgCloseAuctionReq => some (.closeAuction (.cast buf))
  | some .msgViewDisputesReq => some .viewDisputes
  | some .msgResolveDisputeReq => some (.resolveDispute (.cast buf))
  | some .msgViewFeedbackReq => some .viewFeedback
  | some .msgToggleAccountReq => some (.toggleAccount (.cast buf))
  | some .msgAddUserReq => some (.addUser (.cast buf))
  | some .msgListUsersReq => some .listUsers
  | some .msgChangeRoleReq => some (.changeRole (.cast buf))
  | _ => some .other

/-! ## what the buffer holds -/

section Members

variable {m n : Nat}

/-- A member of a structure at the beginning of the buffer. -/
theorem member_get (f : Field n) (p : CharArray n) (h : n ≤ m) :
    member (CharArray.ofBytes m p.val) f.offset f.width = f.get p := by
  have hfits := f.fits
  have hload : (CharArray.ofBytes m p.val).load f.offset f.width = p.load f.offset f.width := by
    rw [CharArray.load, CharArray.ofBytes_val (by rwa [p.length_val]), CharArray.load,
      List.drop_append_of_le_length (by rw [p.length_val]; omega),
      List.take_append_of_le_length (by rw [List.length_drop, p.length_val]; omega)]
  rw [member, hload]
  exact Subtype.ext (CharArray.val_ofBytes (CharArray.length_load f.fits))

/-- Behind the structure the buffer is empty. -/
theorem drop_ofBytes (p : CharArray n) (h : n ≤ m) :
    (CharArray.ofBytes m p.val).val.drop n = List.replicate (m - n) 0 := by
  rw [CharArray.ofBytes_val (by rwa [p.length_val]), p.length_val]
  exact List.drop_left' p.length_val

end Members

end OnlineAuction
