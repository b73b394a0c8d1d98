import OnlineAuction.Lib.CString
import Mathlib.Data.Rat.Defs

/-!
# OnlineAuction.Models

The records and messages of `common/models.h`.

Amounts (`double` in the source) are exact rationals.  Identifiers and the
enumerations whose values arrive in a payload (`Role`, `AccountStatus`) are
the 32-bit values the server reads, in range or not; the statuses that only
the server sets are inductive types.  The payload of a message is the struct
that its handler casts the receive buffer to; where a handler reads a string
that may run on past its field, `rest` is what the buffer holds after it.
-/

namespace OnlineAuction

/-! ## sizes -/

abbrev maxUsername : Nat := 32
abbrev maxPassword : Nat := 64
abbrev maxName : Nat := 64
abbrev maxDesc : Nat := 256
abbrev maxItemName : Nat := 64
abbrev maxFeedback : Nat := 256
abbrev maxSessions : Nat := 64

/-! ## enumerations -/

/-- `Role`: any 32-bit value a payload carries. -/
abbrev Role : Type := UInt32

def roleBidder : Role := 0
def roleAuctioneer : Role := 1
def roleModerator : Role := 2
def roleAdmin : Role := 3

/-- `AccountStatus`: any 32-bit value a payload carries. -/
abbrev AccountStatus : Type := UInt32

def accountActive : AccountStatus := 0
def accountInactive : AccountStatus := 1
def accountBanned : AccountStatus := 2

inductive AuctionStatus
  | auctionPending
  | auctionOpen
  | auctionClosed
  | auctionDisputed
  | auctionCancelled
  deriving DecidableEq, Repr

inductive DisputeStatus
  | disputeOpen
  | disputeResolved
  | disputeRejected
  deriving DecidableEq, Repr

/-- The dispute status that a 32-bit value stands for. -/
def DisputeStatus.ofCode (code : UInt32) : Option DisputeStatus :=
  if code = 0 then some .disputeOpen
  else if code = 1 then some .disputeResolved
  else if code = 2 then some .disputeRejected
  else none

inductive ErrCode
  | errOk
  | errAuthFail
  | errAlreadyLogged
  | errPermission
  | errNotFound
  | errBidTooLow
  | errInsufficient
  | errAuctionClosed
  | errAccountBanned
  | errInternal
  deriving DecidableEq, Repr

/-! ## records -/

structure User where
  userId : UInt32
  username : CharArray maxUsername
  password : CharArray maxPassword
  fullName : CharArray maxName
  role : Role
  status : AccountStatus
  walletBalance : ℚ
  walletHold : ℚ
  createdAt : Int
  lastLogin : Int
  isDeleted : Bool
  deriving DecidableEq

structure Auction where
  auctionId : UInt32
  itemName : CharArray maxItemName
  description : CharArray maxDesc
  sellerId : UInt32
  startPrice : ℚ
  reservePrice : ℚ
  currentBid : ℚ
  highestBidderId : UInt32
  status : AuctionStatus
  startTime : Int
  endTime : Int
  bidCount : Int
  isDeleted : Bool
  deriving DecidableEq

structure Bid where
  bidId : UInt32
  auctionId : UInt32
  bidderId : UInt32
  amount : ℚ
  placedAt : Int
  isWinning : Bool
  deriving DecidableEq

structure Session where
  userId : UInt32
  clientFd : Int
  loginTime : Int
  isActive : Bool
  deriving DecidableEq

structure Feedback where
  feedbackId : UInt32
  fromUserId : UInt32
  aboutAuctionId : UInt32
  message : CharArray maxFeedback
  submittedAt : Int
  reviewed : Bool
  deriving DecidableEq

structure Dispute where
  disputeId : UInt32
  auctionId : UInt32
  raisedByUserId : UInt32
  resolvedByUserId : UInt32
  reason : CharArray maxDesc
  resolution : CharArray maxDesc
  status : DisputeStatus
  raisedAt : Int
  resolvedAt : Int
  deriving DecidableEq

/-- A zero-filled `User`, as `memset` and a hole in the file leave it. -/
def User.zero : User :=
  ⟨0, .zero _, .zero _, .zero _, 0, 0, 0, 0, 0, 0, false⟩

/-- A zero-filled `Auction`. -/
def Auction.zero : Auction :=
  ⟨0, .zero _, .zero _, 0, 0, 0, 0, 0, .auctionPending, 0, 0, 0, false⟩

/-- A zero-filled `Session`. -/
def Session.zero : Session := ⟨0, 0, 0, false⟩

/-- A zero-filled `Feedback`. -/
def Feedback.zero : Feedback := ⟨0, 0, 0, .zero _, 0, false⟩

/-- A zero-filled `Dispute`. -/
def Dispute.zero : Dispute := ⟨0, 0, 0, 0, .zero _, .zero _, .disputeOpen, 0, 0⟩

/-! ## updates of a record -/

/-- The record with other wallet fields. -/
def User.withWallet (u : User) (balance hold : ℚ) : User :=
  { u with walletBalance := balance, walletHold := hold }

/-- The record with another status. -/
def Auction.withStatus (a : Auction) (status : AuctionStatus) : Auction :=
  { a with status := status }

/-- The record after a bid of `amount` by `bidder`. -/
def Auction.withBid (a : Auction) (bidder : UInt32) (amount : ℚ) : Auction :=
  { a with currentBid := amount, highestBidderId := bidder, bidCount := a.bidCount + 1 }

section Updates

variable (u : User) (a : Auction) (balance hold amount : ℚ) (status : AuctionStatus)
  (bidder : UInt32)

@[simp] theorem User.withWallet_userId : (u.withWallet balance hold).userId = u.userId := rfl
@[simp] theorem User.withWallet_walletBalance :
    (u.withWallet balance hold).walletBalance = balance := rfl
@[simp] theorem User.withWallet_walletHold :
    (u.withWallet balance hold).walletHold = hold := rfl
@[simp] theorem Auction.withStatus_auctionId :
    (a.withStatus status).auctionId = a.auctionId := rfl
@[simp] theorem Auction.withStatus_sellerId :
    (a.withStatus status).sellerId = a.sellerId := rfl
@[simp] theorem Auction.withStatus_currentBid :
    (a.withStatus status).currentBid = a.currentBid := rfl
@[simp] theorem Auction.withStatus_highestBidderId :
    (a.withStatus status).highestBidderId = a.highestBidderId := rfl
@[simp] theorem Auction.withStatus_status : (a.withStatus status).status = status := rfl
@[simp] theorem Auction.withStatus_reservePrice :
    (a.withStatus status).reservePrice = a.reservePrice := rfl
@[simp] theorem Auction.withStatus_bidCount :
    (a.withStatus status).bidCount = a.bidCount := rfl
@[simp] theorem Auction.withBid_auctionId :
    (a.withBid bidder amount).auctionId = a.auctionId := rfl
@[simp] theorem Auction.withBid_sellerId :
    (a.withBid bidder amount).sellerId = a.sellerId := rfl
@[simp] theorem Auction.withBid_currentBid :
    (a.withBid bidder amount).currentBid = amount := rfl
@[simp] theorem Auction.withBid_highestBidderId :
    (a.withBid bidder amount).highestBidderId = bidder := rfl
@[simp] theorem Auction.withBid_status : (a.withBid bidder amount).status = a.status := rfl
@[simp] theorem Auction.withBid_bidCount :
    (a.withBid bidder amount).bidCount = a.bidCount + 1 := rfl

end Updates

/-! ## messages -/

inductive MessageType
  | msgLoginReq | msgLoginResp
  | msgLogoutReq | msgLogoutResp
  | msgChangePassReq | msgChangePassResp
  | msgViewAuctionsReq | msgViewAuctionsResp
  | msgPlaceBidReq | msgPlaceBidResp
  | msgViewBalanceReq | msgViewBalanceResp
  | msgDepositReq | msgDepositResp
  | msgViewMyBidsReq | msgViewMyBidsResp
  | msgSubmitFeedbackReq | msgSubmitFeedbackResp
  | msgFileDisputeReq | msgFileDisputeResp
  | msgCreateAuctionReq | msgCreateAuctionResp
  | msgCloseAuctionReq | msgCloseAuctionResp
  | msgViewDisputesReq | msgViewDisputesResp
  | msgResolveDisputeReq | msgResolveDisputeResp
  | msgViewFeedbackReq | msgViewFeedbackResp
  | msgToggleAccountReq | msgToggleAccountResp
  | msgAddUserReq | msgAddUserResp
  | msgListUsersReq | msgListUsersResp
  | msgChangeRoleReq | msgChangeRoleResp
  | msgNotifyOutbid
  | msgNotifyAuctionWon
  | msgNotifyAuctionClosed
  | msgError
  deriving DecidableEq, Repr

structure LoginPayload where
  username : CharArray maxUsername
  password : CharArray maxPassword
  rest : List UInt8

structure ChangePassPayload where
  oldPassword : CharArray maxPassword
  newPassword : CharArray maxPassword
  rest : List UInt8

structure PlaceBidPayload where
  auctionId : UInt32
  amount : ℚ

structure DepositPayload where
  amount : ℚ

structure FeedbackPayload where
  auctionId : UInt32
  message : CharArray maxFeedback

structure FileDisputePayload where
  auctionId : UInt32
  reason : CharArray maxDesc

structure CreateAuctionPayload where
  itemName : CharArray maxItemName
  description : CharArray maxDesc
  startPrice : ℚ
  reservePrice : ℚ
  durationSeconds : UInt32

structure CloseAuctionPayload where
  auctionId : UInt32

structure ResolveDisputePayload where
  disputeId : UInt32
  newStatus : UInt32
  resolution : CharArray maxDesc

structure ToggleAccountPayload where
  targetUserId : UInt32
  newStatus : AccountStatus

/-- `rest` starts with the four bytes of `role`. -/
structure AddUserPayload where
  username : CharArray maxUsername
  password : CharArray maxPassword
  fullName : CharArray maxName
  role : Role
  rest : List UInt8

structure ChangeRolePayload where
  targetUserId : UInt32
  newRole : Role

/-- A received message, by `hdr.type`, with the payload its handler reads. -/
inductive Request
  | login (req : LoginPayload)
  | logout
  | changePass (req : ChangePassPayload)
  | viewAuctions
  | placeBid (req : PlaceBidPayload)
  | viewBalance
  | deposit (req : DepositPayload)
  | viewMyBids
  | submitFeedback (req : FeedbackPayload)
  | fileDispute (req : FileDisputePayload)
  | createAuction (req : CreateAuctionPayload)
  | closeAuction (req : CloseAuctionPayload)
  | viewDisputes
  | resolveDispute (req : ResolveDisputePayload)
  | viewFeedback
  | toggleAccount (req : ToggleAccountPayload)
  | addUser (req : AddUserPayload)
  | listUsers
  | changeRole (req : ChangeRolePayload)
  | other

/-- What the payload of a message from the server holds. -/
inductive Payload
  | empty
  | user (u : User)
  | auction (a : Auction)
  | bid (b : Bid)
  | dispute (d : Dispute)
  | users (l : List User)
  | auctions (l : List Auction)
  | bids (l : List Bid)
  | disputes (l : List Dispute)
  | feedback (l : List Feedback)
  | outbid (auctionId : UInt32) (newHighestBid : ℚ)
  | auctionWon (auctionId : UInt32) (winningAmount : ℚ)
  | auctionClosed (auctionId : UInt32)
  deriving DecidableEq

/-- A message from the server: `MessageHeader` and payload. -/
structure Message where
  type : MessageType
  status : ErrCode
  payload : Payload
  deriving DecidableEq

end OnlineAuction
