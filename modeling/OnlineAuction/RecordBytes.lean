import OnlineAuction.Lib.Memory
import OnlineAuction.Models
import Mathlib.Algebra.Group.Int.Defs

/-!
# OnlineAuction.RecordBytes

The bytes of the records of `common/models.h`.

The fields follow each other as they are declared, each at a multiple of its size: 4 bytes for
`uint32_t`, `int` and the enumerations, 8 for `double` and `time_t`.  `User.ofBytes` and the
others say what record an object of that size is; it is none where an amount is not finite or a
status is not one of its enumeration.
-/

namespace OnlineAuction

/-! ## values -/

/-- `uint32_t`, and an enumeration whose value is not checked. -/
def uint32 {n : Nat} (a : CharArray n) : UInt32 := .ofNat (ofLe a.val)

/-- `int` and `time_t`, in two's complement. -/
def int {n : Nat} (a : CharArray n) : Int := (BitVec.ofNat (8 * n) (ofLe a.val)).toInt

/-- `double`, where it is finite: binary64. -/
def double {n : Nat} (a : CharArray n) : Option ℚ :=
  let bits := ofLe a.val
  let fraction := bits % 2 ^ 52
  let exponent := bits / 2 ^ 52 % 2 ^ 11
  -- an exponent of zero is that of one, without the leading bit
  let significand : Nat := if exponent = 0 then fraction else 2 ^ 52 + fraction
  let e := max exponent 1
  let signed : Int := if bits / 2 ^ 63 = 0 then significand else -significand
  if exponent = 2047 then none
  else some (mkRat (signed * 2 ^ (e - 1075)) (2 ^ (1075 - e)))

/-- The auction status that a 32-bit value stands for. -/
def AuctionStatus.ofCode (code : UInt32) : Option AuctionStatus :=
  if code = 0 then some .auctionPending
  else if code = 1 then some .auctionOpen
  else if code = 2 then some .auctionClosed
  else if code = 3 then some .auctionDisputed
  else if code = 4 then some .auctionCancelled
  else none

/-! ## `User` -/

/-- `sizeof(User)`. -/
abbrev userSize : Nat := 216

namespace UserField

abbrev userId : Field userSize := ⟨0, 4, by decide⟩
abbrev username : Field userSize := ⟨4, maxUsername, by decide⟩
abbrev password : Field userSize := ⟨36, maxPassword, by decide⟩
abbrev fullName : Field userSize := ⟨100, maxName, by decide⟩
abbrev role : Field userSize := ⟨164, 4, by decide⟩
abbrev status : Field userSize := ⟨168, 4, by decide⟩
abbrev walletBalance : Field userSize := ⟨176, 8, by decide⟩
abbrev walletHold : Field userSize := ⟨184, 8, by decide⟩
abbrev createdAt : Field userSize := ⟨192, 8, by decide⟩
abbrev lastLogin : Field userSize := ⟨200, 8, by decide⟩
abbrev isDeleted : Field userSize := ⟨208, 4, by decide⟩

end UserField

/-- `memset(u.password, 0, sizeof(u.password))`. -/
def blankPassword (u : CharArray userSize) : CharArray userSize :=
  UserField.password.set u (List.replicate maxPassword 0)

/-- The user that a record of `users.dat` is. -/
def User.ofBytes (b : CharArray userSize) : Option User := do
  let walletBalance ← double (UserField.walletBalance.get b)
  let walletHold ← double (UserField.walletHold.get b)
  return {
    userId := uint32 (UserField.userId.get b)
    username := UserField.username.get b
    password := UserField.password.get b
    fullName := UserField.fullName.get b
    role := uint32 (UserField.role.get b)
    status := uint32 (UserField.status.get b)
    walletBalance := walletBalance
    walletHold := walletHold
    createdAt := int (UserField.createdAt.get b)
    lastLogin := int (UserField.lastLogin.get b)
    isDeleted := uint32 (UserField.isDeleted.get b) != 0 }

/-! ## `Auction` -/

/-- `sizeof(Auction)`. -/
abbrev auctionSize : Nat := 384

namespace AuctionField

abbrev auctionId : Field auctionSize := ⟨0, 4, by decide⟩
abbrev itemName : Field auctionSize := ⟨4, maxItemName, by decide⟩
abbrev description : Field auctionSize := ⟨68, maxDesc, by decide⟩
abbrev sellerId : Field auctionSize := ⟨324, 4, by decide⟩
abbrev startPrice : Field auctionSize := ⟨328, 8, by decide⟩
abbrev reservePrice : Field auctionSize := ⟨336, 8, by decide⟩
abbrev currentBid : Field auctionSize := ⟨344, 8, by decide⟩
abbrev highestBidderId : Field auctionSize := ⟨352, 4, by decide⟩
abbrev status : Field auctionSize := ⟨356, 4, by decide⟩
abbrev startTime : Field auctionSize := ⟨360, 8, by decide⟩
abbrev endTime : Field auctionSize := ⟨368, 8, by decide⟩
abbrev bidCount : Field auctionSize := ⟨376, 4, by decide⟩
abbrev isDeleted : Field auctionSize := ⟨380, 4, by decide⟩

end AuctionField

/-- The auction that a record of `auctions.dat` is. -/
def Auction.ofBytes (b : CharArray auctionSize) : Option Auction := do
  let startPrice ← double (AuctionField.startPrice.get b)
  let reservePrice ← double (AuctionField.reservePrice.get b)
  let currentBid ← double (AuctionField.currentBid.get b)
  let status ← AuctionStatus.ofCode (uint32 (AuctionField.status.get b))
  return {
    auctionId := uint32 (AuctionField.auctionId.get b)
    itemName := AuctionField.itemName.get b
    description := AuctionField.description.get b
    sellerId := uint32 (AuctionField.sellerId.get b)
    startPrice := startPrice
    reservePrice := reservePrice
    currentBid := currentBid
    highestBidderId := uint32 (AuctionField.highestBidderId.get b)
    status := status
    startTime := int (AuctionField.startTime.get b)
    endTime := int (AuctionField.endTime.get b)
    bidCount := int (AuctionField.bidCount.get b)
    isDeleted := uint32 (AuctionField.isDeleted.get b) != 0 }

/-! ## `Bid` -/

/-- `sizeof(Bid)`. -/
abbrev bidSize : Nat := 40

namespace BidField

abbrev bidId : Field bidSize := ⟨0, 4, by decide⟩
abbrev auctionId : Field bidSize := ⟨4, 4, by decide⟩
abbrev bidderId : Field bidSize := ⟨8, 4, by decide⟩
abbrev amount : Field bidSize := ⟨16, 8, by decide⟩
abbrev placedAt : Field bidSize := ⟨24, 8, by decide⟩
abbrev isWinning : Field bidSize := ⟨32, 4, by decide⟩

end BidField

/-- The bid that a record of `bids.dat` is. -/
def Bid.ofBytes (b : CharArray bidSize) : Option Bid := do
  let amount ← double (BidField.amount.get b)
  return {
    bidId := uint32 (BidField.bidId.get b)
    auctionId := uint32 (BidField.auctionId.get b)
    bidderId := uint32 (BidField.bidderId.get b)
    amount := amount
    placedAt := int (BidField.placedAt.get b)
    isWinning := uint32 (BidField.isWinning.get b) != 0 }

/-! ## `Dispute` -/

/-- `sizeof(Dispute)`. -/
abbrev disputeSize : Nat := 552

namespace DisputeField

abbrev disputeId : Field disputeSize := ⟨0, 4, by decide⟩
abbrev auctionId : Field disputeSize := ⟨4, 4, by decide⟩
abbrev raisedByUserId : Field disputeSize := ⟨8, 4, by decide⟩
abbrev resolvedByUserId : Field disputeSize := ⟨12, 4, by decide⟩
abbrev reason : Field disputeSize := ⟨16, maxDesc, by decide⟩
abbrev resolution : Field disputeSize := ⟨272, maxDesc, by decide⟩
abbrev status : Field disputeSize := ⟨528, 4, by decide⟩
abbrev raisedAt : Field disputeSize := ⟨536, 8, by decide⟩
abbrev resolvedAt : Field disputeSize := ⟨544, 8, by decide⟩

end DisputeField

/-- The dispute that a record of `disputes.dat` is. -/
def Dispute.ofBytes (b : CharArray disputeSize) : Option Dispute := do
  let status ← DisputeStatus.ofCode (uint32 (DisputeField.status.get b))
  return {
    disputeId := uint32 (DisputeField.disputeId.get b)
    auctionId := uint32 (DisputeField.auctionId.get b)
    raisedByUserId := uint32 (DisputeField.raisedByUserId.get b)
    resolvedByUserId := uint32 (DisputeField.resolvedByUserId.get b)
    reason := DisputeField.reason.get b
    resolution := DisputeField.resolution.get b
    status := status
    raisedAt := int (DisputeField.raisedAt.get b)
    resolvedAt := int (DisputeField.resolvedAt.get b) }

/-! ## `Session` -/

/-- `sizeof(Session)`. -/
abbrev sessionSize : Nat := 24

namespace SessionField

abbrev userId : Field sessionSize := ⟨0, 4, by decide⟩
abbrev clientFd : Field sessionSize := ⟨4, 4, by decide⟩
abbrev loginTime : Field sessionSize := ⟨8, 8, by decide⟩
abbrev isActive : Field sessionSize := ⟨16, 4, by decide⟩

end SessionField

/-- The session that a record of `sessions.dat` is. -/
def Session.ofBytes (b : CharArray sessionSize) : Option Session := some {
  userId := uint32 (SessionField.userId.get b)
  clientFd := int (SessionField.clientFd.get b)
  loginTime := int (SessionField.loginTime.get b)
  isActive := uint32 (SessionField.isActive.get b) != 0 }

/-! ## `Feedback` -/

/-- `sizeof(Feedback)`. -/
abbrev feedbackSize : Nat := 288

namespace FeedbackField

abbrev feedbackId : Field feedbackSize := ⟨0, 4, by decide⟩
abbrev fromUserId : Field feedbackSize := ⟨4, 4, by decide⟩
abbrev aboutAuctionId : Field feedbackSize := ⟨8, 4, by decide⟩
abbrev message : Field feedbackSize := ⟨12, maxFeedback, by decide⟩
abbrev submittedAt : Field feedbackSize := ⟨272, 8, by decide⟩
abbrev reviewed : Field feedbackSize := ⟨280, 4, by decide⟩

end FeedbackField

/-- The feedback that a record of `feedback.dat` is. -/
def Feedback.ofBytes (b : CharArray feedbackSize) : Option Feedback := some {
  feedbackId := uint32 (FeedbackField.feedbackId.get b)
  fromUserId := uint32 (FeedbackField.fromUserId.get b)
  aboutAuctionId := uint32 (FeedbackField.aboutAuctionId.get b)
  message := FeedbackField.message.get b
  submittedAt := int (FeedbackField.submittedAt.get b)
  reviewed := uint32 (FeedbackField.reviewed.get b) != 0 }

/-! ## files -/

/-- The records of a file are these, one as bytes; neither is there if the file is not. -/
def Decodes {size : Nat} {α : Type} (ofBytes : CharArray size → Option α)
    (file : Option (List (CharArray size))) (records : Option (List α)) : Prop :=
  Option.Rel (List.Forall₂ fun b x => ofBytes b = some x) file records

/-! ## lemmas -/

section Values

variable {n : Nat} {a : CharArray n}

/-- A number of 32 bits comes back from its bytes. -/
theorem uint32_of_val {x : UInt32} (h : a.val = toLe 4 x.toNat) : uint32 a = x := by
  have hx : x.toNat < 256 ^ 4 := Nat.lt_of_lt_of_eq x.toNat_lt (by decide)
  rw [uint32, h, ofLe_toLe, Nat.mod_eq_of_lt hx, UInt32.ofNat_toNat]

/-- An integer of any width, in two's complement. -/
theorem int_of_toLe {x : Int} (h : a.val = toLe n (BitVec.ofInt (8 * n) x).toNat) :
    int a = x.bmod (2 ^ (8 * n)) := by
  have hpow : (256 : Nat) ^ n = 2 ^ (8 * n) := by rw [Nat.pow_mul]
  have hlt : (BitVec.ofInt (8 * n) x).toNat < 256 ^ n := hpow ▸ (BitVec.ofInt (8 * n) x).isLt
  rw [int, h, ofLe_toLe, Nat.mod_eq_of_lt hlt, BitVec.ofNat_toNat, BitVec.setWidth_eq,
    BitVec.toInt_ofInt]

/-- An integer of 64 bits comes back up to its width. -/
theorem int_of_val {x : Int} (hn : n = 8) (h : a.val = toLe 8 (BitVec.ofInt 64 x).toNat) :
    int a = x.bmod (2 ^ 64) := by
  subst hn
  exact int_of_toLe h

/-- Zeros are zero. -/
theorem uint32_of_zeros {k : Nat} (h : a.val = List.replicate k 0) : uint32 a = 0 := by
  rw [uint32, h, ofLe_zeros]
  rfl

/-- Also as an integer. -/
theorem int_of_zeros {k : Nat} (h : a.val = List.replicate k 0) : int a = 0 := by
  rw [int, h, ofLe_zeros]
  simp

/-- And as a double. -/
theorem double_of_zeros {k : Nat} (h : a.val = List.replicate k 0) : double a = some 0 := by
  rw [double, h, ofLe_zeros]
  simp only [Nat.zero_mod, Nat.zero_div, if_true, Int.natCast_zero, Int.zero_mul, Rat.zero_mkRat]
  rfl

end Values

/-- A hole in `users.dat` is a zero-filled user. -/
theorem User.ofBytes_zero : User.ofBytes (.zero userSize) = some .zero := by
  have hval {n : Nat} : (CharArray.zero n).val = List.replicate n 0 := CharArray.val_zero n
  simp only [User.ofBytes, Field.get_zero, double_of_zeros hval, uint32_of_zeros hval,
    int_of_zeros hval]
  rfl

/-- A hole in `auctions.dat` is a zero-filled auction. -/
theorem Auction.ofBytes_zero : Auction.ofBytes (.zero auctionSize) = some .zero := by
  have hval {n : Nat} : (CharArray.zero n).val = List.replicate n 0 := CharArray.val_zero n
  simp only [Auction.ofBytes, Field.get_zero, double_of_zeros hval, uint32_of_zeros hval,
    int_of_zeros hval]
  rfl

/-- A hole in `sessions.dat` is a zero-filled session. -/
theorem Session.ofBytes_zero : Session.ofBytes (.zero sessionSize) = some .zero := by
  have hval {n : Nat} : (CharArray.zero n).val = List.replicate n 0 := CharArray.val_zero n
  simp only [Session.ofBytes, Field.get_zero, uint32_of_zeros hval, int_of_zeros hval]
  rfl

/-- A hole in `disputes.dat` is a zero-filled dispute. -/
theorem Dispute.ofBytes_zero : Dispute.ofBytes (.zero disputeSize) = some .zero := by
  have hval {n : Nat} : (CharArray.zero n).val = List.replicate n 0 := CharArray.val_zero n
  simp only [Dispute.ofBytes, Field.get_zero, uint32_of_zeros hval, int_of_zeros hval]
  rfl

/-- To mark a bid as winning is to mark it in the record. -/
theorem Bid.ofBytes_isWinning (b : CharArray bidSize) :
    Bid.ofBytes (BidField.isWinning.set b (toLe 4 1)) =
      (Bid.ofBytes b).map fun x => { x with isWinning := true } := by
  have hget (f : Field bidSize) (hf : f.Apart BidField.isWinning) :
      f.get (BidField.isWinning.set b (toLe 4 1)) = f.get b := Field.get_set_of_apart hf (by decide)
  have hset : uint32 (BidField.isWinning.get (BidField.isWinning.set b (toLe 4 1))) = 1 :=
    uint32_of_val (Field.get_set_self (by decide))
  rw [Bid.ofBytes, Bid.ofBytes, hset, hget BidField.bidId (by decide),
    hget BidField.auctionId (by decide), hget BidField.bidderId (by decide),
    hget BidField.amount (by decide), hget BidField.placedAt (by decide)]
  cases double (BidField.amount.get b) <;> rfl

/-- To mark feedback as reviewed is to mark it in the record. -/
theorem Feedback.ofBytes_reviewed (b : CharArray feedbackSize) :
    Feedback.ofBytes (FeedbackField.reviewed.set b (toLe 4 1)) =
      (Feedback.ofBytes b).map fun f => { f with reviewed := true } := by
  have hget (f : Field feedbackSize) (hf : f.Apart FeedbackField.reviewed) :
      f.get (FeedbackField.reviewed.set b (toLe 4 1)) = f.get b :=
    Field.get_set_of_apart hf (by decide)
  have hset : uint32 (FeedbackField.reviewed.get (FeedbackField.reviewed.set b (toLe 4 1))) = 1 :=
    uint32_of_val (Field.get_set_self (by decide))
  rw [Feedback.ofBytes, Feedback.ofBytes, hset, hget FeedbackField.feedbackId (by decide),
    hget FeedbackField.fromUserId (by decide), hget FeedbackField.aboutAuctionId (by decide),
    hget FeedbackField.message (by decide), hget FeedbackField.submittedAt (by decide)]
  rfl

/-- To blank the password is to blank it in the record. -/
theorem User.ofBytes_blankPassword (b : CharArray userSize) : User.ofBytes (blankPassword b) =
    (User.ofBytes b).map fun u => { u with password := .zero _ } := by
  have hget (f : Field userSize) (hf : f.Apart UserField.password) :
      f.get (blankPassword b) = f.get b := Field.get_set_of_apart hf (by decide)
  have hpassword : UserField.password.get (blankPassword b) = .zero maxPassword :=
    Subtype.ext ((Field.get_set_self (by decide)).trans (CharArray.val_zero _).symm)
  rw [User.ofBytes, User.ofBytes, hpassword, hget UserField.walletBalance (by decide),
    hget UserField.walletHold (by decide), hget UserField.userId (by decide),
    hget UserField.username (by decide), hget UserField.fullName (by decide),
    hget UserField.role (by decide), hget UserField.status (by decide),
    hget UserField.createdAt (by decide), hget UserField.lastLogin (by decide),
    hget UserField.isDeleted (by decide)]
  cases double (UserField.walletBalance.get b) with
  | none => rfl
  | some balance => cases double (UserField.walletHold.get b) <;> rfl

/-! ## what is tested of a record -/

/-- Code 1 is OPEN. -/
theorem AuctionStatus.ofCode_eq_open {code : UInt32} :
    AuctionStatus.ofCode code = some .auctionOpen ↔ code = 1 := by
  unfold AuctionStatus.ofCode
  grind

/-- Code 0 is OPEN. -/
theorem DisputeStatus.ofCode_eq_open {code : UInt32} :
    DisputeStatus.ofCode code = some .disputeOpen ↔ code = 0 := by
  unfold DisputeStatus.ofCode
  grind

/-- The fields of a user that the file functions look at. -/
theorem User.ofBytes_eq_some {b : CharArray userSize} {u : User} (h : User.ofBytes b = some u) :
    u.userId = uint32 (UserField.userId.get b) ∧ u.username = UserField.username.get b ∧
      u.isDeleted = (uint32 (UserField.isDeleted.get b) != 0) := by
  obtain ⟨balance, -, h⟩ := Option.bind_eq_some_iff.mp h
  obtain ⟨hold, -, h⟩ := Option.bind_eq_some_iff.mp h
  cases h
  exact ⟨rfl, rfl, rfl⟩

/-- Those of an auction. -/
theorem Auction.ofBytes_eq_some {b : CharArray auctionSize} {a : Auction}
    (h : Auction.ofBytes b = some a) :
    AuctionStatus.ofCode (uint32 (AuctionField.status.get b)) = some a.status ∧
      a.isDeleted = (uint32 (AuctionField.isDeleted.get b) != 0) := by
  obtain ⟨startPrice, -, h⟩ := Option.bind_eq_some_iff.mp h
  obtain ⟨reservePrice, -, h⟩ := Option.bind_eq_some_iff.mp h
  obtain ⟨currentBid, -, h⟩ := Option.bind_eq_some_iff.mp h
  obtain ⟨status, hstatus, h⟩ := Option.bind_eq_some_iff.mp h
  cases h
  exact ⟨hstatus, rfl⟩

/-- Those of a bid. -/
theorem Bid.ofBytes_eq_some {b : CharArray bidSize} {x : Bid} (h : Bid.ofBytes b = some x) :
    x.bidderId = uint32 (BidField.bidderId.get b) := by
  obtain ⟨amount, -, h⟩ := Option.bind_eq_some_iff.mp h
  cases h
  rfl

/-- The auction of a bid. -/
theorem Bid.ofBytes_auctionId {b : CharArray bidSize} {x : Bid} (h : Bid.ofBytes b = some x) :
    x.auctionId = uint32 (BidField.auctionId.get b) := by
  obtain ⟨amount, -, h⟩ := Option.bind_eq_some_iff.mp h
  cases h
  rfl

/-- The identifier of an auction. -/
theorem Auction.ofBytes_auctionId {b : CharArray auctionSize} {a : Auction}
    (h : Auction.ofBytes b = some a) : a.auctionId = uint32 (AuctionField.auctionId.get b) := by
  obtain ⟨startPrice, -, h⟩ := Option.bind_eq_some_iff.mp h
  obtain ⟨reservePrice, -, h⟩ := Option.bind_eq_some_iff.mp h
  obtain ⟨currentBid, -, h⟩ := Option.bind_eq_some_iff.mp h
  obtain ⟨status, -, h⟩ := Option.bind_eq_some_iff.mp h
  cases h
  rfl

/-- The identifier of a dispute. -/
theorem Dispute.ofBytes_disputeId {b : CharArray disputeSize} {d : Dispute}
    (h : Dispute.ofBytes b = some d) : d.disputeId = uint32 (DisputeField.disputeId.get b) := by
  obtain ⟨status, -, h⟩ := Option.bind_eq_some_iff.mp h
  cases h
  rfl

/-- Its status. -/
theorem Dispute.ofBytes_eq_some {b : CharArray disputeSize} {d : Dispute}
    (h : Dispute.ofBytes b = some d) :
    DisputeStatus.ofCode (uint32 (DisputeField.status.get b)) = some d.status := by
  obtain ⟨status, hstatus, h⟩ := Option.bind_eq_some_iff.mp h
  cases h
  exact hstatus

end OnlineAuction
