import OnlineAuction.RecordBytes

/-!
# OnlineAuction.RecordLayout

The bytes of a record.

`RecordBytes` says which record a string of bytes is.  Here a record is laid out, a value in each
field and zeros in the padding, as the server has it in memory when it has cleared the structure
first.  A record whose amounts are doubles and whose integers have the width of their fields
(`User.Fits` and the others) is read back from its bytes, so that such a record can be written.
-/

namespace OnlineAuction

/-! ## values -/

/-- The bits of a `double` that is zero or normal. -/
def doubleBits (x : ℚ) : Nat :=
  if x.num = 0 then 0
  else
    let e := 1023 + x.num.natAbs.log2 - x.den.log2
    let significand := x.num.natAbs * 2 ^ (1075 - e) / x.den / 2 ^ (e - 1075)
    (if x.num < 0 then 2 ^ 63 else 0) + e * 2 ^ 52 + (significand - 2 ^ 52)

def uint32Array (x : UInt32) : CharArray 4 := ⟨toLe 4 x.toNat, length_toLe ..⟩

def intArray (n : Nat) (x : Int) : CharArray n :=
  ⟨toLe n (BitVec.ofInt (8 * n) x).toNat, length_toLe ..⟩

def doubleArray (x : ℚ) : CharArray 8 := ⟨toLe 8 (doubleBits x), length_toLe ..⟩

/-- An `int` that is used as a truth value. -/
def flagArray (b : Bool) : CharArray 4 := uint32Array (if b then 1 else 0)

/-- The integer has `n` bytes. -/
abbrev IsInt (n : Nat) (x : Int) : Prop := x.bmod (2 ^ (8 * n)) = x

/-- The amount is one of binary64. -/
abbrev IsDouble (x : ℚ) : Prop := double (doubleArray x) = some x

def AuctionStatus.code (s : AuctionStatus) : UInt32 := .ofNat s.ctorIdx

def DisputeStatus.code (s : DisputeStatus) : UInt32 := .ofNat s.ctorIdx

section Values

/-- A number of 32 bits comes back. -/
theorem uint32_uint32Array (x : UInt32) : uint32 (uint32Array x) = x := uint32_of_val rfl

/-- So does an integer that fits its width. -/
theorem int_intArray {n : Nat} {x : Int} (h : IsInt n x) : int (intArray n x) = x :=
  (int_of_toLe rfl).trans h

theorem flag_flagArray (b : Bool) : (uint32 (flagArray b) != 0) = b := by
  rw [flagArray, uint32_uint32Array]
  cases b <;> rfl

/-- So does the status of an auction. -/
theorem AuctionStatus.ofCode_code (s : AuctionStatus) : AuctionStatus.ofCode s.code = some s := by
  cases s <;> rfl

/-- And that of a dispute. -/
theorem DisputeStatus.ofCode_code (s : DisputeStatus) : DisputeStatus.ofCode s.code = some s := by
  cases s <;> rfl

end Values

/-! ## `User` -/

/-- The fields of a user, in their order. -/
def UserField.all : List (Field userSize) :=
  [UserField.userId, UserField.username, UserField.password, UserField.fullName, UserField.role,
    UserField.status, UserField.walletBalance, UserField.walletHold, UserField.createdAt,
    UserField.lastLogin, UserField.isDeleted]

def User.parts (u : User) : List (Part userSize) :=
  [⟨UserField.userId, uint32Array u.userId⟩, ⟨UserField.username, u.username⟩,
    ⟨UserField.password, u.password⟩, ⟨UserField.fullName, u.fullName⟩,
    ⟨UserField.role, uint32Array u.role⟩, ⟨UserField.status, uint32Array u.status⟩,
    ⟨UserField.walletBalance, doubleArray u.walletBalance⟩,
    ⟨UserField.walletHold, doubleArray u.walletHold⟩, ⟨UserField.createdAt, intArray 8 u.createdAt⟩,
    ⟨UserField.lastLogin, intArray 8 u.lastLogin⟩, ⟨UserField.isDeleted, flagArray u.isDeleted⟩]

def User.bytes (u : User) : CharArray userSize := layOut u.parts

/-- Its amounts and times fit their fields. -/
abbrev User.Fits (u : User) : Prop :=
  IsDouble u.walletBalance ∧ IsDouble u.walletHold ∧ IsInt 8 u.createdAt ∧ IsInt 8 u.lastLogin

/-- **Round trip** of a user. -/
theorem User.ofBytes_bytes {u : User} (h : u.Fits) : User.ofBytes u.bytes = some u := by
  have hapart : (u.parts.map Sigma.fst).Pairwise Field.Apart :=
    (by decide : UserField.all.Pairwise Field.Apart)
  have hget (i : Nat) {g : Field userSize} {v : CharArray g.width}
      (hi : u.parts[i]? = some ⟨g, v⟩) : g.get u.bytes = v :=
    get_layOut hapart (List.mem_of_getElem? hi)
  obtain ⟨hbalance, hhold, hcreated, hlogin⟩ := h
  rw [User.ofBytes, hget 0 rfl, hget 1 rfl, hget 2 rfl, hget 3 rfl, hget 4 rfl, hget 5 rfl,
    hget 6 rfl, hget 7 rfl, hget 8 rfl, hget 9 rfl, hget 10 rfl, hbalance, hhold,
    int_intArray hcreated, int_intArray hlogin, flag_flagArray, uint32_uint32Array,
    uint32_uint32Array, uint32_uint32Array]
  rfl

/-! ## `Auction` -/

def AuctionField.all : List (Field auctionSize) :=
  [AuctionField.auctionId, AuctionField.itemName, AuctionField.description, AuctionField.sellerId,
    AuctionField.startPrice, AuctionField.reservePrice, AuctionField.currentBid,
    AuctionField.highestBidderId, AuctionField.status, AuctionField.startTime, AuctionField.endTime,
    AuctionField.bidCount, AuctionField.isDeleted]

def Auction.parts (a : Auction) : List (Part auctionSize) :=
  [⟨AuctionField.auctionId, uint32Array a.auctionId⟩, ⟨AuctionField.itemName, a.itemName⟩,
    ⟨AuctionField.description, a.description⟩, ⟨AuctionField.sellerId, uint32Array a.sellerId⟩,
    ⟨AuctionField.startPrice, doubleArray a.startPrice⟩,
    ⟨AuctionField.reservePrice, doubleArray a.reservePrice⟩,
    ⟨AuctionField.currentBid, doubleArray a.currentBid⟩,
    ⟨AuctionField.highestBidderId, uint32Array a.highestBidderId⟩,
    ⟨AuctionField.status, uint32Array a.status.code⟩,
    ⟨AuctionField.startTime, intArray 8 a.startTime⟩, ⟨AuctionField.endTime, intArray 8 a.endTime⟩,
    ⟨AuctionField.bidCount, intArray 4 a.bidCount⟩, ⟨AuctionField.isDeleted, flagArray a.isDeleted⟩]

def Auction.bytes (a : Auction) : CharArray auctionSize := layOut a.parts

abbrev Auction.Fits (a : Auction) : Prop :=
  IsDouble a.startPrice ∧ IsDouble a.reservePrice ∧ IsDouble a.currentBid ∧ IsInt 8 a.startTime ∧
    IsInt 8 a.endTime ∧ IsInt 4 a.bidCount

/-- **Round trip** of an auction. -/
theorem Auction.ofBytes_bytes {a : Auction} (h : a.Fits) : Auction.ofBytes a.bytes = some a := by
  have hapart : (a.parts.map Sigma.fst).Pairwise Field.Apart :=
    (by decide : AuctionField.all.Pairwise Field.Apart)
  have hget (i : Nat) {g : Field auctionSize} {v : CharArray g.width}
      (hi : a.parts[i]? = some ⟨g, v⟩) : g.get a.bytes = v :=
    get_layOut hapart (List.mem_of_getElem? hi)
  obtain ⟨hstartPrice, hreservePrice, hcurrentBid, hstartTime, hendTime, hbidCount⟩ := h
  rw [Auction.ofBytes, hget 0 rfl, hget 1 rfl, hget 2 rfl, hget 3 rfl, hget 4 rfl, hget 5 rfl,
    hget 6 rfl, hget 7 rfl, hget 8 rfl, hget 9 rfl, hget 10 rfl, hget 11 rfl, hget 12 rfl,
    hstartPrice, hreservePrice, hcurrentBid, uint32_uint32Array, AuctionStatus.ofCode_code,
    int_intArray hstartTime, int_intArray hendTime, int_intArray hbidCount, flag_flagArray,
    uint32_uint32Array, uint32_uint32Array, uint32_uint32Array]
  rfl

/-! ## `Bid` -/

def BidField.all : List (Field bidSize) :=
  [BidField.bidId, BidField.auctionId, BidField.bidderId, BidField.amount, BidField.placedAt,
    BidField.isWinning]

def Bid.parts (b : Bid) : List (Part bidSize) :=
  [⟨BidField.bidId, uint32Array b.bidId⟩, ⟨BidField.auctionId, uint32Array b.auctionId⟩,
    ⟨BidField.bidderId, uint32Array b.bidderId⟩, ⟨BidField.amount, doubleArray b.amount⟩,
    ⟨BidField.placedAt, intArray 8 b.placedAt⟩, ⟨BidField.isWinning, flagArray b.isWinning⟩]

def Bid.bytes (b : Bid) : CharArray bidSize := layOut b.parts

abbrev Bid.Fits (b : Bid) : Prop :=
  IsDouble b.amount ∧ IsInt 8 b.placedAt

/-- **Round trip** of a bid. -/
theorem Bid.ofBytes_bytes {b : Bid} (h : b.Fits) : Bid.ofBytes b.bytes = some b := by
  have hapart : (b.parts.map Sigma.fst).Pairwise Field.Apart :=
    (by decide : BidField.all.Pairwise Field.Apart)
  have hget (i : Nat) {g : Field bidSize} {v : CharArray g.width}
      (hi : b.parts[i]? = some ⟨g, v⟩) : g.get b.bytes = v :=
    get_layOut hapart (List.mem_of_getElem? hi)
  obtain ⟨hamount, hplacedAt⟩ := h
  rw [Bid.ofBytes, hget 0 rfl, hget 1 rfl, hget 2 rfl, hget 3 rfl, hget 4 rfl, hget 5 rfl, hamount,
    int_intArray hplacedAt, flag_flagArray, uint32_uint32Array, uint32_uint32Array,
    uint32_uint32Array]
  rfl

/-! ## `Session` -/

def SessionField.all : List (Field sessionSize) :=
  [SessionField.userId, SessionField.clientFd, SessionField.loginTime, SessionField.isActive]

def Session.parts (s : Session) : List (Part sessionSize) :=
  [⟨SessionField.userId, uint32Array s.userId⟩, ⟨SessionField.clientFd, intArray 4 s.clientFd⟩,
    ⟨SessionField.loginTime, intArray 8 s.loginTime⟩, ⟨SessionField.isActive, flagArray s.isActive⟩]

def Session.bytes (s : Session) : CharArray sessionSize := layOut s.parts

abbrev Session.Fits (s : Session) : Prop :=
  IsInt 4 s.clientFd ∧ IsInt 8 s.loginTime

/-- **Round trip** of a session. -/
theorem Session.ofBytes_bytes {s : Session} (h : s.Fits) : Session.ofBytes s.bytes = some s := by
  have hapart : (s.parts.map Sigma.fst).Pairwise Field.Apart :=
    (by decide : SessionField.all.Pairwise Field.Apart)
  have hget (i : Nat) {g : Field sessionSize} {v : CharArray g.width}
      (hi : s.parts[i]? = some ⟨g, v⟩) : g.get s.bytes = v :=
    get_layOut hapart (List.mem_of_getElem? hi)
  obtain ⟨hclientFd, hloginTime⟩ := h
  rw [Session.ofBytes, hget 0 rfl, hget 1 rfl, hget 2 rfl, hget 3 rfl, int_intArray hclientFd,
    int_intArray hloginTime, flag_flagArray, uint32_uint32Array]

/-! ## `Feedback` -/

def FeedbackField.all : List (Field feedbackSize) :=
  [FeedbackField.feedbackId, FeedbackField.fromUserId, FeedbackField.aboutAuctionId,
    FeedbackField.message, FeedbackField.submittedAt, FeedbackField.reviewed]

def Feedback.parts (f : Feedback) : List (Part feedbackSize) :=
  [⟨FeedbackField.feedbackId, uint32Array f.feedbackId⟩,
    ⟨FeedbackField.fromUserId, uint32Array f.fromUserId⟩,
    ⟨FeedbackField.aboutAuctionId, uint32Array f.aboutAuctionId⟩,
    ⟨FeedbackField.message, f.message⟩, ⟨FeedbackField.submittedAt, intArray 8 f.submittedAt⟩,
    ⟨FeedbackField.reviewed, flagArray f.reviewed⟩]

def Feedback.bytes (f : Feedback) : CharArray feedbackSize := layOut f.parts

abbrev Feedback.Fits (f : Feedback) : Prop :=
  IsInt 8 f.submittedAt

/-- **Round trip** of feedback. -/
theorem Feedback.ofBytes_bytes {f : Feedback} (h : f.Fits) : Feedback.ofBytes f.bytes = some f := by
  have hapart : (f.parts.map Sigma.fst).Pairwise Field.Apart :=
    (by decide : FeedbackField.all.Pairwise Field.Apart)
  have hget (i : Nat) {g : Field feedbackSize} {v : CharArray g.width}
      (hi : f.parts[i]? = some ⟨g, v⟩) : g.get f.bytes = v :=
    get_layOut hapart (List.mem_of_getElem? hi)
  rw [Feedback.ofBytes, hget 0 rfl, hget 1 rfl, hget 2 rfl, hget 3 rfl, hget 4 rfl, hget 5 rfl,
    int_intArray h, flag_flagArray, uint32_uint32Array, uint32_uint32Array, uint32_uint32Array]

/-! ## `Dispute` -/

def DisputeField.all : List (Field disputeSize) :=
  [DisputeField.disputeId, DisputeField.auctionId, DisputeField.raisedByUserId,
    DisputeField.resolvedByUserId, DisputeField.reason, DisputeField.resolution,
    DisputeField.status, DisputeField.raisedAt, DisputeField.resolvedAt]

def Dispute.parts (d : Dispute) : List (Part disputeSize) :=
  [⟨DisputeField.disputeId, uint32Array d.disputeId⟩,
    ⟨DisputeField.auctionId, uint32Array d.auctionId⟩,
    ⟨DisputeField.raisedByUserId, uint32Array d.raisedByUserId⟩,
    ⟨DisputeField.resolvedByUserId, uint32Array d.resolvedByUserId⟩,
    ⟨DisputeField.reason, d.reason⟩, ⟨DisputeField.resolution, d.resolution⟩,
    ⟨DisputeField.status, uint32Array d.status.code⟩,
    ⟨DisputeField.raisedAt, intArray 8 d.raisedAt⟩,
    ⟨DisputeField.resolvedAt, intArray 8 d.resolvedAt⟩]

def Dispute.bytes (d : Dispute) : CharArray disputeSize := layOut d.parts

abbrev Dispute.Fits (d : Dispute) : Prop :=
  IsInt 8 d.raisedAt ∧ IsInt 8 d.resolvedAt

/-- **Round trip** of a dispute. -/
theorem Dispute.ofBytes_bytes {d : Dispute} (h : d.Fits) : Dispute.ofBytes d.bytes = some d := by
  have hapart : (d.parts.map Sigma.fst).Pairwise Field.Apart :=
    (by decide : DisputeField.all.Pairwise Field.Apart)
  have hget (i : Nat) {g : Field disputeSize} {v : CharArray g.width}
      (hi : d.parts[i]? = some ⟨g, v⟩) : g.get d.bytes = v :=
    get_layOut hapart (List.mem_of_getElem? hi)
  obtain ⟨hraisedAt, hresolvedAt⟩ := h
  rw [Dispute.ofBytes, hget 0 rfl, hget 1 rfl, hget 2 rfl, hget 3 rfl, hget 4 rfl, hget 5 rfl,
    hget 6 rfl, hget 7 rfl, hget 8 rfl, uint32_uint32Array, DisputeStatus.ofCode_code,
    int_intArray hraisedAt, int_intArray hresolvedAt, uint32_uint32Array, uint32_uint32Array,
    uint32_uint32Array, uint32_uint32Array]
  rfl

end OnlineAuction
