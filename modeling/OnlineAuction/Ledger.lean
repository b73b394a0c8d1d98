import OnlineAuction.WalletEffect
import OnlineAuction.AuctionEngine
import Mathlib.Algebra.Order.BigOperators.Group.List
import Mathlib.Tactic.Ring

/-!
# OnlineAuction.Ledger

The accounting of wallet holds.

The rule of the wallet is that a user's `wallet_hold` is the sum of
`current_bid` over the open auctions that the user leads (`ledger`).  Inside a
bid or a close it is broken: the hold has moved and the auction has not, or
the other way round.  So the accounts are kept against a *cover*: how much of
each user's hold is there for the sake of each auction.  `Covered` says that
the holds add up to the cover and are backed by the balances; each wallet
function moves one entry of the cover (`Covered.place`, `Covered.release`,
`Covered.settle`, `Covered.credit`).  Between requests the cover is the one
that the auctions themselves prescribe (`Auction.heldFor`), and `Covered` is
the ledger rule.
-/

namespace OnlineAuction

/-! ## adjusting a wallet -/

/-- The users with one wallet changed by the given amounts. -/
def adjustWallet (id : UInt32) (balanceDelta holdDelta : ℚ) (users : List User) : List User :=
  users.map fun u =>
    if u.userId = id then
      u.withWallet (u.walletBalance + balanceDelta) (u.walletHold + holdDelta)
    else u

section Adjust

variable {users : List User} {u : User} {id : UInt32} {bd hd : ℚ}

/-- A map over the users that keeps identifiers keeps the file numbered. -/
theorem Numbered.map_users (h : Numbered User.userId users) {f : User → User}
    (hf : ∀ u, (f u).userId = u.userId) : Numbered User.userId (users.map f) := by
  intro i x hx
  rw [List.getElem?_map] at hx
  obtain ⟨w, hw, rfl⟩ := Option.map_eq_some_iff.mp hx
  rw [hf]
  exact h i w hw

/-- Adjusting a wallet keeps the file numbered. -/
theorem Numbered.adjustWallet (h : Numbered User.userId users) :
    Numbered User.userId (adjustWallet id bd hd users) :=
  h.map_users fun u => by split <;> rfl

/-- Writing the record of a user back with other wallet fields. -/
theorem overwrite_eq_adjustWallet (h : Numbered User.userId users) (hu : u ∈ users) :
    overwrite User.userId (u.withWallet (u.walletBalance + bd) (u.walletHold + hd)) users =
      adjustWallet u.userId bd hd users := by
  refine List.map_congr_left fun w hw => ?_
  by_cases hid : w.userId = u.userId
  · obtain rfl := h.eq_of_id hw hu hid
    simp
  · simp [hid]

/-- No user goes away. -/
theorem exists_mem_adjustWallet (hu : u ∈ users) :
    ∃ w ∈ adjustWallet id bd hd users, w.userId = u.userId := by
  refine ⟨_, List.mem_map_of_mem hu, ?_⟩
  split <;> rfl

/-- The identifiers stay. -/
theorem map_userId_adjustWallet :
    (adjustWallet id bd hd users).map User.userId = users.map User.userId := by
  rw [adjustWallet, List.map_map]
  refine List.map_congr_left fun w _ => ?_
  simp only [Function.comp]
  split <;> rfl

/-- The sum of all balances. -/
def totalBalance (users : List User) : ℚ := (users.map User.walletBalance).sum

/-- Changing one existing wallet changes the sum of balances by its delta. -/
theorem totalBalance_adjustWallet (h : Numbered User.userId users) (hu : u ∈ users) :
    totalBalance (adjustWallet u.userId bd hd users) = totalBalance users + bd := by
  rw [← overwrite_eq_adjustWallet h hu]
  have hsum := sum_map_overwrite User.walletBalance h.nodup hu
    (x := u.withWallet (u.walletBalance + bd) (u.walletHold + hd)) rfl
  simp only [totalBalance, User.withWallet_walletBalance] at hsum ⊢
  linarith

end Adjust

/-! ## cover -/

/-- What an auction holds of a user's wallet by itself. -/
def Auction.heldFor (a : Auction) (userId : UInt32) : ℚ :=
  if a.status = .auctionOpen ∧ a.highestBidderId = userId then a.currentBid else 0

/-- An open auction holds its price for its leader. -/
theorem heldFor_of_open {a : Auction} (hopen : a.status = .auctionOpen) (u : UInt32) :
    a.heldFor u = if u = a.highestBidderId then a.currentBid else 0 := by
  simp [Auction.heldFor, hopen, eq_comm]

/-- The sum of `current_bid` over the open auctions that the user leads. -/
def ledger (auctions : List Auction) (userId : UInt32) : ℚ :=
  ((auctions.filter fun a => a.status = .auctionOpen ∧ a.highestBidderId = userId).map
    Auction.currentBid).sum

/-- The ledger of a user is what the auctions hold for him. -/
theorem ledger_eq_sum_heldFor (auctions : List Auction) (userId : UInt32) :
    ledger auctions userId = (auctions.map fun a => a.heldFor userId).sum := by
  induction auctions with
  | nil => rfl
  | cons a l ih =>
      simp only [ledger] at ih
      simp only [ledger, List.filter_cons, List.map_cons, List.sum_cons, Auction.heldFor,
        decide_eq_true_eq]
      split
      · rw [List.map_cons, List.sum_cons, ih]; rfl
      · rw [ih, zero_add]; rfl

/-- How much of each user's hold is there for each auction. -/
abbrev Cover : Type := UInt32 → UInt32 → ℚ

/-- All that is held of a user's wallet. -/
def Cover.total (cover : Cover) (auctions : List Auction) (userId : UInt32) : ℚ :=
  (auctions.map fun a => cover a.auctionId userId).sum

/-- The cover with one entry changed by `delta`. -/
def Cover.add (cover : Cover) (auctionId userId : UInt32) (delta : ℚ) : Cover :=
  fun a u => if a = auctionId ∧ u = userId then cover a u + delta else cover a u

section Cover

variable {cover : Cover} {auctions : List Auction} {a : Auction} {userId : UInt32} {delta : ℚ}

/-- The cover of the auction and the user grows. -/
theorem Cover.add_self {auctionId : UInt32} :
    cover.add auctionId userId delta auctionId userId = cover auctionId userId + delta := by
  simp [Cover.add]

/-- Any other stays. -/
theorem Cover.add_of_ne {auctionId a u : UInt32} (h : a ≠ auctionId ∨ u ≠ userId) :
    cover.add auctionId userId delta a u = cover a u := by
  rw [Cover.add, if_neg (by tauto)]

/-- Nothing added is nothing changed. -/
theorem Cover.add_zero {auctionId : UInt32} : cover.add auctionId userId 0 = cover := by
  funext a u
  simp [Cover.add]

/-- The total of the user grows by as much. -/
theorem Cover.total_add_self (h : (auctions.map Auction.auctionId).Nodup) (ha : a ∈ auctions) :
    (cover.add a.auctionId userId delta).total auctions userId =
      cover.total auctions userId + delta := by
  induction auctions with
  | nil => simp at ha
  | cons b l ih =>
      rw [List.map_cons, List.nodup_cons] at h
      simp only [Cover.total, List.map_cons, List.sum_cons] at ih ⊢
      rcases List.mem_cons.mp ha with rfl | hal
      · have hrest : (l.map fun x => cover.add a.auctionId userId delta x.auctionId userId) =
            l.map fun x => cover x.auctionId userId := by
          refine List.map_congr_left fun x hx => Cover.add_of_ne (.inl fun he => h.1 ?_)
          exact he ▸ List.mem_map_of_mem hx
        rw [hrest, Cover.add_self]
        ring
      · have hne : b.auctionId ≠ a.auctionId := fun he => h.1 (he ▸ List.mem_map_of_mem hal)
        rw [Cover.add_of_ne (.inl hne), ih h.2 hal]
        ring

/-- The totals of the others stay. -/
theorem Cover.total_add_of_ne {auctionId u : UInt32} (h : u ≠ userId) :
    (cover.add auctionId userId delta).total auctions u = cover.total auctions u := by
  refine congrArg List.sum (List.map_congr_left fun x _ => Cover.add_of_ne (.inr h))

/-- The total depends on the auctions through their identifiers only. -/
theorem Cover.total_overwrite {x : Auction} :
    cover.total (overwrite Auction.auctionId x auctions) userId = cover.total auctions userId := by
  rw [Cover.total, overwrite, List.map_map]
  refine congrArg List.sum (List.map_congr_left fun z _ => ?_)
  simp only [Function.comp]
  split
  · next h => rw [h]
  · rfl

/-- One cover is at most the total. -/
theorem Cover.le_total (h0 : ∀ a u, 0 ≤ cover a u) (ha : a ∈ auctions) :
    cover a.auctionId userId ≤ cover.total auctions userId :=
  List.single_le_sum (by simp only [List.mem_map]; rintro _ ⟨x, -, rfl⟩; exact h0 _ _) _
    (List.mem_map_of_mem (f := fun x : Auction => cover x.auctionId userId) ha)

end Cover

/-! ## covered accounts -/

/-- The files refer to each other soundly, and every hold is the total of the
cover and backed by the balance. -/
structure Covered (cover : Cover) (users : List User) (auctions : List Auction) : Prop where
  users_numbered : Numbered User.userId users
  auctions_numbered : Numbered Auction.auctionId auctions
  seller_mem : ∀ a ∈ auctions, ∃ u ∈ users, u.userId = a.sellerId
  leader_mem : ∀ a ∈ auctions, a.highestBidderId ≠ 0 → ∃ u ∈ users, u.userId = a.highestBidderId
  bid_pos : ∀ a ∈ auctions, 0 < a.currentBid
  cover_nonneg : ∀ a u, 0 ≤ cover a u
  hold_eq : ∀ u ∈ users, u.walletHold = cover.total auctions u.userId
  hold_le : ∀ u ∈ users, u.walletHold ≤ u.walletBalance

namespace Covered

variable {cover : Cover} {users : List User} {auctions : List Auction} {u : User} {a : Auction}
  {amount : ℚ}

/-- A user is in the file under an identifier that reads. -/
theorem readRec_user (h : Covered cover users auctions) (hu : u ∈ users) :
    readRec users u.userId = some u :=
  h.users_numbered.readRec_eq_some.mpr ⟨hu, rfl⟩

/-- So it is at most the hold. -/
theorem cover_le_hold (h : Covered cover users auctions) (hu : u ∈ users) (ha : a ∈ auctions) :
    cover a.auctionId u.userId ≤ u.walletHold := by
  rw [h.hold_eq u hu]
  exact Cover.le_total h.cover_nonneg ha

/-- A covered hold is not negative. -/
theorem hold_nonneg (h : Covered cover users auctions) (hu : u ∈ users) : 0 ≤ u.walletHold := by
  rw [h.hold_eq u hu]
  refine List.sum_nonneg ?_
  simp only [List.mem_map]
  rintro _ ⟨x, -, rfl⟩
  exact h.cover_nonneg _ _

/-- One wallet and one entry of the cover change together. -/
theorem move (h : Covered cover users auctions) (hu : u ∈ users) (ha : a ∈ auctions)
    {bd hd : ℚ} (h0 : 0 ≤ cover a.auctionId u.userId + hd)
    (hle : u.walletHold + hd ≤ u.walletBalance + bd) :
    Covered (cover.add a.auctionId u.userId hd) (adjustWallet u.userId bd hd users) auctions where
  users_numbered := h.users_numbered.adjustWallet
  auctions_numbered := h.auctions_numbered
  seller_mem b hb := by
    obtain ⟨w, hw, hid⟩ := h.seller_mem b hb
    obtain ⟨w', hw', hid'⟩ := exists_mem_adjustWallet hw
    exact ⟨w', hw', hid'.trans hid⟩
  leader_mem b hb hne := by
    obtain ⟨w, hw, hid⟩ := h.leader_mem b hb hne
    obtain ⟨w', hw', hid'⟩ := exists_mem_adjustWallet hw
    exact ⟨w', hw', hid'.trans hid⟩
  bid_pos := h.bid_pos
  cover_nonneg b w := by
    by_cases hbw : b = a.auctionId ∧ w = u.userId
    · obtain ⟨rfl, rfl⟩ := hbw
      rw [Cover.add_self]
      exact h0
    · rw [Cover.add_of_ne (by tauto)]
      exact h.cover_nonneg b w
  hold_eq w hw := by
    obtain ⟨z, hz, rfl⟩ := List.mem_map.mp hw
    by_cases hid : z.userId = u.userId
    · obtain rfl := h.users_numbered.eq_of_id hz hu hid
      simp only [if_true, User.withWallet_walletHold, User.withWallet_userId]
      rw [Cover.total_add_self h.auctions_numbered.nodup ha, h.hold_eq z hz]
    · rw [if_neg hid, Cover.total_add_of_ne hid]
      exact h.hold_eq z hz
  hold_le w hw := by
    obtain ⟨z, hz, rfl⟩ := List.mem_map.mp hw
    by_cases hid : z.userId = u.userId
    · obtain rfl := h.users_numbered.eq_of_id hz hu hid
      simpa using hle
    · rw [if_neg hid]
      exact h.hold_le z hz

/-- A wallet call that changes the record by the given deltas. -/
theorem users_of_apply (h : Covered cover users auctions) (hu : u ∈ users) {c : WalletCall}
    (hid : u.userId = c.userId) {bd hd : ℚ}
    (hv : c.apply u = some (u.withWallet (u.walletBalance + bd) (u.walletHold + hd))) :
    c.users users = adjustWallet u.userId bd hd users ∧ c.result users = 0 := by
  obtain ⟨husers, hres⟩ := WalletCall.users_eq h.users_numbered hu hid hv
  exact ⟨by rw [husers, overwrite_eq_adjustWallet h.users_numbered hu], hres⟩

/-- `place_hold` within the available funds succeeds. -/
theorem place (h : Covered cover users auctions) (hu : u ∈ users) (ha : a ∈ auctions)
    (h0 : 0 ≤ amount) (hle : amount ≤ u.walletBalance - u.walletHold) :
    (WalletCall.placeHold u.userId amount).users users = adjustWallet u.userId 0 amount users ∧
      (WalletCall.placeHold u.userId amount).result users = 0 ∧
      Covered (cover.add a.auctionId u.userId amount)
        (adjustWallet u.userId 0 amount users) auctions := by
  have happly : (WalletCall.placeHold u.userId amount).apply u =
      some (u.withWallet (u.walletBalance + 0) (u.walletHold + amount)) := by
    rw [WalletCall.apply, if_neg (not_lt.mpr hle)]
    exact walletDelta_of_le (add_nonneg (h.hold_nonneg hu) h0) (by linarith)
  obtain ⟨husers, hres⟩ := h.users_of_apply (c := .placeHold u.userId amount) hu rfl happly
  exact ⟨husers, hres, h.move hu ha (add_nonneg (h.cover_nonneg _ _) h0) (by linarith)⟩

/-- `release_hold` of what the auction covers succeeds. -/
theorem release (h : Covered cover users auctions) (hu : u ∈ users) (ha : a ∈ auctions)
    (h0 : 0 ≤ amount) (hle : amount ≤ cover a.auctionId u.userId) :
    (WalletCall.releaseHold u.userId amount).users users =
        adjustWallet u.userId 0 (-amount) users ∧
      (WalletCall.releaseHold u.userId amount).result users = 0 ∧
      Covered (cover.add a.auctionId u.userId (-amount))
        (adjustWallet u.userId 0 (-amount) users) auctions := by
  have hhold := h.cover_le_hold hu ha
  have hbal := h.hold_le u hu
  have happly : (WalletCall.releaseHold u.userId amount).apply u =
      some (u.withWallet (u.walletBalance + 0) (u.walletHold + -amount)) :=
    walletDelta_of_le (by linarith) (by linarith)
  obtain ⟨husers, hres⟩ := h.users_of_apply (c := .releaseHold u.userId amount) hu rfl happly
  exact ⟨husers, hres, h.move hu ha (by linarith) (by linarith)⟩

/-- `settle_payment` of what the auction covers succeeds. -/
theorem settle (h : Covered cover users auctions) (hu : u ∈ users) (ha : a ∈ auctions)
    (hle : amount ≤ cover a.auctionId u.userId) :
    (WalletCall.settlePayment u.userId amount).users users =
        adjustWallet u.userId (-amount) (-amount) users ∧
      (WalletCall.settlePayment u.userId amount).result users = 0 ∧
      Covered (cover.add a.auctionId u.userId (-amount))
        (adjustWallet u.userId (-amount) (-amount) users) auctions := by
  have hhold := h.cover_le_hold hu ha
  have hbal := h.hold_le u hu
  have happly : (WalletCall.settlePayment u.userId amount).apply u =
      some (u.withWallet (u.walletBalance + -amount) (u.walletHold + -amount)) :=
    walletDelta_of_le (by linarith) (by linarith)
  obtain ⟨husers, hres⟩ := h.users_of_apply (c := .settlePayment u.userId amount) hu rfl happly
  exact ⟨husers, hres, h.move hu ha (by linarith) (by linarith)⟩

/-- `credit_wallet` succeeds when the balance stays above the hold. -/
theorem credit (h : Covered cover users auctions) (hu : u ∈ users)
    (hle : u.walletHold ≤ u.walletBalance + amount) :
    (WalletCall.creditWallet u.userId amount).users users =
        adjustWallet u.userId amount 0 users ∧
      (WalletCall.creditWallet u.userId amount).result users = 0 ∧
      Covered cover (adjustWallet u.userId amount 0 users) auctions := by
  have hhold := h.hold_nonneg hu
  have happly : (WalletCall.creditWallet u.userId amount).apply u =
      some (u.withWallet (u.walletBalance + amount) (u.walletHold + 0)) :=
    walletDelta_of_le (by linarith) (by linarith)
  obtain ⟨husers, hres⟩ := h.users_of_apply (c := .creditWallet u.userId amount) hu rfl happly
  refine ⟨husers, hres, ?_⟩
  exact {
    users_numbered := h.users_numbered.adjustWallet
    auctions_numbered := h.auctions_numbered
    seller_mem := fun b hb => by
      obtain ⟨w, hw, hid⟩ := h.seller_mem b hb
      obtain ⟨w', hw', hid'⟩ := exists_mem_adjustWallet hw
      exact ⟨w', hw', hid'.trans hid⟩
    leader_mem := fun b hb hne => by
      obtain ⟨w, hw, hid⟩ := h.leader_mem b hb hne
      obtain ⟨w', hw', hid'⟩ := exists_mem_adjustWallet hw
      exact ⟨w', hw', hid'.trans hid⟩
    bid_pos := h.bid_pos
    cover_nonneg := h.cover_nonneg
    hold_eq := fun w hw => by
      obtain ⟨z, hz, rfl⟩ := List.mem_map.mp hw
      split
      · simpa using h.hold_eq z hz
      · exact h.hold_eq z hz
    hold_le := fun w hw => by
      obtain ⟨z, hz, rfl⟩ := List.mem_map.mp hw
      split
      · next hid =>
          obtain rfl := h.users_numbered.eq_of_id hz hu hid
          simpa using hle
      · exact h.hold_le z hz }

/-- An auction is rewritten with a positive bid and parties that exist. -/
theorem writeAuction (h : Covered cover users auctions) {x : Auction} (ha : a ∈ auctions)
    (hid : x.auctionId = a.auctionId) (hseller : ∃ u ∈ users, u.userId = x.sellerId)
    (hleader : x.highestBidderId ≠ 0 → ∃ u ∈ users, u.userId = x.highestBidderId)
    (hpos : 0 < x.currentBid) :
    writeRec .zero auctions x.auctionId x = overwrite Auction.auctionId x auctions ∧
      Covered cover users (overwrite Auction.auctionId x auctions) := by
  refine ⟨h.auctions_numbered.writeRec_eq_overwrite ha hid, ?_⟩
  exact {
    users_numbered := h.users_numbered
    auctions_numbered := h.auctions_numbered.overwrite x
    seller_mem := fun b hb => by
      rcases mem_overwrite hb with rfl | ⟨hb, -⟩
      · exact hseller
      · exact h.seller_mem b hb
    leader_mem := fun b hb => by
      rcases mem_overwrite hb with rfl | ⟨hb, -⟩
      · exact hleader
      · exact h.leader_mem b hb
    bid_pos := fun b hb => by
      rcases mem_overwrite hb with rfl | ⟨hb, -⟩
      · exact hpos
      · exact h.bid_pos b hb
    cover_nonneg := h.cover_nonneg
    hold_eq := fun u hu => by
      rw [Cover.total_overwrite]
      exact h.hold_eq u hu
    hold_le := h.hold_le }

end Covered

end OnlineAuction
