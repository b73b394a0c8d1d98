import OnlineAuction.Accounting
import OnlineAuction.BidAnswers

/-!
# OnlineAuction.BidChecks

The two checks of the bidder's funds.

`handle_place_bid` compares the amount with what the bidder has at hand before it takes the
semaphore; `place_hold` does so again after the hold of the present leader has been released.
Under the ledger rule the two differ for a leader who raises the own bid by more than is at hand
and by no more than is at hand once the old hold is released (`checksAgree_iff`).
-/

namespace OnlineAuction

/-- What is not held of the wallet. -/
def User.available (u : User) : ℚ := u.walletBalance - u.walletHold

/-- After the release for the present leader `place_hold` finds too little. -/
def FoundTooLow (s : Store) (a : Auction) (req : PlaceBidPayload) (bidderId : UInt32) : Prop :=
  ∃ w, readRec (Prog.run Api.exec (releaseLeader (.placeBid req.auctionId) a) s).2.users bidderId =
    some w ∧ w.available < req.amount

/-- The bid is refused for want of funds exactly if `place_hold` would find too little. -/
def ChecksAgree (fd : Int) (s : Store) (a : Auction) (req : PlaceBidPayload) (bidder : User) :
    Prop :=
  Answered fd .msgPlaceBidResp .errInsufficient
      (Prog.trace Api.exec (handlePlaceBid fd req bidder) s) ↔
    FoundTooLow s a req bidder.userId

/-- The bidder is not the leader, or has the whole amount at hand besides the hold, or not even
with it. -/
def RaiseFits (s : Store) (a : Auction) (req : PlaceBidPayload) (bidderId : UInt32) : Prop :=
  a.highestBidderId = bidderId → ∀ u, readRec s.users bidderId = some u →
    req.amount ≤ u.available ∨ u.available + a.currentBid < req.amount

section Checks

variable {s : Store} {fd : Int} {req : PlaceBidPayload} {bidder u : User} {a : Auction}

/-- A bid is refused for want of funds by the first check only. -/
theorem answered_insufficient (fd : Int) (req : PlaceBidPayload) (bidder : User) (s : Store) :
    Answered fd .msgPlaceBidResp .errInsufficient
        (Prog.trace Api.exec (handlePlaceBid fd req bidder) s) ↔
      bidAnswer s.users s.auctions req bidder.userId = .errInsufficient := by
  refine (exists_congr fun payload => mem_bidAnswers.symm).trans ?_
  simp only [answers_handlePlaceBid, List.mem_singleton]
  constructor
  · rintro ⟨payload, h⟩
    exact ((Prod.mk.inj (Prod.mk.inj h).2).1).symm
  · intro h
    exact ⟨.empty, by simp [h]⟩

/-- The release touches the wallet of the leader only. -/
theorem users_releaseLeader (hnum : Numbered User.userId s.users) (site : Site) (a : Auction) :
    (Prog.run Api.exec (releaseLeader site a) s).2.users =
      if a.highestBidderId ≠ 0 then
        s.users.map (WalletCall.releaseHold a.highestBidderId a.currentBid).update
      else s.users := by
  unfold releaseLeader
  split
  · exact (exec_wallet_users s site _).trans (WalletCall.users_eq_map hnum _)
  · rfl

/-- What the leader has at hand once the old hold is released. -/
theorem available_release (hs : s.Ledgered) (ha : a ∈ s.auctions) (hopen : a.status = .auctionOpen)
    (hu : u ∈ s.users) (hleader : a.highestBidderId = u.userId) :
    ((WalletCall.releaseHold a.highestBidderId a.currentBid).update u).available =
      u.available + a.currentBid := by
  have hheld := hs.bid_le_hold ha hopen hu hleader
  have hpos := hs.bid_pos a ha
  have hle := hs.hold_le u hu
  have happly : (WalletCall.releaseHold a.highestBidderId a.currentBid).apply u = some _ :=
    walletDelta_of_le (by linarith) (by linarith)
  rw [WalletCall.update_of_apply hleader.symm happly]
  simp only [User.available, User.withWallet_walletBalance,
    User.withWallet_walletHold]
  ring

/-- `place_hold` refuses a wallet with a sound hold for want of funds only. -/
theorem result_placeHold_neg {l : List User} {id : UInt32} {amount : ℚ}
    (hread : readRec l id = some u) (hhold : 0 ≤ u.walletHold) (hamount : 0 ≤ amount) :
    (WalletCall.placeHold id amount).result l < 0 ↔ u.available < amount := by
  have happly : (WalletCall.placeHold id amount).apply u =
      if u.available < amount then none else walletDelta u 0 amount := rfl
  rw [WalletCall.result, WalletCall.userId, hread, WalletCall.written, Option.bind_some, happly]
  by_cases hlow : u.available < amount
  · simp [hlow]
  · have hfits : u.walletHold + amount ≤ u.walletBalance + 0 := by
      rw [User.available] at hlow
      linarith
    simp [hlow, walletDelta_of_le (add_nonneg hhold hamount) hfits]

/-- `FoundTooLow` is a refusal of `place_hold`. -/
theorem foundTooLow_iff_result (hs : s.Ledgered) (hu : readRec s.users bidder.userId = some u)
    (hamount : 0 ≤ req.amount) : FoundTooLow s a req bidder.userId ↔
      (WalletCall.placeHold bidder.userId req.amount).result
        (Prog.run Api.exec (releaseLeader (.placeBid req.auctionId) a) s).2.users < 0 := by
  have hafter : ∃ w, readRec (Prog.run Api.exec (releaseLeader (.placeBid req.auctionId) a)
      s).2.users bidder.userId = some w ∧ 0 ≤ w.walletHold := by
    have hhold := hs.hold_nonneg (hs.users_numbered.readRec_eq_some.mp hu).1
    rw [users_releaseLeader hs.users_numbered]
    split
    · rw [← readRec_map, hu]
      exact ⟨_, rfl, WalletCall.hold_nonneg_update _ hhold⟩
    · exact ⟨u, hu, hhold⟩
  obtain ⟨w, hw, hhold⟩ := hafter
  rw [result_placeHold_neg hw hhold hamount, FoundTooLow, hw]
  simp

/-- **The two checks** agree under the ledger rule, exactly if the bidder does not raise the own
bid by more than is at hand and no more than the old hold covers. -/
theorem checksAgree_iff (hs : s.Ledgered) (hread : readRec s.auctions req.auctionId = some a)
    (hopen : a.status = .auctionOpen) (fd : Int) (bidder : User) :
    ChecksAgree fd s a req bidder ↔ RaiseFits s a req bidder.userId := by
  obtain ⟨ha, hid⟩ := hs.auctions_numbered.readRec_eq_some.mp hread
  have hpos := hs.bid_pos a ha
  rw [ChecksAgree, answered_insufficient, bidAnswer_eq_insufficient]
  have hlow : (∃ a u, readRec s.auctions req.auctionId = some a ∧ a.status = .auctionOpen ∧
      readRec s.users bidder.userId = some u ∧ u.walletBalance - u.walletHold < req.amount) ↔
      ∃ u, readRec s.users bidder.userId = some u ∧ u.available < req.amount := by
    constructor
    · rintro ⟨_, u, -, -, hu, hlt⟩
      exact ⟨u, hu, hlt⟩
    · rintro ⟨u, hu, hlt⟩
      exact ⟨a, u, hread, hopen, hu, hlt⟩
  rw [hlow, FoundTooLow, users_releaseLeader hs.users_numbered]
  cases huser : readRec s.users bidder.userId with
  | none =>
      refine iff_of_true ?_ fun _ u hu => by rw [huser] at hu; cases hu
      split <;> simp [← readRec_map, huser]
  | some u =>
      obtain ⟨hu, huid⟩ := hs.users_numbered.readRec_eq_some.mp huser
      by_cases hleader : a.highestBidderId = bidder.userId
      · have hself : a.highestBidderId = u.userId := hleader.trans huid.symm
        have hne : a.highestBidderId ≠ 0 := hself ▸ hs.users_numbered.ne_zero hu
        have havailable := available_release hs ha hopen hu hself
        rw [hleader] at havailable
        rw [if_pos hne, ← readRec_map, huser]
        simp only [Option.some.injEq, exists_eq_left', Option.map_some, havailable, RaiseFits,
          hleader, huser, forall_const, forall_eq']
        constructor
        · intro hagree
          exact (le_or_gt req.amount u.available).imp id hagree.mp
        · rintro (hle | hgt)
          · exact iff_of_false (not_lt.mpr hle) (not_lt.mpr (by linarith))
          · exact iff_of_true (by linarith) hgt
      · refine iff_of_true ?_ fun h => absurd h hleader
        have hother : (WalletCall.releaseHold a.highestBidderId a.currentBid).update u = u :=
          WalletCall.update_of_ne fun h => hleader (h.symm.trans huid)
        split <;> simp [← readRec_map, huser, hother]

end Checks

/-- User `2` leads the auction of the market with 10 and has 90 besides; user `3` is checked
alike, and so is user `2` with 90. -/
theorem checksAgree_iff_market :
    let a : Auction := { Auction.zero with
      auctionId := 1, sellerId := 1, currentBid := 10, highestBidderId := 2
      status := .auctionOpen }
    ChecksAgree 4 Store.market a ⟨1, 101⟩ (.sample 3 roleBidder 100 0) ∧
      ChecksAgree 4 Store.market a ⟨1, 90⟩ (.sample 2 roleBidder 100 10) := by
  have hs : Store.market.Ledgered := (by decide +kernel : Store.market.Balanced).ledgered
  constructor
  · exact (checksAgree_iff hs rfl rfl 4 _).mpr fun h => absurd h (by decide)
  · refine (checksAgree_iff hs rfl rfl 4 _).mpr fun _ u hu => ?_
    obtain rfl := Option.some.inj hu
    exact .inl (by decide +kernel)

/-- The leader raises the own bid to 100, the whole balance, and is refused. -/
theorem not_checksAgree : ¬ ∀ (s : Store) (fd : Int) (req : PlaceBidPayload) (bidder : User)
    (a : Auction), s.Balanced → readRec s.auctions req.auctionId = some a →
      a.status = .auctionOpen → a.currentBid < req.amount → ChecksAgree fd s a req bidder := by
  intro h
  have hrefused : Answered 4 .msgPlaceBidResp .errInsufficient (Prog.trace Api.exec
      (handlePlaceBid 4 ⟨1, 100⟩ (.sample 2 roleBidder 100 10)) Store.market) := by
    decide +kernel
  have henough : ∀ a ∈ Store.market.auctions, ∀ w ∈ readRec (Prog.run Api.exec
      (releaseLeader (.placeBid 1) a) Store.market).2.users 2,
      ¬ w.walletBalance - w.walletHold < 100 := by
    decide +kernel
  have hagree := h Store.market 4 ⟨1, 100⟩ (.sample 2 roleBidder 100 10) _ (by decide +kernel) rfl
    rfl (by decide +kernel)
  obtain ⟨w, hw, hlt⟩ := hagree.mp hrefused
  exact henough _ (List.mem_singleton.mpr rfl) w hw hlt

end OnlineAuction
