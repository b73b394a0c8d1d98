import OnlineAuction.Accounting
import OnlineAuction.LifeCycle

/-!
# OnlineAuction.Solvency

Holds and balances along runs of requests.

Between two requests every hold is the sum of the current bids of the open
auctions that the user leads, and is backed by the balance: `Covered` with the
cover of the auctions themselves.  Bids and closes therefore never fail to move
the money they mean to move (`solvency_of_serves`).  A refund does, when the
seller has not enough left (`refund_of_serves`).
-/

namespace OnlineAuction

/-! ## adjusted wallets -/

section Adjust

variable {users : List User} {u : User} {id : UInt32} {bd hd : ℚ}

/-- Nobody's wallet is adjusted. -/
theorem adjustWallet_of_missing (h : ∀ u ∈ users, u.userId ≠ id) :
    adjustWallet id bd hd users = users := by
  refine (List.map_congr_left fun u hu => ?_).trans (List.map_id users)
  rw [if_neg (h u hu)]
  rfl

/-- A user after an adjustment. -/
theorem exists_adjusted (id : UInt32) (bd hd : ℚ) (hu : u ∈ users) :
    ∃ w ∈ adjustWallet id bd hd users, w.userId = u.userId ∧
      w.walletBalance = u.walletBalance + (if u.userId = id then bd else 0) ∧
      w.walletHold = u.walletHold + (if u.userId = id then hd else 0) := by
  refine ⟨_, List.mem_map_of_mem hu, ?_⟩
  split <;> simp

/-- An adjustment of holds leaves the sum of the balances. -/
theorem totalBalance_adjustHold :
    totalBalance (adjustWallet id 0 hd users) = totalBalance users := by
  rw [totalBalance, totalBalance, adjustWallet, List.map_map]
  refine congrArg List.sum (List.map_congr_left fun u _ => ?_)
  simp only [Function.comp]
  split <;> simp

end Adjust

/-! ## covered by the auctions -/

/-- What a user has in the wallet. -/
def User.purse (u : User) : UInt32 × ℚ × ℚ := (u.userId, u.walletBalance, u.walletHold)

namespace Covered

variable {cover : Cover} {users users' : List User} {auctions : List Auction} {u : User}
  {a x : Auction} {amount : ℚ}

/-- A cover that agrees with the auctions is as good as their own. -/
theorem atRest (h : Covered cover users auctions)
    (hcover : ∀ a ∈ auctions, ∀ u, u ≠ 0 → cover a.auctionId u = a.heldFor u) :
    Covered (restCover auctions) users auctions :=
  Store.Balanced.covered (s := { Store.market with users := users, auctions := auctions })
    (Covered.balanced h hcover)

/-- Besides the closing of an auction its cover is what it holds. -/
theorem restCover_eq (h : Covered cover users auctions) (ha : a ∈ auctions) (u : UInt32) :
    restCover auctions a.auctionId u = a.heldFor u := restCover_of_mem h.auctions_numbered ha u

/-- An auction is rewritten, and the cover agrees with what it is then. -/
theorem rewritten (h : Covered cover users auctions) (ha : a ∈ auctions)
    (hid : x.auctionId = a.auctionId) (hseller : x.sellerId = a.sellerId)
    (hleader : x.highestBidderId ≠ 0 → ∃ u ∈ users, u.userId = x.highestBidderId)
    (hpos : 0 < x.currentBid) (hself : ∀ u, u ≠ 0 → cover a.auctionId u = x.heldFor u)
    (hothers : ∀ b ∈ auctions, b.auctionId ≠ a.auctionId → ∀ u, u ≠ 0 →
      cover b.auctionId u = b.heldFor u) :
    Covered (restCover (overwrite Auction.auctionId x auctions)) users
      (overwrite Auction.auctionId x auctions) := by
  have hseller' : ∃ u ∈ users, u.userId = x.sellerId := hseller ▸ h.seller_mem a ha
  refine (h.writeAuction ha hid hseller' hleader hpos).2.atRest fun b hb u hu => ?_
  rcases mem_overwrite hb with rfl | ⟨hb, hne⟩
  · rw [hid]
    exact hself u hu
  · exact hothers b hb (hid ▸ hne) u hu

/-- An auction that is not open gets another such status. -/
theorem setStatus (h : Covered (restCover auctions) users auctions) (ha : a ∈ auctions)
    (hclosed : a.status ≠ .auctionOpen) {status : AuctionStatus} (hstatus : status ≠ .auctionOpen) :
    Covered (restCover (overwrite Auction.auctionId (a.withStatus status) auctions)) users
      (overwrite Auction.auctionId (a.withStatus status) auctions) := by
  refine h.rewritten ha rfl rfl (h.leader_mem a ha) (h.bid_pos a ha) (fun u _ => ?_)
    fun b hb _ u _ => h.restCover_eq hb u
  rw [h.restCover_eq ha]
  simp [Auction.heldFor, hclosed, hstatus]

/-- Nothing but the wallets counts. -/
theorem congr_purses (h : Covered cover users auctions)
    (hmap : users'.map User.purse = users.map User.purse) : Covered cover users' auctions := by
  have hids : users'.map User.userId = users.map User.userId := by
    simpa [User.purse, Function.comp_def] using congrArg (List.map Prod.fst) hmap
  have hmem {l l' : List User} (hl : l'.map User.purse = l.map User.purse) {u : User}
      (hu : u ∈ l) : ∃ w ∈ l', w.purse = u.purse :=
    List.mem_map.mp (hl ▸ List.mem_map_of_mem hu)
  have hsame {w u : User} (hp : w.purse = u.purse) : w.userId = u.userId ∧
      w.walletBalance = u.walletBalance ∧ w.walletHold = u.walletHold := by
    simpa [User.purse] using hp
  exact {
    users_numbered := h.users_numbered.congr hids
    auctions_numbered := h.auctions_numbered
    seller_mem := fun a ha => by
      obtain ⟨u, hu, hid⟩ := h.seller_mem a ha
      obtain ⟨w, hw, hp⟩ := hmem hmap hu
      exact ⟨w, hw, (hsame hp).1.trans hid⟩
    leader_mem := fun a ha hne => by
      obtain ⟨u, hu, hid⟩ := h.leader_mem a ha hne
      obtain ⟨w, hw, hp⟩ := hmem hmap hu
      exact ⟨w, hw, (hsame hp).1.trans hid⟩
    bid_pos := h.bid_pos
    cover_nonneg := h.cover_nonneg
    hold_eq := fun w hw => by
      obtain ⟨u, hu, hp⟩ := hmem hmap.symm hw
      obtain ⟨hid, -, hhold⟩ := hsame hp
      rw [← hhold, ← hid]
      exact h.hold_eq u hu
    hold_le := fun w hw => by
      obtain ⟨u, hu, hp⟩ := hmem hmap.symm hw
      obtain ⟨-, hbalance, hhold⟩ := hsame hp
      rw [← hhold, ← hbalance]
      exact h.hold_le u hu }

/-- A new user with an empty wallet. -/
theorem addUser (h : Covered (restCover auctions) users auctions) {w : User}
    (hroom : users.length < 2 ^ 32 - 1) (hid : w.userId = nextRecId users)
    (hbalance : w.walletBalance = 0) (hhold : w.walletHold = 0) :
    Covered (restCover auctions) (users ++ [w]) auctions := by
  have hnew (u : User) (hu : u ∈ users) : u.userId ≠ w.userId := by
    intro heq
    have hread := h.users_numbered.readRec_eq_some.mpr ⟨hu, heq.trans hid⟩
    rw [readRec_nextRecId hroom] at hread
    cases hread
  have hne : w.userId ≠ 0 := by
    intro h0
    have hnext := nextRecId_toNat hroom
    rw [← hid, h0] at hnext
    simp at hnext
  have hnothing : (restCover auctions).total auctions w.userId = 0 := by
    refine List.sum_eq_zero fun y hy => ?_
    obtain ⟨a, ha, rfl⟩ := List.mem_map.mp hy
    rw [h.restCover_eq ha, Auction.heldFor, if_neg]
    rintro ⟨-, hleader⟩
    obtain ⟨u, hu, heq⟩ := h.leader_mem a ha (hleader ▸ hne)
    exact hnew u hu (heq.trans hleader)
  exact {
    users_numbered := (Extends.append hid).numbered h.users_numbered hroom
    auctions_numbered := h.auctions_numbered
    seller_mem := fun a ha => by
      obtain ⟨u, hu, heq⟩ := h.seller_mem a ha
      exact ⟨u, List.mem_append_left _ hu, heq⟩
    leader_mem := fun a ha hleader => by
      obtain ⟨u, hu, heq⟩ := h.leader_mem a ha hleader
      exact ⟨u, List.mem_append_left _ hu, heq⟩
    bid_pos := h.bid_pos
    cover_nonneg := h.cover_nonneg
    hold_eq := fun u hu => by
      rcases List.mem_append.mp hu with hu | hu
      · exact h.hold_eq u hu
      · rw [List.mem_singleton.mp hu, hhold, hnothing]
    hold_le := fun u hu => by
      rcases List.mem_append.mp hu with hu | hu
      · exact h.hold_le u hu
      · rw [List.mem_singleton.mp hu, hhold, hbalance] }

/-- A new auction without a bid. -/
theorem createAuction (h : Covered (restCover auctions) users auctions)
    (hroom : auctions.length < 2 ^ 32 - 1) (hid : a.auctionId = nextRecId auctions)
    (hseller : ∃ u ∈ users, u.userId = a.sellerId) (hleader : a.highestBidderId = 0)
    (hpos : 0 < a.currentBid) :
    Covered (restCover (auctions ++ [a])) users (auctions ++ [a]) := by
  have hnothing (u : UInt32) : restCover auctions a.auctionId u = 0 := by
    rw [restCover, hid, readRec_nextRecId hroom]
    rfl
  have hcovered : Covered (restCover auctions) users (auctions ++ [a]) := {
    users_numbered := h.users_numbered
    auctions_numbered := (Extends.append hid).numbered h.auctions_numbered hroom
    seller_mem := fun b hb => by
      rcases List.mem_append.mp hb with hb | hb
      · exact h.seller_mem b hb
      · exact List.mem_singleton.mp hb ▸ hseller
    leader_mem := fun b hb hne => by
      rcases List.mem_append.mp hb with hb | hb
      · exact h.leader_mem b hb hne
      · rw [List.mem_singleton.mp hb] at hne
        exact absurd hleader hne
    bid_pos := fun b hb => by
      rcases List.mem_append.mp hb with hb | hb
      · exact h.bid_pos b hb
      · exact List.mem_singleton.mp hb ▸ hpos
    cover_nonneg := h.cover_nonneg
    hold_eq := fun u hu => by
      rw [Cover.total, List.map_append, List.sum_append, List.map_singleton, List.sum_singleton,
        hnothing, add_zero]
      exact h.hold_eq u hu
    hold_le := h.hold_le }
  refine hcovered.atRest fun b hb u hu => ?_
  rcases List.mem_append.mp hb with hb | hb
  · exact h.restCover_eq hb u
  · rw [List.mem_singleton.mp hb, hnothing, Auction.heldFor, if_neg]
    rw [hleader]
    exact fun hc => hu hc.2.symm

/-- `credit_wallet`, with an amount of any sign and whether it succeeds or not. -/
theorem creditWallet (h : Covered cover users auctions) (id : UInt32) (amount : ℚ) :
    Covered cover ((WalletCall.creditWallet id amount).users users) auctions := by
  unfold WalletCall.users
  cases hw : (WalletCall.creditWallet id amount).written (readRec users id) with
  | none =>
      rw [WalletCall.userId, hw]
      exact h
  | some v =>
      obtain ⟨u, hu, hv⟩ := Option.bind_eq_some_iff.mp hw
      obtain ⟨hmem, hid⟩ := h.users_numbered.readRec_eq_some.mp hu
      subst hid
      obtain ⟨rfl, -, hle⟩ := walletDelta_eq_some hv
      have hhold : max (u.walletHold + 0) 0 = u.walletHold := by
        rw [add_zero, max_eq_left (h.hold_nonneg hmem)]
      simp only [User.withWallet_walletHold, User.withWallet_walletBalance, hhold] at hle
      have hcredit := (h.credit hmem hle).2.2
      rw [← (h.credit hmem hle).1, WalletCall.users, WalletCall.userId, hw] at hcredit
      rw [WalletCall.userId, hw]
      exact hcredit

end Covered

/-! ## bids and closes -/

/-- A wallet call has succeeded. -/
def Mark.Succeeds : Mark → Prop
  | .wallet _ _ result => result = 0
  | _ => True

/-- In the middle of a bid or a close: the auction is covered by what is held for it so
far, the others as they should be. -/
structure Pending (a : Auction) (held : UInt32 → ℚ) (cover : Cover) (users : List User)
    (auctions : List Auction) : Prop where
  covered : Covered cover users auctions
  self : ∀ u, u ≠ 0 → cover a.auctionId u = held u
  others : ∀ b ∈ auctions, b.auctionId ≠ a.auctionId → ∀ u, u ≠ 0 →
    cover b.auctionId u = b.heldFor u

/-- The wallet call that takes the hold from the leader, if there is one. -/
def Auction.releaseCalls (a : Auction) : List WalletCall :=
  if a.highestBidderId ≠ 0 then [.releaseHold a.highestBidderId a.currentBid] else []

/-- A bid releases the leader's hold and places a new one. -/
theorem Auction.biddingCalls_eq (a : Auction) (bidder : UInt32) (amount : ℚ) :
    a.biddingCalls bidder amount = a.releaseCalls ++ [.placeHold bidder amount] := by
  unfold Auction.biddingCalls Auction.releaseCalls
  split <;> rfl

/-- The wallets after a close. -/
def Auction.closedWallets (a : Auction) (users : List User) : List User :=
  if a.Settles then adjustWallet a.sellerId a.currentBid 0
    (adjustWallet a.highestBidderId (-a.currentBid) (-a.currentBid) users)
  else adjustWallet a.highestBidderId 0 (-a.currentBid) users

section Bidding

variable {cover : Cover} {users : List User} {auctions : List Auction} {a x : Auction} {w : User}
  {held : UInt32 → ℚ} {amount : ℚ} {site : Site}

/-- The marks of wallet calls follow each other. -/
theorem walletMarks_append (cs cs' : List WalletCall) (users : List User) :
    walletMarks site (cs ++ cs') users =
      walletMarks site cs users ++ walletMarks site cs' (usersAfter cs users) := by
  induction cs generalizing users with
  | nil => rfl
  | cons c cs ih => rw [List.cons_append, walletMarks, ih]; rfl

/-- A call that succeeds leaves a mark that does. -/
theorem succeeds_walletMarks_singleton {c : WalletCall} (h : c.result users = 0) :
    ∀ m ∈ walletMarks site [c] users, m.Succeeds := by
  intro m hm
  rw [List.mem_singleton.mp hm]
  exact h

/-- An auction whose calls have not begun is pending with its full holds. -/
theorem Covered.pending (h : Covered (restCover auctions) users auctions) (ha : a ∈ auctions) :
    Pending a a.heldFor (restCover auctions) users auctions where
  covered := h
  self u _ := h.restCover_eq ha u
  others _ hb _ u _ := h.restCover_eq hb u

/-- A wallet call moves what is held for the auction. -/
theorem Pending.add (h : Pending a held cover users auctions) {id : UInt32} {delta : ℚ}
    {users' : List User} (hc : Covered (cover.add a.auctionId id delta) users' auctions)
    {held' : UInt32 → ℚ}
    (hheld : ∀ u, u ≠ 0 → held' u = if u = id then held u + delta else held u) :
    Pending a held' (cover.add a.auctionId id delta) users' auctions where
  covered := hc
  self u hu := by
    rw [hheld u hu]
    by_cases hid : u = id
    · subst hid
      rw [if_pos rfl, Cover.add_self, h.self u hu]
    · rw [if_neg hid, Cover.add_of_ne (.inr hid), h.self u hu]
  others b hb hne u hu := by
    rw [Cover.add_of_ne (.inl hne)]
    exact h.others b hb hne u hu

/-- The auction is rewritten when what is held for it is what it says. -/
theorem Pending.rewrite (h : Pending a held cover users auctions) (ha : a ∈ auctions)
    (hid : x.auctionId = a.auctionId) (hseller : x.sellerId = a.sellerId)
    (hleader : x.highestBidderId ≠ 0 → ∃ u ∈ users, u.userId = x.highestBidderId)
    (hpos : 0 < x.currentBid) (hheld : ∀ u, u ≠ 0 → held u = x.heldFor u) :
    Covered (restCover (overwrite Auction.auctionId x auctions)) users
      (overwrite Auction.auctionId x auctions) :=
  h.covered.rewritten ha hid hseller hleader hpos (fun u hu => (h.self u hu).trans (hheld u hu))
    h.others

/-- Every user has an identifier. -/
theorem Covered.ne_zero (h : Covered cover users auctions) (u : User) (hu : u ∈ users) :
    u.userId ≠ 0 := h.users_numbered.ne_zero hu

/-- The leader's hold is released. -/
theorem Covered.released (h : Covered (restCover auctions) users auctions) (ha : a ∈ auctions)
    (hopen : a.status = .auctionOpen) :
    usersAfter a.releaseCalls users = adjustWallet a.highestBidderId 0 (-a.currentBid) users ∧
      (∀ m ∈ walletMarks site a.releaseCalls users, m.Succeeds) ∧
      ∃ cover, Pending a (fun _ => 0) cover
        (adjustWallet a.highestBidderId 0 (-a.currentBid) users) auctions := by
  unfold Auction.releaseCalls
  by_cases hleader : a.highestBidderId = 0
  · rw [if_neg (not_not.mpr hleader), hleader, adjustWallet_of_missing h.ne_zero]
    refine ⟨rfl, by simp [walletMarks], restCover auctions, ?_⟩
    have hpending := h.pending ha
    exact { hpending with
      self := fun u hu => by rw [hpending.self u hu, heldFor_of_open hopen, hleader, if_neg hu] }
  · rw [if_pos hleader]
    obtain ⟨y, hy, hyid⟩ := h.leader_mem a ha hleader
    have hcover : restCover auctions a.auctionId y.userId = a.currentBid := by
      rw [h.restCover_eq ha, heldFor_of_open hopen, if_pos hyid]
    obtain ⟨husers, hresult, hcovered⟩ := h.release hy ha (h.bid_pos a ha).le hcover.ge
    rw [hyid] at husers hresult hcovered
    refine ⟨husers, succeeds_walletMarks_singleton hresult, _, (h.pending ha).add hcovered ?_⟩
    intro u _
    rw [heldFor_of_open hopen]
    split <;> ring

/-- **A bid** moves the hold from the leader to the bidder. -/
theorem Covered.bidding (h : Covered (restCover auctions) users auctions) (site : Site)
    (ha : a ∈ auctions) (hopen : a.status = .auctionOpen) (hw : w ∈ users)
    (hfunds : amount ≤ w.walletBalance - w.walletHold) (hhigher : a.currentBid < amount) :
    Covered (restCover (overwrite Auction.auctionId (a.withBid w.userId amount) auctions))
        (usersAfter (a.biddingCalls w.userId amount) users)
        (overwrite Auction.auctionId (a.withBid w.userId amount) auctions) ∧
      totalBalance (usersAfter (a.biddingCalls w.userId amount) users) = totalBalance users ∧
      ∀ m ∈ walletMarks site (a.biddingCalls w.userId amount) users, m.Succeeds := by
  obtain ⟨hreleased, hsucceeds, cover, hpending⟩ := h.released ha hopen
  obtain ⟨w', hw', hid, hbalance, hhold⟩ :=
    exists_adjusted a.highestBidderId 0 (-a.currentBid) hw
  have hpos := h.bid_pos a ha
  have hfunds' : amount ≤ w'.walletBalance - w'.walletHold := by
    rw [hbalance, hhold]
    split <;> linarith
  obtain ⟨husers, hresult, hcovered⟩ :=
    hpending.covered.place hw' ha (hpos.trans hhigher).le hfunds'
  rw [hid] at husers hresult hcovered
  rw [a.biddingCalls_eq, usersAfter_append, walletMarks_append, hreleased, usersAfter_cons,
    usersAfter_nil, husers]
  refine ⟨?_, ?_, ?_⟩
  · have hplaced : Pending a (a.withBid w.userId amount).heldFor _ _ auctions :=
      hpending.add hcovered fun u _ => by
        simp [Auction.heldFor, hopen, eq_comm]
    refine hplaced.rewrite ha rfl rfl (fun _ => ?_) (hpos.trans hhigher) fun u _ => rfl
    obtain ⟨z, hz, hzid⟩ := exists_mem_adjustWallet hw'
    exact ⟨z, hz, hzid.trans hid⟩
  · rw [totalBalance_adjustHold, totalBalance_adjustHold]
  · intro m hm
    rcases List.mem_append.mp hm with hm | hm
    · exact hsucceeds m hm
    · exact succeeds_walletMarks_singleton hresult m hm

/-- The wallets that are settled. -/
theorem Covered.settled (h : Covered (restCover auctions) users auctions) (ha : a ∈ auctions)
    (hopen : a.status = .auctionOpen) (hsettles : a.Settles) :
    usersAfter a.closingCalls users = a.closedWallets users ∧
      (∀ m ∈ walletMarks site a.closingCalls users, m.Succeeds) ∧
      ∃ cover, Pending a (fun _ => 0) cover (a.closedWallets users) auctions := by
  obtain ⟨y, hy, hyid⟩ := h.leader_mem a ha hsettles.1
  have hcover : restCover auctions a.auctionId y.userId = a.currentBid := by
    rw [h.restCover_eq ha, heldFor_of_open hopen, if_pos hyid]
  obtain ⟨husers, hresult, hcovered⟩ := h.settle hy ha hcover.ge
  rw [hyid] at husers hresult hcovered
  have hpaid : Pending a (fun _ => 0) _ _ auctions := (h.pending ha).add hcovered fun u _ => by
    rw [heldFor_of_open hopen]
    split <;> ring
  obtain ⟨z, hz, hzid⟩ := hcovered.seller_mem a ha
  have hpos := h.bid_pos a ha
  have hstays : z.walletHold ≤ z.walletBalance + a.currentBid := by
    have hle := hcovered.hold_le z hz
    linarith
  obtain ⟨husers', hresult', hcovered'⟩ := hcovered.credit hz hstays
  rw [hzid] at husers' hresult' hcovered'
  unfold Auction.closingCalls Auction.closedWallets
  rw [if_pos hsettles, if_pos hsettles, usersAfter_cons, usersAfter_cons, usersAfter_nil, husers,
    husers']
  refine ⟨rfl, ?_, _, { hpaid with covered := hcovered' }⟩
  intro m hm
  rw [walletMarks, husers] at hm
  rcases List.mem_cons.mp hm with rfl | hm
  · exact hresult
  · exact succeeds_walletMarks_singleton hresult' m hm

/-- **A close** takes the hold from the leader and, if the auction settles, the bid from
the winner to the seller. -/
theorem Covered.closing (h : Covered (restCover auctions) users auctions) (site : Site)
    (ha : a ∈ auctions) (hopen : a.status = .auctionOpen) :
    usersAfter a.closingCalls users = a.closedWallets users ∧
      Covered (restCover (overwrite Auction.auctionId (a.withStatus .auctionClosed) auctions))
        (a.closedWallets users)
        (overwrite Auction.auctionId (a.withStatus .auctionClosed) auctions) ∧
      ∀ m ∈ walletMarks site a.closingCalls users, m.Succeeds := by
  obtain ⟨husers, hsucceeds, cover, hpending⟩ : usersAfter a.closingCalls users =
      a.closedWallets users ∧ (∀ m ∈ walletMarks site a.closingCalls users, m.Succeeds) ∧
      ∃ cover, Pending a (fun _ => 0) cover (a.closedWallets users) auctions := by
    by_cases hsettles : a.Settles
    · exact h.settled ha hopen hsettles
    · unfold Auction.closingCalls Auction.closedWallets
      rw [if_neg hsettles, if_neg hsettles]
      exact h.released ha hopen
  refine ⟨husers, ?_, hsucceeds⟩
  refine hpending.rewrite ha rfl rfl (hpending.covered.leader_mem a ha) (h.bid_pos a ha) ?_
  intro u _
  simp [Auction.heldFor]

/-- A close leaves the sum of the balances. -/
theorem totalBalance_closedWallets (h : Covered cover users auctions) (ha : a ∈ auctions) :
    totalBalance (a.closedWallets users) = totalBalance users := by
  unfold Auction.closedWallets
  split
  · next hsettles =>
      obtain ⟨y, hy, hyid⟩ := h.leader_mem a ha hsettles.1
      obtain ⟨z, hz, hzid⟩ := h.seller_mem a ha
      obtain ⟨z', hz', hzid', -⟩ := exists_adjusted a.highestBidderId (-a.currentBid)
        (-a.currentBid) hz
      have hseller : z'.userId = a.sellerId := hzid'.trans hzid
      rw [← hseller, totalBalance_adjustWallet h.users_numbered.adjustWallet hz', ← hyid,
        totalBalance_adjustWallet h.users_numbered hy]
      ring
  · exact totalBalance_adjustHold

/-- What a close that settles does to each wallet. -/
theorem exists_settled (hsettles : a.Settles) (hw : w ∈ users) :
    ∃ w' ∈ a.closedWallets users, w'.userId = w.userId ∧
      w'.walletBalance =
        w.walletBalance - (if w.userId = a.highestBidderId then a.currentBid else 0) +
        (if w.userId = a.sellerId then a.currentBid else 0) ∧
      w'.walletHold =
        w.walletHold - (if w.userId = a.highestBidderId then a.currentBid else 0) := by
  rw [Auction.closedWallets, if_pos hsettles]
  obtain ⟨x, hx, hxid, hxbalance, hxhold⟩ := exists_adjusted a.highestBidderId (-a.currentBid)
    (-a.currentBid) hw
  obtain ⟨y, hy, hyid, hybalance, hyhold⟩ := exists_adjusted a.sellerId a.currentBid 0 hx
  rw [hxid] at hyid hybalance hyhold
  refine ⟨y, hy, hyid, ?_, ?_⟩
  · rw [hybalance, hxbalance]
    split <;> split <;> ring
  · rw [hyhold, hxhold]
    split <;> split <;> ring

/-- What another close does to each wallet. -/
theorem exists_released (hsettles : ¬ a.Settles) (hw : w ∈ users) :
    ∃ w' ∈ a.closedWallets users, w'.userId = w.userId ∧ w'.walletBalance = w.walletBalance ∧
      w'.walletHold =
        w.walletHold - (if w.userId = a.highestBidderId then a.currentBid else 0) := by
  rw [Auction.closedWallets, if_neg hsettles]
  obtain ⟨x, hx, hxid, hxbalance, hxhold⟩ := exists_adjusted a.highestBidderId 0 (-a.currentBid) hw
  refine ⟨x, hx, hxid, ?_, ?_⟩
  · rw [hxbalance]
    split <;> ring
  · rw [hxhold]
    split <;> ring

end Bidding

/-! ## every step -/

/-- Any input but a request to change a password. -/
def NoChangePass (_ : Server) : Input → Prop
  | .message _ (.changePass _) => False
  | _ => True

/-- That no password is changed can be computed. -/
theorem noChangePass_iff (s : Server) (i : Input) :
    (match i with
      | .message _ (.changePass _) => false
      | _ => true) = true ↔ NoChangePass s i := by
  unfold NoChangePass
  split <;> simp

instance (s : Server) (i : Input) : Decidable (NoChangePass s i) :=
  decidable_of_iff _ (noChangePass_iff s i)

/-- What holds between two requests. -/
structure Solvent (v : View) : Prop where
  covered : Covered (restCover v.auctions) v.users v.auctions
  orderly : v.docket.Orderly

/-- The wallet call is made for a bid or a close. -/
def Site.MovesHold : Site → Prop
  | .placeBid _ | .close _ => True
  | _ => False

section Steps

variable {sha256Hex : List UInt8 → List UInt8} {s : Server} {v v' : View} {i : Input}
  {ms : List Mark}

/-- An auction with an open dispute is in dispute. -/
theorem Solvent.disputed (hk : Solvent v) (hs : Sound v) {a : Auction} {d : Dispute}
    (hd : d ∈ v.disputes) (hopen : d.status = .disputeOpen) (ha : a ∈ v.auctions)
    (hid : a.auctionId = d.auctionId) : a.status = .auctionDisputed :=
  hk.orderly.disputed_auction hs hd hopen ha hid

/-- **Step lemma**: holds stay what the auctions prescribe, and backed. -/
theorem Solvent.step (hk : Solvent s.view) (hs : Sound s.view) (hroom : s.view.HasRoom)
    (hok : NoChangePass s i) (h : Change sha256Hex s.view i ms v') : Solvent v' := by
  refine ⟨?_, hk.orderly.step (h.docket_step hs hroom)⟩
  have hk' := hk.covered
  cases h with
  | @logsIn fd c req u slot hconn hu =>
      exact hk'.congr_purses (hs.users.map_overwrite (mem_of_findByUsername hu) (by rfl) (by rfl))
  | changePass => exact hok.elim
  | deposit => exact hk'.creditWallet _ _
  | placeBid hlogged hrole ha hid hopen hw hwid hfunds hhigher =>
      exact (hk'.bidding .deposit ha hopen hw hfunds hhigher).1
  | close hi ha hopen =>
      obtain ⟨husers, hcovered, -⟩ := hk'.closing .deposit ha hopen
      rw [← husers] at hcovered
      exact hcovered
  | @createAuction fd c req a hlogged hrole hid hseller hopen hleader hstart hpos =>
      obtain ⟨u, hu, huid⟩ := List.mem_map.mp (hs.user_mem fd c hlogged)
      exact hk'.createAuction hroom.auctions hid ⟨u, hu, huid.trans hseller.symm⟩ hleader
        (hstart ▸ hpos)
  | fileDispute hlogged hrole ha haid hclosed =>
    exact hk'.setStatus ha (by simp [hclosed]) (by simp)
  | reject hlogged hrole hd hdid hdopen ha haid =>
      exact hk'.setStatus ha (by simp [hk.disputed hs hd hdopen ha haid]) (by simp)
  | @refund fd c req a d d' =>
      simp only [Auction.refundCalls]
      split
      · split
        · exact (hk'.creditWallet _ _).creditWallet _ _
        · exact hk'.creditWallet _ _
      · exact hk'.creditWallet _ _
  | @toggleAccount fd c req w hlogged hrole hw =>
      exact hk'.congr_purses (hs.users.map_overwrite hw (by rfl) (by rfl))
  | addUser => exact hk'.addUser hroom.users rfl rfl rfl
  | @changeRole fd c req w hlogged hrole hw =>
      exact hk'.congr_purses (hs.users.map_overwrite hw (by rfl) (by rfl))
  | _ => exact hk'

/-- Every wallet call of a bid or a close succeeds. -/
theorem Solvent.succeeds (hk : Solvent v) (h : Change sha256Hex v i ms v') {site : Site}
    {c : WalletCall} {r : Int} (hm : .wallet site c r ∈ ms) (hsite : site.MovesHold) : r = 0 := by
  cases h with
  | deposit | depositFails =>
      obtain ⟨c', -, r', heq⟩ := mem_walletMarks hm
      rw [(Mark.wallet.inj heq).1] at hsite
      exact hsite.elim
  | placeBid hlogged hrole ha hid hopen hw hwid hfunds hhigher =>
      exact (hk.covered.bidding _ ha hopen hw hfunds hhigher).2.2 _ hm
  | close hi ha hopen =>
      rcases List.mem_append.mp hm with hm | hm
      · exact (hk.covered.closing _ ha hopen).2.2 _ hm
      · cases List.mem_singleton.mp hm
  | refund =>
      rcases List.mem_cons.mp hm with hm | hm
      · cases hm
      · obtain ⟨c', -, r', heq⟩ := mem_walletMarks hm
        rw [(Mark.wallet.inj heq).1] at hsite
        exact hsite.elim
  | _ => cases hm

/-- What is closed has been open, and its wallets are closed. -/
theorem Solvent.closed (hk : Solvent v) (hs : Sound v) (h : Change sha256Hex v i ms v')
    {a : Auction} (ha : a ∈ v.auctions) (hm : .closed a.auctionId ∈ ms) :
    a.status = .auctionOpen ∧ v'.users = a.closedWallets v.users := by
  have hwallets {site : Site} {cs : List WalletCall} {users : List User}
      (hm : .closed a.auctionId ∈ walletMarks site cs users) : False := by
    obtain ⟨c, -, r, heq⟩ := mem_walletMarks hm
    cases heq
  cases h with
  | deposit | depositFails | placeBid => exact (hwallets hm).elim
  | close hi ha' hopen =>
      rcases List.mem_append.mp hm with hm | hm
      · exact (hwallets hm).elim
      · obtain rfl := hs.auctions.eq_of_id ha ha' (Mark.closed.inj (List.mem_singleton.mp hm))
        exact ⟨hopen, (hk.covered.closing .deposit ha hopen).1⟩
  | refund =>
      rcases List.mem_cons.mp hm with hm | hm
      · cases hm
      · exact (hwallets hm).elim
  | _ => cases hm

/-- A bid leaves the sum of the balances. -/
theorem Solvent.bid (hk : Solvent v) {fd : Int} {req : PlaceBidPayload}
    (h : Change sha256Hex v (.message fd (.placeBid req)) ms v') :
    totalBalance v'.users = totalBalance v.users := by
  cases h with
  | nothing => rfl
  | signOff hc hn hi => simp at hi
  | placeBid hlogged hrole ha hid hopen hw hwid hfunds hhigher =>
      exact (hk.covered.bidding .deposit ha hopen hw hfunds hhigher).2.1
  | close hi => exact hi.elim

end Steps

/-! ## runs -/

/-- What one step does to the wallets: a close that settles takes the current bid from
the winner's balance and hold and adds it to the seller's balance, another close takes it
from the leader's hold, and neither they nor bids change the sum of the balances. -/
structure WalletStep (sha256Hex : List UInt8 → List UInt8) (s : Server) (i : Input) : Prop where
  settled : ∀ a ∈ s.store.auctions, .closed a.auctionId ∈ marks (s.calls sha256Hex i) → a.Settles →
    ∀ u ∈ s.store.users, ∃ w ∈ (s.handle sha256Hex i).store.users, w.userId = u.userId ∧
      w.walletBalance =
        u.walletBalance - (if u.userId = a.highestBidderId then a.currentBid else 0) +
        (if u.userId = a.sellerId then a.currentBid else 0) ∧
      w.walletHold = u.walletHold - (if u.userId = a.highestBidderId then a.currentBid else 0)
  released : ∀ a ∈ s.store.auctions, .closed a.auctionId ∈ marks (s.calls sha256Hex i) →
    ¬ a.Settles → ∀ u ∈ s.store.users, ∃ w ∈ (s.handle sha256Hex i).store.users,
      w.userId = u.userId ∧ w.walletBalance = u.walletBalance ∧
      w.walletHold = u.walletHold - (if u.userId = a.highestBidderId then a.currentBid else 0)
  close_conserves : ∀ a ∈ s.store.auctions, .closed a.auctionId ∈ marks (s.calls sha256Hex i) →
    totalBalance (s.handle sha256Hex i).store.users = totalBalance s.store.users
  bid_conserves : ∀ fd req, i = .message fd (.placeBid req) →
    totalBalance (s.handle sha256Hex i).store.users = totalBalance s.store.users

/-- The wallets along a run that has made these calls. -/
structure WalletLedger (sha256Hex : List UInt8 → List UInt8) (calls : List (Event ApiSig))
    (s : Server) : Prop where
  hold_eq : ∀ u ∈ s.store.users, u.walletHold = ledger s.store.auctions u.userId
  backed : ∀ u ∈ s.store.users, 0 ≤ u.walletHold ∧ u.walletHold ≤ u.walletBalance
  succeeds : ∀ site c r, (⟨.wallet site c, r⟩ : Event ApiSig) ∈ calls → site.MovesHold →
    r = (0 : Int)
  step : ∀ i, s.store.HasRoom → i.Possible s → NoChangePass s i → WalletStep sha256Hex s i

section Runs

variable {sha256Hex : List UInt8 → List UInt8} {s s₀ : Server} {i : Input}
  {calls : List (Event ApiSig)}

/-- A new installation is solvent. -/
theorem solvent_seeded (createdAt now : Int) :
    Solvent (Server.seeded sha256Hex createdAt now).view where
  covered := {
    users_numbered := numbered_seeded sha256Hex createdAt now
    auctions_numbered := numbered_nil
    seller_mem := fun _ ha => nomatch ha
    leader_mem := fun _ ha => nomatch ha
    bid_pos := fun _ ha => nomatch ha
    cover_nonneg := fun _ _ => le_rfl
    hold_eq := fun u hu => by
      rw [List.mem_singleton.mp hu]
      rfl
    hold_le := fun u hu => by
      rw [List.mem_singleton.mp hu]
      exact le_rfl }
  orderly := orderly_seeded createdAt now

/-- Every reachable state is solvent. -/
theorem Serves.solvent (h : Serves sha256Hex NoChangePass s₀ calls s) (hs : s₀.Sound)
    (hk : Solvent s₀.view) : Solvent s.view :=
  h.induct (P := fun _ v => Solvent v) hs hk fun _ _ _ _ _ hk hs hroom hok hchange =>
    hk.step hs.view hroom.view hok hchange

/-- One input of a solvent server changes the wallets as it should. -/
theorem Solvent.walletStep (hk : Solvent s.view) (hs : s.Sound) (hroom : s.store.HasRoom)
    (hpossible : i.Possible s) : WalletStep sha256Hex s i := by
  have h : Change sha256Hex s.view i _ (s.handle sha256Hex i).view := hs.change hroom hpossible
  constructor
  · intro a ha hm hsettles u hu
    have husers : (s.handle sha256Hex i).store.users = a.closedWallets s.store.users :=
      (hk.closed hs.view h ha hm).2
    rw [husers]
    exact exists_settled hsettles hu
  · intro a ha hm hsettles u hu
    have husers : (s.handle sha256Hex i).store.users = a.closedWallets s.store.users :=
      (hk.closed hs.view h ha hm).2
    rw [husers]
    exact exists_released hsettles hu
  · intro a ha hm
    obtain ⟨-, husers⟩ := hk.closed hs.view h ha hm
    exact (congrArg totalBalance husers).trans (totalBalance_closedWallets hk.covered ha)
  · rintro fd req rfl
    exact hk.bid h

/-- **Hold ledger and solvency**: along every run without changes of passwords every hold
is the sum of the current bids of the open auctions that the user leads, and no bid or
close fails to move money. -/
theorem walletLedger_of_serves (createdAt now : Int)
    (h : Serves sha256Hex NoChangePass (.seeded sha256Hex createdAt now) calls s) :
    WalletLedger sha256Hex calls s := by
  have hseeded : (Server.seeded sha256Hex createdAt now).Sound := sound_seeded createdAt now
  have hk : Solvent s.view := h.solvent hseeded (solvent_seeded createdAt now)
  have hbalanced : s.store.Balanced :=
    hk.covered.balanced fun a ha u _ => hk.covered.restCover_eq ha u
  constructor
  · exact hbalanced.hold_eq
  · exact fun u hu => ⟨hbalanced.hold_nonneg hu, hbalanced.hold_le u hu⟩
  · intro site c r hm hsite
    have hmark : Mark.wallet site c r ∈ marks calls := List.mem_filterMap.mpr ⟨_, hm, rfl⟩
    refine (h.induct (P := fun ms v => Solvent v ∧ ∀ m ∈ ms, ∀ site c r, m = .wallet site c r →
      site.MovesHold → r = 0) hseeded ⟨solvent_seeded createdAt now, by simp⟩ ?_).2 _ hmark
        site c r rfl hsite
    intro ms s i ms' v' hP hs hroom hok hchange
    refine ⟨hP.1.step hs.view hroom.view hok hchange, fun m hm site c r heq hsite => ?_⟩
    rcases List.mem_append.mp hm with hm | hm
    · exact hP.2 m hm site c r heq hsite
    · subst heq
      exact hP.1.succeeds hchange hm hsite
  · intro i hroom hpossible _
    exact hk.walletStep (h.sound hseeded) hroom hpossible

end Runs

/-- A bid is accepted and the auction closed by the timer. -/
theorem walletLedger_of_serves_sale :
    let s := played (saleScript.take 8)
    (s.store.users.map User.purse = [(1, 0, 0), (2, 500, 150)]) ∧
      ∃ calls, WalletLedger adminSha256Hex calls s := by
  have hscript : Playable NoChangePass (saleScript.take 8) := by decide +kernel
  obtain ⟨calls, h⟩ := Serves.of_scripted hscript
  exact ⟨by decide +kernel, calls, walletLedger_of_serves 0 1000 h⟩

/-! ## refunds -/

/-- Every settlement so far was one of an auction that still has the same winner and
amount, and is not open. -/
def SettledAs (ms : List Mark) (auctions : List Auction) : Prop :=
  ∀ id winner amount r, .wallet (.close id) (.settlePayment winner amount) r ∈ ms →
    ∃ a ∈ auctions, a.auctionId = id ∧ a.highestBidderId = winner ∧ a.currentBid = amount ∧
      winner ≠ 0 ∧ a.status ≠ .auctionOpen

/-- What the seller has once the winner is credited. -/
def Auction.sellerFunds (a : Auction) (seller : User) : ℚ :=
  seller.walletBalance + if seller.userId = a.highestBidderId then a.currentBid else 0

/-- The winner has got the amount back, and the seller has given so much for it. -/
structure Refunded (winner seller : UInt32) (amount taken : ℚ) (users users' : List User) :
    Prop where
  wallets : ∀ u ∈ users, ∃ w ∈ users', w.userId = u.userId ∧ w.walletHold = u.walletHold ∧
    w.walletBalance = u.walletBalance + (if u.userId = winner then amount else 0) -
      (if u.userId = seller then taken else 0)
  total : totalBalance users' = totalBalance users + amount - taken

section Refunds

variable {sha256Hex : List UInt8 → List UInt8} {v v' : View} {i : Input} {ms ms' : List Mark}
  {a : Auction}

/-- An auction that is not open only changes its status. -/
theorem Change.kept_closed (h : Change sha256Hex v i ms v') (hs : Sound v) (ha : a ∈ v.auctions)
    (hclosed : a.status ≠ .auctionOpen) :
    ∃ status, status ≠ .auctionOpen ∧ a.withStatus status ∈ v'.auctions := by
  have hother {x b : Auction} (hb : b ∈ v.auctions) (hopen : b.status = .auctionOpen)
      (hid : x.auctionId = b.auctionId) : ∃ status, status ≠ .auctionOpen ∧
        a.withStatus status ∈ overwrite Auction.auctionId x v.auctions := by
    refine ⟨a.status, hclosed, mem_overwrite_of_ne (y := a) ha fun heq => hclosed ?_⟩
    rw [hs.auctions.eq_of_id ha hb (heq.trans hid)]
    exact hopen
  have hstatus {b : Auction} {x : AuctionStatus} (hb : b ∈ v.auctions) (hx : x ≠ .auctionOpen) :
      ∃ status, status ≠ .auctionOpen ∧
        a.withStatus status ∈ overwrite Auction.auctionId (b.withStatus x) v.auctions := by
    by_cases hid : a.auctionId = b.auctionId
    · obtain rfl := hs.auctions.eq_of_id ha hb hid
      exact ⟨x, hx, mem_overwrite_self ha rfl⟩
    · exact ⟨a.status, hclosed, mem_overwrite_of_ne (y := a) ha hid⟩
  cases h with
  | placeBid _ _ hb _ hopen => exact hother hb hopen rfl
  | close _ hb hopen => exact hother hb hopen rfl
  | createAuction => exact ⟨a.status, hclosed, List.mem_append_left _ ha⟩
  | fileDispute _ _ hb => exact hstatus hb (by simp)
  | reject _ _ _ _ _ hb => exact hstatus hb (by simp)
  | _ => exact ⟨a.status, hclosed, ha⟩

/-- A settlement is that of a stored auction, after every step. -/
theorem SettledAs.step (hP : SettledAs ms v.auctions) (hs : Sound v)
    (h : Change sha256Hex v i ms' v') : SettledAs (ms ++ ms') v'.auctions := by
  intro id winner amount r hm
  rcases List.mem_append.mp hm with hm | hm
  · obtain ⟨a, ha, rfl, rfl, rfl, hne, hclosed⟩ := hP id winner amount r hm
    obtain ⟨status, hstatus, hmem⟩ := h.kept_closed hs ha hclosed
    exact ⟨_, hmem, rfl, rfl, rfl, hne, hstatus⟩
  · cases h with
    | @close _ a _ ha hopen =>
        rcases List.mem_append.mp hm with hm | hm
        · obtain ⟨c, hc, r', heq⟩ := mem_walletMarks hm
          obtain ⟨hsite, rfl, -⟩ := Mark.wallet.inj heq
          obtain rfl := Site.close.inj hsite
          unfold Auction.closingCalls at hc
          split at hc
          · next hsettles =>
              obtain ⟨rfl, rfl⟩ : winner = a.highestBidderId ∧ amount = a.currentBid := by
                simpa using hc
              exact ⟨_, mem_overwrite_self ha rfl, rfl, rfl, rfl, hsettles.1, by simp⟩
          · split at hc <;> simp at hc
        · cases List.mem_singleton.mp hm
    | deposit | depositFails | placeBid =>
        obtain ⟨c, hc, r', heq⟩ := mem_walletMarks hm
        cases (Mark.wallet.inj heq).1
    | refund =>
        rcases List.mem_cons.mp hm with hm | hm
        · cases hm
        · obtain ⟨c, hc, r', heq⟩ := mem_walletMarks hm
          cases (Mark.wallet.inj heq).1
    | _ => cases hm

variable {cover : Cover} {users : List User} {auctions : List Auction} {seller : User}

/-- The record of the seller once the winner is credited. -/
theorem Covered.credited (h : Covered cover users auctions) (ha : a ∈ auctions)
    (hleader : a.highestBidderId ≠ 0) (hseller : seller ∈ users)
    (hid : seller.userId = a.sellerId) :
    (WalletCall.creditWallet a.highestBidderId a.currentBid).users users =
        adjustWallet a.highestBidderId a.currentBid 0 users ∧
      Covered cover (adjustWallet a.highestBidderId a.currentBid 0 users) auctions ∧
      ∃ z ∈ adjustWallet a.highestBidderId a.currentBid 0 users, z.userId = a.sellerId ∧
        z.walletBalance = a.sellerFunds seller ∧ z.walletHold = seller.walletHold := by
  obtain ⟨y, hy, hyid⟩ := h.leader_mem a ha hleader
  have hstays : y.walletHold ≤ y.walletBalance + a.currentBid := by
    have hle := h.hold_le y hy
    have hpos := h.bid_pos a ha
    linarith
  obtain ⟨husers, -, hcovered⟩ := h.credit hy hstays
  rw [hyid] at husers hcovered
  obtain ⟨z, hz, hzid, hbalance, hhold⟩ := exists_adjusted a.highestBidderId a.currentBid 0 hseller
  refine ⟨husers, hcovered, z, hz, hzid.trans hid, hbalance, ?_⟩
  rw [hhold]
  simp

/-- A credit to the winner adds to the total. -/
theorem Covered.totalBalance_credited (h : Covered cover users auctions) (ha : a ∈ auctions)
    (hleader : a.highestBidderId ≠ 0) :
    totalBalance (adjustWallet a.highestBidderId a.currentBid 0 users) =
      totalBalance users + a.currentBid := by
  obtain ⟨y, hy, hyid⟩ := h.leader_mem a ha hleader
  rw [← hyid, totalBalance_adjustWallet h.users_numbered hy]

/-- A seller who has enough at hand pays the winner. -/
theorem Covered.refunded (h : Covered cover users auctions) (ha : a ∈ auctions)
    (hleader : a.highestBidderId ≠ 0) (hseller : seller ∈ users) (hid : seller.userId = a.sellerId)
    (henough : a.currentBid ≤ a.sellerFunds seller - seller.walletHold) :
    Refunded a.highestBidderId a.sellerId a.currentBid a.currentBid users
      (usersAfter (a.refundCalls users) users) := by
  obtain ⟨husers, hcovered, z, hz, hzid, hbalance, hhold⟩ := h.credited ha hleader hseller hid
  have hnonneg := h.hold_nonneg hseller
  have hread : readRec (adjustWallet a.highestBidderId a.currentBid 0 users) a.sellerId = some z :=
    hzid ▸ hcovered.readRec_user hz
  have hstays : z.walletHold ≤ z.walletBalance + -a.currentBid := by
    rw [hbalance, hhold]
    linarith
  have hpays : z.walletBalance ≥ a.currentBid := by
    rw [hbalance]
    linarith
  obtain ⟨husers', -, -⟩ := hcovered.credit hz hstays
  rw [hzid] at husers'
  have hafter : usersAfter (a.refundCalls users) users =
      adjustWallet a.sellerId (-a.currentBid) 0
        (adjustWallet a.highestBidderId a.currentBid 0 users) := by
    simp only [Auction.refundCalls, husers, hread, hpays, if_true, usersAfter_cons,
      usersAfter_nil, husers']
  rw [hafter]
  constructor
  · intro u hu
    obtain ⟨x, hx, hxid, hxbalance, hxhold⟩ := exists_adjusted a.highestBidderId a.currentBid 0 hu
    obtain ⟨w, hw, hwid, hwbalance, hwhold⟩ := exists_adjusted a.sellerId (-a.currentBid) 0 hx
    rw [hxid] at hwid hwbalance hwhold
    refine ⟨w, hw, hwid, ?_, ?_⟩
    · rw [hwhold, hxhold]
      simp
    · rw [hwbalance, hxbalance]
      split <;> split <;> ring
  · rw [← hzid, totalBalance_adjustWallet hcovered.users_numbered hz,
      h.totalBalance_credited ha hleader]
    ring

/-- An announced refund has been made. -/
theorem Change.refunded (h : Change sha256Hex v i ms v') (hs : Sound v) (ha : a ∈ v.auctions)
    {d : UInt32} (hm : .refund d a.auctionId ∈ ms) :
    v'.users = usersAfter (a.refundCalls v.users) v.users := by
  have hwallets {site : Site} {cs : List WalletCall} {users : List User}
      (hm : .refund d a.auctionId ∈ walletMarks site cs users) : False := by
    obtain ⟨c, -, r, heq⟩ := mem_walletMarks hm
    cases heq
  cases h with
  | deposit | depositFails | placeBid => exact (hwallets hm).elim
  | close =>
      rcases List.mem_append.mp hm with hm | hm
      · exact (hwallets hm).elim
      · cases List.mem_singleton.mp hm
  | refund hlogged hrole hd hdid hopen ha' =>
      rcases List.mem_cons.mp hm with hm | hm
      · obtain rfl := hs.auctions.eq_of_id ha ha' (Mark.refund.inj hm).2
        rfl
      · exact (hwallets hm).elim
  | _ => cases hm

/-- A seller whose balance is too small pays nothing. -/
theorem Covered.notRefunded (h : Covered cover users auctions) (ha : a ∈ auctions)
    (hleader : a.highestBidderId ≠ 0) (hseller : seller ∈ users) (hid : seller.userId = a.sellerId)
    (hshort : a.sellerFunds seller < a.currentBid) :
    Refunded a.highestBidderId a.sellerId a.currentBid 0 users
        (usersAfter (a.refundCalls users) users) ∧
      ∃ z, readRec ((WalletCall.creditWallet a.highestBidderId a.currentBid).users users)
        a.sellerId = some z ∧ z.walletBalance < a.currentBid := by
  obtain ⟨husers, hcovered, z, hz, hzid, hbalance, hhold⟩ := h.credited ha hleader hseller hid
  have hread : readRec (adjustWallet a.highestBidderId a.currentBid 0 users) a.sellerId = some z :=
    hzid ▸ hcovered.readRec_user hz
  have hcannot : z.walletBalance < a.currentBid := by rwa [hbalance]
  have hafter : usersAfter (a.refundCalls users) users =
      adjustWallet a.highestBidderId a.currentBid 0 users := by
    simp only [Auction.refundCalls, husers, hread, not_le.mpr hcannot, if_false, usersAfter_cons,
      usersAfter_nil]
  rw [hafter]
  refine ⟨⟨fun u hu => ?_, ?_⟩, z, husers ▸ hread, hcannot⟩
  · obtain ⟨x, hx, hxid, hxbalance, hxhold⟩ := exists_adjusted a.highestBidderId a.currentBid 0 hu
    refine ⟨x, hx, hxid, ?_, ?_⟩
    · rw [hxhold]
      simp
    · rw [hxbalance]
      simp
  · rw [h.totalBalance_credited ha hleader]
    ring

end Refunds

section Resolved

variable {sha256Hex : List UInt8 → List UInt8} {s : Server}

/-- A request to resolve a dispute is served, or refused before anything else is done. -/
theorem calls_resolveDispute (s : Server) (fd : Int) (req : ResolveDisputePayload) :
    (∃ user, s.calls sha256Hex (.message fd (.resolveDispute req)) =
      Prog.trace Api.exec (handleResolveDispute fd req user) s.store) ∨
    s.calls sha256Hex (.message fd (.resolveDispute req)) = [] ∨
    ∃ type err, err ≠ .errOk ∧ s.calls sha256Hex (.message fd (.resolveDispute req)) =
      [⟨.sys (.send fd ⟨type, err, .empty⟩), ()⟩] := by
  cases hc : s.conns fd with
  | none => exact .inr (.inl (by simp [Server.calls, Input.prog, hc]))
  | some c =>
      cases hauth : c.authenticated with
      | false =>
          refine .inr (.inr ⟨.msgError, .errAuthFail, by decide, ?_⟩)
          simp [Server.calls, Input.prog, hc, turn, serve, hauth]
      | true =>
          by_cases hrole : roleModerator ≤ c.currentUser.role
          · refine .inl ⟨c.currentUser, ?_⟩
            simp [Server.calls, Input.prog, Input.before, hc, turn, serve, hauth, dispatch,
              whenAllowed, hrole]
          · refine .inr (.inr ⟨.msgError, .errPermission, by decide, ?_⟩)
            simp [Server.calls, Input.prog, hc, turn, serve, hauth, dispatch, whenAllowed, hrole]

/-- A request to resolve a dispute is only accepted from a moderator. -/
theorem moderator_of_answered {fd fd' : Int} {req : ResolveDisputePayload}
    (h : Answered fd' .msgResolveDisputeResp .errOk
      (s.calls sha256Hex (.message fd (.resolveDispute req)))) :
    ∃ user, s.calls sha256Hex (.message fd (.resolveDispute req)) =
      Prog.trace Api.exec (handleResolveDispute fd req user) s.store := by
  rcases calls_resolveDispute s fd req with huser | hcalls | ⟨type, err, herr, hcalls⟩
  · exact huser
  · simp [hcalls, Answered] at h
  · simp [hcalls, Answered, herr.symm] at h

/-- An accepted refund is announced in the log, and so is a seller who cannot pay. -/
theorem trace_resolve {fd fd' : Int} {req : ResolveDisputePayload} {user : User} {s : Store}
    (hreq : DisputeStatus.ofCode req.newStatus = some .disputeResolved)
    (h : Answered fd' .msgResolveDisputeResp .errOk
      (Prog.trace Api.exec (handleResolveDispute fd req user) s)) :
    ∃ d a, readRec s.disputes req.disputeId = some d ∧ readRec s.auctions d.auctionId = some a ∧
      .refund d.disputeId a.auctionId ∈
        marks (Prog.trace Api.exec (handleResolveDispute fd req user) s) ∧
      ∀ seller, readRec ((WalletCall.creditWallet a.highestBidderId a.currentBid).users s.users)
        a.sellerId = some seller → seller.walletBalance < a.currentBid →
        (⟨.sys (.logTxn .refundAnomaly), ()⟩ : Event ApiSig) ∈
          Prog.trace Api.exec (handleResolveDispute fd req user) s := by
  cases hd : readRec s.disputes req.disputeId with
  | none => simp [handleResolveDispute, hreq, hd, Store.exec, Answered] at h
  | some d =>
      by_cases hopen : d.status = .disputeOpen
      case neg => simp [handleResolveDispute, hreq, hd, hopen, Store.exec, Answered] at h
      cases ha : readRec s.auctions d.auctionId with
      | none =>
          simp [handleResolveDispute, hreq, hd, hopen, ha, Store.exec, Store.create, Answered] at h
      | some a =>
          refine ⟨d, a, rfl, ha, ?_, ?_⟩
          · simp [handleResolveDispute, hreq, hd, hopen, ha, Store.exec, Store.create,
              concludeDispute, refund, marks, mark]
          · intro seller hseller hlt
            simp [handleResolveDispute, hreq, hd, hopen, ha, Store.exec, Store.create,
              concludeDispute, refund, hseller, not_le.mpr hlt]

/-- **Refunds**: along every run without changes of passwords an accepted refund of an
auction that was settled gives the winner the settled amount.  It takes it from the
seller, who then has what is not held at hand; or, when the seller's balance is too
small, from nobody, and the log says so. -/
theorem refund_of_serves {calls : List (Event ApiSig)} {fd fd' : Int} {req : ResolveDisputePayload}
    (createdAt now : Int)
    (h : Serves sha256Hex NoChangePass (.seeded sha256Hex createdAt now) calls s)
    (hroom : s.store.HasRoom) (hreq : DisputeStatus.ofCode req.newStatus = some .disputeResolved)
    (hanswered : Answered fd' .msgResolveDisputeResp .errOk
      (s.calls sha256Hex (.message fd (.resolveDispute req)))) :
    ∃ d ∈ s.store.disputes, d.disputeId = req.disputeId ∧ ∃ a ∈ s.store.auctions,
      a.auctionId = d.auctionId ∧ ∃ seller ∈ s.store.users, seller.userId = a.sellerId ∧
      ∀ winner amount r,
        .wallet (.close a.auctionId) (.settlePayment winner amount) r ∈ marks calls →
        (amount ≤ a.sellerFunds seller - seller.walletHold →
          Refunded winner a.sellerId amount amount s.store.users
            (s.handle sha256Hex (.message fd (.resolveDispute req))).store.users) ∧
        (a.sellerFunds seller < amount →
          Refunded winner a.sellerId amount 0 s.store.users
            (s.handle sha256Hex (.message fd (.resolveDispute req))).store.users ∧
          (⟨.sys (.logTxn .refundAnomaly), ()⟩ : Event ApiSig) ∈
            s.calls sha256Hex (.message fd (.resolveDispute req))) := by
  have hseeded : (Server.seeded sha256Hex createdAt now).Sound := sound_seeded createdAt now
  have hs : s.Sound := h.sound hseeded
  have hk : Solvent s.view := h.solvent hseeded (solvent_seeded createdAt now)
  have hsettled : SettledAs (marks calls) s.view.auctions :=
    h.induct (P := fun ms v => SettledAs ms v.auctions) hseeded (fun _ _ _ _ hm => nomatch hm)
      fun _ _ _ _ _ hP hs _ _ hchange => hP.step hs.view hchange
  have hchange : Change sha256Hex s.view (.message fd (.resolveDispute req)) _
      (s.handle sha256Hex (.message fd (.resolveDispute req))).view := hs.change hroom trivial
  obtain ⟨user, hcalls⟩ := moderator_of_answered hanswered
  rw [hcalls] at hanswered
  obtain ⟨d, a, hd, ha, hmark, hanomaly⟩ := trace_resolve hreq hanswered
  rw [← hcalls] at hmark hanomaly
  obtain ⟨hdmem, hdid⟩ := hs.view.disputes.readRec_eq_some.mp hd
  obtain ⟨hamem, haid⟩ := hs.view.auctions.readRec_eq_some.mp ha
  obtain ⟨seller, hseller, hid⟩ := hk.covered.seller_mem a hamem
  refine ⟨d, hdmem, hdid, a, hamem, haid, seller, hseller, hid, fun winner amount r hm => ?_⟩
  obtain ⟨a', ha', haid', rfl, rfl, hleader, -⟩ := hsettled _ _ _ _ hm
  obtain rfl := hs.view.auctions.eq_of_id ha' hamem haid'
  have husers : (s.handle sha256Hex (.message fd (.resolveDispute req))).store.users =
      usersAfter (a'.refundCalls s.store.users) s.store.users :=
    hchange.refunded hs.view hamem hmark
  rw [husers]
  constructor
  · intro henough
    exact hk.covered.refunded hamem hleader hseller hid henough
  · intro hshort
    obtain ⟨hrefunded, z, hz, hcannot⟩ := hk.covered.notRefunded hamem hleader hseller hid hshort
    exact ⟨hrefunded, hanomaly z hz hcannot⟩

end Resolved

/-- The buyer of `saleScript` files another dispute and gets the money back. -/
theorem refund_of_serves_sale :
    let s := played (saleScript ++ [.message 6 (.fileDispute ⟨1, .zero _⟩)])
    Refunded 2 1 150 150 s.store.users
      (s.handle adminSha256Hex (.message 5 (.resolveDispute ⟨2, 1, .zero _⟩))).store.users := by
  have hscript : Playable NoChangePass
      (saleScript ++ [.message 6 (.fileDispute ⟨1, .zero _⟩)]) := by
    decide +kernel
  have hsale : ∀ d ∈ (played (saleScript ++ [.message 6
    (.fileDispute ⟨1, .zero _⟩)])).store.disputes,
      ∀ a ∈ (played (saleScript ++ [.message 6 (.fileDispute ⟨1, .zero _⟩)])).store.auctions,
      ∀ u ∈ (played (saleScript ++ [.message 6 (.fileDispute ⟨1, .zero _⟩)])).store.users,
      d.disputeId = 2 → a.auctionId = d.auctionId → u.userId = a.sellerId →
        a.auctionId = 1 ∧ a.sellerId = 1 ∧ 150 ≤ a.sellerFunds u - u.walletHold := by
    decide +kernel
  have hsettled : .wallet (.close 1) (.settlePayment 2 150) 0 ∈
      marks (Server.callsAll adminSha256Hex (.seeded adminSha256Hex 0 1000)
        (saleScript ++ [.message 6 (.fileDispute ⟨1, .zero _⟩)])) := by
    decide +kernel
  obtain ⟨d, hd, hdid, a, ha, haid, u, hu, huid, hrefund⟩ :=
    refund_of_serves 0 1000 (.of_script hscript) (by decide +kernel)
      (by decide : DisputeStatus.ofCode 1 = some .disputeResolved)
      (by decide +kernel : Answered 5 .msgResolveDisputeResp .errOk
        ((played (saleScript ++ [.message 6 (.fileDispute ⟨1, .zero _⟩)])).calls adminSha256Hex
          (.message 5 (.resolveDispute ⟨2, 1, .zero _⟩))))
  obtain ⟨ha1, hseller, henough⟩ := hsale d hd a ha u hu hdid haid huid
  rw [ha1, hseller] at hrefund
  exact (hrefund 2 150 0 hsettled).1 henough

/-- An auctioneer sells, becomes a bidder, and spends all of it; the buyer disputes. -/
def spentScript : List Input :=
  [.connect 5, logIn 5 adminName, addUser 5 [98] roleBidder, addUser 5 [99] roleAuctioneer,
    .connect 6, logIn 6 [98], .message 6 (.deposit ⟨500⟩), .connect 7, logIn 7 [99],
    .message 7 (.createAuction ⟨.zero _, .zero _, 100, 0, 60⟩), .message 6 (.placeBid ⟨1, 150⟩),
    .message 7 (.closeAuction ⟨1⟩), .message 5 (.createAuction ⟨.zero _, .zero _, 100, 0, 60⟩),
    .message 5 (.changeRole ⟨3, roleBidder⟩), .disconnect 7, .connect 7, logIn 7 [99],
    .message 7 (.placeBid ⟨2, 150⟩), .message 5 (.closeAuction ⟨2⟩),
    .message 6 (.fileDispute ⟨1, .zero _⟩)]

/-- The refund is paid by nobody. -/
theorem not_refund_conserves :
    ¬ ∀ calls s fd fd' req, Plays NoChangePass calls s →
      DisputeStatus.ofCode req.newStatus = some .disputeResolved →
      Answered fd' .msgResolveDisputeResp .errOk
        (s.calls adminSha256Hex (.message fd (.resolveDispute req))) →
      totalBalance (s.handle adminSha256Hex (.message fd (.resolveDispute req))).store.users =
        totalBalance s.store.users := by
  intro h
  have hscript : Playable NoChangePass spentScript := by decide +kernel
  have htotals : totalBalance ((played spentScript).handle adminSha256Hex
      (.message 5 (.resolveDispute ⟨1, 1, .zero _⟩))).store.users ≠
        totalBalance (played spentScript).store.users := by
    decide +kernel
  exact htotals (h _ _ 5 5 ⟨1, 1, .zero _⟩ (.of_script hscript) (by decide) (by decide +kernel))

end OnlineAuction
