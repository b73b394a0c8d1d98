import OnlineAuction.Solvency
import OnlineAuction.TimerBacklog

/-!
# OnlineAuction.CloseOrder

Auctions may be closed in any order.

Under the ledger rule no guard and no clamp of the wallet functions acts on a close: it adds and
subtracts the same amounts whenever it comes (`updates_closingCalls`), and the rule holds
again after it (`Store.Ledgered.close`).  What is left is a change of the files that commutes with
those of the other closes (`View.close`).
-/

namespace OnlineAuction

/-- Close these auctions one after the other. -/
def closeEach : List Auction → Prog ApiSig Unit
  | [] => pure ()
  | a :: as => do
      let _ ← closeAuctionInternal a
      closeEach as

/-- A record after the close of an auction that the user leads, sells, or neither. -/
def Auction.paidOut (a : Auction) (u : User) : User :=
  u.withWallet (u.walletBalance + a.proceeds u.userId) (u.walletHold - a.heldFor u.userId)

/-- The files after a close. -/
def View.close (v : View) (a : Auction) : View :=
  { v with
    users := v.users.map a.paidOut
    auctions := overwrite Auction.auctionId (a.withStatus .auctionClosed) v.auctions
    bids := if a.Settles then markWinning a.auctionId a.highestBidderId v.bids else v.bids }

/-! ## one close -/

section Close

variable {s : Store} {a b : Auction} {u : User}

/-! What the guards let through. -/

theorem update_settlePayment {id : UInt32} {x : ℚ} (hid : u.userId = id) (hheld : x ≤ u.walletHold)
    (hle : u.walletHold ≤ u.walletBalance) : (WalletCall.settlePayment id x).update u =
      u.withWallet (u.walletBalance - x) (u.walletHold - x) := by
  rw [sub_eq_add_neg, sub_eq_add_neg]
  exact WalletCall.update_of_apply hid (walletDelta_of_le (by linarith) (by linarith))

theorem update_creditWallet {id : UInt32} {x : ℚ} (hid : u.userId = id) (hhold : 0 ≤ u.walletHold)
    (hle : u.walletHold ≤ u.walletBalance + x) : (WalletCall.creditWallet id x).update u =
      u.withWallet (u.walletBalance + x) u.walletHold := by
  have hdelta := walletDelta_of_le (show 0 ≤ u.walletHold + 0 by linarith)
    (show u.walletHold + 0 ≤ u.walletBalance + x by linarith)
  rw [add_zero] at hdelta
  exact WalletCall.update_of_apply hid hdelta

theorem update_release {id : UInt32} {x : ℚ} (hid : u.userId = id) (hheld : x ≤ u.walletHold)
    (hpos : 0 ≤ x) (hle : u.walletHold ≤ u.walletBalance) :
    (WalletCall.releaseHold id x).update u = u.withWallet u.walletBalance (u.walletHold - x) := by
  have hdelta := walletDelta_of_le (show 0 ≤ u.walletHold + -x by linarith)
    (show u.walletHold + -x ≤ u.walletBalance + 0 by linarith)
  rw [add_zero, ← sub_eq_add_neg] at hdelta
  exact WalletCall.update_of_apply hid hdelta

/-- No guard acts on the wallet calls of a close. -/
theorem updates_closingCalls (hid : u.userId ≠ 0) (hopen : a.status = .auctionOpen)
    (hpos : 0 < a.currentBid) (hheld : a.heldFor u.userId ≤ u.walletHold) (hhold : 0 ≤ u.walletHold)
    (hle : u.walletHold ≤ u.walletBalance) : updates a.closingCalls u = a.paidOut u := by
  simp only [heldFor_of_open hopen, @eq_comm _ u.userId] at hheld
  have hother (v : User) (c : WalletCall) (hv : v.userId = u.userId) (hne : c.userId ≠ u.userId) :
      c.update v = v := WalletCall.update_of_ne fun h => hne (h.symm.trans hv)
  simp only [Auction.closingCalls, Auction.paidOut, Auction.proceeds, heldFor_of_open hopen,
    @eq_comm _ u.userId]
  by_cases hsettles : a.Settles
  · simp only [hsettles, if_true, updates_cons, updates_nil]
    by_cases hleader : a.highestBidderId = u.userId
    · rw [if_pos hleader] at hheld
      rw [update_settlePayment hleader.symm hheld hle]
      by_cases hseller : a.sellerId = u.userId
      · rw [update_creditWallet (by simpa using hseller.symm) (by simp; linarith)
          (by simp; linarith)]
        simp [User.withWallet, hleader, hseller]
      · rw [hother (u.withWallet (u.walletBalance - a.currentBid) (u.walletHold - a.currentBid))
          (.creditWallet a.sellerId a.currentBid) rfl hseller]
        simp [hleader, hseller, sub_eq_add_neg]
    · rw [hother u (.settlePayment a.highestBidderId a.currentBid) rfl hleader]
      by_cases hseller : a.sellerId = u.userId
      · rw [update_creditWallet hseller.symm hhold (by linarith)]
        simp [hleader, hseller]
      · rw [hother u (.creditWallet a.sellerId a.currentBid) rfl hseller]
        simp [hleader, hseller, User.withWallet]
  · simp only [hsettles, if_false, add_zero]
    by_cases hleader : a.highestBidderId = u.userId
    · have hne : a.highestBidderId ≠ 0 := hleader ▸ hid
      rw [if_pos hleader] at hheld ⊢
      rw [if_pos hne, updates_cons, updates_nil, update_release hleader.symm hheld hpos.le hle]
    · rw [if_neg hleader, sub_zero]
      split
      · exact hother u (.releaseHold a.highestBidderId a.currentBid) rfl hleader
      · rfl

/-- **A close** changes the files as `View.close` says. -/
theorem Store.Ledgered.view_close (h : s.Ledgered) (ha : a ∈ s.auctions)
    (hopen : a.status = .auctionOpen) (conns : Int → Option Conn) :
    (Prog.run Api.exec (closeAuctionInternal a) s).2.view conns = (s.view conns).close a := by
  rw [(does_closeAuctionInternal rfl a).view]
  have husers : usersAfter a.closingCalls (s.view conns).users =
      (s.view conns).users.map a.paidOut := by
    rw [usersAfter_eq_map (show Numbered User.userId (s.view conns).users from h.users_numbered)]
    refine List.map_congr_left fun u hu => ?_
    exact updates_closingCalls (h.users_numbered.ne_zero hu) hopen (h.bid_pos a ha)
      (h.heldFor_le ha hu) (h.hold_nonneg hu) (h.hold_le u hu)
  have hauctions : writeRec .zero (s.view conns).auctions a.auctionId
      (a.withStatus .auctionClosed) =
      overwrite Auction.auctionId (a.withStatus .auctionClosed) (s.view conns).auctions :=
    h.auctions_numbered.writeRec_eq_overwrite (x := a.withStatus .auctionClosed) ha rfl
  rw [View.close, husers, hauctions]

/-- **Step lemma**: the ledger rule holds again after a close. -/
theorem Store.Ledgered.close (h : s.Ledgered) (ha : a ∈ s.auctions)
    (hopen : a.status = .auctionOpen) :
    (Prog.run Api.exec (closeAuctionInternal a) s).2.Ledgered := by
  have hview := h.view_close ha hopen fun _ => none
  have husers : (Prog.run Api.exec (closeAuctionInternal a) s).2.users = s.users.map a.paidOut :=
    congrArg View.users hview
  have hauctions : (Prog.run Api.exec (closeAuctionInternal a) s).2.auctions =
      overwrite Auction.auctionId (a.withStatus .auctionClosed) s.auctions :=
    congrArg View.auctions hview
  have hledger (id : UInt32) : ledger (overwrite Auction.auctionId (a.withStatus .auctionClosed)
      s.auctions) id = ledger s.auctions id - a.heldFor id := by
    have hsum := sum_map_overwrite (fun b : Auction => b.heldFor id) h.auctions_numbered.nodup ha
      (show (a.withStatus .auctionClosed).auctionId = a.auctionId from rfl)
    have hclosed : (a.withStatus .auctionClosed).heldFor id = 0 := by simp [Auction.heldFor]
    rw [hclosed, add_zero] at hsum
    rw [ledger_eq_sum_heldFor, ledger_eq_sum_heldFor, ← hsum, add_sub_cancel_right]
  constructor
  · rw [husers]
    exact h.users_numbered.map_users fun _ => rfl
  · rw [hauctions]
    exact h.auctions_numbered.overwrite _
  · rw [hauctions]
    intro b hb
    rcases mem_overwrite hb with rfl | ⟨hb, -⟩
    · exact h.bid_pos a ha
    · exact h.bid_pos b hb
  · rw [husers, hauctions]
    intro w hw
    obtain ⟨u, hu, rfl⟩ := List.mem_map.mp hw
    rw [hledger]
    exact congrArg (· - a.heldFor u.userId) (h.hold_eq u hu)
  · rw [husers]
    intro w hw
    obtain ⟨u, hu, rfl⟩ := List.mem_map.mp hw
    have hle := h.hold_le u hu
    have hpos := h.bid_pos a ha
    simp only [Auction.paidOut, User.withWallet_walletHold, User.withWallet_walletBalance,
      Auction.proceeds, heldFor_of_open hopen, @eq_comm _ u.userId]
    split <;> split <;> try split
    all_goals linarith

end Close

/-! ## any order -/

section Order

variable {s : Store} {v : View} {a b : Auction} {as bs : List Auction}

theorem paidOut_comm (a b : Auction) (u : User) :
    a.paidOut (b.paidOut u) = b.paidOut (a.paidOut u) := by
  simp only [Auction.paidOut, User.withWallet, User.mk.injEq, true_and, and_true]
  constructor <;> ring

theorem markWinning_comm (id bidder id' bidder' : UInt32) (bids : List Bid) :
    markWinning id bidder (markWinning id' bidder' bids) =
      markWinning id' bidder' (markWinning id bidder bids) := by
  simp only [markWinning, List.map_map]
  refine List.map_congr_left fun z _ => ?_
  simp only [Function.comp]
  grind

/-- Two closes commute as changes of the files. -/
theorem close_comm (h : a.auctionId ≠ b.auctionId) : (v.close a).close b = (v.close b).close a := by
  have husers : (v.users.map a.paidOut).map b.paidOut = (v.users.map b.paidOut).map a.paidOut := by
    rw [List.map_map, List.map_map]
    exact List.map_congr_left fun u _ => paidOut_comm b a u
  have hauctions := overwrite_comm (l := v.auctions)
    (show (b.withStatus .auctionClosed).auctionId ≠ (a.withStatus .auctionClosed).auctionId from
      h.symm)
  simp only [View.close, husers, hauctions]
  congr 1
  split <;> split
  · exact markWinning_comm ..
  all_goals rfl

/-- Different open auctions of the file are still that when one of them is closed. -/
theorem closable_tail (h : Closable s (a :: as)) :
    Closable (Prog.run Api.exec (closeAuctionInternal a) s).2 as :=
  ⟨h.tail.numbered, h.tail.nodup, h.tail.stored, h.tail.isOpen⟩

/-- **Run lemma**: closes one after the other, as changes of the files. -/
theorem view_closeEach (hs : s.Ledgered) (h : Closable s as) (conns : Int → Option Conn) :
    (Prog.run Api.exec (closeEach as) s).2.view conns = as.foldl View.close (s.view conns) := by
  induction as generalizing s with
  | nil => rfl
  | cons a as ih =>
      have ha := h.stored a (List.mem_cons_self ..)
      have hopen := h.isOpen a (List.mem_cons_self ..)
      rw [closeEach, Prog.run_bind, ih (hs.close ha hopen) (closable_tail h),
        hs.view_close ha hopen conns, List.foldl_cons]

/-- The order does not matter. -/
theorem foldl_close_perm (hperm : as.Perm bs) (hnodup : (as.map Auction.auctionId).Nodup)
    (v : View) : as.foldl View.close v = bs.foldl View.close v := by
  refine hperm.foldl_eq' (fun a ha b hb v => ?_) v
  by_cases hab : a = b
  · rw [hab]
  · exact close_comm fun hid => hab (List.inj_on_of_nodup_map hnodup ha hb hid)

/-- **Closing commutes**: under the ledger rule the same open auctions, closed in any order, leave
the same users, auctions and bids. -/
theorem closes_commute (hs : s.Ledgered) (hnodup : as.Nodup) (hstored : ∀ a ∈ as, a ∈ s.auctions)
    (hopen : ∀ a ∈ as, a.status = .auctionOpen) (hperm : as.Perm bs) :
    (Prog.run Api.exec (closeEach as) s).2.users = (Prog.run Api.exec (closeEach bs) s).2.users ∧
      (Prog.run Api.exec (closeEach as) s).2.auctions =
        (Prog.run Api.exec (closeEach bs) s).2.auctions ∧
      (Prog.run Api.exec (closeEach as) s).2.bids =
        (Prog.run Api.exec (closeEach bs) s).2.bids := by
  have hids : (as.map Auction.auctionId).Nodup := hnodup.map_on fun a ha b hb hid =>
    hs.auctions_numbered.eq_of_id (hstored a ha) (hstored b hb) hid
  have has : Closable s as := ⟨hs.auctions_numbered, hids, hstored, hopen⟩
  have hbs : Closable s bs := ⟨hs.auctions_numbered, (hperm.map _).nodup_iff.mp hids,
    fun b hb => hstored b (hperm.mem_iff.mpr hb), fun b hb => hopen b (hperm.mem_iff.mpr hb)⟩
  have hview : (Prog.run Api.exec (closeEach as) s).2.view (fun _ => none) =
      (Prog.run Api.exec (closeEach bs) s).2.view fun _ => none := by
    rw [view_closeEach hs has, view_closeEach hs hbs, foldl_close_perm hperm hids]
  exact ⟨congrArg View.users hview, congrArg View.auctions hview, congrArg View.bids hview⟩

end Order

/-- Users `1` and `2` lead each other's auction, and user `2` an own one. -/
def Store.bazaar : Store where
  users := [.sample 1 roleAuctioneer 30 20, .sample 2 roleBidder 100 15]
  auctions := [
    { Auction.zero with
      auctionId := 1, sellerId := 1, currentBid := 10, highestBidderId := 2,
      status := .auctionOpen },
    { Auction.zero with
      auctionId := 2, sellerId := 2, currentBid := 20, highestBidderId := 1,
      status := .auctionOpen },
    { Auction.zero with
      auctionId := 3, sellerId := 2, currentBid := 5, highestBidderId := 2,
      status := .auctionOpen }]
  bids := [⟨1, 1, 2, 10, 900, false⟩, ⟨2, 2, 1, 20, 900, false⟩, ⟨3, 3, 2, 5, 900, false⟩]
  sessions := []
  feedback := []
  disputes := []
  txnLog := []
  present _ := true
  registry := []
  clock := 1000
  sent := []

theorem closes_commute_bazaar :
    (Prog.run Api.exec (closeEach Store.bazaar.auctions) Store.bazaar).2.users =
        (Prog.run Api.exec (closeEach Store.bazaar.auctions.reverse) Store.bazaar).2.users ∧
      (Prog.run Api.exec (closeEach Store.bazaar.auctions) Store.bazaar).2.auctions =
        (Prog.run Api.exec (closeEach Store.bazaar.auctions.reverse) Store.bazaar).2.auctions ∧
      (Prog.run Api.exec (closeEach Store.bazaar.auctions) Store.bazaar).2.bids =
        (Prog.run Api.exec (closeEach Store.bazaar.auctions.reverse) Store.bazaar).2.bids :=
  closes_commute (by decide +kernel : Store.bazaar.Balanced).ledgered (by decide +kernel)
    (fun _ ha => ha) (by decide +kernel) (List.reverse_perm _).symm

end OnlineAuction
