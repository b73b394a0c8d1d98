import Mathlib.Algebra.Group.Prod
import OnlineAuction.Settlement
import OnlineAuction.Solvency
import OnlineAuction.TxnLog

/-!
# OnlineAuction.LogReplay

The wallets read off `txn.log`.

`place_hold` leaves without a line when its guard refuses; `release_hold`,
`settle_payment` and `credit_wallet` write theirs whatever `apply_wallet_delta` answers.
As long as no refund is refused every line states a change that was made, and the lines
add up to the wallets (`replays_of_serves`).
-/

namespace OnlineAuction

/-! ## replaying -/

/-- What a line adds to the balance and the hold of a user.  The amounts are printed with
two decimals. -/
def LogLine.delta (id : UInt32) : LogLine → ℚ × ℚ
  | .hold user amount => if user = id then (0, amount) else 0
  | .release user amount => if user = id then (0, -amount) else 0
  | .settle user amount => if user = id then (-amount, -amount) else 0
  | .credit user amount => if user = id then (amount, 0) else 0
  | _ => 0

/-- The balance and the hold of a user according to the log. -/
def replayed (log : List LogLine) (id : UInt32) : ℚ × ℚ :=
  log.foldl (fun wallet line => wallet + line.delta id) 0

section Replay

variable {log log' : List LogLine} {id : UInt32}

theorem replayed_eq_sum (log : List LogLine) (id : UInt32) :
    replayed log id = (log.map (LogLine.delta id)).sum := by
  rw [replayed, List.sum_eq_foldl, List.foldl_map]

@[simp] theorem replayed_append :
    replayed (log ++ log') id = replayed log id + replayed log' id := by
  simp only [replayed_eq_sum, List.map_append, List.sum_append]

theorem LogLine.delta_of_not_statement {line : LogLine} (h : line.isStatement = false) :
    line.delta id = 0 := by
  cases line <;> first | rfl | cases h

/-- Other lines are passed over. -/
theorem replayed_filter : replayed (log.filter LogLine.isStatement) id = replayed log id := by
  induction log with
  | nil => rfl
  | cons line log ih =>
      rw [replayed_eq_sum, replayed_eq_sum] at ih ⊢
      cases hline : line.isStatement with
      | true =>
          rw [List.filter_cons_of_pos hline, List.map_cons, List.map_cons, List.sum_cons,
            List.sum_cons, ih]
      | false =>
          rw [List.filter_cons_of_neg (by simp [hline]), List.map_cons, List.sum_cons, ih,
            line.delta_of_not_statement hline, zero_add]

end Replay

/-! ## calls that do what they state -/

/-- Each call is answered 0 and changes the wallet as its line says. -/
def Applied : List WalletCall → List User → Prop
  | [], _ => True
  | c :: cs, users => (c.result users = 0 ∧ c.users users =
      adjustWallet c.userId (c.line.delta c.userId).1 (c.line.delta c.userId).2 users) ∧
        Applied cs (c.users users)

/-- The calls that left the marks. -/
def Mark.call : Mark → Option WalletCall
  | .wallet _ c _ => some c
  | _ => none

section Applied

variable {users : List User} {c : WalletCall} {cs cs' : List WalletCall} {site : Site}
  {id : UInt32} {bd hd : ℚ}

theorem Applied.succeeds (h : Applied cs users) : ∀ m ∈ walletMarks site cs users, m.Succeeds := by
  induction cs generalizing users with
  | nil => exact fun _ hm => nomatch hm
  | cons c cs ih =>
      intro m hm
      rcases List.mem_cons.mp hm with rfl | hm
      · exact h.1.1
      · exact ih h.2 m hm

theorem filterMap_call_walletMarks :
    (walletMarks site cs users).filterMap Mark.call = cs := by
  induction cs generalizing users with
  | nil => rfl
  | cons c cs ih => exact congrArg (c :: ·) ih

/-- A line says nothing of other users. -/
theorem WalletCall.delta_of_ne (h : c.userId ≠ id) : c.line.delta id = 0 := by
  cases c <;> exact if_neg h

/-- The wallets after an adjustment. -/
theorem walletOf_adjustWallet (hnum : Numbered User.userId users) (x : UInt32) :
    walletOf (adjustWallet id bd hd users) x =
      (walletOf users x).map (· + if id = x then (bd, hd) else 0) := by
  have hread : readRec (adjustWallet id bd hd users) x = (readRec users x).map fun u =>
      if u.userId = id then u.withWallet (u.walletBalance + bd) (u.walletHold + hd) else u :=
    List.getElem?_map
  rw [walletOf, walletOf, hread]
  cases hx : readRec users x with
  | none => rfl
  | some u =>
      obtain ⟨-, hid⟩ := hnum.readRec_eq_some.mp hx
      by_cases h : id = x
      · simp [h, hid]
      · have hne : ¬ u.userId = id := fun heq => h (heq.symm.trans hid)
        simp [h, hne]

/-- A call that is answered 0 is about a user who exists. -/
theorem WalletCall.exists_of_result (h : c.result users = 0) :
    (walletOf users c.userId).isSome = true := by
  rw [walletOf, Option.isSome_map]
  cases hread : readRec users c.userId with
  | none => simp [WalletCall.result, WalletCall.written, hread] at h
  | some u => rfl

/-- The log and the wallets agree on everybody; a user who does not exist has nothing. -/
def Balances (log : List LogLine) (users : List User) : Prop :=
  ∀ id, replayed log id = (walletOf users id).getD 0

/-- **Replay** of calls that do what they state. -/
theorem Applied.balances (h : Applied cs users) {log : List LogLine}
    (hnum : Numbered User.userId users) (hlog : Balances log users) :
    Balances (log ++ cs.map WalletCall.line) (usersAfter cs users) := by
  induction cs generalizing log users with
  | nil => simpa using hlog
  | cons c cs ih =>
      obtain ⟨⟨hresult, husers⟩, hrest⟩ := h
      have hnum' : Numbered User.userId (c.users users) :=
        hnum.congr (map_userId_walletUsers hnum c)
      rw [List.map_cons, List.append_cons, usersAfter_cons]
      refine ih hrest hnum' fun id => ?_
      rw [replayed_append, hlog id, husers, walletOf_adjustWallet hnum]
      by_cases hid : c.userId = id
      · subst hid
        have hexists := c.exists_of_result hresult
        cases hw : walletOf users c.userId with
        | none => simp [hw] at hexists
        | some w => simp [replayed]
      · cases walletOf users id <;> simp [replayed, c.delta_of_ne hid, hid]

end Applied

/-! ## holds that are not raised to zero -/

section Holds

variable {cover : Cover} {users : List User} {auctions : List Auction} {a : Auction}
  {c : WalletCall} {cs : List WalletCall} {site : Site}

/-- A call that is answered 0 does what it states, unless `apply_wallet_delta` raises the
hold to zero. -/
theorem applied_singleton (hnum : Numbered User.userId users) (hresult : c.result users = 0)
    (hhold : ∀ u ∈ users, u.userId = c.userId → 0 ≤ u.walletHold + (c.line.delta c.userId).2) :
    Applied [c] users := by
  have hpasses : c.Passes users := c.isSome_written hresult
  obtain ⟨u, hu, hid, v, happly, hvid, husers⟩ := hpasses.exists_users hnum
  refine ⟨⟨hresult, ?_⟩, trivial⟩
  have hraised := hhold u hu hid
  have hdelta {bd hd : ℚ} (h : walletDelta u bd hd = some v)
    (hline : c.line.delta c.userId = (bd, hd)) :
      c.users users =
        adjustWallet c.userId (c.line.delta c.userId).1 (c.line.delta c.userId).2 users := by
    rw [hline] at hraised ⊢
    rw [husers, (walletDelta_eq_some h).1, max_eq_left hraised,
      overwrite_eq_adjustWallet hnum hu, hid]
  cases c with
  | placeHold id amount =>
      simp only [WalletCall.apply] at happly
      split at happly
      · cases happly
      · exact hdelta happly (if_pos rfl)
  | _ => exact hdelta happly (if_pos rfl)

/-- The wallet calls that keep holds from below zero. -/
theorem hold_nonneg_users (hnum : Numbered User.userId users) (c : WalletCall)
    (hholds : ∀ u ∈ users, 0 ≤ u.walletHold) : ∀ u ∈ c.users users, 0 ≤ u.walletHold := by
  rw [c.users_eq_map hnum]
  intro w hw
  obtain ⟨u, hu, rfl⟩ := List.mem_map.mp hw
  exact c.hold_nonneg_update (hholds u hu)

/-- Calls that lower no hold do what they state when they succeed. -/
theorem applied_of_succeeds (hnum : Numbered User.userId users)
    (hholds : ∀ u ∈ users, 0 ≤ u.walletHold)
    (hcs : ∀ c ∈ cs, 0 ≤ (c.line.delta c.userId).2)
    (h : ∀ m ∈ walletMarks site cs users, m.Succeeds) : Applied cs users := by
  induction cs generalizing users with
  | nil => trivial
  | cons c cs ih =>
      have hresult : c.result users = 0 := h _ (List.mem_cons_self ..)
      refine ⟨(applied_singleton hnum hresult fun u hu _ => ?_).1, ?_⟩
      · exact add_nonneg (hholds u hu) (hcs c (List.mem_cons_self ..))
      · refine ih (hnum.congr (map_userId_walletUsers hnum c))
          (hold_nonneg_users hnum c hholds) ?_ ?_
        · exact fun c' hc' => hcs c' (List.mem_cons_of_mem _ hc')
        · exact fun m hm => h m (List.mem_cons_of_mem _ hm)

/-- So does a call that takes the hold of an open auction from its leader. -/
theorem Covered.applied_leader (h : Covered (restCover auctions) users auctions) (ha : a ∈ auctions)
    (hopen : a.status = .auctionOpen) (hc : c.userId = a.highestBidderId)
    (hdelta : (c.line.delta c.userId).2 = -a.currentBid) (hresult : c.result users = 0) :
    Applied [c] users := by
  refine applied_singleton h.users_numbered hresult fun u hu hid => ?_
  have hcover := h.cover_le_hold hu ha
  rw [h.restCover_eq ha, heldFor_of_open hopen, if_pos (hid.trans hc)] at hcover
  rw [hdelta]
  linarith

/-- The wallet calls of a bid. -/
theorem Covered.applied_bidding (h : Covered (restCover auctions) users auctions)
    (ha : a ∈ auctions) (hopen : a.status = .auctionOpen) {bidder : UInt32} {amount : ℚ}
    (hpos : 0 ≤ amount)
    (hsucceeds : ∀ m ∈ walletMarks site (a.biddingCalls bidder amount) users, m.Succeeds) :
    Applied (a.biddingCalls bidder amount) users := by
  have hholds : ∀ u ∈ users, 0 ≤ u.walletHold := fun u hu => h.hold_nonneg hu
  have hplaces : ∀ c ∈ [WalletCall.placeHold bidder amount], 0 ≤ (c.line.delta c.userId).2 := by
    simpa [WalletCall.line, WalletCall.userId, LogLine.delta] using hpos
  unfold Auction.biddingCalls at hsucceeds ⊢
  split at hsucceeds
  · next hleader =>
      rw [if_pos hleader]
      obtain ⟨hrelease, hplace⟩ := List.forall_mem_cons.mp hsucceeds
      have hfirst := h.applied_leader ha hopen rfl
        (by simp [WalletCall.line, WalletCall.userId, LogLine.delta]) hrelease
      refine ⟨hfirst.1, applied_of_succeeds ?_ ?_ hplaces hplace⟩
      · exact h.users_numbered.congr (map_userId_walletUsers h.users_numbered _)
      · exact hold_nonneg_users h.users_numbered _ hholds
  · next hleader =>
      rw [if_neg hleader]
      exact applied_of_succeeds h.users_numbered hholds hplaces hsucceeds

/-- The wallet calls of a close. -/
theorem Covered.applied_closing (h : Covered (restCover auctions) users auctions)
    (ha : a ∈ auctions) (hopen : a.status = .auctionOpen)
    (hsucceeds : ∀ m ∈ walletMarks site a.closingCalls users, m.Succeeds) :
    Applied a.closingCalls users := by
  have hholds : ∀ u ∈ users, 0 ≤ u.walletHold := fun u hu => h.hold_nonneg hu
  unfold Auction.closingCalls at hsucceeds ⊢
  by_cases hsettles : a.Settles
  · rw [if_pos hsettles] at hsucceeds ⊢
    obtain ⟨hsettle, hcredit⟩ := List.forall_mem_cons.mp hsucceeds
    have hfirst := h.applied_leader ha hopen rfl
      (by simp [WalletCall.line, WalletCall.userId, LogLine.delta]) hsettle
    refine ⟨hfirst.1, applied_of_succeeds ?_ ?_ ?_ hcredit⟩
    · exact h.users_numbered.congr (map_userId_walletUsers h.users_numbered _)
    · exact hold_nonneg_users h.users_numbered _ hholds
    · simp [WalletCall.line, WalletCall.userId, LogLine.delta]
  · rw [if_neg hsettles] at hsucceeds ⊢
    by_cases hleader : a.highestBidderId = 0
    · rw [if_neg (not_not.mpr hleader)]
      trivial
    · rw [if_pos hleader] at hsucceeds ⊢
      exact h.applied_leader ha hopen rfl
        (by simp [WalletCall.line, WalletCall.userId, LogLine.delta])
        (hsucceeds _ (List.mem_cons_self ..))

end Holds

/-! ## refunds that are not refused -/

/-- Both credits of a refund are made: the auction has a winner, and what the seller has at
hand covers the amount, unless the balance is too small for the refund to be tried. -/
def Auction.RefundPays (a : Auction) (users : List User) : Prop :=
  a.highestBidderId ≠ 0 ∧ ∀ seller ∈ readRec users a.sellerId,
    a.sellerFunds seller < a.currentBid ∨ a.currentBid ≤ a.sellerFunds seller - seller.walletHold

instance (a : Auction) (users : List User) : Decidable (a.RefundPays users) :=
  inferInstanceAs (Decidable (_ ∧ _))

/-- The input is no refund of a dispute that a wallet refuses. -/
def RefundsPay (s : Server) : Input → Prop
  | .message fd (.resolveDispute req) => ∀ c ∈ s.conns fd, c.authenticated = true →
      roleModerator ≤ c.currentUser.role →
      DisputeStatus.ofCode req.newStatus = some .disputeResolved →
      ∀ d ∈ readRec s.store.disputes req.disputeId, d.status = .disputeOpen →
      ∀ a ∈ readRec s.store.auctions d.auctionId, a.RefundPays s.store.users
  | _ => True

instance (s : Server) (i : Input) : Decidable (RefundsPay s i) := by
  unfold RefundsPay
  split <;> infer_instance

section Refunds

variable {cover : Cover} {users : List User} {auctions : List Auction} {a : Auction} {site : Site}

theorem Covered.succeeds_refund (h : Covered cover users auctions) (ha : a ∈ auctions)
    (hpays : a.RefundPays users) :
      ∀ m ∈ walletMarks site (a.refundCalls users) users, m.Succeeds := by
  obtain ⟨seller, hseller, hid⟩ := h.seller_mem a ha
  obtain ⟨husers, hcovered, z, hz, hzid, hbalance, hhold⟩ := h.credited ha hpays.1 hseller hid
  have hcredit : (WalletCall.creditWallet a.highestBidderId a.currentBid).result users = 0 := by
    obtain ⟨y, hy, hyid⟩ := h.leader_mem a ha hpays.1
    have hstays : y.walletHold ≤ y.walletBalance + a.currentBid := by
      have hle := h.hold_le y hy
      have hpos := h.bid_pos a ha
      linarith
    exact hyid ▸ (h.credit hy hstays).2.1
  have hread : readRec ((WalletCall.creditWallet a.highestBidderId a.currentBid).users users)
      a.sellerId = some z := by
    rw [husers, ← hzid]
    exact hcovered.readRec_user hz
  simp only [Auction.refundCalls, hread]
  split
  · next henough =>
      have hdebit : (WalletCall.creditWallet a.sellerId (-a.currentBid)).result
          ((WalletCall.creditWallet a.highestBidderId a.currentBid).users users) = 0 := by
        have hstays : z.walletHold ≤ z.walletBalance + -a.currentBid := by
          rcases hpays.2 seller (hid ▸ h.readRec_user hseller) with hshort | hpaid
          · exact absurd henough (not_le.mpr (hbalance ▸ hshort))
          · rw [hbalance, hhold]
            linarith
        rw [husers]
        exact hzid ▸ (hcovered.credit hz hstays).2.1
      intro m hm
      rcases List.mem_cons.mp hm with rfl | hm
      · exact hcredit
      · exact succeeds_walletMarks_singleton hdebit m hm
  · exact succeeds_walletMarks_singleton hcredit

/-- The wallet calls of a refund only credit. -/
theorem delta_refundCalls {c : WalletCall} (hc : c ∈ a.refundCalls users) :
    0 ≤ (c.line.delta c.userId).2 := by
  unfold Auction.refundCalls at hc
  grind [WalletCall.line, WalletCall.userId, LogLine.delta]

end Refunds

section Requests

variable {sha256Hex : List UInt8 → List UInt8} {s : Server} {v v' : View} {i : Input}
  {ms : List Mark} {log : List LogLine}

/-- Nothing is marked unless the dispute is to be resolved. -/
theorem marks_handleResolveDispute {req : ResolveDisputePayload}
    (hreq : DisputeStatus.ofCode req.newStatus ≠ some .disputeResolved) (fd : Int) (user : User)
    (s : Store) : marks (Prog.trace Api.exec (handleResolveDispute fd req user) s) = [] := by
  cases hcode : DisputeStatus.ofCode req.newStatus with
  | none => simp [handleResolveDispute, hcode, marks, mark]
  | some status =>
      cases status with
      | disputeOpen => simp [handleResolveDispute, hcode, marks, mark]
      | disputeResolved => exact absurd hcode hreq
      | disputeRejected =>
          cases hd : readRec s.disputes req.disputeId with
          | none => simp [handleResolveDispute, hcode, hd, Store.exec, marks, mark]
          | some d =>
              by_cases hopen : d.status = .disputeOpen
              case neg => simp [handleResolveDispute, hcode, hd, hopen, Store.exec, marks, mark]
              cases ha : readRec s.auctions d.auctionId <;>
                simp [handleResolveDispute, hcode, hd, hopen, ha, Store.exec, Store.create,
                  concludeDispute, marks, mark]

/-- What a marked request to resolve a dispute has passed. -/
theorem resolves_of_marks {fd : Int} {req : ResolveDisputePayload}
    (h : marks (s.calls sha256Hex (.message fd (.resolveDispute req))) ≠ []) :
    DisputeStatus.ofCode req.newStatus = some .disputeResolved := by
  by_contra hreq
  refine h ?_
  rcases calls_resolveDispute s fd req with ⟨user, hcalls⟩ | hcalls | ⟨type, err, -, hcalls⟩
  · rw [hcalls, marks_handleResolveDispute hreq]
  · rw [hcalls]
    rfl
  · rw [hcalls]
    rfl

theorem walletOf_congr {users users' : List User}
    (h : users'.map User.purse = users.map User.purse) (id : UInt32) :
    walletOf users' id = walletOf users id := by
  have hpurse (l : List User) : walletOf l id = ((l.map User.purse)[recPos id]?).map Prod.snd := by
    rw [List.getElem?_map, Option.map_map]
    rfl
  rw [hpurse, hpurse, h]

/-- A new user has nothing. -/
theorem balances_append {users : List User} {u : User} (hlog : Balances log users)
    (hroom : users.length < 2 ^ 32 - 1) (hbalance : u.walletBalance = 0)
    (hhold : u.walletHold = 0) :
    Balances log (users ++ [u]) := by
  intro id
  rw [hlog id, walletOf, walletOf, readRec_append hroom]
  split
  · next hid =>
      rw [hid, readRec_nextRecId hroom, Option.map_some, Option.getD_some, hbalance, hhold]
      rfl
  · rfl

/-- **Step lemma**: the wallet calls of a step succeed, and the wallets change as their
lines state, unless a refund is refused. -/
theorem Solvent.recorded (hk : Solvent s.view) (hs : Sound s.view) (hroom : s.view.HasRoom)
    (hok : NoChangePass s i) (hpays : RefundsPay s i)
    (hresolves : ∀ fd req, i = .message fd (.resolveDispute req) → ms ≠ [] →
      DisputeStatus.ofCode req.newStatus = some .disputeResolved)
    (h : Change sha256Hex s.view i ms v') (hlog : Balances log s.store.users) :
    (∀ m ∈ ms, m.Succeeds) ∧
      Balances (log ++ (ms.filterMap Mark.call).map WalletCall.line) v'.users := by
  have hnum : Numbered User.userId s.store.users := hs.users
  have hholds : ∀ u ∈ s.store.users, 0 ≤ u.walletHold := fun u hu => hk.covered.hold_nonneg hu
  have hsame (users : List User) (husers : users.map User.purse = s.store.users.map User.purse) :
      (∀ m ∈ ([] : List Mark), m.Succeeds) ∧
        Balances (log ++ (([] : List Mark).filterMap Mark.call).map WalletCall.line) users :=
    ⟨fun _ hm => (List.not_mem_nil hm).elim, fun id => by
      rw [walletOf_congr husers, ← hlog id]
      simp⟩
  have hwallets {site : Site} {cs : List WalletCall} (h : Applied cs s.store.users) :
      Balances (log ++ ((walletMarks site cs s.store.users).filterMap Mark.call).map
        WalletCall.line) (usersAfter cs s.store.users) := by
    rw [filterMap_call_walletMarks]
    exact h.balances hnum hlog
  have hdeposit {fd : Int} {c : Conn} {amount : ℚ} (hlogged : s.view.LoggedIn fd c)
      (hpos : 0 < amount) :
      (WalletCall.creditWallet c.currentUser.userId amount).result s.view.users = 0 := by
    obtain ⟨u, hu, hid⟩ := List.mem_map.mp (hs.user_mem fd c hlogged)
    have hstays : u.walletHold ≤ u.walletBalance + amount := by
      have hle := hk.covered.hold_le u hu
      linarith
    exact hid ▸ (hk.covered.credit hu hstays).2.1
  cases h with
  | @logsIn fd c req u slot hconn hu =>
      exact hsame _ (hs.users.map_overwrite (mem_of_findByUsername hu) (by rfl) (by rfl))
  | changePass => exact hok.elim
  | depositFails hlogged hpos hresult =>
      have hzero := hdeposit hlogged hpos
      omega
  | @deposit fd c req w hlogged hpos =>
      have happlied : Applied [.creditWallet c.currentUser.userId req.amount] s.store.users :=
        applied_singleton hnum (hdeposit hlogged hpos) fun u hu _ => by
          simpa [WalletCall.line, WalletCall.userId, LogLine.delta] using hholds u hu
      exact ⟨happlied.succeeds, hwallets happlied⟩
  | @placeBid fd c req a w b hlogged hrole ha hid hopen hw hwid hfunds hhigher =>
      have hsucceeds := (hk.covered.bidding (.placeBid a.auctionId) ha hopen hw hfunds hhigher).2.2
      have hpos := hk.covered.bid_pos _ ha
      exact ⟨hsucceeds, hwallets (hk.covered.applied_bidding ha hopen
        (hpos.trans hhigher).le hsucceeds)⟩
  | @close _ a hi ha hopen =>
      have hsucceeds := (hk.covered.closing (.close a.auctionId) ha hopen).2.2
      refine ⟨fun m hm => ?_, ?_⟩
      · rcases List.mem_append.mp hm with hm | hm
        · exact hsucceeds m hm
        · rw [List.mem_singleton.mp hm]
          trivial
      · have hclosed : [Mark.closed a.auctionId].filterMap Mark.call = [] := rfl
        rw [List.filterMap_append, hclosed, List.append_nil]
        exact hwallets (hk.covered.applied_closing ha hopen hsucceeds)
  | @refund fd c req a d d' hlogged hrole hd hdid hopen ha haid =>
      have hpaid : a.RefundPays s.store.users :=
        hpays c hlogged.1 hlogged.2 hrole (hresolves fd req rfl (by simp)) d
          (hs.disputes.readRec_eq_some.mpr ⟨hd, hdid⟩) hopen a
          (hs.auctions.readRec_eq_some.mpr ⟨ha, haid⟩)
      have hsucceeds : ∀ m ∈ walletMarks (.resolve d.disputeId) (a.refundCalls s.store.users)
          s.store.users, m.Succeeds := hk.covered.succeeds_refund ha hpaid
      refine ⟨List.forall_mem_cons.mpr ⟨trivial, hsucceeds⟩, ?_⟩
      exact hwallets (applied_of_succeeds hnum hholds (fun c hc => delta_refundCalls hc) hsucceeds)
  | @toggleAccount fd c req w hlogged hrole hw =>
      exact hsame _ (hs.users.map_overwrite hw (by rfl) (by rfl))
  | addUser =>
      refine ⟨fun _ hm => (List.not_mem_nil hm).elim, ?_⟩
      rw [List.filterMap_nil, List.map_nil, List.append_nil]
      exact balances_append hlog hroom.users rfl rfl
  | @changeRole fd c req w hlogged hrole hw =>
      exact hsame _ (hs.users.map_overwrite hw (by rfl) (by rfl))
  | _ => exact hsame _ rfl

end Requests

/-! ## runs -/

/-- The log tells the wallets: every user's is what the lines add up to, and the lines are
those of the wallet calls that changed one. -/
structure Replays (calls : List (Event ApiSig)) (s : Store) : Prop where
  wallets : ∀ u ∈ s.users, replayed s.txnLog u.userId = (u.walletBalance, u.walletHold)
  lines : s.txnLog.filter LogLine.isStatement = calls.filterMap statement

section Runs

variable {sha256Hex : List UInt8 → List UInt8} {s : Server} {i : Input}
  {calls : List (Event ApiSig)}

/-- A wallet call leaves a mark. -/
theorem statement_of_mark {e : Event ApiSig} (h : ∀ m, mark e = some m → m.Succeeds) :
    Succeeded e ∧ statement e = ((mark e).bind Mark.call).map WalletCall.line := by
  obtain ⟨op, r⟩ := e
  cases op with
  | wallet site c =>
      have hzero : r = (0 : Int) := h _ rfl
      exact ⟨hzero, if_pos hzero⟩
  | sys op =>
      cases op with
      | logTxn line => cases line <;> exact ⟨trivial, rfl⟩
      | _ => exact ⟨trivial, rfl⟩

/-- The statements of calls that succeed. -/
theorem filterMap_statement (h : ∀ m ∈ marks calls, m.Succeeds) :
    (∀ e ∈ calls, Succeeded e) ∧
      calls.filterMap statement = ((marks calls).filterMap Mark.call).map WalletCall.line := by
  have hmark (e : Event ApiSig) (he : e ∈ calls) :=
    statement_of_mark fun m hm => h m (List.mem_filterMap.mpr ⟨e, he, hm⟩)
  refine ⟨fun e he => (hmark e he).1, ?_⟩
  rw [marks, List.filterMap_filterMap, List.map_filterMap]
  exact List.filterMap_congr fun e he => (hmark e he).2

theorem replays_of_balances {log : List LogLine} {users : List User}
    (hnum : Numbered User.userId users) (h : Balances log users) :
    ∀ u ∈ users, replayed log u.userId = (u.walletBalance, u.walletHold) := by
  intro u hu
  have hread : readRec users u.userId = some u := hnum.readRec_eq_some.mpr ⟨hu, rfl⟩
  rw [h u.userId, walletOf, hread]
  rfl

/-- **Audit log**: along every run without changes of passwords in which no refund is
refused, replaying the log gives every wallet, and a line is there exactly when the change
it states was made. -/
theorem replays_of_serves (createdAt now : Int)
    (h : Serves sha256Hex (fun s i => NoChangePass s i ∧ RefundsPay s i)
      (.seeded sha256Hex createdAt now) calls s) : Replays calls s.store := by
  have hseeded : (Server.seeded sha256Hex createdAt now).Sound := sound_seeded createdAt now
  have hinv : Solvent s.view ∧ Balances (calls.filterMap statement) s.store.users ∧
      s.store.txnLog.filter LogLine.isStatement = calls.filterMap statement := by
    induction h with
    | refl =>
        have hnobody : Balances [] [] := fun id => by simp [replayed, walletOf, readRec]
        exact ⟨solvent_seeded createdAt now, balances_append hnobody (by simp) rfl rfl, rfl⟩
    | @step calls s i hrun hroom hpossible hok ih =>
        obtain ⟨hk, hlog, hlines⟩ := ih
        have hs := hrun.sound hseeded
        have hchange : Change sha256Hex s.view i (marks (s.calls sha256Hex i))
            (s.handle sha256Hex i).view := hs.change hroom hpossible
        obtain ⟨hsucceeds, hrecorded⟩ := hk.recorded hs.view hroom.view hok.1 hok.2
          (fun fd req hi hms => resolves_of_marks (hi ▸ hms)) hchange hlog
        obtain ⟨hcalls, hstatements⟩ := filterMap_statement hsucceeds
        rw [List.filterMap_append, hstatements]
        refine ⟨hk.step hs.view hroom.view hok.1 hchange, hrecorded, ?_⟩
        rw [← hstatements, ← hlines]
        have hbefore : (i.before s.store).txnLog = s.store.txnLog := by cases i <;> rfl
        rw [← hbefore]
        exact statements_run (plain_input sha256Hex s.conns i) hcalls
  have hs : s.Sound := (h.weaken fun _ _ hok => hok.1).sound hseeded
  refine ⟨replays_of_balances hs.view.users fun id => ?_, hinv.2.2⟩
  rw [← replayed_filter, hinv.2.2]
  exact hinv.2.1 id

end Runs

/-- The buyer of `saleScript` files another dispute and gets the money back. -/
theorem replays_of_serves_sale :
    ∃ calls, Replays calls (played (saleScript ++ [.message 6 (.fileDispute ⟨1, .zero _⟩),
      .message 5 (.resolveDispute ⟨2, 1, .zero _⟩)])).store := by
  have hscript : Playable (fun s i => NoChangePass s i ∧ RefundsPay s i)
      (saleScript ++ [.message 6 (.fileDispute ⟨1, .zero _⟩),
        .message 5 (.resolveDispute ⟨2, 1, .zero _⟩)]) := by
    decide +kernel
  obtain ⟨calls, h⟩ := Serves.of_scripted hscript
  exact ⟨calls, replays_of_serves 0 1000 h⟩

/-- An auctioneer sells, becomes a bidder and leads with all of it when the buyer's dispute
is resolved. -/
def heldScript : List Input :=
  spentScript.take 18 ++
    [.message 6 (.fileDispute ⟨1, .zero _⟩), .message 5 (.resolveDispute ⟨1, 1, .zero _⟩)]

/-- The log says that the seller has paid, and the wallet that nothing has been taken. -/
theorem not_replays :
    ¬ ∀ calls s, Plays NoChangePass calls s → Replays calls s.store := by
  intro h
  have hscript : Playable NoChangePass heldScript := by decide +kernel
  have hreplay : ∃ u ∈ (played heldScript).store.users,
      replayed (played heldScript).store.txnLog u.userId ≠ (u.walletBalance, u.walletHold) := by
    decide +kernel
  obtain ⟨u, hu, hne⟩ := hreplay
  exact hne ((h _ _ (.of_script hscript)).wallets u hu)

end OnlineAuction
