import OnlineAuction.BooksRules
import Mathlib.Data.List.Chain

/-!
# OnlineAuction.BidBooks

A bid keeps the books in any company.

The bidder's check of the wallet holds no lock, but what it finds stays true as
far as it matters: the slack of a bidder for an open auction only grows, since
the bidder bids on no other auction at the same time.  From the second reading
of the auction, under its semaphore, to the appending of the bid the thread
owns the account of the auction.
-/

namespace OnlineAuction

variable {ι : Type} {plan : Plan ι} {t : ι}

/-! ## a bid from its acceptance on -/

section Bid

variable {a₀ a : Auction} {x : Account} {u : UInt32} {amount : ℚ}

/-- The highest bid after bids is the last of them. -/
theorem getLast?_withBids (a : Auction) (placed : List (UInt32 × ℚ)) :
    (a.currentBid :: placed.map Prod.snd).getLast? = some (a.withBids placed).currentBid := by
  induction placed generalizing a with
  | nil => rfl
  | cons b l ih =>
      rw [List.map_cons, List.getLast?_cons_cons]
      exact ih (a.withBid b.1 b.2)

/-- An accepted bid leaves the account at rest again, once the former leader's
cover is gone. -/
theorem AtRest.withBid (h : AtRest a₀ a x) (hopen : a.status = .auctionOpen)
    (hlt : a.currentBid < amount) {cover : UInt32 → ℚ} (hcover : ∀ v, v ≠ 0 → cover v = 0) :
    AtRest a₀ (a.withBid u amount)
      { record := some (a.withBid u amount)
        cover := fun v => if v = u then cover v + amount else cover v
        placed := x.placed ++ [(u, amount)]
        calls := x.calls } where
  record := rfl
  cover v hv := by
    by_cases hvu : v = u
    · simp [hvu, Auction.heldFor, hopen, hcover u (hvu ▸ hv)]
    · have hne : u ≠ v := fun he => hvu he.symm
      simp [hvu, hne, Auction.heldFor, hcover v hv]
  calls := by
    rw [h.calls]
    simp [callsBetween, hopen]
  status := h.status
  bids := by
    have hstatus : (a₀.withBids x.placed).withStatus .auctionOpen = a := by rw [← hopen, ← h.bids]
    simp only [Auction.withBids, List.foldl_append, List.foldl_cons, List.foldl_nil,
      Auction.withBid_status, hopen]
    conv_lhs => rw [← hstatus]
    rfl
  increasing := by
    have hlast : (a₀.currentBid :: x.placed.map Prod.snd).getLast? = some a.currentBid := by
      rw [getLast?_withBids, h.bids]
      rfl
    rw [List.map_append, List.map_singleton, ← List.cons_append]
    refine h.increasing.append (.singleton _) fun y hy z hz => ?_
    obtain rfl : a.currentBid = y := Option.some.inj (hlast.symm.trans hy)
    obtain rfl : amount = z := Option.some.inj hz
    exact hlt

end Bid

section Bidder

variable {clientFd : Int} {req : PlaceBidPayload} {bidder : User} {Q F : World ι → Prop}
  {w : World ι} {a₀ a : Auction} {x : Account}

/-- The bidder owns the account and has the semaphore. -/
structure Bidding (plan : Plan ι) (t : ι) (F : World ι → Prop) (i : UInt32) (x : Account)
    (w : World ι) : Prop where
  owns : Owns plan t F i x w
  sem : w.held (auctionSem i) = some t

theorem Bidding.record {i : UInt32} (h : Bidding plan t F i x w) :
    readRec w.store.auctions i = x.record := congrArg Account.record h.owns.account

theorem Bidding.later (hF : Carried plan t F) {w' : World ι} {i : UInt32}
    (h : Bidding plan t F i x w) (hrely : Rely plan t w w') : Bidding plan t F i x w' :=
  ⟨h.owns.later hF hrely, hrely.sem _ h.sem⟩

theorem Bidding.step (hF : Carried plan t F) {w' : World ι} {i : UInt32} {x' : Account}
    (h : Bidding plan t F i x w) (ht : Touches plan t i w w') (ho : w'.owner i = some t)
    (hx : account plan w' i = x') : Bidding plan t F i x' w' :=
  ⟨h.owns.step hF ht ho hx, (ht.sem _).trans h.sem⟩

/-- Quiet calls while the bidder owns the account. -/
theorem wp_biddingQuiet (hF : Carried plan t F) {i : UInt32}
    (hb : ∃ j ∈ plan.jobs t, ∃ u, j.Bids i u) {op : ApiOp} {k : op.Res → Prog ApiSig Unit}
    (hop : op.Quiet)
    (hk : Kept plan w) (hw : Bidding plan t F i x w)
    (hmust : ∀ r, (k r).Must (Appends i))
    (hf : ∀ r w, Kept plan w → Bidding plan t F i x w →
      (booksLogic plan).wp t Q (k r) w) : (booksLogic plan).wp t Q (.call op k) w := by
  refine Logic.wp_call (P := Bidding plan t F i x)
    (fun _ _ _ _ hrely h => h.later hF hrely) hk hw
    (fun _ _ h => point_of_must h.owns hb (.inr hmust) (hop.entitled _)) ?_
  intro w r s hk hw _ hs
  obtain ⟨hmove, hrely⟩ := silent_of_quiet hop w r s hk hs
  exact ⟨w.2, hmove, hf r _ hmove.inv (hw.later hF hrely)⟩

/-- Releasing the hold of the leader, if there is one, leaves nothing covered
and the bidder's slack as high as before. -/
theorem wp_releaseLeader (hF : Carried plan t F) {i u : UInt32} {amount : ℚ}
    (hb : ∃ j ∈ plan.jobs t, ∃ u, j.Bids i u)
    {k : Int → Prog ApiSig Unit} (hk : Kept plan w) (hw : Bidding plan t F i x w)
    (hx : AtRest a₀ a x) (hopen : a.status = .auctionOpen)
    (hcloser : ∀ v, plan.closer i = some v → v = t)
    (hslack : ∀ w w', Rely plan t w w' → (account plan w' i).IsOpen →
      slack w i u ≤ slack w' i u)
    (hfunds : amount ≤ slack w i u) (hmust : ∀ r, (k r).Must (Appends i))
    (hf : ∀ r w cover, Kept plan w → (∀ v, v ≠ 0 → cover v = 0) →
      Bidding plan t F i { x with cover := cover } w → amount ≤ slack w i u →
      (booksLogic plan).wp t Q (k r) w) :
    (booksLogic plan).wp t Q (releaseLeader (.placeBid i) a >>= k) w := by
  have hzero (v : UInt32) (hv : v ≠ 0) (hne : v ≠ a.highestBidderId) : x.cover v = 0 := by
    rw [hx.cover v hv, Auction.heldFor, if_neg fun hc => hne hc.2.symm]
  unfold releaseLeader
  split
  · next hleader =>
      have hheld : x.cover a.highestBidderId = a.currentBid := by
        rw [hx.cover _ hleader, Auction.heldFor, if_pos ⟨hopen, rfl⟩]
      simp only [wallet, Prog.bind_call, Prog.bind_pure]
      refine Logic.wp_call (P := fun w => Bidding plan t F i x w ∧ amount ≤ slack w i u) ?_ hk
        ⟨hw, hfunds⟩ (fun _ _ h => point_of_must h.1.owns hb (.inr hmust) trivial) ?_
      · rintro w w' _ _ hrely ⟨hw, hfunds⟩
        have hw' := hw.later hF hrely
        exact ⟨hw', hfunds.trans (hslack w w' hrely
          (isOpen_of_record (hw'.record.trans hx.record) hopen))⟩
      · rintro w r s hk ⟨hw, hfunds⟩ _ hs
        have hrec := hw.record.trans hx.record
        obtain ⟨hmem, hid⟩ := hk.mem_of_record hrec
        obtain ⟨y, hy, hyid⟩ := hk.covered.leader_mem a hmem hleader
        have hpos := hk.covered.bid_pos a hmem
        have hcover : World.cover w i a.highestBidderId = a.currentBid :=
          (congrFun (congrArg Account.cover hw.owns.account) _).trans hheld
        obtain ⟨husers, -, hcovered⟩ := hk.covered.release hy hmem hpos.le
          (by rw [hid, hyid, hcover])
        rw [hid, hyid] at hcovered
        rw [hyid] at husers
        obtain ⟨htouch, hmove⟩ := moves_wallet (o := some t) hk hs hrec hw.owns.owner (.inl rfl)
          husers hcovered (.inr ⟨rfl, rfl⟩) hcloser
          (fun v _ j _ n _ _ => by split <;> linarith)
          (fun a₀ ha₀ => by simpa [closeCall] using hk.calls _ a₀ ha₀ a hrec) (.inl rfl)
        refine ⟨_, hmove, hf r _
          (fun v => if v = a.highestBidderId then x.cover v + -a.currentBid else x.cover v)
          hmove.inv (fun v hv => ?_) (hw.step hF htouch (Function.update_self ..) (by
            rw [account_afterCall w hs, hw.owns.account]
            simp [Account.afterCall, closeCall])) (hfunds.trans ?_)⟩
        · by_cases hv' : v = a.highestBidderId
          · rw [if_pos hv', hv', hheld, add_neg_cancel]
          · rw [if_neg hv', hzero v hv hv']
        · have husers' : s.1.store.users =
              adjustWallet a.highestBidderId 0 (-a.currentBid) (World.store w).users := by
            rw [(apiMachine_logged_step.mp hs).2.2.1, exec_wallet_users]
            exact husers
          exact slack_le_of_adjust (i := i) hk.covered.users_numbered husers' rfl
            fun _ => by split <;> linarith
  · next hleader =>
      refine hf 0 w x.cover hk (fun v hv => hzero v hv fun he => hleader (he ▸ hv)) hw hfunds

variable (ho : plan.Orderly) (hj : Job.placeBid clientFd req bidder ∈ plan.jobs t)
  (hF : Carried plan t F)

include ho hj

theorem Plan.Orderly.closer_of_bid (v : ι) (hv : plan.closer req.auctionId = some v) : v = t :=
  absurd ((ho.open_to_bids t _ hj _ _ ⟨rfl, rfl⟩).symm.trans hv) (by simp)

include hF

/-- Appending the bid ends the ownership. -/
theorem wp_appendBid {b : Bid} {k : Int → Prog ApiSig Unit} (hk : Kept plan w)
    (hw : Bidding plan t F req.auctionId x w) (ha : x.record = some a)
    (hopen : a.status = .auctionOpen) (hid : b.auctionId = req.auctionId)
    (hrest : ∀ a₀ ∈ readRec plan.first.auctions req.auctionId,
      AtRest a₀ a { x with placed := x.placed ++ [(b.bidderId, b.amount)] })
    (hf : ∀ r w, Kept plan w → Rest t F w → w.held (auctionSem req.auctionId) = some t →
      (booksLogic plan).wp t Q (k r) w) :
    (booksLogic plan).wp t Q (.call (.sys (.appendBid b)) k) w := by
  refine Logic.wp_call (P := Bidding plan t F req.auctionId x)
    (fun _ _ _ _ hrely h => h.later hF hrely) hk hw
    (fun _ _ h => point_of_must h.owns ⟨_, hj, _, rfl, rfl⟩ (.inl hid) trivial) ?_
  intro w r s hk hw _ hs
  obtain ⟨htouch, hmove⟩ := moves_appendBid hk hs (hw.record.trans ha) hopen hid hw.owns.owner
    (ho.closer_of_bid hj) ⟨_, hj, _, rfl, rfl⟩ (by rw [hw.owns.account]; exact hrest)
  exact ⟨_, hmove, hf r _ hmove.inv (hw.owns.leave hF htouch (Function.update_self ..))
    ((htouch.sem _).trans hw.sem)⟩

/-- Writing the auction with the bid. -/
theorem wp_writeBid {k : Int → Prog ApiSig Unit} (hk : Kept plan w)
    (hw : Bidding plan t F req.auctionId x w) (ha : x.record = some a)
    (hopen : a.status = .auctionOpen) (hpos : 0 < req.amount)
    (hmust : ∀ r, (k r).Must (Appends req.auctionId))
    (hf : ∀ r w, Kept plan w → Bidding plan t F req.auctionId
      { x with record := some (a.withBid bidder.userId req.amount) } w →
      (booksLogic plan).wp t Q (k r) w) :
    (booksLogic plan).wp t Q
      (.call (.sys (.writeAuction (a.withBid bidder.userId req.amount))) k) w := by
  refine Logic.wp_call (P := Bidding plan t F req.auctionId x)
    (fun _ _ _ _ hrely h => h.later hF hrely) hk hw
    (fun _ _ h => point_of_must h.owns ⟨_, hj, _, rfl, rfl⟩ (.inr hmust)
      fun hc => absurd (hopen.symm.trans hc) (by decide)) ?_
  intro w r s hk hw _ hs
  have hrec := hw.record.trans ha
  obtain ⟨htouch, hmove, hacc⟩ := moves_writeAuction (o := some t) hk hs hrec hopen
    (hk.mem_of_record hrec).2 (.inl hw.owns.owner) rfl
    (fun _ => hk.exists_user (ho.bidder_mem t _ hj _ _ ⟨rfl, rfl⟩)) hpos (ho.closer_of_bid hj)
    (fun a₀ ha₀ => by simpa [callsBetween, hopen] using hk.calls _ a₀ ha₀ a hrec)
    (.inl rfl) (fun _ _ => hw.sem) (.inr ⟨_, hj, _, rfl, rfl⟩)
  exact ⟨_, hmove, hf r _ hmove.inv
    (hw.step hF htouch (Function.update_self ..) (by rw [hacc, hw.owns.account]))⟩

/-- Placing the hold of the bidder, whose slack covers it. -/
theorem wp_placeBidHold {k : Int → Prog ApiSig Unit} (hk : Kept plan w)
    (hw : Bidding plan t F req.auctionId x w) (ha : x.record = some a)
    (hcover : ∀ v, v ≠ 0 → x.cover v = 0) (hpos : 0 < req.amount)
    (hopen : a.status = .auctionOpen)
    (hslack : req.amount ≤ slack w req.auctionId bidder.userId)
    (hmust : ∀ r, (k r).Must (Appends req.auctionId))
    (hf : ∀ r w, Kept plan w → Bidding plan t F req.auctionId
      (x.afterCall bidder.userId req.amount []) w → (booksLogic plan).wp t Q (k r) w) :
    (booksLogic plan).wp t Q (.call (.wallet (.placeBid req.auctionId)
      (.placeHold bidder.userId req.amount)) k) w := by
  have hbid : (Job.placeBid clientFd req bidder).Bids req.auctionId bidder.userId := ⟨rfl, rfl⟩
  refine Logic.wp_call (P := fun w => Bidding plan t F req.auctionId x w ∧
      req.amount ≤ slack w req.auctionId bidder.userId) ?_ hk ⟨hw, hslack⟩
    (fun _ _ h => point_of_must h.1.owns ⟨_, hj, _, rfl, rfl⟩ (.inr hmust) trivial) ?_
  · rintro w w' _ _ hrely ⟨hw, hslack⟩
    have hw' := hw.later hF hrely
    exact ⟨hw', hslack.trans (hrely.slack _ hj _ _ hbid
      (isOpen_of_record (hw'.record.trans ha) hopen))⟩
  · rintro w r s hk ⟨hw, hslack⟩ _ hs
    have hrec := hw.record.trans ha
    obtain ⟨hmem, hid⟩ := hk.mem_of_record hrec
    obtain ⟨y, hy, hyid⟩ := hk.exists_user (ho.bidder_mem t _ hj _ _ hbid)
    have hzero : World.cover w req.auctionId bidder.userId = 0 := by
      have hc := congrFun (congrArg Account.cover hw.owns.account) bidder.userId
      exact hc.trans (hcover _ (hyid ▸ hk.covered.users_numbered.ne_zero hy))
    have hfunds : req.amount ≤ y.walletBalance - y.walletHold := by
      have hread := hk.covered.readRec_user hy
      rw [hyid] at hread
      simpa only [slack, hread, hzero, add_zero] using hslack
    obtain ⟨husers, -, hcovered⟩ := hk.covered.place hy hmem hpos.le hfunds
    rw [hid, hyid] at hcovered
    rw [hyid] at husers
    obtain ⟨htouch, hmove⟩ := moves_wallet (o := some t) hk hs hrec hw.owns.owner (.inl rfl)
      husers hcovered (.inr ⟨rfl, rfl⟩) (ho.closer_of_bid hj)
      (fun v hv j hjv n hn _ => by
        rw [ho.one_auction v t n req.auctionId _ hv ⟨j, hjv, hn⟩ ⟨_, hj, hbid⟩, if_pos rfl,
          sub_zero])
      (fun a₀ ha₀ => by simpa [closeCall] using hk.calls _ a₀ ha₀ a hrec) (.inl rfl)
    exact ⟨_, hmove, hf r _ hmove.inv (hw.step hF htouch (Function.update_self ..)
      (by rw [account_afterCall w hs, hw.owns.account]; rfl))⟩

/-- Steps 4 to 6 of a bid that was accepted. -/
theorem wp_recordBid {f : Bid → Prog ApiSig Unit} (hk : Kept plan w)
    (hw : Bidding plan t F req.auctionId x w)
    (hx : ∀ a₀ ∈ readRec plan.first.auctions req.auctionId, AtRest a₀ a x)
    (hfirst : ∃ a₀, a₀ ∈ readRec plan.first.auctions req.auctionId)
    (hopen : a.status = .auctionOpen) (hlt : a.currentBid < req.amount) (hpos : 0 < req.amount)
    (hslack : req.amount ≤ slack w req.auctionId bidder.userId)
    (hf : ∀ b w, Kept plan w → Rest t F w → w.held (auctionSem req.auctionId) = some t →
      (booksLogic plan).wp t Q (f b) w) :
    (booksLogic plan).wp t Q (recordBid req bidder a >>= f) w := by
  obtain ⟨a₀, ha₀⟩ := hfirst
  have hx₀ := hx a₀ ha₀
  simp only [recordBid, wallet, writeAuction, nextBidId, time, appendBid, Prog.pure_eq,
    Prog.bind_assoc, Prog.bind_call, Prog.bind_pure]
  refine wp_releaseLeader hF ⟨_, hj, _, rfl, rfl⟩ hk hw hx₀ hopen (ho.closer_of_bid hj)
    (fun w w' hrely h => hrely.slack _ hj _ _ ⟨rfl, rfl⟩ h) hslack (fun r => by simp [Appends]) ?_
  intro _ w cover hk hcover hw hslack
  refine wp_placeBidHold ho hj hF hk hw hx₀.record hcover hpos hopen hslack
    (fun r => by simp [Appends]) fun _ w hk hw => ?_
  refine wp_writeBid ho hj hF hk hw hx₀.record hopen hpos (fun r => by simp [Appends])
    fun _ w hk hw => ?_
  refine wp_biddingQuiet hF ⟨_, hj, _, rfl, rfl⟩ trivial hk hw (fun r => by simp [Appends])
    fun _ w hk hw => ?_
  refine wp_biddingQuiet hF ⟨_, hj, _, rfl, rfl⟩ trivial hk hw (fun r => by simp [Appends])
    fun _ w hk hw => ?_
  refine wp_appendBid ho hj hF hk hw rfl (by simpa using hopen) rfl (fun a₁ ha₁ => ?_)
    fun _ w hk hw hsem => hf _ w hk hw hsem
  simpa [Account.afterCall] using (hx a₁ ha₁).withBid hopen hlt hcover

/-- A bidder between the check of the wallet and the end of the request. -/
structure Checked (plan : Plan ι) (t : ι) (F : World ι → Prop) (req : PlaceBidPayload)
    (bidder : User) (w : World ι) : Prop where
  rest : Rest t F w
  funds : (account plan w req.auctionId).IsOpen →
    req.amount ≤ slack w req.auctionId bidder.userId

omit ho in
theorem Checked.later {w' : World ι} (h : Checked plan t F req bidder w)
    (hrely : Rely plan t w w') : Checked plan t F req bidder w' :=
  ⟨h.rest.later hF hrely, fun hopen => (h.funds (hrely.final.isOpen hopen)).trans
    (hrely.slack _ hj _ _ ⟨rfl, rfl⟩ hopen)⟩

/-- The second reading of the auction, under the semaphore: when the bid is
accepted, the thread takes over the account. -/
theorem wp_readLocked {k : Option Auction → Prog ApiSig Unit} (hk : Kept plan w)
    (hw : Checked plan t F req bidder w) (hsem : w.held (auctionSem req.auctionId) = some t)
    (hdecline : ∀ r w, (∀ a ∈ r, a.status = .auctionOpen → req.amount ≤ a.currentBid) →
      Kept plan w → Rest t F w → w.held (auctionSem req.auctionId) = some t →
      (booksLogic plan).wp t Q (k r) w)
    (haccept : ∀ a w x, a.status = .auctionOpen → a.currentBid < req.amount → 0 < req.amount →
      (∀ a₀ ∈ readRec plan.first.auctions req.auctionId, AtRest a₀ a x) →
      (∃ a₀, a₀ ∈ readRec plan.first.auctions req.auctionId) →
      Kept plan w → Bidding plan t F req.auctionId x w →
      req.amount ≤ slack w req.auctionId bidder.userId →
      (booksLogic plan).wp t Q (k (some a)) w) :
    (booksLogic plan).wp t Q (.call (.sys (.readAuction req.auctionId)) k) w := by
  refine Logic.wp_call (P := fun w => Checked plan t F req bidder w ∧
      World.held w (auctionSem req.auctionId) = some t)
    (fun _ _ _ _ hrely h => ⟨h.1.later hj hF hrely, hrely.sem _ h.2⟩) hk ⟨hw, hsem⟩
    (fun _ _ h => point_of_free h.1.rest.free trivial) ?_
  rintro w r s hk ⟨hw, hsem⟩ _ hs
  obtain ⟨hl, hr, hstore, -⟩ := apiMachine_logged_step.mp hs
  have hread : readRec (World.store w).auctions req.auctionId = r := hr
  have hquiet : ApiOp.Quiet (.sys (.readAuction req.auctionId)) := trivial
  have hheld : s.1.held (auctionSem req.auctionId) = some t := (Option.some.inj hl) ▸ hsem
  by_cases haccepted : ∃ a, r = some a ∧ a.status = .auctionOpen ∧ a.currentBid < req.amount
  · obtain ⟨a, rfl, hopen, hlt⟩ := haccepted
    have hisOpen : (account plan w req.auctionId).IsOpen := isOpen_of_record hread hopen
    have hown : World.owner w req.auctionId = none := by
      cases hv : World.owner w req.auctionId with
      | none => rfl
      | some v =>
          have hheld := hk.locked _ v hv hisOpen
          obtain rfl : v = t := Option.some.inj (hheld.symm.trans hsem)
          exact absurd hv (hw.rest.free _)
    obtain ⟨htouch, hmove, hacc⟩ := moves_own hk hquiet hs hown hsem (ho.closer_of_bid hj)
    have hpos := hk.covered.bid_pos a (hk.mem_of_record hread).1
    refine ⟨_, hmove, haccept a _ _ hopen hlt (hpos.trans hlt) (fun a₀ ha₀ => ?_)
      (hk.exists_first hread) hmove.inv
      ⟨hw.rest.own hF htouch (Function.update_self ..) (hacc _), hheld⟩ ?_⟩
    · obtain ⟨a', hrest⟩ := hk.atRest _ a₀ ha₀ hown
      obtain rfl : a' = a := Option.some.inj (hrest.record.symm.trans hread)
      exact hrest
    · have hslack := hw.funds hisOpen
      have hunchanged : Unchanged plan w (s, w.2) := hquiet.unchanged hs
      exact hslack.trans (hunchanged.slack _ _).ge
  · obtain ⟨hmove, hrely⟩ := silent_of_quiet hquiet w r s hk hs
    refine ⟨w.2, hmove, hdecline r _ (fun a ha hopen => ?_) hmove.inv
      (hw.rest.later hF hrely) hheld⟩
    by_contra hlt
    exact haccepted ⟨a, ha, hopen, not_le.mp hlt⟩

/-- The part of a bid under the semaphore. -/
theorem wp_placeBidLocked (hQ : ∀ w, Kept plan w → Rest t F w → Q w) (hk : Kept plan w)
    (hw : Checked plan t F req bidder w) :
    (booksLogic plan).wp t Q (placeBidLocked clientFd req bidder) w := by
  have hstable : (booksLogic plan).Stable t (Checked plan t F req bidder) :=
    fun _ _ _ _ hrely h => h.later hj hF hrely
  simp only [placeBidLocked, getAuctionSem, lock, unlock, readAuction, Prog.pure_eq,
    Prog.bind_call, Prog.bind_pure]
  refine wp_quietCall trivial hstable (fun _ h => h.rest.free) hk hw fun _ w hk hw => ?_
  refine wp_quietCall trivial hstable (fun _ h => h.rest.free) hk hw fun _ w hk hw => ?_
  refine Logic.wp_call hstable hk hw (fun _ _ h => point_of_free h.rest.free trivial) ?_
  intro w _ s hk hw _ hs
  obtain ⟨hsem, hmove, hrely⟩ := moves_lock hk hs
  refine ⟨w.2, hmove, wp_readLocked ho hj hF hmove.inv (hw.later hj hF hrely) hsem ?_ ?_⟩
  · intro r w hdecline hk hw hsem
    cases r with
    | none =>
        exact wp_unlockSem hF hk hw hsem fun w hk hw =>
          wp_quietEnd hF ⟨trivial, fun _ _ => trivial⟩ hQ hk hw
    | some a =>
        by_cases hopen : a.status = .auctionOpen
        · simp only [hopen, ne_eq, not_true_eq_false, if_false, if_pos (hdecline a rfl hopen)]
          exact wp_unlockSem hF hk hw hsem fun w hk hw =>
            wp_quietEnd hF ⟨trivial, fun _ _ => trivial⟩ hQ hk hw
        · simp only [ne_eq, hopen, not_false_eq_true, if_true]
          exact wp_unlockSem hF hk hw hsem fun w hk hw =>
            wp_quietEnd hF ⟨trivial, fun _ _ => trivial⟩ hQ hk hw
  · intro a w x hopen hlt hpos hrest hfirst hk hw hslack
    simp only [hopen, ne_eq, not_true_eq_false, if_false, if_neg (not_le.mpr hlt)]
    refine wp_recordBid ho hj hF hk hw hrest hfirst hopen hlt hpos hslack
      fun b w hk hw hsem => wp_unlockSem hF hk hw hsem fun w hk hw => ?_
    refine wp_quietEnd hF ?_ hQ hk hw
    simp [notifyOutbid, pushNotification, ApiOp.Quiet]

/-- **A bid** keeps the books in any company. -/
theorem wp_handlePlaceBid (hQ : ∀ w, Kept plan w → Rest t F w → Q w) (hk : Kept plan w)
    (hw : Rest t F w) : (booksLogic plan).wp t Q (handlePlaceBid clientFd req bidder) w := by
  have hsend (type : MessageType) (status : ErrCode) (payload : Payload) (w : World ι)
      (hk : Kept plan w) (hw : Rest t F w) :
      (booksLogic plan).wp t Q (sendMsg clientFd type status payload) w :=
    wp_quietEnd hF ⟨trivial, fun _ _ => trivial⟩ hQ hk hw
  simp only [handlePlaceBid, readAuction, readUser, Prog.bind_call, Prog.bind_pure]
  refine wp_read trivial (fun _ => rfl) (stable_rest hF) (fun _ h => h.free) hk hw
    fun w hk hw => ?_
  cases hr : (Api.exec (.sys (.readAuction req.auctionId)) w.store).1 with
  | none => exact hsend _ _ _ w hk hw
  | some a =>
      by_cases hopen : a.status = .auctionOpen
      · simp only [hopen, ne_eq, not_true_eq_false, if_false]
        refine wp_read trivial (fun _ => rfl) (stable_rest hF) (fun _ h => h.free) hk hw
          fun w hk hw => ?_
        cases hu : (Api.exec (.sys (.readUser bidder.userId)) w.store).1 with
        | none => exact hsend _ _ _ w hk hw
        | some fresh =>
            by_cases hfunds : req.amount > fresh.walletBalance - fresh.walletHold
            · simp only [hfunds, if_true]
              exact hsend _ _ _ w hk hw
            · simp only [hfunds, if_false]
              refine wp_placeBidLocked ho hj hF hQ hk ⟨hw, fun _ => ?_⟩
              have hread : readRec w.store.users bidder.userId = some fresh := hu
              have hcover := hk.covered.cover_nonneg req.auctionId bidder.userId
              rw [slack, hread]
              simp only
              linarith
      · simp only [ne_eq, hopen, not_false_eq_true, if_true]
        exact hsend _ _ _ w hk hw

end Bidder

end OnlineAuction
