import OnlineAuction.BidBooks
import OnlineAuction.CloseBooks

/-!
# OnlineAuction.Accounting

The books are kept along every run of bidding and closing threads.

`Store.Balanced` is the state that the claims about bidding start from: every
hold is the sum of the current bids of the open auctions that the user leads.
`Plan.Orderly.run` is the run lemma for an orderly plan, under any condition on
the steps that excludes ill-timed closes; `Holds.atRest` is what it gives when
no job is in progress.
-/

namespace OnlineAuction

/-! ## balanced stores -/

/-- Files that refer to each other soundly, and wallets in which the holds are
what the open auctions prescribe. -/
structure Store.Balanced (s : Store) : Prop where
  users_numbered : Numbered User.userId s.users
  auctions_numbered : Numbered Auction.auctionId s.auctions
  seller_mem : ∀ a ∈ s.auctions, ∃ u ∈ s.users, u.userId = a.sellerId
  leader_mem : ∀ a ∈ s.auctions, a.highestBidderId ≠ 0 →
    ∃ u ∈ s.users, u.userId = a.highestBidderId
  bid_pos : ∀ a ∈ s.auctions, 0 < a.currentBid
  hold_eq : ∀ u ∈ s.users, u.walletHold = ledger s.auctions u.userId
  hold_le : ∀ u ∈ s.users, u.walletHold ≤ u.walletBalance

/-- The ledger rule alone: an auction may name a user who is not in the file. -/
structure Store.Ledgered (s : Store) : Prop where
  users_numbered : Numbered User.userId s.users
  auctions_numbered : Numbered Auction.auctionId s.auctions
  bid_pos : ∀ a ∈ s.auctions, 0 < a.currentBid
  hold_eq : ∀ u ∈ s.users, u.walletHold = ledger s.auctions u.userId
  hold_le : ∀ u ∈ s.users, u.walletHold ≤ u.walletBalance

/-- Balanced books agree with the ledger. -/
theorem Store.Balanced.ledgered {s : Store} (h : s.Balanced) : s.Ledgered :=
  ⟨h.users_numbered, h.auctions_numbered, h.bid_pos, h.hold_eq, h.hold_le⟩

section Ledgered

variable {s : Store} {a : Auction} {u : User}

/-- What the ledger says of one user and one open auction. -/
theorem Store.Ledgered.heldFor_le (h : s.Ledgered) (ha : a ∈ s.auctions) (hu : u ∈ s.users) :
    a.heldFor u.userId ≤ u.walletHold := by
  rw [h.hold_eq u hu, ledger_eq_sum_heldFor]
  refine List.single_le_sum (fun x hx => ?_) _ (List.mem_map_of_mem ha)
  obtain ⟨b, hb, rfl⟩ := List.mem_map.mp hx
  unfold Auction.heldFor
  split
  · exact (h.bid_pos b hb).le
  · exact le_rfl

/-- No hold is negative. -/
theorem Store.Ledgered.hold_nonneg (h : s.Ledgered) (hu : u ∈ s.users) : 0 ≤ u.walletHold := by
  rw [h.hold_eq u hu, ledger]
  refine List.sum_nonneg fun x hx => ?_
  obtain ⟨b, hb, rfl⟩ := List.mem_map.mp hx
  exact (h.bid_pos b (List.mem_of_mem_filter hb)).le

/-- A user leads an open auction with no more than is held. -/
theorem Store.Ledgered.bid_le_hold (h : s.Ledgered) (ha : a ∈ s.auctions)
    (hopen : a.status = .auctionOpen) (hu : u ∈ s.users)
    (hleader : a.highestBidderId = u.userId) : a.currentBid ≤ u.walletHold := by
  have hheld := h.heldFor_le ha hu
  rwa [heldFor_of_open hopen, if_pos hleader.symm] at hheld

end Ledgered

/-- The cover that the auctions themselves prescribe. -/
def restCover (auctions : List Auction) : Cover := fun i u =>
  ((readRec auctions i).map (·.heldFor u)).getD 0

section Balanced

variable {s : Store} {cover : Cover}

/-- Besides the closing of an auction its cover is what it holds. -/
theorem restCover_of_mem {auctions : List Auction} (h : Numbered Auction.auctionId auctions)
    {a : Auction} (ha : a ∈ auctions) (u : UInt32) :
    restCover auctions a.auctionId u = a.heldFor u := by
  rw [restCover, h.readRec_eq_some.mpr ⟨ha, rfl⟩]
  rfl

/-- A cover that agrees with the auctions adds up to the ledger. -/
theorem total_eq_ledger {auctions : List Auction} {u : UInt32}
    (h : ∀ a ∈ auctions, cover a.auctionId u = a.heldFor u) :
    cover.total auctions u = ledger auctions u := by
  rw [ledger_eq_sum_heldFor, Cover.total]
  exact congrArg List.sum (List.map_congr_left fun a ha => h a ha)

/-- In balanced books the holds are covered. -/
theorem Store.Balanced.covered (h : s.Balanced) :
    Covered (restCover s.auctions) s.users s.auctions where
  users_numbered := h.users_numbered
  auctions_numbered := h.auctions_numbered
  seller_mem := h.seller_mem
  leader_mem := h.leader_mem
  bid_pos := h.bid_pos
  cover_nonneg i u := by
    rw [restCover]
    cases hr : readRec s.auctions i with
    | none => exact le_rfl
    | some a =>
        have hpos := h.bid_pos a (List.mem_of_getElem? hr)
        simp only [Option.map_some, Option.getD_some, Auction.heldFor]
        split
        · exact hpos.le
        · exact le_rfl
  hold_eq u hu := by
    rw [h.hold_eq u hu, total_eq_ledger fun a ha => restCover_of_mem h.auctions_numbered ha _]
  hold_le := h.hold_le

/-- Covered accounts whose cover agrees with the auctions are balanced. -/
theorem Covered.balanced (h : Covered cover s.users s.auctions)
    (hcover : ∀ a ∈ s.auctions, ∀ u, u ≠ 0 → cover a.auctionId u = a.heldFor u) :
    s.Balanced where
  users_numbered := h.users_numbered
  auctions_numbered := h.auctions_numbered
  seller_mem := h.seller_mem
  leader_mem := h.leader_mem
  bid_pos := h.bid_pos
  hold_eq u hu := by
    rw [h.hold_eq u hu]
    exact total_eq_ledger fun a ha => hcover a ha _ (h.users_numbered.ne_zero hu)
  hold_le := h.hold_le

/-- Only users and auctions matter. -/
theorem Store.Balanced.congr {s' : Store} (h : s.Balanced) (hu : s'.users = s.users)
    (ha : s'.auctions = s.auctions) : s'.Balanced where
  users_numbered := hu ▸ h.users_numbered
  auctions_numbered := ha ▸ h.auctions_numbered
  seller_mem := by rw [hu, ha]; exact h.seller_mem
  leader_mem := by rw [hu, ha]; exact h.leader_mem
  bid_pos := ha ▸ h.bid_pos
  hold_eq := by rw [hu, ha]; exact h.hold_eq
  hold_le := hu ▸ h.hold_le

instance : Decidable s.Balanced :=
  decidable_of_iff (Numbered User.userId s.users ∧ Numbered Auction.auctionId s.auctions ∧
    (∀ a ∈ s.auctions, ∃ u ∈ s.users, u.userId = a.sellerId) ∧
    (∀ a ∈ s.auctions, a.highestBidderId ≠ 0 → ∃ u ∈ s.users, u.userId = a.highestBidderId) ∧
    (∀ a ∈ s.auctions, 0 < a.currentBid) ∧
    (∀ u ∈ s.users, u.walletHold = ledger s.auctions u.userId) ∧
    ∀ u ∈ s.users, u.walletHold ≤ u.walletBalance)
  ⟨fun ⟨h1, h2, h3, h4, h5, h6, h7⟩ => ⟨h1, h2, h3, h4, h5, h6, h7⟩,
    fun ⟨h1, h2, h3, h4, h5, h6, h7⟩ => ⟨h1, h2, h3, h4, h5, h6, h7⟩⟩

/-- And none is negative. -/
theorem Store.Balanced.hold_nonneg (h : s.Balanced) {u : User} (hu : u ∈ s.users) :
    0 ≤ u.walletHold := h.covered.hold_nonneg hu

end Balanced

/-! ## deposits -/

section Jobs

variable {ι : Type} {plan : Plan ι} {t : ι} {Q F : World ι → Prop} {w : World ι}

/-- A deposit, after which the thread carries `F'`. -/
theorem wp_deposit (ho : plan.Orderly) {clientFd : Int} {req : DepositPayload} {user : User}
    (hj : .deposit clientFd req user ∈ plan.jobs t) (hF : Carried plan t F) {F' : World ι → Prop}
    (hF' : Carried plan t F')
    (hnext : ∀ w w', F w → Final plan w w' → (∀ x, depositedIn w'.log x =
      depositedIn w.log x + (Job.deposit clientFd req user).deposited x) → F' w')
    (hQ : ∀ w, Kept plan w → Rest t F' w → Q w) (hk : Kept plan w) (hw : Rest t F w) :
    (booksLogic plan).wp t Q (Job.deposit clientFd req user).prog w := by
  have hsend {p : Prog ApiSig Unit} (hp : p.Respects ApiOp.Quiet (fun _ _ => True) fun _ => True)
      (w : World ι) (hk : Kept plan w) (hw : Rest t F' w) : (booksLogic plan).wp t Q p w :=
    wp_quietEnd hF' hp hQ hk hw
  simp only [Job.prog, handleDeposit]
  by_cases hpos : req.amount ≤ 0
  · have hzero (x : UInt32) : (Job.deposit clientFd req user).deposited x = 0 :=
      if_neg fun hc => not_lt.mpr hpos hc.2
    simp only [hpos, if_true]
    exact hsend (by simp [ApiOp.Quiet]) w hk { hw with
      carried := hnext w w hw.carried (.refl plan w) fun x => by rw [hzero, add_zero] }
  · simp only [hpos, if_false, wallet, Prog.bind_call, Prog.bind_pure]
    refine Logic.wp_call (stable_rest hF) hk hw (fun _ _ h => point_of_free h.free trivial) ?_
    intro w r s hk hw _ hs
    obtain ⟨u, hu, hid⟩ := hk.exists_user (ho.depositor_mem t _ hj user.userId rfl)
    rw [← hid] at hs
    obtain ⟨rfl, hmove, hfinal, hdep⟩ := moves_deposit hk hs hu (not_le.mp hpos)
      (by rw [hid]; exact ho.depositor t _ hj user.userId rfl)
    refine ⟨w.2, hmove, hsend (by simp [ApiOp.Quiet]) _ hmove.inv
      ⟨hnext w _ hw.carried hfinal fun x => ?_, hw.free⟩⟩
    rw [World.log, hdep, hid]
    simp [Job.deposited, not_le.mp hpos]

/-! ## jobs -/

/-- What a thread has done. -/
structure Progress (plan : Plan ι) (t : ι) (finished : List Job) (w : World ι) : Prop where
  deposited : ∀ u, plan.depositor u = some t →
    depositedIn w.log u = (finished.map (Job.deposited u)).sum
  done : ∀ j ∈ finished, j.Done plan w

/-- What a thread has finished stays finished. -/
theorem carried_progress (finished : List Job) : Carried plan t (Progress plan t finished) :=
  fun _ _ h hw => ⟨fun u hu => (h.deposited u hu).trans (hw.deposited u hu),
    fun j hj => (hw.done j hj).later h.final⟩

/-- A job that deposits nothing is done. -/
theorem Progress.snoc {finished : List Job} {j : Job} (h : Progress plan t finished w)
    (hj : j.Done plan w) (hdep : ∀ u, j.deposited u = 0) : Progress plan t (finished ++ [j]) w where
  deposited u hu := by
    rw [h.deposited u hu]
    simp [hdep]
  done i hi := by
    rcases List.mem_append.mp hi with hi | hi
    · exact h.done i hi
    · obtain rfl := List.mem_singleton.mp hi
      exact hj

/-- **A job** keeps the books in any company. -/
theorem wp_job (ho : plan.Orderly) {finished : List Job} {j : Job} (hj : j ∈ plan.jobs t)
    (hQ : ∀ w, Kept plan w → Rest t (Progress plan t (finished ++ [j])) w → Q w)
    (hk : Kept plan w) (hw : Rest t (Progress plan t finished) w) :
    (booksLogic plan).wp t Q j.prog w := by
  have hF : Carried plan t (Progress plan t finished) := carried_progress finished
  cases j with
  | placeBid clientFd req bidder =>
      exact wp_handlePlaceBid ho hj hF (fun w hk hw => hQ w hk { hw with
        carried := hw.carried.snoc trivial fun _ => rfl }) hk hw
  | deposit clientFd req user =>
      refine wp_deposit ho hj hF (carried_progress _) (fun w w' hp hf hdep => ?_) hQ hk hw
      refine ⟨fun u hu => ?_, fun i hi => ?_⟩
      · rw [hdep, hp.deposited u hu]
        simp
      · rcases List.mem_append.mp hi with hi | hi
        · exact (hp.done i hi).later hf
        · obtain rfl := List.mem_singleton.mp hi
          trivial
  | close clientFd req requester =>
      exact wp_handleCloseAuction hF ⟨_, hj, rfl⟩ (fun v hv => (ho.closer t _ hj _ rfl v hv))
        (fun w hk hw => hQ w hk { hw with
          carried := hw.carried.1.snoc hw.carried.2 fun _ => rfl }) hk hw
  | timerClose id =>
      rw [← Prog.bind_pure_right (Job.timerClose id).prog]
      refine wp_timerClose hF ⟨_, hj, rfl⟩ (fun v hv => ho.closer t _ hj id rfl v hv) hk hw
        fun w hk hw => wp_end (hF.andDone _) (fun w hk hw => hQ w hk { hw with
          carried := hw.carried.1.snoc hw.carried.2 fun _ => rfl }) hk hw
  | timerPass =>
      exact wp_timerPass hF (fun i => ⟨_, hj, trivial⟩)
        (fun i v hv => ho.closer t _ hj i trivial v hv) (fun w hk hw => hQ w hk { hw with
          carried := hw.carried.snoc trivial fun _ => rfl }) hk hw

/-! ## runs -/

/-- Between its jobs a thread has finished some of them and has the others
still to do. -/
def Idle (plan : Plan ι) (t : ι) (ps : List (Prog ApiSig Unit)) (w : World ι) : Prop :=
  ∃ finished rest, plan.jobs t = finished ++ rest ∧ ps = rest.map Job.prog ∧
    Rest t (Progress plan t finished) w

/-- A thread between two jobs stays there. -/
theorem stable_idle (ps : List (Prog ApiSig Unit)) :
    (booksLogic plan).Stable t (Idle plan t ps) := by
  rintro w w' _ _ hrely ⟨finished, rest, hjobs, hps, hw⟩
  exact ⟨finished, rest, hjobs, hps, hw.later (carried_progress _) hrely⟩

/-- The threads before they begin. -/
def Plan.start (plan : Plan ι) : Config ApiSig ι (Shared ι × List (ι × Event ApiSig)) :=
  .start (.idle plan.first, []) fun t => (plan.jobs t).map Job.prog

/-- The books before the threads begin. -/
def Plan.books (plan : Plan ι) : Books ι := ⟨restCover plan.first.auctions, fun _ => none⟩

/-- The books are in order when the threads begin. -/
theorem kept_start (h : plan.first.Balanced) : Kept plan (plan.start.shared, plan.books) where
  covered := h.covered
  balance u hu u₀ hu₀ := by
    obtain rfl : u = u₀ := Option.some.inj ((h.covered.readRec_user hu).symm.trans hu₀)
    have htotal : (paid ([] : List (ι × Event ApiSig))).total plan.first.auctions u.userId = 0 := by
      simp [Cover.total, paid, closeCalls]
    change u.walletBalance = u.walletBalance + depositedIn [] u.userId +
      (paid ([] : List (ι × Event ApiSig))).total plan.first.auctions u.userId
    rw [htotal]
    simp [depositedIn]
  userIds := rfl
  fixed := rfl
  bids_le := le_rfl
  atRest i a₀ ha₀ _ := by
    have hmem : a₀ ∈ plan.first.auctions := List.mem_of_getElem? ha₀
    obtain rfl : a₀.auctionId = i := (h.auctions_numbered.readRec_eq_some.mp ha₀).2
    exact ⟨a₀, {
      record := ha₀
      cover := fun u _ => restCover_of_mem h.auctions_numbered hmem u
      calls := by
        change [] = callsBetween a₀ a₀
        simp [callsBetween]
      status := .inl rfl
      bids := by
        simp [account, placedOn, Plan.start, Config.start, Shared.idle, Auction.withBids]
        rfl
      increasing := by simp [account, placedOn, Plan.start, Config.start, Shared.idle] }⟩
  calls i a₀ _ a _ := List.nil_prefix
  locked i t h := by simp [Plan.books] at h
  closer i t _ := .inl rfl
  undeposited _ _ := rfl
  unbid i _ := ⟨by simp [account, placedOn, Plan.start, Config.start, Shared.idle],
    fun a₀ ha₀ => ⟨a₀.status, ha₀⟩⟩

variable {ok : Config ApiSig ι (Shared ι × List (ι × Event ApiSig)) → ι → ApiOp → Prop}

/-- A condition on the steps of a run is enough if it excludes ill-timed
closes. -/
theorem fits_of_mayClose (hadm : ∀ (c : Config ApiSig ι (Shared ι × List (ι × Event ApiSig)))
    (g : Books ι) (t : ι) (o : ApiOp) (k : o.Res → Prog ApiSig Unit),
    (∀ u, Point plan u (c.prog u) (c.shared, g)) → c.prog t = .call o k → ok c t o →
    MayClose plan t o (c.shared, g)) : (booksLogic plan).Fits ok where
  adm c g t o k _ hpoint hp hok := hadm c g t o k hpoint hp hok
  env := by
    rintro w ⟨s, log⟩ hk ⟨⟨now, rfl⟩, rfl⟩
    have hu : Unchanged plan w ((({ w.1.1 with store := { w.1.1.store with clock := now } },
        w.1.2) : Shared ι × List (ι × Event ApiSig)), w.2) :=
      ⟨rfl, rfl, rfl, fun _ _ => rfl, fun _ => rfl, fun _ => rfl, rfl⟩
    exact ⟨w.2, hu.kept hk fun _ _ h _ => h, hu.final, fun _ => hu.rely fun _ h => h⟩

variable {c d : Config ApiSig ι (Shared ι × List (ι × Event ApiSig))}

/-- And so is each thread. -/
theorem holds_start (h : plan.first.Balanced) :
    (booksLogic plan).Holds (Idle plan) plan.start plan.books :=
  .start (kept_start h) (fun _ => stable_idle _)
    (fun t w _ ⟨_, _, _, _, hw⟩ => point_of_free hw.free trivial)
    fun t => ⟨[], plan.jobs t, rfl, rfl, ⟨fun _ _ => rfl, fun _ h => by cases h⟩,
      fun _ h => by cases h⟩

/-- When no job is in progress every account is at rest, and the holds are what
the open auctions prescribe. -/
theorem atRest_of_quiescent {g : Books ι} (h : (booksLogic plan).Holds (Idle plan) d g)
    (hquiet : d.Quiescent) :
    (∀ i, ∀ a₀ ∈ readRec plan.first.auctions i, ∃ a, AtRest a₀ a (account plan (d.shared, g) i)) ∧
      d.shared.1.store.Balanced := by
  have hkept : Kept plan (d.shared, g) := h.inv
  have howner (i : UInt32) : g.owner i = none := by
    cases ho : g.owner i with
    | none => rfl
    | some t =>
        obtain ⟨_, _, _, _, hw⟩ := h.quiet (hquiet t)
        exact absurd ho (hw.free i)
  refine ⟨fun i a₀ ha₀ => hkept.atRest i a₀ ha₀ (howner i), ?_⟩
  refine hkept.covered.balanced fun a ha u hu => ?_
  have hread : readRec d.shared.1.store.auctions a.auctionId = some a :=
    hkept.covered.auctions_numbered.readRec_eq_some.mpr ⟨ha, rfl⟩
  obtain ⟨a₀, ha₀⟩ := hkept.exists_first hread
  obtain ⟨a', hrest⟩ := hkept.atRest _ a₀ ha₀ (howner _)
  obtain rfl : a' = a := Option.some.inj (hrest.record.symm.trans hread)
  exact hrest.cover u hu

/-! Balances, when no job is in progress. -/

/-- What the settlement of a closed auction brings a user. -/
def Auction.proceeds (a : Auction) (userId : UInt32) : ℚ :=
  if a.Settles then
    (if a.sellerId = userId then a.currentBid else 0) -
      if a.highestBidderId = userId then a.currentBid else 0
  else 0

/-- What the auctions that were open in `first` and are not in `now` have
brought a user. -/
def settled (first now : List Auction) (userId : UInt32) : ℚ :=
  (first.map fun a₀ => match readRec now a₀.auctionId with
    | some a => if a₀.status = .auctionOpen ∧ a.status ≠ .auctionOpen then a.proceeds userId else 0
    | none => 0).sum

/-- The wallet calls of a close pay what the auction brings. -/
theorem sum_payment_closingCalls (a : Auction) (u : UInt32) :
    (a.closingCalls.map (WalletCall.payment u)).sum = a.proceeds u := by
  unfold Auction.closingCalls Auction.proceeds
  by_cases hs : a.Settles
  · simp only [hs, if_true, List.map_cons, List.map_nil, List.sum_cons, List.sum_nil,
      WalletCall.payment]
    split <;> split <;> ring
  · by_cases h0 : a.highestBidderId = 0 <;> simp [hs, h0, WalletCall.payment]

/-- When all threads are through the balance is what was brought and paid. -/
theorem balance_of_quiescent {g : Books ι} (h : (booksLogic plan).Holds (Idle plan) d g)
    (hquiet : d.Quiescent) (hnum : Numbered Auction.auctionId plan.first.auctions)
    {u : User} (hu : u ∈ d.shared.1.store.users) {u₀ : User}
    (hu₀ : readRec plan.first.users u.userId = some u₀) :
    u.walletBalance = u₀.walletBalance + depositedIn d.shared.2 u.userId +
      settled plan.first.auctions d.shared.1.store.auctions u.userId := by
  have hkept : Kept plan (d.shared, g) := h.inv
  rw [hkept.balance u hu u₀ hu₀]
  congr 1
  have hids : d.shared.1.store.auctions.map Auction.auctionId =
      plan.first.auctions.map Auction.auctionId := by
    simpa [Auction.fixed, Function.comp_def] using congrArg (List.map Prod.fst) hkept.fixed
  have htotal : (paid d.shared.2).total d.shared.1.store.auctions u.userId =
      (paid d.shared.2).total plan.first.auctions u.userId := by
    have hmap (l : List Auction) : (paid d.shared.2).total l u.userId =
        ((l.map Auction.auctionId).map fun i => paid d.shared.2 i u.userId).sum := by
      rw [Cover.total, List.map_map]
      rfl
    rw [hmap, hmap, hids]
  refine htotal.trans (congrArg List.sum (List.map_congr_left fun a₀ ha₀ => ?_))
  have hread : readRec plan.first.auctions a₀.auctionId = some a₀ :=
    hnum.readRec_eq_some.mpr ⟨ha₀, rfl⟩
  obtain ⟨a, hrest⟩ := (atRest_of_quiescent h hquiet).1 _ a₀ hread
  have hrecord : readRec d.shared.1.store.auctions a₀.auctionId = some a := hrest.record
  have hcalls : closeCalls a₀.auctionId d.shared.2 = callsBetween a₀ a := hrest.calls
  rw [hrecord, paid, hcalls, callsBetween]
  simp only
  split
  · exact sum_payment_closingCalls a u.userId
  · rfl

variable [DecidableEq ι]

/-- **Run lemma**: the books of an orderly plan are kept along every run whose
closes are well timed, and a closed auction stays as it is. -/
theorem Plan.Orderly.run (ho : plan.Orderly) (hfits : (booksLogic plan).Fits ok)
    {g : Books ι} (hc : (booksLogic plan).Holds (Idle plan) c g)
    (h : Run apiMachine.logged ok c d) :
    ∃ g', (booksLogic plan).Holds (Idle plan) d g' ∧ Final plan (c.shared, g) (d.shared, g') := by
  refine hc.run hfits ?_ h
  rintro t p ps w hk ⟨finished, rest, hjobs, hps, hw⟩
  cases rest with
  | nil => cases hps
  | cons j rest =>
      obtain ⟨rfl, rfl⟩ := List.cons.inj hps
      refine ⟨w.2, .refl hk, ?_⟩
      refine wp_job ho (by rw [hjobs]; simp) (fun w hk hw => ?_) hk hw
      exact ⟨finished ++ [j], rest, by rw [hjobs]; simp, rfl, hw⟩

end Jobs

/-! ## a small market -/

/-- A user of whom nothing but the role and the wallet is filled in. -/
def User.sample (id : UInt32) (role : Role) (balance hold : ℚ) : User :=
  { User.zero with userId := id, role := role, walletBalance := balance, walletHold := hold }

/-- A seller, user `1`, whose only auction has a bid of 10 by user `2`, and
another bidder, user `3`. -/
def Store.market : Store where
  users := [.sample 1 roleAuctioneer 0 0, .sample 2 roleBidder 100 10, .sample 3 roleBidder 100 0]
  auctions := [{ Auction.zero with
    auctionId := 1, sellerId := 1, currentBid := 10, highestBidderId := 2, status := .auctionOpen }]
  bids := []
  sessions := []
  feedback := []
  disputes := []
  txnLog := []
  present _ := true
  registry := []
  clock := 1000
  sent := []

/-- A market whose only auction is closed. -/
def Store.closedMarket : Store :=
  { Store.market with auctions := Store.market.auctions.map fun a => a.withStatus .auctionClosed }

end OnlineAuction
