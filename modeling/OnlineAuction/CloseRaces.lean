import OnlineAuction.Accounting
import OnlineAuction.SeedAdmin

/-!
# OnlineAuction.CloseRaces

Closing an auction while others bid on it or close it too.

`close_auction_internal` takes no lock and writes back the copy of the auction
that its caller has read, so it is only right when it is well timed: the stored
auction is still that copy, and no bidder is past the point of no return
(`TimedForBids`, `TimedForCloses`).  In runs whose closes are well timed a
closed auction stays as it is (`staysClosed_of_run`) and is settled once
(`settledOnce_of_run`); `not_staysClosed` and `not_settledOnce` are
interleavings in which a close is not well timed.
-/

namespace OnlineAuction

section Races

variable {ι : Type} {first : Store} {jobs : ι → List Job} {i : UInt32}

/-- The plan in which no auction is reserved for one closer, and nobody
deposits. -/
def Plan.race (first : Store) (jobs : ι → List Job) : Plan ι :=
  ⟨first, jobs, fun _ => none, fun _ => none⟩

/-- The jobs close auctions, or are bids of stored users on auction `i`. -/
def Contest (first : Store) (i : UInt32) (jobs : ι → List Job) : Prop :=
  ∀ t, ∀ j ∈ jobs t, (∃ a, j.Closes a) ∨ ∃ x ∈ first.users, j.Bids i x.userId

/-- A job that closes does not deposit. -/
theorem Job.not_deposits_of_closes {j : Job} {a u : UInt32} (h : j.Closes a) : ¬ j.Deposits u := by
  cases j <;> simp_all [Job.Closes, Job.Deposits]

/-- Nor does one that bids. -/
theorem Job.not_deposits_of_bids {j : Job} {a u v : UInt32} (h : j.Bids a v) : ¬ j.Deposits u := by
  cases j <;> simp_all [Job.Bids, Job.Deposits]

/-- And one that closes does not bid. -/
theorem Job.not_bids_of_closes {j : Job} {a b u : UInt32} (h : j.Closes a) : ¬ j.Bids b u := by
  cases j <;> simp_all [Job.Closes, Job.Bids]

/-- A job bids on one auction, for one user. -/
theorem Job.bids_inj {j : Job} {a b u v : UInt32} (h : j.Bids a u) (h' : j.Bids b v) :
    a = b ∧ u = v := by
  cases j <;> simp_all [Job.Bids]

/-- In a contest whoever bids is a stored user who bids on auction `i`. -/
theorem Contest.bids (h : Contest first i jobs) {t : ι} {j : Job} (hj : j ∈ jobs t)
    {a u : UInt32} (hb : j.Bids a u) : a = i ∧ ∃ x ∈ first.users, x.userId = u := by
  rcases h t j hj with ⟨_, hc⟩ | ⟨x, hx, hb'⟩
  · exact absurd hb (Job.not_bids_of_closes hc)
  · obtain ⟨rfl, rfl⟩ := Job.bids_inj hb hb'
    exact ⟨rfl, x, hx, rfl⟩

/-- A contest is an orderly plan. -/
theorem Contest.orderly (h : Contest first i jobs) : (Plan.race first jobs).Orderly where
  bidder_mem t j hj a u hb := (h.bids hj hb).2
  depositor_mem t j hj u hd := by
    rcases h t j hj with ⟨_, hc⟩ | ⟨_, _, hb⟩
    · exact absurd hd (Job.not_deposits_of_closes hc)
    · exact absurd hd (Job.not_deposits_of_bids hb)
  one_auction t t' a a' u _ := by
    rintro ⟨j, hj, hb⟩ ⟨j', hj', hb'⟩
    rw [(h.bids hj hb).1, (h.bids hj' hb').1]
  open_to_bids _ _ _ _ _ _ := rfl
  closer _ _ _ _ _ _ hc := by cases hc
  depositor t j hj u hd := by
    rcases h t j hj with ⟨_, hc⟩ | ⟨_, _, hb⟩
    · exact absurd hd (Job.not_deposits_of_closes hc)
    · exact absurd hd (Job.not_deposits_of_bids hb)

/-! ## well-timed closes -/

/-- The threads, the shared state and the log of the calls. -/
abbrev Threads (ι : Type) : Type := Config ApiSig ι (Shared ι × List (ι × Event ApiSig))

namespace Threads

abbrev store (c : Threads ι) : Store := c.shared.1.store
abbrev log (c : Threads ι) : List (ι × Event ApiSig) := c.shared.2

end Threads

/-- If this call closes an auction, then the stored auction is still the open
one that the closer has read. -/
def TimedForCloses (c : Threads ι) (_ : ι) : ApiOp → Prop
  | .sys (.writeAuction a) => a.status = .auctionClosed →
      readRec c.store.auctions a.auctionId = some (a.withStatus .auctionOpen)
  | _ => True

/-- If this call closes an auction, then moreover no thread is about to append
a bid on it. -/
def TimedForBids (c : Threads ι) (_ : ι) : ApiOp → Prop
  | .sys (.writeAuction a) => a.status = .auctionClosed →
      readRec c.store.auctions a.auctionId = some (a.withStatus .auctionOpen) ∧
        ∀ u, ¬ (c.prog u).Must (Appends a.auctionId)
  | _ => True

instance (c : Threads ι) (t : ι) (op : ApiOp) : Decidable (TimedForCloses c t op) := by
  unfold TimedForCloses
  split <;> infer_instance

/-- A thread that moves money for an open auction is about to append a bid. -/
theorem fits_timedForBids : (booksLogic (Plan.race first jobs)).Fits TimedForBids :=
  fits_of_mayClose fun c g t o k hpoint _ hok a ho hclosed => by
    subst ho
    obtain ⟨hread, hmust⟩ := hok hclosed
    refine .inr ⟨hread, ?_⟩
    cases howner : World.owner (c.shared, g) a.auctionId with
    | none => rfl
    | some u =>
        exact absurd ((hpoint u).pending _ howner (isOpen_of_record hread rfl)).2 (hmust u)

/-- Where nobody bids, no thread moves money for an open auction. -/
theorem fits_timedForCloses (h : ∀ t, ∀ j ∈ jobs t, ∃ a, j.Closes a) :
    (booksLogic (Plan.race first jobs)).Fits TimedForCloses :=
  fits_of_mayClose fun c g t o k hpoint _ hok a ho hclosed => by
    subst ho
    have hread := hok hclosed
    refine .inr ⟨hread, ?_⟩
    cases howner : World.owner (c.shared, g) a.auctionId with
    | none => rfl
    | some u =>
        obtain ⟨⟨j, hj, _, hb⟩, -⟩ :=
          (hpoint u).pending _ howner (isOpen_of_record hread rfl)
        obtain ⟨_, hc⟩ := h u j hj
        exact absurd hb (Job.not_bids_of_closes hc)

/-! ## bids against a close -/

/-- Since the state `d`, in which auction `a` is closed, it has stayed as it is
and has got no bids; what is settled is its current bid, for its highest
bidder; and when no job is in progress it is settled and nobody's wallet is
held for it. -/
structure StaysClosed (first : Store) (a : Auction) (d e : Threads ι) : Prop where
  record : readRec e.store.auctions a.auctionId = some a
  bids : placedOn first.bids.length a.auctionId e.store.bids =
    placedOn first.bids.length a.auctionId d.store.bids
  settling : closeCalls a.auctionId e.log <+: a.closingCalls
  settled : e.Quiescent → ∀ a₀ ∈ readRec first.auctions a.auctionId, a₀.status = .auctionOpen →
    closeCalls a.auctionId e.log = a.closingCalls
  holds : e.Quiescent → ∀ u ∈ e.store.users, u.walletHold = ledger e.store.auctions u.userId

/-- **Isolation**: when closes are well timed, no bid lands on a closed
auction, and what is settled is what it shows. -/
theorem staysClosed_of_run [DecidableEq ι] (hfirst : first.Balanced) (hjobs : Contest first i jobs)
    {d e : Threads ι} (hd : Run apiMachine.logged TimedForBids (Plan.race first jobs).start d)
    (he : Run apiMachine.logged TimedForBids d e) {a : Auction}
    (ha : readRec d.store.auctions i = some a) (hclosed : a.status = .auctionClosed) :
    StaysClosed first a d e := by
  obtain ⟨g, hg, -⟩ := hjobs.orderly.run fits_timedForBids (holds_start hfirst) hd
  obtain ⟨g', hg', hfinal⟩ := hjobs.orderly.run fits_timedForBids hg he
  have hkept : Kept (Plan.race first jobs) (d.shared, g) := hg.inv
  have hkept' : Kept (Plan.race first jobs) (e.shared, g') := hg'.inv
  obtain rfl : a.auctionId = i := (hkept.covered.auctions_numbered.readRec_eq_some.mp ha).2
  have hnotOpen : ¬ (account (Plan.race first jobs) (d.shared, g) a.auctionId).IsOpen := by
    refine not_isOpen_of_record ha fun x hx => ?_
    obtain rfl := Option.some.inj hx
    rw [hclosed]
    decide
  obtain ⟨hrecord, hplaced⟩ := hfinal a.auctionId hnotOpen
  have hrecord : readRec e.store.auctions a.auctionId = some a := hrecord.trans ha
  have hbetween (a₀ : Auction) (h : a₀.status = .auctionOpen) :
      callsBetween a₀ a = a.closingCalls := if_pos ⟨h, by rw [hclosed]; decide⟩
  refine {
    record := hrecord
    bids := hplaced
    settling := ?_
    settled := fun hquiet a₀ ha₀ hopen => ?_
    holds := fun hquiet => (atRest_of_quiescent hg' hquiet).2.hold_eq }
  · obtain ⟨a₀, ha₀⟩ := hkept'.exists_first hrecord
    have hprefix := hkept'.calls _ a₀ ha₀ a hrecord
    by_cases h : a₀.status = .auctionOpen
    · rwa [hbetween a₀ h] at hprefix
    · rw [callsBetween, if_neg fun hc => h hc.1] at hprefix
      exact hprefix.trans List.nil_prefix
  · obtain ⟨a', hrest⟩ := (atRest_of_quiescent hg' hquiet).1 _ a₀ ha₀
    obtain rfl : a' = a := Option.some.inj (hrest.record.symm.trans hrecord)
    exact hrest.calls.trans (hbetween a₀ hopen)

/-! A bid that comes while the auction is being closed. -/

/-- Every call answers that there is nothing. -/
def answerNothing : Prog.Handler ApiSig Unit
  | .sys op, s => (match op with
      | .readUser _ | .findUserByUsername _ | .readAuction _ | .readDispute _ => none
      | .scanUsers | .scanAuctions | .scanBids | .scanFeedback | .scanDisputes => none
      | .findSessionSlot _ | .findFreeSlot => none
      | .writeUser _ | .writeAuction _ | .appendBid _ | .writeSession _ _ | .appendFeedback _
      | .writeDispute _ | .lookupFd _ | .time => (0 : Int)
      | .nextUserId | .nextAuctionId | .nextBidId | .nextFeedbackId | .nextDisputeId => (0 : UInt32)
      | .markWinningBids _ _ | .logTxn _ | .markFeedbackReviewed | .registryInsert _ _
      | .registryRemove _ | .lock _ | .unlock _ | .send _ _ => (), s)
  | .wallet _ _, s => ((0 : Int), s)

instance (i : UInt32) (op : ApiOp) : Decidable (Appends i op) := by
  unfold Appends
  split <;> infer_instance

/-- A test for `TimedForBids`: a thread that still appends a bid when every
call answers that there is nothing is past the point of no return. -/
def TimedForBids.check [Fintype ι] (c : Threads ι) : ApiOp → Bool
  | .sys (.writeAuction a) => a.status ≠ .auctionClosed ∨
      readRec c.store.auctions a.auctionId = some (a.withStatus .auctionOpen) ∧
        ∀ u, ∀ e ∈ (c.prog u).trace answerNothing (), ¬ Appends a.auctionId e.1
  | _ => true

/-- That a step is in time can be computed. -/
theorem TimedForBids.of_check [Fintype ι] {c : Threads ι} {t : ι} {op : ApiOp}
    (h : check c op = true) : TimedForBids c t op := by
  unfold check at h
  split at h
  · intro hclosed
    obtain ⟨hread, hnone⟩ := (of_decide_eq_true h).resolve_left (not_not.mpr hclosed)
    refine ⟨hread, fun u hmust => ?_⟩
    obtain ⟨e, he, happends⟩ := hmust.exists_trace (h := answerNothing) ()
    exact hnone u e he happends
  · next hop =>
      unfold TimedForBids
      split
      · exact absurd rfl (hop _)
      · trivial

/-- The leader's rival bids 20 and then 30, and the seller closes. -/
def bidsAndClose : Fin 2 → List Job
  | 0 => [.placeBid 5 ⟨1, 20⟩ (.sample 3 roleBidder 100 0),
      .placeBid 5 ⟨1, 30⟩ (.sample 3 roleBidder 100 0)]
  | 1 => [.close 6 ⟨1⟩ (.sample 1 roleAuctioneer 0 0)]

/-- Two bidders and the seller. -/
theorem contest_bidsAndClose : Contest .market 1 bidsAndClose := by
  refine Fin.forall_fin_two.mpr ⟨fun j hj => ?_, fun j hj => ?_⟩
  · refine .inr ⟨.sample 3 roleBidder 100 0, by decide +kernel, ?_⟩
    simp only [bidsAndClose, List.mem_cons, List.not_mem_nil, or_false] at hj
    rcases hj with rfl | rfl <;> exact ⟨rfl, rfl⟩
  · obtain rfl := List.mem_singleton.mp hj
    exact .inl ⟨1, rfl⟩

/-- The close comes when the second bid has passed the checks that take no
lock. -/
theorem staysClosed_of_run_bidsAndClose :
    let d := (Plan.race .market bidsAndClose).start.after apiMachine.logged
      (fun c _ op => TimedForBids.check c op = true) (List.replicate 24 0 ++ List.replicate 3 1)
    let e := d.after apiMachine.logged (fun c _ op => TimedForBids.check c op = true)
      (List.replicate 5 0 ++ List.replicate 20 1 ++ List.replicate 5 0)
    ∃ a, StaysClosed .market a d e ∧ a.currentBid = 20 ∧ a.Settles ∧ e.Done :=
  ⟨{ Auction.zero with
      auctionId := 1, sellerId := 1, currentBid := 20, highestBidderId := 3, bidCount := 1
      status := .auctionClosed },
    staysClosed_of_run (i := 1) (by decide +kernel) contest_bidsAndClose
      ((Run.after _).weaken fun _ _ _ => TimedForBids.of_check)
      ((Run.after _).weaken fun _ _ _ => TimedForBids.of_check) (by decide +kernel) rfl,
    rfl, by decide +kernel, by decide +kernel⟩

/-- When a bidder has read the auction again before it is closed, the bid opens
it again after it has been settled. -/
theorem not_staysClosed :
    ¬ ∀ (jobs : Fin 2 → List Job) (d e : Threads (Fin 2)), Contest .market 1 jobs →
      Reach apiMachine.logged (Plan.race .market jobs).start d → Reach apiMachine.logged d e →
      ∀ a, readRec d.store.auctions 1 = some a → a.status = .auctionClosed →
        StaysClosed .market a d e := by
  intro h
  have hstays := h bidsAndClose _ _ contest_bidsAndClose
    (Run.after (List.replicate 7 0 ++ List.replicate 3 1))
    (Run.after (List.replicate 20 1 ++ List.replicate 13 0))
    { Auction.zero with
      auctionId := 1, sellerId := 1, currentBid := 10, highestBidderId := 2
      status := .auctionClosed } (by decide +kernel) rfl
  have hrecord := hstays.record
  revert hrecord
  decide +kernel

/-! ## closes against closes -/

/-- The wallet calls of a settlement. -/
def Auction.settlement (a : Auction) : List WalletCall :=
  [.settlePayment a.highestBidderId a.currentBid, .creditWallet a.sellerId a.currentBid]

/-- The job closes the auction if it finds it open. -/
def Job.MustClose (a : Auction) : Job → Prop
  | .close _ req requester => req.auctionId = a.auctionId ∧
      (a.sellerId = requester.userId ∨ requester.role = roleAdmin)
  | .timerClose id => id = a.auctionId
  | _ => False

/-- The auction `a` has been settled at most once: at any time the calls are
at most those of one settlement, between jobs they are all of them or none, and
after a job that closes it they have been made. -/
structure SettledOnce (first : Store) (jobs : ι → List Job) (a : Auction) (d : Threads ι) :
    Prop where
  calls : closeCalls a.auctionId d.log <+: a.settlement
  quiescent : d.Quiescent →
    readRec d.store.auctions a.auctionId = some a ∧ closeCalls a.auctionId d.log = [] ∨
    readRec d.store.auctions a.auctionId = some (a.withStatus .auctionClosed) ∧
      closeCalls a.auctionId d.log = a.settlement
  done : d.Done → (∃ t, ∃ j ∈ jobs t, j.MustClose a) →
    readRec d.store.auctions a.auctionId = some (a.withStatus .auctionClosed) ∧
      closeCalls a.auctionId d.log = a.settlement
  balance : d.Quiescent → ∀ u ∈ d.store.users, ∀ u₀ ∈ readRec first.users u.userId,
    u.walletBalance = u₀.walletBalance + settled first.auctions d.store.auctions u.userId

/-- The calls of a settlement do not depend on the status. -/
theorem Auction.closingCalls_withStatus {a : Auction} (h : a.Settles) (status : AuctionStatus) :
    (a.withStatus status).closingCalls = a.settlement := if_pos h

/-- Closes alone are a contest. -/
theorem Contest.of_closes (h : ∀ t, ∀ j ∈ jobs t, ∃ a, j.Closes a) : Contest first i jobs :=
  fun t j hj => .inl (h t j hj)

/-- When every thread is done, so is each of their jobs. -/
theorem done_of_holds {plan : Plan ι} {d : Threads ι} {g : Books ι}
    (h : (booksLogic plan).Holds (Idle plan) d g) (hd : d.Done) {t : ι} {j : Job}
    (hj : j ∈ plan.jobs t) : j.Done plan (d.shared, g) := by
  obtain ⟨finished, rest, hjobs, hps, hw⟩ := h.quiet (hd t).1
  rw [(hd t).2] at hps
  obtain rfl : rest = [] := List.map_eq_nil_iff.mp hps.symm
  rw [List.append_nil] at hjobs
  exact hw.carried.done j (hjobs ▸ hj)

/-- Once such a job is done the auction is not open. -/
theorem Job.MustClose.not_isOpen {plan : Plan ι} {w : World ι} {a : Auction} {j : Job}
    (h : j.MustClose a) (ha : readRec plan.first.auctions a.auctionId = some a)
    (hdone : j.Done plan w) : ¬ (account plan w a.auctionId).IsOpen := by
  cases j with
  | close clientFd req requester =>
      obtain ⟨hid, hallowed⟩ := h
      simp only [Job.Done, hid] at hdone
      exact hdone a ha hallowed
  | timerClose id =>
      obtain rfl : id = a.auctionId := h
      exact hdone
  | _ => exact absurd h id

/-- **One settlement**: when closes are well timed, however many there are,
the winner pays once and the seller is paid once. -/
theorem settledOnce_of_run [DecidableEq ι] (hfirst : first.Balanced)
    (hjobs : ∀ t, ∀ j ∈ jobs t, ∃ a, j.Closes a)
    {d : Threads ι} (hd : Run apiMachine.logged TimedForCloses (Plan.race first jobs).start d)
    {a : Auction} (ha : a ∈ first.auctions) (hopen : a.status = .auctionOpen)
    (hsettles : a.Settles) : SettledOnce first jobs a d := by
  have hcontest : Contest first 0 jobs := .of_closes hjobs
  obtain ⟨g, hg, -⟩ := hcontest.orderly.run
    (fits_timedForCloses hjobs) (holds_start hfirst) hd
  have hkept : Kept (Plan.race first jobs) (d.shared, g) := hg.inv
  have hread : readRec first.auctions a.auctionId = some a :=
    hfirst.auctions_numbered.readRec_eq_some.mpr ⟨ha, rfl⟩
  have hunbid := hkept.unbid a.auctionId fun t j hj u hb =>
    (hjobs t j hj).elim fun _ hc => Job.not_bids_of_closes hc hb
  obtain ⟨status, hrecord⟩ := hunbid.2 a hread
  have hcalls : closeCalls a.auctionId d.log <+: callsBetween a (a.withStatus status) :=
    hkept.calls _ a hread _ hrecord
  have hrest (hquiet : d.Quiescent) : (status = .auctionOpen ∨ status = .auctionClosed) ∧
      closeCalls a.auctionId d.log = callsBetween a (a.withStatus status) := by
    obtain ⟨b, hb⟩ := (atRest_of_quiescent hg hquiet).1 _ a hread
    obtain rfl : b = a.withStatus status := Option.some.inj (hb.record.symm.trans hrecord)
    exact ⟨hb.status.imp (fun h => h.trans hopen) And.right, hb.calls⟩
  have hclosed (h : status = .auctionClosed) :
      callsBetween a (a.withStatus status) = a.settlement := by
    subst h
    exact (if_pos ⟨hopen, by simp⟩).trans (a.closingCalls_withStatus hsettles _)
  have hstill (h : status = .auctionOpen) :
      a.withStatus status = a ∧ callsBetween a (a.withStatus status) = [] := by
    subst h
    exact ⟨by rw [← hopen]; rfl, if_neg fun hc => hc.2 rfl⟩
  refine {
    calls := hcalls.trans ?_
    quiescent := fun hquiet => ?_
    done := fun hdone ⟨t, j, hj, hmust⟩ => ?_
    balance := fun hquiet u hu u₀ hu₀ => ?_ }
  · rw [callsBetween]
    split
    · exact (a.closingCalls_withStatus hsettles status).symm ▸ List.prefix_rfl
    · exact List.nil_prefix
  · obtain ⟨hstatus, heq⟩ := hrest hquiet
    rcases hstatus with h | h
    · exact .inl ⟨hrecord.trans (congrArg some (hstill h).1), heq.trans (hstill h).2⟩
    · exact .inr ⟨h ▸ hrecord, heq.trans (hclosed h)⟩
  · obtain ⟨hstatus, heq⟩ := hrest fun t => (hdone t).1
    rcases hstatus with h | h
    · exact absurd ⟨_, hrecord, h⟩ (hmust.not_isOpen hread (done_of_holds hg hdone hj))
    · exact ⟨h ▸ hrecord, heq.trans (hclosed h)⟩
  · have hbalance := balance_of_quiescent hg hquiet hfirst.auctions_numbered hu hu₀
    have hnone : depositedIn d.log u.userId = 0 := hkept.undeposited u.userId rfl
    rwa [hnone, add_zero] at hbalance

/-! A close that comes while the auction is being closed. -/

/-- The timer makes a pass, and the seller closes. -/
def timerAndSeller : Fin 2 → List Job
  | 0 => [.timerPass]
  | 1 => [.close 6 ⟨1⟩ (.sample 1 roleAuctioneer 0 0)]

/-- The timer and the seller close. -/
theorem closes_timerAndSeller : ∀ t, ∀ j ∈ timerAndSeller t, ∃ a, j.Closes a := by
  refine Fin.forall_fin_two.mpr ⟨fun j hj => ?_, fun j hj => ?_⟩
  · obtain rfl := List.mem_singleton.mp hj
    exact ⟨0, trivial⟩
  · obtain rfl := List.mem_singleton.mp hj
    exact ⟨1, rfl⟩

/-- The timer finds the auction expired, but closed by the seller when it reads
it again. -/
theorem settledOnce_of_run_timerAndSeller :
    let d := (Plan.race .market timerAndSeller).start.after apiMachine.logged TimedForCloses
      (List.replicate 3 0 ++ List.replicate 4 1 ++ List.replicate 2 0 ++ List.replicate 20 1)
    ∃ a ∈ Store.market.auctions, SettledOnce .market timerAndSeller a d ∧ d.Done :=
  ⟨_, List.mem_singleton.mpr rfl,
    settledOnce_of_run (by decide +kernel) closes_timerAndSeller (Run.after _)
      (List.mem_singleton.mpr rfl) rfl (by decide +kernel),
    by decide +kernel⟩

/-- When the timer has read the auction again before the seller closes it, the
winner pays twice. -/
theorem not_settledOnce :
    ¬ ∀ (jobs : Fin 2 → List Job) (d : Threads (Fin 2)),
      (∀ t, ∀ j ∈ jobs t, ∃ a, j.Closes a) →
      Reach apiMachine.logged (Plan.race .market jobs).start d → ∀ a ∈ Store.market.auctions,
      a.status = .auctionOpen → a.Settles → SettledOnce .market jobs a d := by
  intro h
  have honce := h timerAndSeller _ closes_timerAndSeller
    (Run.after (List.replicate 4 0 ++ List.replicate 20 1 ++ List.replicate 20 0)) _
    (List.mem_singleton.mpr rfl) rfl (by decide +kernel)
  have hcalls := honce.calls
  revert hcalls
  decide +kernel

end Races

end OnlineAuction
