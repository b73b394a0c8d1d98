import OnlineAuction.Accounting
import OnlineAuction.WalletRefinement

/-!
# OnlineAuction.ConcurrentBidding

Bids, deposits and closes, each step a system call.

Every user has one request in progress at a time, and other auctions are being
closed, each once (`Traffic`).  The threads are the users and the closers
(`Party`); their steps are the single calls, those inside the wallet functions
included.  `nothingLost_of_reach` says what holds whenever no request is in
progress: the bids of each auction rise, the auctions are what their bids have
made of them, the holds are what the open auctions prescribe, and the balances
are what deposits and settlements have made of them.

It puts two results together: a wallet function counts as one step
(`apiMachine_of_sysMachine`), and the books are kept when it does
(`Plan.Orderly.run`).
-/

namespace OnlineAuction

/-! ## the traffic -/

/-- What the users ask for, one request after the other, and which auctions are
closed and how. -/
structure Traffic (first : Store) where
  requests : UInt32 → List Job
  closing : UInt32 → Option Job
  of_user : ∀ u, ∀ j ∈ requests u, (∃ i, j.Bids i u) ∨ j.Deposits u
  user_mem : ∀ u, ∀ j ∈ requests u, ∃ x ∈ first.users, x.userId = u
  closes : ∀ i, ∀ j ∈ closing i, ∀ k, j.Closes k ↔ k = i
  not_bid : ∀ i, ∀ j ∈ closing i, ∀ u, ∀ b ∈ requests u, ¬ b.Bids i u

/-- Who acts: a user, or whoever closes an auction. -/
inductive Party
  | user (id : UInt32)
  | closer (auctionId : UInt32)
  deriving DecidableEq

namespace Traffic

variable {first : Store} (w : Traffic first)

/-- What each party has to do. -/
def jobs : Party → List Job
  | .user id => w.requests id
  | .closer i => (w.closing i).toList

/-- The parties before they begin, in system calls. -/
def start : Config SysSig Party (Shared Party) :=
  .start (.idle first) fun t => ((w.jobs t).map Job.prog).map (Prog.subst Api.impl)

/-- The requests that a party has finished. -/
def finished (d : Config SysSig Party (Shared Party)) (t : Party) : List Job :=
  (w.jobs t).take ((w.jobs t).length - (d.queue t).length)

/-- Auctions that are closed are so by their closer, and each user pays into
the own wallet only. -/
def plan : Plan Party where
  first := first
  jobs := w.jobs
  closer i := if (w.closing i).isSome then some (.closer i) else none
  depositor u := some (.user u)

variable {w}

/-- Users bid for themselves. -/
theorem user_of_bids {t : Party} {j : Job} (hj : j ∈ w.jobs t) {i u : UInt32} (hb : j.Bids i u) :
    t = .user u := by
  cases t with
  | user id =>
      rcases w.of_user id j hj with ⟨i', hb'⟩ | hd
      · cases j <;> simp_all [Job.Bids]
      · cases j <;> simp_all [Job.Bids, Job.Deposits]
  | closer i' =>
      have hc := (w.closes i' j (Option.mem_toList.mp hj) i').mpr rfl
      cases j <;> simp_all [Job.Bids, Job.Closes]

/-- And deposit for themselves. -/
theorem user_of_deposits {t : Party} {j : Job} (hj : j ∈ w.jobs t) {u : UInt32}
    (hd : j.Deposits u) : t = .user u := by
  cases t with
  | user id =>
      rcases w.of_user id j hj with ⟨i', hb'⟩ | hd'
      · cases j <;> simp_all [Job.Bids, Job.Deposits]
      · cases j <;> simp_all [Job.Deposits]
  | closer i' =>
      have hc := (w.closes i' j (Option.mem_toList.mp hj) i').mpr rfl
      cases j <;> simp_all [Job.Deposits, Job.Closes]

/-- Each auction is closed by its closer. -/
theorem closer_of_closes {t : Party} {j : Job} (hj : j ∈ w.jobs t) {i : UInt32}
    (hc : j.Closes i) : t = .closer i := by
  cases t with
  | user id =>
      rcases w.of_user id j hj with ⟨i', hb'⟩ | hd'
      · cases j <;> simp_all [Job.Bids, Job.Closes]
      · cases j <;> simp_all [Job.Deposits, Job.Closes]
  | closer i' => rw [(w.closes i' j (Option.mem_toList.mp hj) i).mp hc]

/-- The traffic is an orderly plan. -/
theorem orderly : w.plan.Orderly where
  bidder_mem t j hj i u hb := by
    obtain rfl := user_of_bids hj hb
    exact w.user_mem u j hj
  depositor_mem t j hj u hd := by
    obtain rfl := user_of_deposits hj hd
    exact w.user_mem u j hj
  one_auction t t' i i' u hne := by
    rintro ⟨j, hj, hb⟩ ⟨j', hj', hb'⟩
    exact absurd ((user_of_bids hj hb).trans (user_of_bids hj' hb').symm) hne
  open_to_bids t j hj i u hb := by
    obtain rfl := user_of_bids hj hb
    cases hc : w.closing i with
    | none => simp [plan, hc]
    | some b => exact absurd hb (w.not_bid i b hc u j hj)
  closer t j hj i hc t' ht' := by
    rw [closer_of_closes hj hc]
    simp only [plan] at ht'
    split at ht'
    · exact (Option.some.inj ht').symm
    · contradiction
  depositor t j hj u hd := by rw [user_of_deposits hj hd]; rfl

/-- Only the closer of an auction writes it closed. -/
theorem fits : (booksLogic w.plan).Fits anyStep :=
  fits_of_mayClose fun c g t o k hpoint hp _ a ho hclosed => by
    subst ho
    have hentitled := (hpoint t).entitled
    rw [hp] at hentitled
    obtain ⟨j, hj, hc⟩ := hentitled hclosed
    obtain rfl := closer_of_closes hj hc
    have hsome : (w.closing a.auctionId).isSome := Option.isSome_of_mem (Option.mem_toList.mp hj)
    exact .inl (if_pos hsome)

end Traffic

/-! ## the calls of the requests -/

/-- The jobs touch wallets through the wallet functions only. -/
theorem outsideWallet_job (j : Job) :
    j.prog.Respects ApiOp.OutsideWallet (fun _ _ => True) fun _ => True := by
  have hpush (u : UInt32) (type : MessageType) (m : Payload) :
      (pushNotification u type m).Respects ApiOp.OutsideWallet (fun _ _ => True) fun _ => True := by
    simp [pushNotification, ApiOp.OutsideWallet]
  have hrelease (site : Site) (a : Auction) :
      (releaseLeader site a).Respects ApiOp.OutsideWallet (fun _ _ => True) fun _ => True := by
    simp [releaseLeader, ApiOp.OutsideWallet]
  have hclose (a : Auction) :
      (closeAuctionInternal a).Respects ApiOp.OutsideWallet (fun _ _ => True) fun _ => True := by
    simp [closeAuctionInternal, notifyAuctionWon, notifyAuctionClosed, ApiOp.OutsideWallet, hpush,
      hrelease]
  have htimer (id : UInt32) :
      (timerClose id).Respects ApiOp.OutsideWallet (fun _ _ => True) fun _ => True := by
    simp only [timerClose, readAuction, Prog.bind_call, Prog.bind_pure, Prog.respects_call]
    refine ⟨trivial, fun r _ => ?_⟩
    cases r <;> simp [ApiOp.OutsideWallet, hclose]
  cases j with
  | placeBid clientFd req bidder =>
      simp only [Job.prog, handlePlaceBid, readAuction, readUser, sendMsg, Prog.bind_call,
        Prog.bind_pure, Prog.respects_call]
      refine ⟨trivial, fun r _ => ?_⟩
      cases r with
      | none => simp [ApiOp.OutsideWallet]
      | some a =>
          simp only [Prog.respects_ite, Prog.respects_call]
          refine ⟨fun _ => by simp [ApiOp.OutsideWallet], fun _ => ⟨trivial, fun r _ => ?_⟩⟩
          cases r with
          | none => simp [ApiOp.OutsideWallet]
          | some u =>
              simp only [Prog.respects_ite, placeBidLocked, getAuctionSem, lock, unlock,
                readAuction, Prog.bind_call, Prog.bind_pure, Prog.respects_call]
              refine ⟨fun _ => by simp [ApiOp.OutsideWallet], fun _ => ?_⟩
              refine ⟨by simp [ApiOp.OutsideWallet], fun _ _ => ⟨by simp [ApiOp.OutsideWallet],
                fun _ _ => ⟨by simp [ApiOp.OutsideWallet, auctionSem], fun _ _ =>
                  ⟨trivial, fun r _ => ?_⟩⟩⟩⟩
              cases r <;> simp [recordBid, notifyOutbid, auctionSem, ApiOp.OutsideWallet, hpush,
                hrelease]
  | deposit clientFd req user => simp [Job.prog, handleDeposit, ApiOp.OutsideWallet]
  | close clientFd req requester =>
      simp only [Job.prog, handleCloseAuction, readAuction, Prog.bind_call, Prog.bind_pure,
        Prog.respects_call]
      refine ⟨trivial, fun r _ => ?_⟩
      cases r <;> simp [ApiOp.OutsideWallet, hclose]
  | timerClose id => exact htimer id
  | timerPass =>
      simp only [Job.prog, timerPass, time, scanAuctions, Prog.bind_call, Prog.bind_pure,
        Prog.respects_call]
      refine ⟨trivial, fun now _ => ⟨trivial, fun r _ => ?_⟩⟩
      cases r with
      | none => simp
      | some l =>
          simp only
          induction expiredIds now l with
          | nil => simp [closeExpired]
          | cons id ids ih => exact (Prog.respects_bind _ _).mpr ((htimer id).mono fun _ _ => ih)

/-! ## nothing is lost -/

/-- What the bids of an auction amount to. -/
structure Auction.After (a₀ : Auction) (placed : List (UInt32 × ℚ)) (a : Auction) : Prop where
  increasing : (a₀.currentBid :: placed.map Prod.snd).IsChain (· < ·)
  highest : (a.highestBidderId, a.currentBid) =
    placed.getLast?.getD (a₀.highestBidderId, a₀.currentBid)
  bidCount : a.bidCount = a₀.bidCount + placed.length
  others : ∃ bidder amount count status, a =
    { a₀ with
      highestBidderId := bidder, currentBid := amount, bidCount := count, status := status }

theorem Auction.after_withBids {a₀ a : Auction} {placed : List (UInt32 × ℚ)}
    (h : a = (a₀.withBids placed).withStatus a.status)
    (hincreasing : (a₀.currentBid :: placed.map Prod.snd).IsChain (· < ·)) :
    a₀.After placed a := by
  have hbids : ∀ (l : List (UInt32 × ℚ)) (b : Auction),
      ((b.withBids l).highestBidderId, (b.withBids l).currentBid) =
          l.getLast?.getD (b.highestBidderId, b.currentBid) ∧
        (b.withBids l).bidCount = b.bidCount + l.length ∧
        ∃ bidder amount count, b.withBids l =
          { b with highestBidderId := bidder, currentBid := amount, bidCount := count } := by
    intro l
    induction l with
    | nil => exact fun b => ⟨rfl, by simp [Auction.withBids], b.highestBidderId, b.currentBid,
        b.bidCount, rfl⟩
    | cons x l ih =>
        intro b
        obtain ⟨hlast, hcount, bidder, amount, count, heq⟩ := ih (b.withBid x.1 x.2)
        refine ⟨?_, ?_, bidder, amount, count, heq⟩
        · rw [List.getLast?_cons]
          exact hlast
        · rw [List.length_cons]
          refine hcount.trans ?_
          rw [Auction.withBid_bidCount]
          push_cast
          ring
  obtain ⟨hlast, hcount, bidder, amount, count, heq⟩ := hbids placed a₀
  rw [h]
  refine ⟨hincreasing, hlast, hcount, bidder, amount, count, a.status, ?_⟩
  rw [heq]
  rfl

/-- What holds when no request is in progress: (a) the bids placed on an
auction rise above what it started with, the auction has counted them and the
last of them leads it, and otherwise it has at most been closed; (b) every hold is the
sum of the current bids of the open auctions that the user leads, and is backed
by the balance; (c) every balance is the first one with the accepted deposits,
and with what the settlement of the closed auctions has brought. -/
structure NothingLost (first : Store) (w : Traffic first) (d : Config SysSig Party (Shared Party)) :
    Prop where
  auctions : ∀ a₀ ∈ first.auctions, ∃ a, readRec d.shared.store.auctions a₀.auctionId = some a ∧
    a₀.After (placedOn first.bids.length a₀.auctionId d.shared.store.bids) a ∧
    (a.status = a₀.status ∨ a₀.status = .auctionOpen ∧ a.status = .auctionClosed)
  balanced : d.shared.store.Balanced
  hold_nonneg : ∀ u ∈ d.shared.store.users, 0 ≤ u.walletHold
  users : d.shared.store.users.map User.userId = first.users.map User.userId
  balance : ∀ u ∈ d.shared.store.users, ∀ u₀ ∈ readRec first.users u.userId, u.walletBalance =
    u₀.walletBalance + ((w.finished d (.user u.userId)).map (Job.deposited u.userId)).sum +
      settled first.auctions d.shared.store.auctions u.userId

/-- **Concurrent bidding loses nothing**: in every interleaving of the system
calls of any number of users who bid and deposit, while other auctions are
closed. -/
theorem nothingLost_of_reach {first : Store} (hfirst : first.Balanced) (w : Traffic first)
    {d : Config SysSig Party (Shared Party)} (h : Reach sysMachine w.start d)
    (hquiet : d.Quiescent) : NothingLost first w d := by
  have houtside (t : Party) (p : Prog ApiSig Unit) (hp : p ∈ (w.jobs t).map Job.prog) :
      p.Respects ApiOp.OutsideWallet (fun _ _ => True) fun _ => True := by
    obtain ⟨j, -, rfl⟩ := List.mem_map.mp hp
    exact outsideWallet_job j
  obtain ⟨e, he, hcore, hidle⟩ :=
    apiMachine_of_sysMachine hfirst.users_numbered houtside h
  have hquietE : e.Quiescent := fun t => (hidle t (hquiet t)).1
  obtain ⟨g, hg, -⟩ := Traffic.orderly.run w.fits (holds_start hfirst) he
  have hkept : Kept w.plan (e.shared, g) := hg.inv
  obtain ⟨hrest, hbalanced⟩ := atRest_of_quiescent hg hquietE
  have husers : d.shared.store.users = e.shared.1.store.users := congrArg (·.users) hcore
  have hauctions : d.shared.store.auctions = e.shared.1.store.auctions :=
    congrArg (·.auctions) hcore
  have hbids : d.shared.store.bids = e.shared.1.store.bids := congrArg (·.bids) hcore
  have hbal : d.shared.store.Balanced := hbalanced.congr husers hauctions
  have hfinished (u : UInt32) :
      depositedIn e.shared.2 u = ((w.finished d (.user u)).map (Job.deposited u)).sum := by
    obtain ⟨finished, rest, hjobs, hps, hw⟩ := hg.quiet (hquietE (.user u))
    rw [hw.carried.deposited u rfl]
    have hlen : (d.queue (.user u)).length = rest.length := by
      rw [(hidle _ (hquiet _)).2, hps, List.length_map, List.length_map]
    have hjobs : w.jobs (.user u) = finished ++ rest := hjobs
    rw [Traffic.finished, hlen, hjobs, List.length_append, Nat.add_sub_cancel,
      List.take_left]
  refine ⟨fun a₀ ha₀ => ?_, hbal, fun u hu => hbal.hold_nonneg hu, ?_, fun u hu u₀ hu₀ => ?_⟩
  · obtain ⟨a, ha⟩ := hrest _ a₀ (hfirst.auctions_numbered.readRec_eq_some.mpr ⟨ha₀, rfl⟩)
    rw [hauctions, hbids]
    exact ⟨a, ha.record, Auction.after_withBids ha.bids ha.increasing, ha.status⟩
  · rw [husers]
    exact hkept.userIds
  · rw [husers] at hu
    rw [hauctions, ← hfinished]
    exact balance_of_quiescent hg hquietE hfirst.auctions_numbered hu hu₀

/-! Two bidders, a deposit and the close of another auction. -/

/-- The market with a second auction, led by user `3` with 5. -/
def Store.twoAuctions : Store :=
  { Store.market with
    users := [.sample 1 roleAuctioneer 0 0, .sample 2 roleBidder 100 10,
      .sample 3 roleBidder 100 5]
    auctions := Store.market.auctions ++ [{ Auction.zero with
      auctionId := 2, sellerId := 1, currentBid := 5, highestBidderId := 3,
      status := .auctionOpen }] }

/-- User `3` bids 20 on the first auction, user `2` deposits 30 and bids 50 on
it, and the timer closes the second. -/
def traffic : Traffic .twoAuctions where
  requests u :=
    if u = 2 then [.deposit 4 ⟨30⟩ (.sample 2 0 0 0), .placeBid 4 ⟨1, 50⟩ (.sample 2 0 0 0)]
    else if u = 3 then [.placeBid 5 ⟨1, 20⟩ (.sample 3 0 0 0)] else []
  closing i := if i = 2 then some (.timerClose 2) else none
  of_user u j hj := by
    split at hj
    · next h =>
        subst h
        simp only [List.mem_cons, List.not_mem_nil, or_false] at hj
        rcases hj with rfl | rfl
        · exact .inr rfl
        · exact .inl ⟨1, rfl, rfl⟩
    · split at hj
      · next h =>
          subst h
          obtain rfl := List.mem_singleton.mp hj
          exact .inl ⟨1, rfl, rfl⟩
      · cases hj
  user_mem u j hj := by
    split at hj
    · next h => exact h ▸ by decide +kernel
    · split at hj
      · next h => exact h ▸ by decide +kernel
      · cases hj
  closes i j hj k := by
    split at hj
    · next h =>
        obtain rfl := Option.some.inj hj
        exact h ▸ eq_comm
    · cases hj
  not_bid i j hj u b hb := by
    split at hj
    · next h =>
        subst h
        split at hb
        · simp only [List.mem_cons, List.not_mem_nil, or_false] at hb
          rcases hb with rfl | rfl
          · exact id
          · exact fun h => absurd h.1 (by decide)
        · split at hb
          · obtain rfl := List.mem_singleton.mp hb
            exact fun h => absurd h.1 (by decide)
          · cases hb
    · cases hj

/-- Both bidders are inside their requests at the same time. -/
theorem nothingLost_of_reach_traffic :
    let d := traffic.start.after sysMachine anyStep
      (List.replicate 7 (.user 3) ++ List.replicate 20 (.user 2) ++
        (List.replicate 60 [.user 2, .closer 2, .user 3]).flatten)
    NothingLost .twoAuctions traffic d ∧ d.shared.store.bids.length = 2 :=
  ⟨nothingLost_of_reach (by decide +kernel) traffic (Run.after _)
    (Config.quiescent_after (fun _ => rfl) (by decide +kernel)), by decide +kernel⟩

end OnlineAuction
