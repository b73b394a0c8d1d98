import OnlineAuction.Accounting
import OnlineAuction.Settlement

/-!
# OnlineAuction.StorageFaults

Requests on storage that fails.

Every `read_*`, `write_*` and `append_*` call may answer with its error and change
nothing; which ones do is a pattern `fails` over their positions
(`Store.execFlaky`).  `handle_place_bid`, `handle_file_dispute` and
`handle_resolve_dispute` look at some of the answers only.  `answersMatch_iff` says
for which requests, stores and patterns what they answer still tells what they did.
-/

namespace OnlineAuction

/-! ## storage that fails -/

/-- What a call answers when it fails, if it is one that may fail. -/
def SysOp.failure : (op : SysOp) → Option op.Res
  | .readUser _ | .readAuction _ | .readDispute _ => some none
  | .writeUser _ | .writeAuction _ | .writeDispute _ | .writeSession _ _ | .appendBid _
  | .appendFeedback _ => some (-1)
  | _ => none

/-- The calls on a store together with the number of calls made on it that may
fail: those at the positions of `fails` do. -/
def Store.execFlaky (fails : Nat → Bool) : Prog.Handler SysSig (Store × Nat) := fun op s =>
  match op.failure with
  | none => ((Store.exec op s.1).1, (Store.exec op s.1).2, s.2)
  | some r =>
      if fails s.2 then (r, s.1, s.2 + 1)
      else ((Store.exec op s.1).1, (Store.exec op s.1).2, s.2 + 1)

/-- The calls of the handlers, with the wallet functions on the same storage. -/
def Api.execFlaky (fails : Nat → Bool) : Prog.Handler ApiSig (Store × Nat) := fun o s =>
  Prog.run (Store.execFlaky fails) (Api.impl o) s

/-- The calls from the `n`-th on, `count` of them, do not fail. -/
def Works (fails : Nat → Bool) (n count : Nat) : Prop := ∀ i < count, fails (n + i) = false

instance (fails : Nat → Bool) (n count : Nat) : Decidable (Works fails n count) :=
  inferInstanceAs (Decidable (∀ i < count, _ = _))

/-- Calls that work are those before and those after. -/
theorem works_add (fails : Nat → Bool) (n j k : Nat) :
    Works fails n (j + k) ↔ Works fails n j ∧ Works fails (n + j) k := by
  constructor
  · intro h
    refine ⟨fun i hi => h i (by omega), fun i hi => ?_⟩
    have := h (j + i) (by omega)
    rwa [show n + j + i = n + (j + i) by omega]
  · rintro ⟨hj, hk⟩ i hi
    by_cases hlt : i < j
    · exact hj i hlt
    · have := hk (i - j) (by omega)
      rwa [show n + j + (i - j) = n + i by omega] at this

@[simp] theorem works_one (fails : Nat → Bool) (n : Nat) :
    Works fails n 1 ↔ fails n = false := by
  simp [Works]

@[simp] theorem works_two (fails : Nat → Bool) (n : Nat) :
    Works fails n 2 ↔ fails n = false ∧ fails (n + 1) = false := by
  rw [works_add fails n 1 1]
  simp

@[simp] theorem works_zero (fails : Nat → Bool) (n : Nat) : Works fails n 0 :=
  fun i hi => absurd hi (Nat.not_lt_zero i)

/-- The calls of a wallet function that may fail. -/
def WalletCall.calls : WalletCall → Nat
  | .placeHold _ _ => 3
  | _ => 2

section Calls

variable {fails : Nat → Bool} {s : Store} {n : Nat}

/-- A handler's own system call fails as the call does. -/
@[simp] theorem execFlaky_sys (op : SysOp) (x : Store × Nat) :
    Api.execFlaky fails (.sys op) x = Store.execFlaky fails op x := rfl

/-- A read that fails finds no user. -/
@[simp] theorem execFlaky_readUser (id : UInt32) :
    Store.execFlaky fails (.readUser id) (s, n) =
      (if fails n then none else readRec s.users id, s, n + 1) := by
  cases h : fails n <;> simp [Store.execFlaky, SysOp.failure, h, Store.exec]

/-- A read that fails finds no auction. -/
@[simp] theorem execFlaky_readAuction (id : UInt32) :
    Store.execFlaky fails (.readAuction id) (s, n) =
      (if fails n then none else readRec s.auctions id, s, n + 1) := by
  cases h : fails n <;> simp [Store.execFlaky, SysOp.failure, h, Store.exec]

/-- A read that fails finds no dispute. -/
@[simp] theorem execFlaky_readDispute (id : UInt32) :
    Store.execFlaky fails (.readDispute id) (s, n) =
      (if fails n then none else readRec s.disputes id, s, n + 1) := by
  cases h : fails n <;> simp [Store.execFlaky, SysOp.failure, h, Store.exec]

/-- A call that writes answers `-1` when it fails, and else `0`. -/
theorem execFlaky_writeUser (v : User) :
    Store.execFlaky fails (.writeUser v) (s, n) =
      if fails n then (-1, s, n + 1) else (0, s.putUser v, n + 1) := by
  cases h : fails n <;> simp [Store.execFlaky, SysOp.failure, h, Store.exec, Store.putUser]

/-- A write that fails leaves the auctions as they are. -/
@[simp] theorem execFlaky_writeAuction (a : Auction) :
    Store.execFlaky fails (.writeAuction a) (s, n) =
      (if fails n then -1 else 0,
        if fails n then s else (Store.exec (.writeAuction a) s).2, n + 1) := by
  cases h : fails n <;> simp [Store.execFlaky, SysOp.failure, h, Store.exec]

/-- A write that fails leaves the disputes as they are. -/
@[simp] theorem execFlaky_writeDispute (d : Dispute) :
    Store.execFlaky fails (.writeDispute d) (s, n) =
      (if fails n then -1 else 0,
        if fails n then s else (Store.exec (.writeDispute d) s).2, n + 1) := by
  cases h : fails n <;> simp [Store.execFlaky, SysOp.failure, h, Store.exec]

/-- An append that fails adds no bid. -/
@[simp] theorem execFlaky_appendBid (b : Bid) :
    Store.execFlaky fails (.appendBid b) (s, n) =
      (if fails n then -1 else 0,
        if fails n then s else (Store.exec (.appendBid b) s).2, n + 1) := by
  cases h : fails n <;> simp [Store.execFlaky, SysOp.failure, h, Store.exec]

/-- The calls that do not fail. -/
theorem execFlaky_of_failure {op : SysOp} (h : op.failure = none) :
    Store.execFlaky fails op (s, n) = ((Store.exec op s).1, (Store.exec op s).2, n) := by
  simp [Store.execFlaky, h]

/-- Sending is no storage call and does not fail. -/
@[simp] theorem execFlaky_send (fd : Int) (m : Message) :
    Store.execFlaky fails (.send fd m) (s, n) =
      ((), { s with sent := s.sent ++ [(fd, m)] }, n) := execFlaky_of_failure rfl

/-- Nor is a line in the log. -/
@[simp] theorem execFlaky_logTxn (line : LogLine) :
    Store.execFlaky fails (.logTxn line) (s, n) = ((), s.putLines [line], n) :=
  execFlaky_of_failure rfl

@[simp] theorem execFlaky_lock (l : Lock) :
    Store.execFlaky fails (.lock l) (s, n) = ((), s, n) := execFlaky_of_failure rfl

@[simp] theorem execFlaky_unlock (l : Lock) :
    Store.execFlaky fails (.unlock l) (s, n) = ((), s, n) := execFlaky_of_failure rfl

@[simp] theorem execFlaky_time : Store.execFlaky fails .time (s, n) = (s.clock, s, n) :=
  execFlaky_of_failure rfl

@[simp] theorem execFlaky_nextBidId :
    Store.execFlaky fails .nextBidId (s, n) = (nextRecId s.bids, s, n) := execFlaky_of_failure rfl

@[simp] theorem execFlaky_nextDisputeId :
    Store.execFlaky fails .nextDisputeId (s, n) = (nextRecId s.disputes, s, n) :=
  execFlaky_of_failure rfl

/-- The body of the wallet functions fails with its read, by its guard, or with its write. -/
theorem run_applyWalletDelta_flaky (id : UInt32) (bd hd : ℚ) :
    Prog.run (Store.execFlaky fails) (applyWalletDelta id bd hd) (s, n) =
      if fails n then (-1, s, n + 1)
      else match (readRec s.users id).bind fun u => walletDelta u bd hd with
        | none => (-1, s, n + 1)
        | some v => if fails (n + 1) then (-1, s, n + 2) else (0, s.putUser v, n + 2) := by
  simp only [applyWalletDelta, Sys.readUser, Prog.bind_call, Prog.bind_pure, Prog.run_call,
    execFlaky_readUser]
  cases fails n with
  | true => rfl
  | false =>
      cases readRec s.users id with
      | none => rfl
      | some u =>
          cases hw : walletDelta u bd hd with
          | none => simp [hw]
          | some v => simp [hw, execFlaky_writeUser]

/-- The delta is applied when neither of its two calls fails and no guard
refuses; otherwise the store is as before. -/
theorem applyWalletDelta_flaky_cases (fails : Nat → Bool) (s : Store) (n : Nat) (id : UInt32)
    (bd hd : ℚ) :
    (∃ v, (readRec s.users id).bind (fun u => walletDelta u bd hd) = some v ∧ Works fails n 2 ∧
      Prog.run (Store.execFlaky fails) (applyWalletDelta id bd hd) (s, n) =
        (0, s.putUser v, n + 2)) ∨
    (¬ (((readRec s.users id).bind fun u => walletDelta u bd hd).isSome ∧ Works fails n 2) ∧
      ∃ n', Prog.run (Store.execFlaky fails) (applyWalletDelta id bd hd) (s, n) =
        (-1, s, n')) := by
  rw [run_applyWalletDelta_flaky]
  simp only [works_two]
  cases (readRec s.users id).bind fun u => walletDelta u bd hd with
  | none => exact .inr ⟨by simp, n + 1, by split <;> rfl⟩
  | some v =>
      cases h0 : fails n with
      | true => exact .inr ⟨by simp, n + 1, by simp⟩
      | false =>
          cases h1 : fails (n + 1) with
          | true => exact .inr ⟨by simp, n + 2, by simp⟩
          | false => exact .inl ⟨v, rfl, ⟨rfl, rfl⟩, by simp⟩

/-- The line is logged whether the body fails or not. -/
theorem run_lockedDelta_flaky (id : UInt32) (bd hd : ℚ) (line : LogLine) (x : Store × Nat) :
    Prog.run (Store.execFlaky fails) (lockedDelta id bd hd line) x =
      ((Prog.run (Store.execFlaky fails) (applyWalletDelta id bd hd) x).1,
        (Prog.run (Store.execFlaky fails) (applyWalletDelta id bd hd) x).2.1.putLines [line],
        (Prog.run (Store.execFlaky fails) (applyWalletDelta id bd hd) x).2.2) := by
  simp only [lockedDelta, Sys.lock, Sys.unlock, Sys.logTxn, Prog.bind_call, Prog.bind_pure,
    Prog.run_call, Prog.run_bind, Prog.pure_eq, Prog.run_pure]
  rfl

/-- The delta, then the line in the log. -/
theorem lockedDelta_flaky_cases (id : UInt32) (bd hd : ℚ) (line : LogLine) :
    (((readRec s.users id).bind fun u => walletDelta u bd hd).isSome ∧ Works fails n 2 ∧
      Prog.run (Store.execFlaky fails) (lockedDelta id bd hd line) (s, n) =
        (0, (Prog.run Store.exec (lockedDelta id bd hd line) s).2, n + 2)) ∨
    (¬ (((readRec s.users id).bind fun u => walletDelta u bd hd).isSome ∧ Works fails n 2) ∧
      ∃ lines n', Prog.run (Store.execFlaky fails) (lockedDelta id bd hd line) (s, n) =
        (-1, s.putLines lines, n')) := by
  rw [run_lockedDelta_flaky, run_lockedDelta]
  rcases applyWalletDelta_flaky_cases fails s n id bd hd with
    ⟨v, hv, hworks, hrun⟩ | ⟨hno, n', hrun⟩
  · rw [hrun, hv]
    exact .inl ⟨rfl, hworks, rfl⟩
  · rw [hrun]
    exact .inr ⟨hno, [line], n', rfl⟩

/-- `place_hold` reads, checks the funds, and only then runs the body and logs. -/
theorem run_placeHold_flaky (id : UInt32) (amount : ℚ) :
    Prog.run (Store.execFlaky fails) (placeHold id amount) (s, n) =
      match if fails n then none else readRec s.users id with
      | none => (-1, s, n + 1)
      | some u =>
          if amount > u.walletBalance - u.walletHold then (-1, s, n + 1)
          else ((Prog.run (Store.execFlaky fails) (applyWalletDelta id 0 amount) (s, n + 1)).1,
            (Prog.run (Store.execFlaky fails) (applyWalletDelta id 0 amount)
              (s, n + 1)).2.1.putLines [.hold id amount],
            (Prog.run (Store.execFlaky fails) (applyWalletDelta id 0 amount) (s, n + 1)).2.2) := by
  have hlock : Store.execFlaky fails (.lock (getWalletLock id)) (s, n) = ((), s, n) := rfl
  simp only [placeHold, Sys.lock, Sys.readUser, Prog.bind_call, Prog.bind_pure, Prog.run_call,
    hlock, execFlaky_readUser]
  cases if fails n = true then none else readRec s.users id with
  | none => rfl
  | some u =>
      simp only
      split
      · rfl
      · rw [Prog.run_bind]
        rfl

/-- `place_hold` reads the record once more before the delta. -/
theorem placeHold_flaky_cases (id : UInt32) (amount : ℚ) :
    ((WalletCall.placeHold id amount).Passes s.users ∧ Works fails n 3 ∧
      Prog.run (Store.execFlaky fails) (placeHold id amount) (s, n) =
        (0, (Prog.run Store.exec (placeHold id amount) s).2, n + 3)) ∨
    (¬ ((WalletCall.placeHold id amount).Passes s.users ∧ Works fails n 3) ∧
      ∃ lines n', Prog.run (Store.execFlaky fails) (placeHold id amount) (s, n) =
        (-1, s.putLines lines, n')) := by
  rw [run_placeHold_flaky, run_placeHold]
  cases hn : fails n with
  | true =>
      refine .inr ⟨fun h => ?_, [], n + 1, by simp [Store.putLines]⟩
      have := h.2 0 (by omega)
      simp [hn] at this
  | false =>
      simp only [WalletCall.Passes, WalletCall.userId, works_add fails n 1 2, works_one, hn,
        true_and]
      cases hr : readRec s.users id with
      | none => exact .inr ⟨by simp [WalletCall.written], [], n + 1, by simp [Store.putLines]⟩
      | some u =>
          simp only [WalletCall.written, WalletCall.apply, WalletCall.lines, Option.bind_some]
          by_cases hgt : amount > u.walletBalance - u.walletHold
          · exact .inr ⟨by simp [hgt], [], n + 1, by simp [hgt, Store.putLines]⟩
          · simp only [if_neg hgt]
            rcases applyWalletDelta_flaky_cases fails s (n + 1) id 0 amount
              with ⟨v, hv, hworks, hrun⟩ | ⟨hno, n', hrun⟩
            · rw [hr, Option.bind_some] at hv
              rw [hrun, hv]
              exact .inl ⟨rfl, hworks, if_neg hgt⟩
            · rw [hr, Option.bind_some] at hno
              rw [hrun]
              exact .inr ⟨hno, [.hold id amount], n', if_neg hgt⟩

/-- **A wallet function on failing storage**: it answers `0` and does what it
does on a storage that works, or it answers `-1` and leaves the files alone. -/
theorem execFlaky_wallet (fails : Nat → Bool) (s : Store) (n : Nat) (site : Site)
    (c : WalletCall) :
    (c.Passes s.users ∧ Works fails n c.calls ∧
      Api.execFlaky fails (.wallet site c) (s, n) =
        (0, (Api.exec (.wallet site c) s).2, n + c.calls)) ∨
    (¬ (c.Passes s.users ∧ Works fails n c.calls) ∧
      ∃ lines n', Api.execFlaky fails (.wallet site c) (s, n) = (-1, s.putLines lines, n')) := by
  cases c with
  | placeHold id amount => exact placeHold_flaky_cases id amount
  | releaseHold id amount => exact lockedDelta_flaky_cases id 0 (-amount) _
  | settlePayment id amount => exact lockedDelta_flaky_cases id (-amount) (-amount) _
  | creditWallet id amount => exact lockedDelta_flaky_cases id amount 0 _

end Calls

/-! ## requests and what they answer -/

/-- The requests that write to more than one file. -/
inductive Transaction
  | placeBid (req : PlaceBidPayload) (bidder : User)
  | fileDispute (req : FileDisputePayload) (u : User)
  | resolveDispute (req : ResolveDisputePayload) (moderator : User)

/-- The handler of a request. -/
def Transaction.prog (clientFd : Int) : Transaction → Prog ApiSig Unit
  | .placeBid req bidder => handlePlaceBid clientFd req bidder
  | .fileDispute req u => handleFileDispute clientFd req u
  | .resolveDispute req moderator => handleResolveDispute clientFd req moderator

/-- The record that `handle_place_bid` appends. -/
def PlaceBidPayload.bid (req : PlaceBidPayload) (bidder : User) (bidId : UInt32)
    (placedAt : Int) : Bid :=
  ⟨bidId, req.auctionId, bidder.userId, req.amount, placedAt, true⟩

/-- The record that `handle_file_dispute` writes. -/
def FileDisputePayload.dispute (req : FileDisputePayload) (u : User) (disputeId : UInt32)
    (raisedAt : Int) : Dispute :=
  { disputeId := disputeId
    auctionId := req.auctionId
    raisedByUserId := u.userId
    resolvedByUserId := 0
    reason := strncpy (.zero _) req.reason.val (maxDesc - 1)
    resolution := .zero _
    status := .disputeOpen
    raisedAt := raisedAt
    resolvedAt := 0 }

/-- The record that `handle_resolve_dispute` makes of the one it read. -/
def ResolveDisputePayload.resolve (req : ResolveDisputePayload) (moderator : User)
    (status : DisputeStatus) (resolvedAt : Int) (d : Dispute) : Dispute :=
  { d with
    status := status
    resolvedByUserId := moderator.userId
    resolvedAt := resolvedAt
    resolution := strncpy d.resolution req.resolution.val (maxDesc - 1) }

/-- The release of the hold of the highest bidder, when there is one. -/
def Auction.release (a : Auction) : List WalletCall :=
  if a.highestBidderId ≠ 0 then [.releaseHold a.highestBidderId a.currentBid] else []

/-- The debit that is due once the winner has been credited: the seller's, when
the balance then covers it. -/
def Auction.debit (a : Auction) (users : List User) : List WalletCall :=
  match readRec users a.sellerId with
  | none => []
  | some seller =>
      if seller.walletBalance ≥ a.currentBid then [.creditWallet a.sellerId (-a.currentBid)] else []

/-- The refund of a resolved dispute. -/
def Auction.refund (a : Auction) (users : List User) : List WalletCall :=
  let credit : WalletCall := .creditWallet a.highestBidderId a.currentBid
  credit :: a.debit (credit.users users)

/-- The updates of a successful request, in their order. -/
def Transaction.updates (s : Store) : Transaction → List ApiOp
  | .placeBid req bidder =>
      match readRec s.auctions req.auctionId with
      | none => []
      | some a =>
          (a.release ++ [WalletCall.placeHold bidder.userId req.amount]).map
            (.wallet (.placeBid req.auctionId)) ++
          [.sys (.writeAuction (a.withBid bidder.userId req.amount)),
            .sys (.appendBid (req.bid bidder (nextRecId s.bids) s.clock))]
  | .fileDispute req u =>
      match readRec s.auctions req.auctionId with
      | none => []
      | some a =>
          [.sys (.writeDispute (req.dispute u (nextRecId s.disputes) s.clock)),
            .sys (.writeAuction (a.withStatus .auctionDisputed))]
  | .resolveDispute req moderator =>
      match DisputeStatus.ofCode req.newStatus, readRec s.disputes req.disputeId with
      | some status, some d =>
          .sys (.writeDispute (req.resolve moderator status s.clock d)) ::
          match readRec s.auctions d.auctionId with
          | none => []
          | some a =>
              if status = .disputeResolved then
                (a.refund s.users).map (.wallet (.resolve d.disputeId))
              else [.sys (.writeAuction (a.withStatus .auctionClosed))]
      | _, _ => []

/-- The updates that a run tried, with what each answered. -/
def tried (tr : List (Event ApiSig)) : List (ApiOp × Int) :=
  tr.filterMap fun e =>
    match e with
    | ⟨.wallet site c, r⟩ => some (.wallet site c, r)
    | ⟨.sys (.writeAuction a), r⟩ => some (.sys (.writeAuction a), r)
    | ⟨.sys (.appendBid b), r⟩ => some (.sys (.appendBid b), r)
    | ⟨.sys (.writeDispute d), r⟩ => some (.sys (.writeDispute d), r)
    | _ => none

/-- The status of the first message of a run: the answer to the client. -/
def answered (tr : List (Event ApiSig)) : Option ErrCode :=
  tr.findSome? fun e =>
    match e with
    | ⟨.sys (.send _ m), _⟩ => some m.status
    | _ => none

/-- The four files of money and bids hold the same records. -/
def Store.SameRecords (s s' : Store) : Prop :=
  s'.users = s.users ∧ s'.auctions = s.auctions ∧ s'.bids = s.bids ∧ s'.disputes = s.disputes

/-- What is left of a request, from `x` on: after an error the files are as in
`s`, and after `ERR_OK` the updates `ops` were made, in this order. -/
def Answers (fails : Nat → Bool) (s : Store) (ops : List ApiOp) (p : Prog ApiSig Unit)
    (x : Store × Nat) : Prop :=
  let tr := Prog.trace (Api.execFlaky fails) p x
  (∀ status, answered tr = some status → status ≠ .errOk →
    s.SameRecords (Prog.run (Api.execFlaky fails) p x).2.1) ∧
    (answered tr = some .errOk → tried tr = ops.map fun o => (o, 0))

/-- After an error the files are as before, and after `ERR_OK` every update of
the request was made. -/
def Transaction.AnswersMatch (fails : Nat → Bool) (clientFd : Int) (q : Transaction)
    (s : Store) : Prop :=
  Answers fails s (q.updates s) (q.prog clientFd) (s, 0)

/-! ## when they match -/

/-- No wallet function of the list refuses, each run after those before it. -/
def AllPass (users : List User) : List WalletCall → Prop
  | [] => True
  | c :: cs => c.Passes users ∧ AllPass (c.users users) cs

/-- From the last error return on, nothing fails and no wallet refuses. -/
def Transaction.Unharmed (fails : Nat → Bool) (s : Store) : Transaction → Prop
  | .placeBid req bidder =>
      ∀ a, readRec s.auctions req.auctionId = some a →
        ∀ u, readRec s.users bidder.userId = some u → Works fails 0 3 →
        a.status = .auctionOpen → req.amount ≤ u.walletBalance - u.walletHold →
        a.currentBid < req.amount →
        AllPass s.users (a.release ++ [.placeHold bidder.userId req.amount]) ∧
          Works fails 3 (2 * a.release.length + 5)
  | .fileDispute req _ =>
      ∀ a, readRec s.auctions req.auctionId = some a → Works fails 0 2 →
        a.status = .auctionClosed → fails 2 = false
  | .resolveDispute req moderator =>
      ∀ status, DisputeStatus.ofCode req.newStatus = some status → status ≠ .disputeOpen →
        ∀ d, readRec s.disputes req.disputeId = some d → fails 0 = false →
        d.status = .disputeOpen →
        match if fails 2 then none else readRec s.auctions d.auctionId with
        | none =>
            fails 1 = true ∨ writeRec .zero s.disputes d.disputeId
              (req.resolve moderator status s.clock d) = s.disputes
        | some a =>
            fails 1 = false ∧
              if status = .disputeResolved then
                AllPass s.users (a.refund s.users) ∧
                  Works fails 3 (3 * (a.refund s.users).length - 1)
              else fails 3 = false

section Requests

variable {fails : Nat → Bool} {clientFd : Int} {s : Store}

/-- The updates tried in two parts of a run. -/
@[simp] theorem tried_append (tr tr' : List (Event ApiSig)) :
    tried (tr ++ tr') = tried tr ++ tried tr' := List.filterMap_append

@[simp] theorem tried_wallet (site : Site) (c : WalletCall) (r : Int) (tr : List (Event ApiSig)) :
    tried (⟨.wallet site c, r⟩ :: tr) = (.wallet site c, r) :: tried tr := rfl

/-- The calls that are neither an answer nor an update. -/
def ApiOp.Uneventful : ApiOp → Prop
  | .wallet _ _ | .sys (.send _ _) | .sys (.writeAuction _) | .sys (.appendBid _)
  | .sys (.writeDispute _) => False
  | _ => True

section Steps

variable {ops : List ApiOp} {x : Store × Nat} {n : Nat}

/-- A call that neither answers nor updates can be passed over. -/
theorem answers_uneventful {o : ApiOp} {k : o.Res → Prog ApiSig Unit} (ho : o.Uneventful) :
    Answers fails s ops (.call o k) x ↔
      Answers fails s ops (k (Api.execFlaky fails o x).1) (Api.execFlaky fails o x).2 := by
  have htried (r : o.Res) (tr : List (Event ApiSig)) : tried (⟨o, r⟩ :: tr) = tried tr := by
    cases o with
    | wallet site c => exact ho.elim
    | sys op =>
        cases op with
        | send fd m | writeAuction a | appendBid b | writeDispute d => exact ho.elim
        | _ => rfl
  have hanswered (r : o.Res) (tr : List (Event ApiSig)) :
      answered (⟨o, r⟩ :: tr) = answered tr := by
    cases o with
    | wallet site c => exact ho.elim
    | sys op =>
        cases op with
        | send fd m | writeAuction a | appendBid b | writeDispute d => exact ho.elim
        | _ => rfl
  simp only [Answers, Prog.trace_call, Prog.run_call, htried, hanswered]

/-- Taking a lock can be passed over. -/
@[simp] theorem answers_lock (l : Lock) (k : Unit → Prog ApiSig Unit) :
    Answers fails s ops (.call (.sys (.lock l)) k) x ↔ Answers fails s ops (k ()) x :=
  answers_uneventful trivial

/-- So can freeing it. -/
@[simp] theorem answers_unlock (l : Lock) (k : Unit → Prog ApiSig Unit) :
    Answers fails s ops (.call (.sys (.unlock l)) k) x ↔ Answers fails s ops (k ()) x :=
  answers_uneventful trivial

/-- So can the clock. -/
@[simp] theorem answers_time (s' : Store) (k : Int → Prog ApiSig Unit) :
    Answers fails s ops (.call (.sys .time) k) (s', n) ↔
      Answers fails s ops (k s'.clock) (s', n) :=
  answers_uneventful trivial

/-- A read is no update: the handler goes on with what it finds, one call later. -/
theorem answers_readUser (s' : Store) (id : UInt32) (k : Option User → Prog ApiSig Unit) :
    Answers fails s ops (.call (.sys (.readUser id)) k) (s', n) ↔
      Answers fails s ops (k (if fails n then none else readRec s'.users id)) (s', n + 1) := by
  rw [answers_uneventful (o := .sys (.readUser id)) trivial, execFlaky_sys, execFlaky_readUser]

/-- The same for an auction. -/
theorem answers_readAuction (s' : Store) (id : UInt32) (k : Option Auction → Prog ApiSig Unit) :
    Answers fails s ops (.call (.sys (.readAuction id)) k) (s', n) ↔
      Answers fails s ops (k (if fails n then none else readRec s'.auctions id)) (s', n + 1) := by
  rw [answers_uneventful (o := .sys (.readAuction id)) trivial, execFlaky_sys,
    execFlaky_readAuction]

/-- The same for a dispute. -/
theorem answers_readDispute (s' : Store) (id : UInt32) (k : Option Dispute → Prog ApiSig Unit) :
    Answers fails s ops (.call (.sys (.readDispute id)) k) (s', n) ↔
      Answers fails s ops (k (if fails n then none else readRec s'.disputes id)) (s', n + 1) := by
  rw [answers_uneventful (o := .sys (.readDispute id)) trivial, execFlaky_sys,
    execFlaky_readDispute]

/-- An error is answered truthfully when nothing was changed. -/
theorem answers_error (type : MessageType) {status : ErrCode} (hstatus : status ≠ .errOk)
    (hx : s.SameRecords x.1) :
    Answers fails s ops (sendMsg clientFd type status .empty) x := by
  refine ⟨fun _ _ _ => ?_, fun hok => ?_⟩
  · exact hx
  · exact absurd (Option.some.inj hok) hstatus

end Steps

/-! ### filing a dispute -/

/-- The answer of `file_dispute` matches what it has done unless the last write fails. -/
theorem answersMatch_fileDispute (req : FileDisputePayload) (u : User) :
    (Transaction.fileDispute req u).AnswersMatch fails clientFd s ↔
      (Transaction.fileDispute req u).Unharmed fails s := by
  have hsame : s.SameRecords s := ⟨rfl, rfl, rfl, rfl⟩
  simp only [Transaction.AnswersMatch, Transaction.Unharmed, Transaction.prog, handleFileDispute,
    readAuction, Prog.bind_call, Prog.bind_pure, works_two]
  rw [answers_readAuction]
  cases h0 : fails 0 with
  | true => simpa using answers_error _ (by decide) hsame
  | false =>
      cases hr : readRec s.auctions req.auctionId with
      | none => simpa using answers_error _ (by decide) hsame
      | some a =>
          by_cases hst : a.status = .auctionClosed
          · cases h1 : fails 1 with
            | true => simp [h1, hst, Answers, answered, Store.SameRecords]
            | false =>
                cases h2 : fails 2 with
                | true => simp [h1, h2, hst, Answers, answered, tried, Transaction.updates, hr]
                | false =>
                    simp [h1, h2, hst, Answers, answered, tried, Transaction.updates, hr,
                      FileDisputePayload.dispute]
          · simpa [hst] using answers_error _ (by decide) hsame

/-! ### placing a bid -/

/-- What `recordBid` does after the release of the leader's hold. -/
def placeAndRecord (req : PlaceBidPayload) (bidder : User) (a : Auction) : Prog ApiSig Bid := do
  let _ ← wallet (.placeBid req.auctionId) (.placeHold bidder.userId req.amount)
  let _ ← writeAuction (a.withBid bidder.userId req.amount)
  let bidId ← nextBidId
  let placedAt ← time
  let _ ← appendBid (req.bid bidder bidId placedAt)
  pure (req.bid bidder bidId placedAt)

/-- The bid is recorded after the release of the leader's hold. -/
theorem recordBid_eq (req : PlaceBidPayload) (bidder : User) (a : Auction) :
    recordBid req bidder a =
      releaseLeader (.placeBid req.auctionId) a >>= fun _ => placeAndRecord req bidder a := rfl

/-- The updates of a bid whose auction was read, after the release. -/
def PlaceBidPayload.recordUpdates (req : PlaceBidPayload) (bidder : User) (a : Auction)
    (s : Store) : List ApiOp :=
  [.wallet (.placeBid req.auctionId) (.placeHold bidder.userId req.amount),
    .sys (.writeAuction (a.withBid bidder.userId req.amount)),
    .sys (.appendBid (req.bid bidder (nextRecId s.bids) s.clock))]

section PlaceBid

variable (fails : Nat → Bool) (clientFd : Int) (s : Store) (n : Nat) (req : PlaceBidPayload)
  (bidder : User) (a : Auction)

/-- The new hold, the auction and the bid are all written when the guard lets the hold pass and the
five calls work. -/
theorem tried_placeAndRecord :
    tried (Prog.trace (Api.execFlaky fails) (placeAndRecord req bidder a) (s, n)) =
        ((req.recordUpdates bidder a s).map fun o => (o, 0)) ↔
      (WalletCall.placeHold bidder.userId req.amount).Passes s.users ∧ Works fails n 5 := by
  rw [works_add fails n 3 2]
  simp only [placeAndRecord, wallet, writeAuction, nextBidId, time, appendBid, Prog.bind_call,
    Prog.bind_pure, Prog.trace_call]
  rcases execFlaky_wallet fails s n (.placeBid req.auctionId)
    (.placeHold bidder.userId req.amount) with ⟨hpass, hworks, hrun⟩ | ⟨hno, lines, n', hrun⟩
  · rw [hrun]
    have hworks : Works fails n 3 := hworks
    cases h3 : fails (n + 3) with
    | true => simp [h3, hpass, hworks, tried, PlaceBidPayload.recordUpdates, WalletCall.calls]
    | false =>
        cases h4 : fails (n + 4) with
        | true =>
            simp [h3, h4, hpass, hworks, tried, PlaceBidPayload.recordUpdates, WalletCall.calls]
        | false =>
            simp [h3, h4, hpass, hworks, tried, PlaceBidPayload.recordUpdates, Store.exec,
              Store.create, WalletCall.calls]
  · rw [hrun]
    refine iff_of_false ?_ fun h => hno ⟨h.1, h.2.1⟩
    simp [tried, PlaceBidPayload.recordUpdates]

/-- **The updates of a bid** all succeed when no wallet refuses and no call from
the release of the leader's hold on fails. -/
theorem tried_recordBid :
    tried (Prog.trace (Api.execFlaky fails) (recordBid req bidder a) (s, n)) =
        ((a.release.map (ApiOp.wallet (.placeBid req.auctionId)) ++
          req.recordUpdates bidder a s).map fun o => (o, 0)) ↔
      AllPass s.users (a.release ++ [.placeHold bidder.userId req.amount]) ∧
        Works fails n (2 * a.release.length + 5) := by
  by_cases hlead : a.highestBidderId = 0
  · rw [recordBid_eq, releaseLeader, if_neg (not_not.mpr hlead), Prog.pure_eq, Prog.bind_pure,
      Auction.release, if_neg (not_not.mpr hlead)]
    simpa [AllPass] using tried_placeAndRecord fails s n req bidder a
  · rw [recordBid_eq, releaseLeader, if_pos hlead, Auction.release, if_pos hlead]
    simp only [wallet, Prog.bind_call, Prog.bind_pure, Prog.trace_call]
    have hcount : 2 * [WalletCall.releaseHold a.highestBidderId a.currentBid].length + 5 =
      2 + 5 := rfl
    rw [hcount, works_add fails n 2 5]
    rcases execFlaky_wallet fails s n (.placeBid req.auctionId)
      (.releaseHold a.highestBidderId a.currentBid) with
      ⟨hpass, hworks, hrun⟩ | ⟨hno, lines, n', hrun⟩
    · rw [hrun]
      have hworks : Works fails n 2 := hworks
      have htail := tried_placeAndRecord fails
        (Api.exec (.wallet (.placeBid req.auctionId)
          (.releaseHold a.highestBidderId a.currentBid)) s).2 (n + 2) req bidder a
      simp only [PlaceBidPayload.recordUpdates, exec_wallet_bids, exec_wallet_clock,
        exec_wallet_users] at htail
      rw [tried_wallet]
      simp only [List.map_cons, List.map_nil, List.cons_append, List.nil_append,
        List.cons.injEq, true_and, AllPass, hpass, hworks, and_true]
      exact htail
    · rw [hrun]
      refine iff_of_false ?_ fun h => hno ⟨h.1.1, h.2.1⟩
      rw [tried_wallet]
      simp

/-- The first answer counts. -/
@[simp] theorem answered_append (tr tr' : List (Event ApiSig)) :
    answered (tr ++ tr') = (answered tr).or (answered tr') := List.findSome?_append

/-- Recording a bid answers nothing yet. -/
theorem answered_recordBid (x : Store × Nat) :
    answered (Prog.trace (Api.execFlaky fails) (recordBid req bidder a) x) = none := by
  by_cases hlead : a.highestBidderId = 0 <;> simp [recordBid, releaseLeader, hlead, answered]

/-- What follows the semaphore: the answer, the log and a notification. -/
def answerBid (clientFd : Int) (req : PlaceBidPayload) (bidder : User) (a : Auction) (b : Bid) :
    Prog ApiSig Unit := do
  unlock (auctionSem req.auctionId)
  sendMsg clientFd .msgPlaceBidResp .errOk (.bid b)
  logTxn (.bid req.auctionId bidder.userId req.amount)
  if a.highestBidderId ≠ 0 ∧ a.highestBidderId ≠ bidder.userId then
    notifyOutbid a.highestBidderId req.auctionId req.amount
  else pure ()

/-- A notification updates nothing. -/
theorem tried_pushNotification (userId : UInt32) (type : MessageType) (payload : Payload)
    (x : Store × Nat) :
    tried (Prog.trace (Api.execFlaky fails) (pushNotification userId type payload) x) = [] := by
  simp only [pushNotification, lock, lookupFd, unlock, Prog.bind_call, Prog.bind_pure,
    Prog.trace_call]
  split <;> simp [tried]

/-- Nothing is updated once the bid is answered. -/
theorem trace_answerBid (b : Bid) (x : Store × Nat) :
    tried (Prog.trace (Api.execFlaky fails) (answerBid clientFd req bidder a b) x) = [] ∧
      answered (Prog.trace (Api.execFlaky fails) (answerBid clientFd req bidder a b) x) =
        some .errOk := by
  refine ⟨?_, by simp [answerBid, answered]⟩
  simp only [answerBid, unlock, sendMsg, logTxn, Prog.bind_call, Prog.bind_pure, Prog.trace_call]
  split
  · exact tried_pushNotification fails _ _ _ _
  · rfl

/-- From the second reading of the auction on, nothing but the updates is left. -/
theorem answers_recorded :
    Answers fails s ((a.release.map (ApiOp.wallet (.placeBid req.auctionId)) ++
        req.recordUpdates bidder a s))
      (recordBid req bidder a >>= answerBid clientFd req bidder a) (s, n) ↔
      AllPass s.users (a.release ++ [.placeHold bidder.userId req.amount]) ∧
        Works fails n (2 * a.release.length + 5) := by
  rw [← tried_recordBid]
  simp only [Answers, Prog.trace_bind, answered_append, tried_append, answered_recordBid,
    (trace_answerBid fails clientFd req bidder a _ _).1,
    (trace_answerBid fails clientFd req bidder a _ _).2]
  simp

/-- `handle_place_bid` from the semaphore on. -/
theorem answers_placeBidLocked (hr : readRec s.auctions req.auctionId = some a)
    (hst : a.status = .auctionOpen) :
    Answers fails s ((Transaction.placeBid req bidder).updates s)
        (placeBidLocked clientFd req bidder) (s, n) ↔
      (fails n = false → a.currentBid < req.amount →
        AllPass s.users (a.release ++ [.placeHold bidder.userId req.amount]) ∧
          Works fails (n + 1) (2 * a.release.length + 5)) := by
  have hsame : s.SameRecords s := ⟨rfl, rfl, rfl, rfl⟩
  simp only [placeBidLocked, getAuctionSem, lock, unlock, readAuction, Prog.bind_call,
    Prog.bind_pure, Prog.pure_eq, answers_lock, answers_unlock, answers_readAuction, hr]
  cases hn : fails n with
  | true => simpa using answers_error _ (by decide) hsame
  | false =>
      by_cases hlow : req.amount ≤ a.currentBid
      · simpa [hst, hlow, not_lt.mpr hlow] using answers_error _ (by decide) hsame
      · have hrest := answers_recorded fails clientFd s (n + 1) req bidder a
        have hupdates : (Transaction.placeBid req bidder).updates s =
            a.release.map (ApiOp.wallet (.placeBid req.auctionId)) ++
              req.recordUpdates bidder a s := by
          simp [Transaction.updates, hr, PlaceBidPayload.recordUpdates]
        simp only [hupdates, hst, hlow, lt_of_not_ge hlow, Bool.false_eq_true, if_false, ne_eq,
          not_true_eq_false, forall_true_left]
        exact hrest

/-- The answer of `place_bid` matches what it has done unless something goes wrong after the
checks. -/
theorem answersMatch_placeBid :
    (Transaction.placeBid req bidder).AnswersMatch fails clientFd s ↔
      (Transaction.placeBid req bidder).Unharmed fails s := by
  have hsame : s.SameRecords s := ⟨rfl, rfl, rfl, rfl⟩
  simp only [Transaction.AnswersMatch, Transaction.Unharmed, Transaction.prog, handlePlaceBid,
    readAuction, readUser, Prog.bind_call, Prog.bind_pure, works_add fails 0 1 2, works_one,
    works_two]
  rw [answers_readAuction]
  cases h0 : fails 0 with
  | true => simpa using answers_error _ (by decide) hsame
  | false =>
      cases hr : readRec s.auctions req.auctionId with
      | none => simpa using answers_error _ (by decide) hsame
      | some a =>
          by_cases hst : a.status = .auctionOpen
          · simp only [hst, Bool.false_eq_true, if_false, ne_eq, not_true_eq_false]
            rw [answers_readUser]
            cases h1 : fails 1 with
            | true => simpa [h1] using answers_error _ (by decide) hsame
            | false =>
                cases hu : readRec s.users bidder.userId with
                | none => simpa using answers_error _ (by decide) hsame
                | some u =>
                    rcases lt_or_ge (u.walletBalance - u.walletHold) req.amount with hlt | hle
                    · simpa [h1, hlt, not_le.mpr hlt] using answers_error _ (by decide) hsame
                    · simpa [h1, hst, hle, not_lt.mpr hle] using
                        answers_placeBidLocked fails clientFd s 2 req bidder a hr hst
          · simpa [hst] using answers_error _ (by decide) hsame

end PlaceBid

/-! ### resolving a dispute -/

section Resolve

variable (fails : Nat → Bool) (clientFd : Int) (s : Store) (n : Nat) (d : Dispute) (a : Auction)

@[simp] theorem tried_logTxn (line : LogLine) (r : Unit) (tr : List (Event ApiSig)) :
    tried (⟨.sys (.logTxn line), r⟩ :: tr) = tried tr := rfl

/-- The seller's side of a refund. -/
def debitSeller (d : Dispute) (a : Auction) : Option User → Prog ApiSig Unit
  | none => pure ()
  | some seller =>
      if seller.walletBalance ≥ a.currentBid then do
        let _ ← wallet (.resolve d.disputeId) (.creditWallet a.sellerId (-a.currentBid))
        pure ()
      else logTxn .refundAnomaly

@[simp] theorem tried_readUser (id : UInt32) (r : Option User) (tr : List (Event ApiSig)) :
    tried (⟨.sys (.readUser id), r⟩ :: tr) = tried tr := rfl

/-- **The seller's side**: whatever is due is tried and succeeds when its calls
do and the wallet does not refuse. -/
theorem tried_debitSeller :
    tried (Prog.trace (Api.execFlaky fails)
        (.call (.sys (.readUser a.sellerId)) fun r => debitSeller d a r) (s, n)) =
        (((a.debit s.users).map (ApiOp.wallet (.resolve d.disputeId))).map fun o => (o, 0)) ↔
      AllPass s.users (a.debit s.users) ∧ Works fails n (3 * (a.debit s.users).length) := by
  rw [Prog.trace_call, execFlaky_sys, execFlaky_readUser, tried_readUser, Auction.debit]
  cases hr : readRec s.users a.sellerId with
  | none => simp [debitSeller, AllPass, tried]
  | some seller =>
      by_cases hge : seller.walletBalance ≥ a.currentBid
      · simp only [if_pos hge]
        cases hn : fails n with
        | true => simp [debitSeller, works_add fails n 1 2, hn, tried]
        | false =>
            simp only [debitSeller, Bool.false_eq_true, if_false, if_pos hge, wallet,
              Prog.bind_call, Prog.bind_pure, Prog.trace_call]
            rcases execFlaky_wallet fails s (n + 1) (.resolve d.disputeId)
              (.creditWallet a.sellerId (-a.currentBid)) with
              ⟨hpass, hworks, hrun⟩ | ⟨hno, lines, n', hrun⟩
            · rw [hrun, tried_wallet]
              have hworks : Works fails (n + 1) 2 := hworks
              simp [AllPass, hpass, works_add fails n 1 2, hn, hworks, tried]
            · rw [hrun, tried_wallet]
              refine iff_of_false (by simp) fun h => hno ⟨h.1.1, ?_⟩
              exact ((works_add fails n 1 2).mp h.2).2
      · simp only [if_neg hge]
        cases hn : fails n <;> simp [debitSeller, hge, AllPass, tried]

/-- The refund is complete when every guard lets it pass and every call works. -/
theorem tried_refund :
    tried (Prog.trace (Api.execFlaky fails) (refund d a) (s, n)) =
        (((a.refund s.users).map (ApiOp.wallet (.resolve d.disputeId))).map fun o => (o, 0)) ↔
      AllPass s.users (a.refund s.users) ∧
        Works fails n (3 * (a.refund s.users).length - 1) := by
  let credit : WalletCall := .creditWallet a.highestBidderId a.currentBid
  let logged : Store := s.putLines
    [.walRefund d.disputeId a.auctionId a.highestBidderId a.sellerId a.currentBid]
  have htrace : tried (Prog.trace (Api.execFlaky fails) (refund d a) (s, n)) =
      (.wallet (.resolve d.disputeId) credit,
          (Api.execFlaky fails (.wallet (.resolve d.disputeId) credit) (logged, n)).1) ::
        tried (Prog.trace (Api.execFlaky fails)
          (.call (.sys (.readUser a.sellerId)) fun r => debitSeller d a r)
          (Api.execFlaky fails (.wallet (.resolve d.disputeId) credit) (logged, n)).2) := rfl
  have hcount : 3 * (a.refund s.users).length - 1 =
      2 + 3 * (a.debit (credit.users s.users)).length := by
    have hlen : (a.refund s.users).length = (a.debit (credit.users s.users)).length + 1 := rfl
    omega
  have hrefund : a.refund s.users = credit :: a.debit (credit.users s.users) := rfl
  rw [htrace, hcount, works_add, hrefund]
  simp only [List.map_cons, AllPass]
  rcases execFlaky_wallet fails logged n (.resolve d.disputeId) credit with
    ⟨hpass, hworks, hrun⟩ | ⟨hno, lines, n', hrun⟩
  · have hpass : credit.Passes s.users := hpass
    have hworks : Works fails n 2 := hworks
    have hdebit := tried_debitSeller fails (Api.exec (.wallet (.resolve d.disputeId) credit)
      logged).2 (n + 2) d a
    rw [exec_wallet_users] at hdebit
    rw [hrun]
    simp only [List.cons.injEq, true_and, hpass, hworks]
    exact hdebit
  · rw [hrun]
    exact iff_of_false (by simp) fun h => hno ⟨h.1.1, h.2.1⟩

/-- What is written to conclude a dispute whose record has this status. -/
def Auction.conclusion (a : Auction) (d : Dispute) (users : List User) : List ApiOp :=
  if d.status = .disputeResolved then (a.refund users).map (.wallet (.resolve d.disputeId))
  else [.sys (.writeAuction (a.withStatus .auctionClosed))]

/-- The conclusion is complete when its refund is, or the auction is written. -/
theorem tried_concludeDispute :
    tried (Prog.trace (Api.execFlaky fails) (concludeDispute d a) (s, n)) =
        ((a.conclusion d s.users).map fun o => (o, 0)) ↔
      if d.status = .disputeResolved then
        AllPass s.users (a.refund s.users) ∧ Works fails n (3 * (a.refund s.users).length - 1)
      else fails n = false := by
  unfold concludeDispute Auction.conclusion
  split
  · exact tried_refund fails s n d a
  · cases hn : fails n <;> simp [hn, tried]

/-- The conclusion answers nothing yet. -/
theorem answered_concludeDispute (x : Store × Nat) :
    answered (Prog.trace (Api.execFlaky fails) (concludeDispute d a) x) = none := by
  have hdebit (r : Option User) (x : Store × Nat) :
      answered (Prog.trace (Api.execFlaky fails) (debitSeller d a r) x) = none := by
    unfold debitSeller
    split
    · rfl
    · split <;> simp [answered]
  unfold concludeDispute
  split
  · exact hdebit _ _
  · simp [answered]

/-- What `handle_resolve_dispute` does once it has written the dispute. -/
def concludeAndAnswer (clientFd : Int) (moderator : User) (d : Dispute) :
    Option Auction → Prog ApiSig Unit
  | none => sendMsg clientFd .msgResolveDisputeResp .errInternal .empty
  | some a => do
      concludeDispute d a
      sendMsg clientFd .msgResolveDisputeResp .errOk (.dispute d)
      logTxn (.resolveDispute d.disputeId d.status moderator.userId)

/-- `handle_resolve_dispute` with one of the two statuses that it accepts. -/
def resolveWith (clientFd : Int) (req : ResolveDisputePayload) (moderator : User)
    (status : DisputeStatus) : Prog ApiSig Unit := do
  match ← readDispute req.disputeId with
  | none => sendMsg clientFd .msgResolveDisputeResp .errNotFound .empty
  | some d =>
      if d.status ≠ .disputeOpen then
        sendMsg clientFd .msgResolveDisputeResp .errInternal .empty
      else do
        let resolvedAt ← time
        let _ ← writeDispute (req.resolve moderator status resolvedAt d)
        let r ← readAuction d.auctionId
        concludeAndAnswer clientFd moderator (req.resolve moderator status resolvedAt d) r

/-- With a valid status `resolve_dispute` is reading the dispute and resolving it. -/
theorem handleResolveDispute_eq {req : ResolveDisputePayload} {moderator : User}
    {status : DisputeStatus} (hcode : DisputeStatus.ofCode req.newStatus = some status)
    (hopen : status ≠ .disputeOpen) :
    handleResolveDispute clientFd req moderator = resolveWith clientFd req moderator status := by
  unfold handleResolveDispute
  rw [hcode]
  cases status with
  | disputeOpen => exact absurd rfl hopen
  | disputeResolved => rfl
  | disputeRejected => rfl

/-- The answer that follows updates nothing. -/
theorem trace_concludeAndAnswer (moderator : User) (x : Store × Nat) :
    tried (Prog.trace (Api.execFlaky fails) (concludeAndAnswer clientFd moderator d (some a)) x) =
        tried (Prog.trace (Api.execFlaky fails) (concludeDispute d a) x) ∧
      answered (Prog.trace (Api.execFlaky fails)
        (concludeAndAnswer clientFd moderator d (some a)) x) = some .errOk := by
  simp only [concludeAndAnswer, Prog.trace_bind, tried_append, answered_append,
    answered_concludeDispute]
  simp [tried, answered]

/-- From the writing of the dispute on: `d` was read, and `d'` is to be written. -/
theorem answers_resolved (moderator : User) (d' : Dispute) (hid : d'.disputeId = d.disputeId) :
    Answers fails s (.sys (.writeDispute d') ::
        match readRec s.auctions d.auctionId with
        | none => []
        | some a => a.conclusion d' s.users)
      (do
        let _ ← writeDispute d'
        let r ← readAuction d.auctionId
        concludeAndAnswer clientFd moderator d' r) (s, 1) ↔
      match if fails 2 then none else readRec s.auctions d.auctionId with
      | none => fails 1 = true ∨ writeRec .zero s.disputes d.disputeId d' = s.disputes
      | some a =>
          fails 1 = false ∧
            if d'.status = .disputeResolved then
              AllPass s.users (a.refund s.users) ∧ Works fails 3 (3 * (a.refund s.users).length - 1)
            else fails 3 = false := by
  have hanswered (r : Int) (r' : Option Auction) (tr : List (Event ApiSig)) :
      answered (⟨.sys (.writeDispute d'), r⟩ :: ⟨.sys (.readAuction d.auctionId), r'⟩ :: tr) =
        answered tr := rfl
  have htried (r : Int) (r' : Option Auction) (tr : List (Event ApiSig)) :
      tried (⟨.sys (.writeDispute d'), r⟩ :: ⟨.sys (.readAuction d.auctionId), r'⟩ :: tr) =
        (.sys (.writeDispute d'), r) :: tried tr := rfl
  have hauctions : (Store.exec (.writeDispute d') s).2.auctions = s.auctions := rfl
  have husers : (Store.exec (.writeDispute d') s).2.users = s.users := rfl
  have hdisputes : (Store.exec (.writeDispute d') s).2.disputes =
      writeRec .zero s.disputes d.disputeId d' := hid ▸ rfl
  simp only [Answers, writeDispute, readAuction, Prog.bind_call, Prog.bind_pure, Prog.trace_call,
    Prog.run_call, execFlaky_sys, execFlaky_writeDispute, execFlaky_readAuction, hanswered, htried]
  have herror (P : Prop) (x : Store × Nat) (h : answered (Prog.trace (Api.execFlaky fails)
      (concludeAndAnswer clientFd moderator d' none) x) = some .errOk) : P :=
    absurd (Option.some.inj h) (by decide)
  cases h1 : fails 1 with
  | true =>
      simp only [if_true]
      cases hra : if fails (1 + 1) = true then none else readRec s.auctions d.auctionId with
      | none => exact iff_of_true ⟨fun _ _ _ => ⟨rfl, rfl, rfl, rfl⟩, herror _ _⟩ (.inl trivial)
      | some a =>
          refine iff_of_false (fun h => ?_) (by simp)
          have htried := h.2 (trace_concludeAndAnswer fails clientFd d' a moderator _).2
          simp at htried
  | false =>
      simp only [Bool.false_eq_true, if_false, hauctions]
      cases hra : if fails (1 + 1) = true then none else readRec s.auctions d.auctionId with
      | none =>
          simp only [false_or]
          constructor
          · intro h
            exact hdisputes ▸ (h.1 .errInternal rfl (by decide)).2.2.2
          · intro h
            exact ⟨fun _ _ _ => ⟨rfl, rfl, rfl, hdisputes.trans h⟩, herror _ _⟩
      | some a =>
          have hread : readRec s.auctions d.auctionId = some a := by
            split at hra
            · cases hra
            · exact hra
          have hconclude := tried_concludeDispute fails (Store.exec (.writeDispute d') s).2 3 d' a
          obtain ⟨htr, hans⟩ := trace_concludeAndAnswer fails clientFd d' a moderator
            ((Store.exec (.writeDispute d') s).2, 3)
          rw [husers] at hconclude
          simp only [htr, hans, hread, List.map_cons, List.cons.injEq, true_and, forall_true_left]
          rw [hconclude]
          simp

/-- `resolve_dispute` answers as it does unless the write of the dispute or its conclusion goes
wrong. -/
theorem answersMatch_resolveDispute (req : ResolveDisputePayload) (moderator : User) :
    (Transaction.resolveDispute req moderator).AnswersMatch fails clientFd s ↔
      (Transaction.resolveDispute req moderator).Unharmed fails s := by
  have hsame : s.SameRecords s := ⟨rfl, rfl, rfl, rfl⟩
  simp only [Transaction.AnswersMatch, Transaction.Unharmed, Transaction.prog]
  have hrefused (h : DisputeStatus.ofCode req.newStatus = none ∨
      DisputeStatus.ofCode req.newStatus = some .disputeOpen) :
      Answers fails s ((Transaction.resolveDispute req moderator).updates s)
        (handleResolveDispute clientFd req moderator) (s, 0) := by
    unfold handleResolveDispute
    rcases h with h | h
    · rw [h]
      exact answers_error _ (by decide) hsame
    · rw [h]
      exact answers_error _ (by decide) hsame
  cases hcode : DisputeStatus.ofCode req.newStatus with
  | none => simpa using hrefused (.inl hcode)
  | some status =>
      by_cases hopen : status = .disputeOpen
      · subst hopen
        exact iff_of_true (hrefused (.inr hcode)) fun _ hst hne =>
          absurd (Option.some.inj hst).symm hne
      · rw [handleResolveDispute_eq clientFd hcode hopen]
        simp only [resolveWith, readDispute, Prog.bind_call, Prog.bind_pure]
        rw [answers_readDispute]
        cases h0 : fails 0 with
        | true => simpa using answers_error _ (by decide) hsame
        | false =>
            cases hd : readRec s.disputes req.disputeId with
            | none => simpa using answers_error _ (by decide) hsame
            | some d =>
                by_cases hst : d.status = .disputeOpen
                · have hmain := answers_resolved fails clientFd s d moderator
                    (req.resolve moderator status s.clock d) rfl
                  have hupdates : (Transaction.resolveDispute req moderator).updates s =
                      .sys (.writeDispute (req.resolve moderator status s.clock d)) ::
                        match readRec s.auctions d.auctionId with
                        | none => []
                        | some a =>
                            a.conclusion (req.resolve moderator status s.clock d) s.users := by
                    simp only [Transaction.updates, hcode, hd]
                    rfl
                  simp only [Option.some.injEq, forall_eq', hst, hopen, hupdates,
                    Bool.false_eq_true, if_false, ne_eq, not_true_eq_false, not_false_eq_true,
                    forall_true_left, time, Prog.bind_call, Prog.bind_pure, answers_time]
                  exact hmain
                · simpa [hst] using answers_error _ (by decide) hsame

end Resolve

/-- **Answers match effects** exactly when nothing goes wrong after the last
error return of the handler. -/
theorem answersMatch_iff (fails : Nat → Bool) (clientFd : Int) (s : Store) (q : Transaction) :
    q.AnswersMatch fails clientFd s ↔ q.Unharmed fails s := by
  cases q with
  | placeBid req bidder => exact answersMatch_placeBid fails clientFd s req bidder
  | fileDispute req u => exact answersMatch_fileDispute req u
  | resolveDispute req moderator => exact answersMatch_resolveDispute fails clientFd s req moderator

end Requests

/-- The dispute is stored and answered for, but the auction stays `CLOSED`. -/
theorem not_answersMatch :
    ¬ (Transaction.fileDispute ⟨1, .zero _⟩ (.sample 2 roleBidder 100 10)).AnswersMatch (· == 2) 5
      .closedMarket := by
  intro h
  have hwritten := (answersMatch_fileDispute _ _).mp h _ rfl (by decide) rfl
  exact absurd hwritten (by decide)

end OnlineAuction
