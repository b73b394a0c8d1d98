import OnlineAuction.Ledger
import OnlineAuction.Lib.RelyGuarantee
import OnlineAuction.Server
import OnlineAuction.Threads

/-!
# OnlineAuction.Books

The books of bidding and closing threads.

Several threads place bids, deposit and close auctions (`Job`).  A bid or a
close moves money in several steps, and in between the holds do not match the
auctions.  So the books are kept by auction: the `Account` of an auction is its
record, its cover, the bids placed on it and the wallet calls made to close it.
A thread that has begun to move money for an auction owns its account; the
accounts that nobody owns are `AtRest`, which is what the results about
bidding and closing amount to.

`Books` is the ghost state (cover and owners), `Kept` the invariant, `Rely` what
a thread may expect of the others.
-/

namespace OnlineAuction

/-! ## jobs -/

/-- A request or a turn of the timer that moves money. -/
inductive Job
  | placeBid (clientFd : Int) (req : PlaceBidPayload) (bidder : User)
  | deposit (clientFd : Int) (req : DepositPayload) (user : User)
  | close (clientFd : Int) (req : CloseAuctionPayload) (requester : User)
  | timerClose (auctionId : UInt32)
  | timerPass

namespace Job

/-- The program of a job. -/
def prog : Job → Prog ApiSig Unit
  | .placeBid clientFd req bidder => handlePlaceBid clientFd req bidder
  | .deposit clientFd req user => do
      let _ ← handleDeposit clientFd req user
      pure ()
  | .close clientFd req requester => handleCloseAuction clientFd req requester
  | .timerClose auctionId => OnlineAuction.timerClose auctionId
  | .timerPass => OnlineAuction.timerPass

/-- The job is a bid of this user on this auction. -/
def Bids (auctionId userId : UInt32) : Job → Prop
  | .placeBid _ req bidder => req.auctionId = auctionId ∧ bidder.userId = userId
  | _ => False

/-- The job may close this auction. -/
def Closes (auctionId : UInt32) : Job → Prop
  | .close _ req _ => req.auctionId = auctionId
  | .timerClose id => id = auctionId
  | .timerPass => True
  | _ => False

/-- The job deposits into this user's wallet. -/
def Deposits (userId : UInt32) : Job → Prop
  | .deposit _ _ user => user.userId = userId
  | _ => False

/-- What the job adds to this user's balance by itself. -/
def deposited (userId : UInt32) : Job → ℚ
  | .deposit _ req user => if user.userId = userId ∧ 0 < req.amount then req.amount else 0
  | _ => 0

end Job

/-- What the threads have to do, and which auctions only one thread may close
and which wallets only one thread may pay into. -/
structure Plan (ι : Type) where
  first : Store
  jobs : ι → List Job
  closer : UInt32 → Option ι
  depositor : UInt32 → Option ι

/-- The jobs keep to the plan: bidders and depositors exist, nobody bids on two
auctions in two threads at once, auctions with a closer are closed by it alone
and get no bids, and wallets are paid into by their depositors. -/
structure Plan.Orderly {ι : Type} (plan : Plan ι) : Prop where
  bidder_mem : ∀ t, ∀ j ∈ plan.jobs t, ∀ a u, j.Bids a u → ∃ x ∈ plan.first.users, x.userId = u
  depositor_mem : ∀ t, ∀ j ∈ plan.jobs t, ∀ u, j.Deposits u → ∃ x ∈ plan.first.users, x.userId = u
  one_auction : ∀ t t' a a' u, t ≠ t' → (∃ j ∈ plan.jobs t, j.Bids a u) →
    (∃ j ∈ plan.jobs t', j.Bids a' u) → a = a'
  open_to_bids : ∀ t, ∀ j ∈ plan.jobs t, ∀ a u, j.Bids a u → plan.closer a = none
  closer : ∀ t, ∀ j ∈ plan.jobs t, ∀ a, j.Closes a → ∀ t', plan.closer a = some t' → t' = t
  depositor : ∀ t, ∀ j ∈ plan.jobs t, ∀ u, j.Deposits u → plan.depositor u = some t

/-! ## accounts -/

/-- What is kept of one auction. -/
structure Account where
  record : Option Auction
  cover : UInt32 → ℚ
  placed : List (UInt32 × ℚ)
  calls : List WalletCall

/-- The auction of the account is open. -/
def Account.IsOpen (x : Account) : Prop := ∃ a ∈ x.record, a.status = .auctionOpen

/-- The auction of the account is `a`, perhaps with another status. -/
def Account.RecordOf (x : Account) (a : Auction) : Prop :=
  ∃ status, x.record = some (a.withStatus status)

/-- The wallet calls of a complete close of `a`. -/
def Auction.closingCalls (a : Auction) : List WalletCall :=
  if a.Settles then
    [.settlePayment a.highestBidderId a.currentBid, .creditWallet a.sellerId a.currentBid]
  else if a.highestBidderId ≠ 0 then [.releaseHold a.highestBidderId a.currentBid]
  else []

/-- The wallet calls that have closed an auction which was `a₀` and is `a`. -/
def callsBetween (a₀ a : Auction) : List WalletCall :=
  if a₀.status = .auctionOpen ∧ a.status ≠ .auctionOpen then a.closingCalls else []

/-- The auction after bids, in order. -/
def Auction.withBids (a : Auction) (placed : List (UInt32 × ℚ)) : Auction :=
  placed.foldl (fun a b => a.withBid b.1 b.2) a

/-- What never changes of an auction. -/
def Auction.fixed (a : Auction) : UInt32 × UInt32 := (a.auctionId, a.sellerId)

/-- An account in which no money is moving: the cover is what the auction
holds, the calls are those of a close if it has been closed, and the record is
the first one with the bids placed since, each higher than the one before. -/
structure AtRest (a₀ a : Auction) (x : Account) : Prop where
  record : x.record = some a
  cover : ∀ u, u ≠ 0 → x.cover u = a.heldFor u
  calls : x.calls = callsBetween a₀ a
  status : a.status = a₀.status ∨ a₀.status = .auctionOpen ∧ a.status = .auctionClosed
  bids : a = (a₀.withBids x.placed).withStatus a.status
  increasing : (a₀.currentBid :: x.placed.map Prod.snd).IsChain (· < ·)

/-! ## the log -/

section Log

variable {ι : Type}

/-- The wallet call that an event is, if it was made to close this auction. -/
def closeCall (auctionId : UInt32) : Event ApiSig → Option WalletCall
  | ⟨.wallet (.close id) c, _⟩ => if id = auctionId then some c else none
  | _ => none

/-- The wallet calls made to close an auction. -/
def closeCalls (auctionId : UInt32) (log : List (ι × Event ApiSig)) : List WalletCall :=
  log.filterMap fun e => closeCall auctionId e.2

/-- What a call adds to the balance of a user. -/
def WalletCall.payment (userId : UInt32) : WalletCall → ℚ
  | .settlePayment id amount => if id = userId then -amount else 0
  | .creditWallet id amount => if id = userId then amount else 0
  | _ => 0

/-- What the closing of an auction has added to the balance of a user. -/
def paid (log : List (ι × Event ApiSig)) : Cover := fun auctionId userId =>
  ((closeCalls auctionId log).map (WalletCall.payment userId)).sum

/-- What an event adds to the balance of a user as a deposit. -/
def depositOf (userId : UInt32) : Event ApiSig → ℚ
  | ⟨.wallet .deposit c, _⟩ => c.payment userId
  | _ => 0

/-- What the deposits have added to the balance of a user. -/
def depositedIn (log : List (ι × Event ApiSig)) (userId : UInt32) : ℚ :=
  (log.map fun e => depositOf userId e.2).sum

end Log

/-- The bids placed on an auction after the first `n` of the file. -/
def placedOn (n : Nat) (auctionId : UInt32) (bids : List Bid) : List (UInt32 × ℚ) :=
  ((bids.drop n).filter (·.auctionId = auctionId)).map fun b => (b.bidderId, b.amount)

/-! ## the books -/

/-- The ghost state: the cover, and which thread is moving money for an
auction. -/
structure Books (ι : Type) where
  cover : Cover
  owner : UInt32 → Option ι

/-- The shared state with the log of the calls, and the books. -/
abbrev World (ι : Type) : Type := (Shared ι × List (ι × Event ApiSig)) × Books ι

section Worlds

variable {ι : Type}

namespace World

abbrev store (w : World ι) : Store := w.1.1.store
abbrev held (w : World ι) : Lock → Option ι := w.1.1.held
abbrev log (w : World ι) : List (ι × Event ApiSig) := w.1.2
abbrev owner (w : World ι) : UInt32 → Option ι := w.2.owner
abbrev cover (w : World ι) : Cover := w.2.cover

end World

variable (plan : Plan ι)

/-- The account of an auction. -/
def account (w : World ι) (auctionId : UInt32) : Account where
  record := readRec w.store.auctions auctionId
  cover := w.cover auctionId
  placed := placedOn plan.first.bids.length auctionId w.store.bids
  calls := closeCalls auctionId w.log

/-- What a user has left for an auction: the available funds and what the
auction already covers. -/
def slack (w : World ι) (auctionId userId : UInt32) : ℚ :=
  match readRec w.store.users userId with
  | some u => u.walletBalance - u.walletHold + w.cover auctionId userId
  | none => 0

/-- The books are kept. -/
structure Kept (w : World ι) : Prop where
  covered : Covered w.cover w.store.users w.store.auctions
  balance : ∀ u ∈ w.store.users, ∀ u₀ ∈ readRec plan.first.users u.userId,
    u.walletBalance = u₀.walletBalance + depositedIn w.log u.userId +
      (paid w.log).total w.store.auctions u.userId
  userIds : w.store.users.map User.userId = plan.first.users.map User.userId
  fixed : w.store.auctions.map Auction.fixed = plan.first.auctions.map Auction.fixed
  bids_le : plan.first.bids.length ≤ w.store.bids.length
  atRest : ∀ i, ∀ a₀ ∈ readRec plan.first.auctions i, w.owner i = none →
    ∃ a, AtRest a₀ a (account plan w i)
  calls : ∀ i, ∀ a₀ ∈ readRec plan.first.auctions i, ∀ a ∈ readRec w.store.auctions i,
    closeCalls i w.log <+: callsBetween a₀ a
  locked : ∀ i t, w.owner i = some t → (account plan w i).IsOpen →
    w.held (auctionSem i) = some t
  closer : ∀ i t, plan.closer i = some t → w.owner i = none ∨ w.owner i = some t
  undeposited : ∀ u, plan.depositor u = none → depositedIn w.log u = 0
  unbid : ∀ i, (∀ t, ∀ j ∈ plan.jobs t, ∀ u, ¬ j.Bids i u) →
    (account plan w i).placed = [] ∧ ∀ a₀ ∈ readRec plan.first.auctions i,
      (account plan w i).RecordOf a₀

/-- An auction that is not open stays as it is, and gets no bids. -/
def Final (w w' : World ι) : Prop :=
  ∀ i, ¬ (account plan w i).IsOpen → (account plan w' i).record = (account plan w i).record ∧
    (account plan w' i).placed = (account plan w i).placed

/-- What thread `t` may expect of the others. -/
structure Rely (t : ι) (w w' : World ι) : Prop where
  final : Final plan w w'
  owned : ∀ i, w.owner i = some t → w'.owner i = some t ∧ account plan w' i = account plan w i
  owner : ∀ i, w'.owner i = some t → w.owner i = some t
  closer : ∀ i, plan.closer i = some t →
    w'.owner i = w.owner i ∧ account plan w' i = account plan w i
  sem : ∀ n, w.held (.auctionSem n) = some t → w'.held (.auctionSem n) = some t
  slack : ∀ j ∈ plan.jobs t, ∀ i u, j.Bids i u → (account plan w' i).IsOpen →
    slack w i u ≤ slack w' i u
  deposited : ∀ u, plan.depositor u = some t → depositedIn w'.log u = depositedIn w.log u

/-- A call that appends a bid on an auction. -/
def Appends (auctionId : UInt32) : ApiOp → Prop
  | .sys (.appendBid b) => b.auctionId = auctionId
  | _ => False

/-- The closing of an auction: only of an open one that is at rest and that
the thread has seen as it is; or by the one thread that closes it. -/
def MayClose (t : ι) (op : ApiOp) (w : World ι) : Prop :=
  ∀ a, op = .sys (.writeAuction a) → a.status = .auctionClosed →
    plan.closer a.auctionId = some t ∨
      readRec w.store.auctions a.auctionId = some (a.withStatus .auctionOpen) ∧
        w.owner a.auctionId = none

/-- A thread closes only what its jobs may close. -/
def Entitled (t : ι) : Prog ApiSig Unit → Prop
  | .call (.sys (.writeAuction a)) _ =>
      a.status = .auctionClosed → ∃ j ∈ plan.jobs t, j.Closes a.auctionId
  | _ => True

/-- What a point of a thread's program means: a thread that moves money for an
open auction is a bidder about to append a bid, and only a closer closes. -/
structure Point (t : ι) (p : Prog ApiSig Unit) (w : World ι) : Prop where
  pending : ∀ i, w.owner i = some t → (account plan w i).IsOpen →
    (∃ j ∈ plan.jobs t, ∃ u, j.Bids i u) ∧ p.Must (Appends i)
  entitled : Entitled plan t p

/-! ## the agreement of the threads -/

/-- What is final stays so when nothing happens. -/
theorem Final.refl (w : World ι) : Final plan w w := fun _ _ => ⟨rfl, rfl⟩

variable {plan} {t : ι} {w w' w'' : World ι}

/-- What is open has been open. -/
theorem Final.isOpen (h : Final plan w w') {i : UInt32} (hi : (account plan w' i).IsOpen) :
    (account plan w i).IsOpen := by
  by_contra hc
  rw [Account.IsOpen, (h i hc).1] at hi
  exact hc hi

/-- And from one step to the next. -/
theorem Final.trans (h : Final plan w w') (h' : Final plan w' w'') : Final plan w w'' := by
  intro i hi
  obtain ⟨hr, hp⟩ := h i hi
  obtain ⟨hr', hp'⟩ := h' i fun hc => hi (h.isOpen hc)
  exact ⟨hr'.trans hr, hp'.trans hp⟩

/-- A thread can rely on nothing happening. -/
theorem Rely.refl (t : ι) (w : World ι) : Rely plan t w w where
  final := .refl plan w
  owned _ h := ⟨h, rfl⟩
  owner _ h := h
  closer _ _ := ⟨rfl, rfl⟩
  sem _ h := h
  slack _ _ _ _ _ _ := le_rfl
  deposited _ _ := rfl

/-- And on one step after another. -/
theorem Rely.trans (h : Rely plan t w w') (h' : Rely plan t w' w'') : Rely plan t w w'' where
  final := h.final.trans h'.final
  owned i hi := by
    obtain ⟨ho, ha⟩ := h.owned i hi
    obtain ⟨ho', ha'⟩ := h'.owned i ho
    exact ⟨ho', ha'.trans ha⟩
  owner i hi := h.owner i (h'.owner i hi)
  closer i hi := by
    obtain ⟨ho, ha⟩ := h.closer i hi
    obtain ⟨ho', ha'⟩ := h'.closer i hi
    exact ⟨ho'.trans ho, ha'.trans ha⟩
  sem n hn := h'.sem n (h.sem n hn)
  slack j hj i u hb hi :=
    (h.slack j hj i u hb (h'.final.isOpen hi)).trans (h'.slack j hj i u hb hi)
  deposited u hu := (h'.deposited u hu).trans (h.deposited u hu)

variable (plan) in
/-- The agreement of the threads. -/
def booksLogic : Logic ApiSig ι (Shared ι × List (ι × Event ApiSig)) (Books ι) where
  sys := apiMachine.logged
  inv := Kept plan
  rely := Rely plan
  guar := Final plan
  adm := MayClose plan
  node := Point plan
  rely_refl := .refl
  rely_trans := .trans
  guar_refl := .refl plan
  guar_trans := .trans

end Worlds

end OnlineAuction
