import OnlineAuction.Docket
import OnlineAuction.Handlers

/-!
# OnlineAuction.LifeCycle

The life of auctions and disputes along runs of requests.

Every change of the files is a step of the docket that they show
(`Change.docket_step`), so the docket's invariants hold along every run
(`Serves.later`).  The two results are about the files themselves: an auction is
closed once and settled once, when it leaves `AUCTION_OPEN`
(`auctionLife_of_serves`), and a dispute is decided once, an auction refunded once
(`disputeLife_of_serves`).
-/

namespace OnlineAuction

/-! ## the docket that the files show -/

def docketOf (auctions : List Auction) (disputes : List Dispute) : Docket UInt32 UInt32 where
  lot id := (readRec auctions id).map fun a => ⟨a.status, decide a.Settles⟩
  dispute id := (readRec disputes id).map fun d => (d.auctionId, d.status)

abbrev View.docket (v : View) : Docket UInt32 UInt32 := docketOf v.auctions v.disputes

/-- The entry that a mark makes in the log. -/
def entry : Mark → Option (Entry UInt32)
  | .wallet (.close id) (.settlePayment _ _) _ => some (.settled id)
  | .closed id => some (.closed id)
  | .refund _ id => some (.refunded id)
  | _ => none

def entries (ms : List Mark) : List (Entry UInt32) := ms.filterMap entry

@[simp] theorem entries_nil : entries [] = [] := rfl

/-- The entries of two parts of a run follow each other. -/
@[simp] theorem entries_append (ms ms' : List Mark) :
    entries (ms ++ ms') = entries ms ++ entries ms' := List.filterMap_append

section Files

variable {auctions : List Auction} {disputes : List Dispute} {a : Auction} {d d' : Dispute}

/-- The docket has the auction's status and whether it settles. -/
theorem lot_eq (ha : a ∈ auctions) (hnum : Numbered Auction.auctionId auctions) :
    (docketOf auctions disputes).lot a.auctionId = some ⟨a.status, decide a.Settles⟩ := by
  simp [docketOf, hnum.readRec_eq_some.mpr ⟨ha, rfl⟩]

/-- It has the dispute's auction and status. -/
theorem dispute_eq (auctions : List Auction) (hd : d ∈ disputes)
    (hnum : Numbered Dispute.disputeId disputes) :
    (docketOf auctions disputes).dispute d.disputeId = some (d.auctionId, d.status) := by
  simp [docketOf, hnum.readRec_eq_some.mpr ⟨hd, rfl⟩]

/-- Writing an auction sets its lot. -/
theorem docketOf_overwrite_auction (a' : Auction) (hnum : Numbered Auction.auctionId auctions)
    (ha : a ∈ auctions) (hid : a'.auctionId = a.auctionId) :
    docketOf (overwrite Auction.auctionId a' auctions) disputes =
      (docketOf auctions disputes).setLot a'.auctionId ⟨a'.status, decide a'.Settles⟩ := by
  rw [docketOf, Docket.setLot, docketOf, Docket.mk.injEq]
  refine ⟨funext fun id => ?_, rfl⟩
  rw [hnum.readRec_overwrite ha hid, Function.update_apply]
  split <;> rfl

/-- A change of status sets the status of the lot. -/
theorem docketOf_withStatus (hnum : Numbered Auction.auctionId auctions) (ha : a ∈ auctions)
    (status : AuctionStatus) :
    docketOf (overwrite Auction.auctionId (a.withStatus status) auctions) disputes =
      (docketOf auctions disputes).setLot a.auctionId ⟨status, decide a.Settles⟩ :=
  docketOf_overwrite_auction (a.withStatus status) hnum ha rfl

/-- A bid may change whether the lot settles. -/
theorem docketOf_withBid (hnum : Numbered Auction.auctionId auctions) (ha : a ∈ auctions)
    (bidder : UInt32) (amount : ℚ) :
    docketOf (overwrite Auction.auctionId (a.withBid bidder amount) auctions) disputes =
      (docketOf auctions disputes).setLot a.auctionId
        ⟨a.status, decide (a.withBid bidder amount).Settles⟩ :=
  docketOf_overwrite_auction (a.withBid bidder amount) hnum ha rfl

/-- Writing a dispute sets it. -/
theorem docketOf_overwrite_dispute (hnum : Numbered Dispute.disputeId disputes) (hd : d ∈ disputes)
    (hid : d'.disputeId = d.disputeId) :
    docketOf auctions (overwrite Dispute.disputeId d' disputes) =
      (docketOf auctions disputes).setDispute d'.disputeId d'.auctionId d'.status := by
  rw [docketOf, Docket.setDispute, docketOf, Docket.mk.injEq]
  refine ⟨rfl, funext fun id => ?_⟩
  rw [hnum.readRec_overwrite hd hid, Function.update_apply]
  split <;> rfl

/-- A new auction is a new lot. -/
theorem docketOf_append_auction (hroom : auctions.length < 2 ^ 32 - 1)
    (hid : a.auctionId = nextRecId auctions) :
    docketOf (auctions ++ [a]) disputes =
      (docketOf auctions disputes).setLot a.auctionId ⟨a.status, decide a.Settles⟩ := by
  rw [docketOf, Docket.setLot, docketOf, Docket.mk.injEq]
  refine ⟨funext fun id => ?_, rfl⟩
  rw [readRec_append hroom, Function.update_apply, hid]
  split <;> rfl

/-- A new dispute is one of the docket. -/
theorem docketOf_append_dispute (hroom : disputes.length < 2 ^ 32 - 1)
    (hid : d.disputeId = nextRecId disputes) :
    docketOf auctions (disputes ++ [d]) =
      (docketOf auctions disputes).setDispute d.disputeId d.auctionId d.status := by
  rw [docketOf, Docket.setDispute, docketOf, Docket.mk.injEq]
  refine ⟨rfl, funext fun id => ?_⟩
  rw [readRec_append hroom, Function.update_apply, hid]
  split <;> rfl

end Files

/-- Wallet calls make no entry, except for the settlement of a close. -/
theorem entries_walletMarks {site : Site} {cs : List WalletCall}
    (h : ∀ c ∈ cs, ∀ r, entry (.wallet site c r) = none) (users : List User) :
    entries (walletMarks site cs users) = [] := by
  induction cs generalizing users with
  | nil => rfl
  | cons c cs ih =>
      have hc := h c (List.mem_cons_self ..) (c.result users)
      rw [walletMarks, entries, List.filterMap_cons_none hc]
      exact ih (fun c' hc' => h c' (List.mem_cons_of_mem _ hc')) _

/-- A close is entered as a settlement, if there is one, and a closing. -/
theorem entries_close (a : Auction) (users : List User) :
    entries (walletMarks (.close a.auctionId) a.closingCalls users ++ [.closed a.auctionId]) =
      (if decide a.Settles then [.settled a.auctionId] else []) ++ [.closed a.auctionId] := by
  rw [entries_append]
  congr 1
  by_cases hsettles : a.Settles
  · simp [Auction.closingCalls, hsettles, walletMarks, entries, entry]
  · by_cases hleader : a.highestBidderId = 0 <;>
      simp [Auction.closingCalls, hsettles, hleader, walletMarks, entries, entry]

/-- The wallet calls of a refund are one entry. -/
theorem entries_refund (d : Dispute) (a : Auction) (users : List User) :
    entries (.refund d.disputeId a.auctionId ::
      walletMarks (.resolve d.disputeId)
        (a.refundCalls users) users) = [.refunded a.auctionId] := by
  have hcalls : List.filterMap entry
      (walletMarks (.resolve d.disputeId) (a.refundCalls users) users) = [] :=
    entries_walletMarks (by simp [entry]) users
  change .refunded a.auctionId :: List.filterMap entry _ = _
  rw [hcalls]

/-! ## the refinement -/

section Runs

variable {sha256Hex : List UInt8 → List UInt8} {ok : Server → Input → Prop} {v v' : View}
  {i : Input} {ms : List Mark} {s s₀ s' : Server} {calls : List (Event ApiSig)}

/-- **Refinement**: what an input does to the files is a step of the docket. -/
theorem Change.docket_step (h : Change sha256Hex v i ms v') (hs : Sound v) (hroom : v.HasRoom) :
    Docket.Step v.docket (entries ms) v'.docket := by
  unfold View.docket
  cases h with
  | @placeBid fd c req a w b _ _ ha hid hopen =>
      have hentries : entries (walletMarks (.placeBid a.auctionId)
          (a.biddingCalls w.userId req.amount) v.users) = [] :=
        entries_walletMarks (by simp [entry]) _
      dsimp only
      rw [hentries, docketOf_withBid hs.auctions ha, hopen]
      exact .bid (lot_eq ha hs.auctions) hopen
  | close hi ha hopen =>
      dsimp only
      rw [entries_close, docketOf_withStatus hs.auctions ha]
      exact .close (lot_eq ha hs.auctions) hopen
  | createAuction _ _ hid hseller hopen =>
      dsimp only
      rw [docketOf_append_auction hroom.auctions hid, hopen]
      exact .create (by simp [docketOf, hid, readRec_nextRecId hroom.auctions])
  | fileDispute _ _ ha haid hclosed hid hauction hopen =>
      dsimp only
      rw [docketOf_append_dispute hroom.disputes hid, docketOf_withStatus hs.auctions ha, hauction,
        hopen]
      exact .file (lot_eq ha hs.auctions) hclosed
        (by simp [docketOf, hid, readRec_nextRecId hroom.disputes])
  | reject _ _ hd hdid hopen ha haid hid hauction hstatus =>
      have hdispute := dispute_eq v.auctions hd hs.disputes
      rw [hopen, ← haid] at hdispute
      dsimp only
      rw [docketOf_overwrite_dispute hs.disputes hd hid, docketOf_withStatus hs.auctions ha,
        hauction, hid, hstatus, ← haid]
      exact .reject (lot_eq ha hs.auctions) hdispute
  | refund _ _ hd hdid hopen ha haid hid hauction hstatus =>
      have hdispute := dispute_eq v.auctions hd hs.disputes
      rw [hopen, ← haid] at hdispute
      dsimp only
      rw [entries_refund, docketOf_overwrite_dispute hs.disputes hd hid, hauction, hid, hstatus,
        ← haid]
      exact .refund hdispute
  | _ => exact .stay

/-- An auction with an open dispute is in dispute. -/
theorem Docket.Orderly.disputed_auction {v : View} (hk : v.docket.Orderly) (hs : Sound v)
    {a : Auction} {d : Dispute} (hd : d ∈ v.disputes) (hopen : d.status = .disputeOpen)
    (ha : a ∈ v.auctions) (hid : a.auctionId = d.auctionId) : a.status = .auctionDisputed := by
  have hdispute := dispute_eq v.auctions hd hs.disputes
  rw [hopen, ← hid] at hdispute
  obtain ⟨x, hx, hstatus⟩ := hk.disputed _ _ _ hdispute (by simp)
  rw [View.docket, lot_eq ha hs.auctions] at hx
  obtain rfl := Option.some.inj hx
  exact hstatus

/-- From an orderly docket on: it stays orderly, and nothing final is taken back. -/
theorem Serves.later (h : Serves sha256Hex ok s₀ calls s) (hs : s₀.Sound)
    (hk : s₀.view.docket.Orderly) :
    s.view.docket.Orderly ∧ Docket.Later s₀.view.docket s.view.docket := by
  refine h.induct (P := fun _ v => v.docket.Orderly ∧ Docket.Later s₀.view.docket v.docket) hs
    ⟨hk, .refl _⟩ fun _ s _ _ _ hP hs hroom _ hchange => ?_
  have hstep := hchange.docket_step hs.view hroom.view
  exact ⟨hP.1.step hstep, hP.2.trans hstep.later⟩

/-- What the log of a run from an empty docket holds. -/
theorem Serves.tally (h : Serves sha256Hex ok s₀ calls s) (hs : s₀.Sound)
    (hk : s₀.view.docket.Orderly) (ht : Docket.Tally [] s₀.view.docket) :
    Docket.Tally (entries (marks calls)) s.view.docket := by
  refine (h.induct (P := fun ms v => v.docket.Orderly ∧ Docket.Tally (entries ms) v.docket) hs
    ⟨hk, ht⟩ fun _ s _ _ _ hP hs hroom _ hchange => ?_).2
  have hstep := hchange.docket_step hs.view hroom.view
  rw [entries_append]
  exact ⟨hP.1.step hstep, hP.2.step hstep hP.1⟩

/-- A new installation has an empty docket. -/
theorem docket_seeded (createdAt now : Int) :
    (Server.seeded sha256Hex createdAt now).view.docket = ⟨fun _ => none, fun _ => none⟩ := rfl

/-- The empty docket is in order. -/
theorem orderly_seeded (createdAt now : Int) :
    (Server.seeded sha256Hex createdAt now).view.docket.Orderly := by
  rw [docket_seeded]
  constructor <;> simp

/-- And nothing is counted in it. -/
theorem tally_seeded (createdAt now : Int) :
    Docket.Tally [] (Server.seeded sha256Hex createdAt now).view.docket := by
  rw [docket_seeded]
  constructor <;>
    simp [Docket.Left, Docket.LeftSold, Docket.Granted, Docket.once_eq]

end Runs

/-! ## the life of an auction -/

/-- The stored status of an auction. -/
def Server.auctionStatus (s : Server) (id : UInt32) : Option AuctionStatus :=
  (readRec s.store.auctions id).map Auction.status

/-- The stored status of a dispute. -/
def Server.disputeStatus (s : Server) (id : UInt32) : Option DisputeStatus :=
  (readRec s.store.disputes id).map Dispute.status

/-- How often `close_auction_internal` has run for an auction: each run is followed
by a line of the log. -/
def closings (id : UInt32) (calls : List (Event ApiSig)) : Nat := (marks calls).count (.closed id)

/-- How often `settle_payment` has been called for an auction. -/
def settlements (id : UInt32) (calls : List (Event ApiSig)) : Nat :=
  (marks calls).countP fun
    | .wallet site (.settlePayment _ _) _ => site == .close id
    | _ => false

/-- How often a refund has been attempted for an auction. -/
def refunds (id : UInt32) (calls : List (Event ApiSig)) : Nat :=
  (marks calls).countP fun | .refund _ auction => auction == id | _ => false

/-- What one step does to an auction: it is closed when it leaves `AUCTION_OPEN`,
and settled if it then has a bidder and the reserve is met. -/
structure AuctionStep (sha256Hex : List UInt8 → List UInt8) (s : Server) (i : Input)
    (id : UInt32) : Prop where
  move : Docket.LotMove (s.auctionStatus id) ((s.handle sha256Hex i).auctionStatus id)
  closings : closings id (s.calls sha256Hex i) =
    Docket.once (s.auctionStatus id = some .auctionOpen ∧
      (s.handle sha256Hex i).auctionStatus id ≠ some .auctionOpen)
  settlements : settlements id (s.calls sha256Hex i) =
    Docket.once (∃ a ∈ readRec s.store.auctions id, a.status = .auctionOpen ∧ a.Settles ∧
      (s.handle sha256Hex i).auctionStatus id ≠ some .auctionOpen)

/-- The life of an auction along a run that has made these calls. -/
structure AuctionLife (sha256Hex : List UInt8 → List UInt8) (calls : List (Event ApiSig))
    (s : Server) (id : UInt32) : Prop where
  step : ∀ i, s.store.HasRoom → i.Possible s → AuctionStep sha256Hex s i id
  closings : closings id calls =
    Docket.once (∃ a ∈ readRec s.store.auctions id, a.status ≠ .auctionOpen)
  settlements : settlements id calls =
    Docket.once (∃ a ∈ readRec s.store.auctions id, a.status ≠ .auctionOpen ∧ a.Settles)
  only_closes : ∀ site u x r, .wallet site (.settlePayment u x) r ∈ marks calls →
    ∃ id, site = .close id
  never_reopened : ∀ calls' s', Serves sha256Hex anyInput s calls' s' →
    ∀ x, s.auctionStatus id = some x → x ≠ .auctionOpen →
      ∃ x', s'.auctionStatus id = some x' ∧ x' ≠ .auctionOpen

section Counts

variable (calls : List (Event ApiSig)) (s : Server) (id : UInt32)

/-- The closings entered are those of the calls. -/
theorem count_closed : (entries (marks calls)).count (.closed id) = closings id calls := by
  rw [entries, List.count_filterMap, closings, List.count]
  refine List.countP_congr fun m _ => ?_
  cases m with
  | wallet site c r => cases site <;> cases c <;> simp [entry]
  | _ => simp [entry]

/-- The settlements entered are those of the calls. -/
theorem count_settled : (entries (marks calls)).count (.settled id) = settlements id calls := by
  rw [entries, List.count_filterMap, settlements]
  refine List.countP_congr fun m _ => ?_
  cases m with
  | wallet site c r => cases site <;> cases c <;> simp [entry]
  | _ => simp [entry]

/-- The refunds entered are those of the calls. -/
theorem count_refunded : (entries (marks calls)).count (.refunded id) = refunds id calls := by
  rw [entries, List.count_filterMap, refunds]
  refine List.countP_congr fun m _ => ?_
  cases m with
  | wallet site c r => cases site <;> cases c <;> simp [entry]
  | _ => simp [entry]

/-- The status of a lot is that of the stored auction. -/
theorem lotStatus_docket : s.view.docket.lotStatus id = s.auctionStatus id := by
  rw [Docket.lotStatus, View.docket, docketOf, Option.map_map]
  rfl

/-- A lot is left when its auction is no longer open. -/
theorem left_docket :
    s.view.docket.Left id ↔ ∃ a ∈ readRec s.store.auctions id, a.status ≠ .auctionOpen := by
  simp [Docket.Left, docketOf, Store.view]

/-- It is left sold when the auction also settles. -/
theorem leftSold_docket : s.view.docket.LeftSold id ↔
    ∃ a ∈ readRec s.store.auctions id, a.status ≠ .auctionOpen ∧ a.Settles := by
  simp [Docket.LeftSold, docketOf, Store.view]

end Counts

section Life

variable {sha256Hex : List UInt8 → List UInt8} {v v' : View} {i : Input} {ms : List Mark}
  {s : Server} {calls : List (Event ApiSig)}

/-- The marks of wallet calls name calls and their answers. -/
theorem mem_walletMarks {site : Site} {cs : List WalletCall} {users : List User} {m : Mark}
    (h : m ∈ walletMarks site cs users) : ∃ c ∈ cs, ∃ r, m = .wallet site c r := by
  induction cs generalizing users with
  | nil => simp [walletMarks] at h
  | cons c cs ih =>
      rcases List.mem_cons.mp h with rfl | h
      · exact ⟨c, List.mem_cons_self .., _, rfl⟩
      · obtain ⟨c', hc', hm⟩ := ih h
        exact ⟨c', List.mem_cons_of_mem _ hc', hm⟩

/-- Only a close calls `settle_payment`. -/
theorem Change.settles (h : Change sha256Hex v i ms v') {site : Site} {u : UInt32} {x : ℚ} {r : Int}
    (hm : .wallet site (.settlePayment u x) r ∈ ms) : ∃ id, site = .close id := by
  cases h with
  | close =>
      simp only [List.mem_append, List.mem_singleton, reduceCtorEq, or_false] at hm
      obtain ⟨c, -, r, hm⟩ := mem_walletMarks hm
      exact ⟨_, (Mark.wallet.inj hm).1⟩
  | deposit | depositFails => simp [walletMarks] at hm
  | placeBid =>
      obtain ⟨c, hc, r, hm⟩ := mem_walletMarks hm
      obtain ⟨-, rfl, -⟩ := Mark.wallet.inj hm
      unfold Auction.biddingCalls at hc
      split at hc <;> simp at hc
  | refund =>
      simp only [List.mem_cons, reduceCtorEq, false_or] at hm
      obtain ⟨c, hc, r, hm⟩ := mem_walletMarks hm
      obtain ⟨-, rfl, -⟩ := Mark.wallet.inj hm
      simp only [Auction.refundCalls] at hc
      split at hc
      · split at hc <;> simp at hc
      · simp at hc
  | _ => simp at hm

/-- One input moves an auction along its life, or leaves it. -/
theorem Server.Sound.auctionStep (hs : s.Sound) (hk : s.view.docket.Orderly)
    (hroom : s.store.HasRoom) (hpossible : i.Possible s) (id : UInt32) :
    AuctionStep sha256Hex s i id := by
  have hstep : Docket.Step _ _ (s.handle sha256Hex i).view.docket :=
    (hs.change hroom hpossible).docket_step hs.view hroom.view
  obtain ⟨hclosed, hsettled, -⟩ := hstep.log hk id
  rw [count_closed, lotStatus_docket, lotStatus_docket] at hclosed
  rw [count_settled, lotStatus_docket] at hsettled
  refine ⟨?_, hclosed, hsettled.trans (congrArg _ ?_)⟩
  · have hmove := hstep.lotMove hk id
    rwa [lotStatus_docket, lotStatus_docket] at hmove
  · simp [docketOf, Store.view]

/-- **Life cycle of auctions**: along every run from the seeded state an auction
moves from `AUCTION_OPEN` to `AUCTION_CLOSED` and from there to `AUCTION_DISPUTED`
and back only; it is closed once, when it leaves `AUCTION_OPEN`, and settled once
if it then has a bidder and the reserve is met. -/
theorem auctionLife_of_serves (createdAt now : Int)
    (h : Serves sha256Hex anyInput (.seeded sha256Hex createdAt now) calls s) (id : UInt32) :
    AuctionLife sha256Hex calls s id := by
  have hseeded : (Server.seeded sha256Hex createdAt now).Sound := sound_seeded createdAt now
  have hs := h.sound hseeded
  have hk := (h.later hseeded (orderly_seeded createdAt now)).1
  have htally := h.tally hseeded (orderly_seeded createdAt now) (tally_seeded createdAt now)
  constructor
  · intro i hroom hpossible
    exact hs.auctionStep hk hroom hpossible id
  · rw [← count_closed, htally.closed, left_docket]
  · rw [← count_settled, htally.settled, leftSold_docket]
  · intro site u x r hm
    refine h.induct (P := fun ms _ => ∀ site u x r, .wallet site (.settlePayment u x) r ∈ ms →
      ∃ id, site = .close id) hseeded (by simp) (fun _ _ _ _ _ hP _ _ _ hchange => ?_) site u x r hm
    intro site u x r hm
    rcases List.mem_append.mp hm with hm | hm
    · exact hP site u x r hm
    · exact hchange.settles hm
  · intro calls' s' h' x hx hne
    have hlater := (h'.later hs hk).2
    rw [← lotStatus_docket, Docket.lotStatus] at hx
    obtain ⟨y, hy, rfl⟩ := Option.map_eq_some_iff.mp hx
    obtain ⟨y', hy', hne', -⟩ := hlater.closed id y hy hne
    exact ⟨y'.status, by rw [← lotStatus_docket, Docket.lotStatus, hy']; rfl, hne'⟩

end Life

/-- An auction is created, bid on, closed and disputed; the dispute is rejected. -/
def saleScript : List Input :=
  [.connect 5, logIn 5 adminName, addUser 5 [98] roleBidder, .connect 6, logIn 6 [98],
    .message 6 (.deposit ⟨500⟩), .message 5 (.createAuction ⟨.zero _, .zero _, 100, 0, 60⟩),
    .message 6 (.placeBid ⟨1, 150⟩), .timerClose 1, .message 6 (.fileDispute ⟨1, .zero _⟩),
    .message 5 (.resolveDispute ⟨1, 2, .zero _⟩)]

/-- A sale: created, closed by its seller and settled once. -/
theorem auctionLife_of_serves_sale :
    let s := played saleScript
    s.auctionStatus 1 = some .auctionClosed ∧ ∃ calls, AuctionLife adminSha256Hex calls s 1 := by
  have hscript : Playable anyInput saleScript := by
    decide +kernel
  obtain ⟨calls, h⟩ := Serves.of_scripted hscript
  exact ⟨by decide +kernel, calls, auctionLife_of_serves 0 1000 h 1⟩

/-! ## the life of a dispute -/

/-- A request to file a dispute changes nothing and is not accepted; a bidder is
told that the auction is not closed. -/
structure FilingRefused (sha256Hex : List UInt8 → List UInt8) (s : Server) (fd : Int)
    (req : FileDisputePayload) : Prop where
  unchanged : (s.handle sha256Hex (.message fd (.fileDispute req))).view = s.view
  not_ok : ∀ fd' type,
    ¬ Answered fd' type .errOk (s.calls sha256Hex (.message fd (.fileDispute req)))
  answer : ∀ c, s.view.LoggedIn fd c → c.currentUser.role = roleBidder →
    Answered fd .msgResolveDisputeResp .errAuctionClosed
      (s.calls sha256Hex (.message fd (.fileDispute req)))

/-- The life of the disputes along a run that has made these calls. -/
structure DisputeLife (sha256Hex : List UInt8 → List UInt8) (calls : List (Event ApiSig))
    (s : Server) : Prop where
  one_open : ∀ d ∈ s.store.disputes, ∀ d' ∈ s.store.disputes, d.status = .disputeOpen →
    d'.status = .disputeOpen → d.auctionId = d'.auctionId → d = d'
  disputed : ∀ d ∈ s.store.disputes, d.status = .disputeOpen →
    s.auctionStatus d.auctionId = some .auctionDisputed
  step : ∀ i id, s.store.HasRoom → i.Possible s →
    Docket.DisputeMove (s.disputeStatus id) ((s.handle sha256Hex i).disputeStatus id)
  decided : ∀ calls' s', Serves sha256Hex anyInput s calls' s' →
    ∀ id x, s.disputeStatus id = some x → x ≠ .disputeOpen → s'.disputeStatus id = some x
  one_resolved : ∀ d ∈ s.store.disputes, ∀ d' ∈ s.store.disputes, d.status = .disputeResolved →
    d'.status = .disputeResolved → d.auctionId = d'.auctionId → d = d'
  refunds : ∀ id, refunds id calls =
    Docket.once (∃ d ∈ s.store.disputes, d.auctionId = id ∧ d.status = .disputeResolved)
  final : ∀ d ∈ s.store.disputes, d.status = .disputeResolved →
    ∀ calls' s', Serves sha256Hex anyInput s calls' s' →
      s'.auctionStatus d.auctionId = some .auctionDisputed ∧
      (∀ d' ∈ s'.store.disputes, d'.auctionId = d.auctionId → d'.status ≠ .disputeOpen) ∧
      ∀ fd req, req.auctionId = d.auctionId → FilingRefused sha256Hex s' fd req

section Disputes

variable {sha256Hex : List UInt8 → List UInt8} {s : Server} {calls : List (Event ApiSig)}

/-- A dispute about an auction that is not closed is refused. -/
theorem FilingRefused.of_status {req : FileDisputePayload} {x : AuctionStatus}
    (hx : s.auctionStatus req.auctionId = some x) (hne : x ≠ .auctionClosed) (fd : Int) :
    FilingRefused sha256Hex s fd req := by
  obtain ⟨a, ha, rfl⟩ := Option.map_eq_some_iff.mp hx
  cases hc : s.conns fd with
  | none =>
      constructor <;>
        simp [Server.handle, Server.calls, Input.prog, Input.before, hc, Answered, View.LoggedIn,
          Store.view]
  | some c =>
      cases hauth : c.authenticated with
      | false =>
          constructor <;>
            simp [Server.handle, Server.calls, Input.prog, Input.before, hc, turn, serve, hauth,
              Store.exec, Answered, View.LoggedIn, Store.view]
      | true =>
          by_cases hrole : c.currentUser.role = roleBidder
          · constructor <;>
              simp [Server.handle, Server.calls, Input.prog, Input.before, hc, turn, serve, hauth,
                dispatch, whenAllowed, hrole, handleFileDispute, ha, hne, Store.exec, Answered,
                View.LoggedIn, Store.view]
          · constructor <;>
              simp [Server.handle, Server.calls, Input.prog, Input.before, hc, turn, serve, hauth,
                dispatch, whenAllowed, hrole, Store.exec, Answered, View.LoggedIn, Store.view]

/-- The status of a dispute is the stored one. -/
theorem disputeStatus_docket (s : Server) (id : UInt32) :
    s.view.docket.disputeStatus id = s.disputeStatus id := by
  rw [Docket.disputeStatus, View.docket, docketOf, Option.map_map]
  rfl

/-- A stored dispute is in the docket. -/
theorem dispute_docket (hs : s.Sound) {d : Dispute} (hd : d ∈ s.store.disputes) :
    s.view.docket.dispute d.disputeId = some (d.auctionId, d.status) :=
  dispute_eq _ hd hs.view.disputes

/-- A dispute is granted when a resolved one is stored. -/
theorem granted_docket (hs : s.Sound) (id : UInt32) : s.view.docket.Granted id ↔
    ∃ d ∈ s.store.disputes, d.auctionId = id ∧ d.status = .disputeResolved := by
  constructor
  · rintro ⟨j, hj⟩
    obtain ⟨d, hd, heq⟩ := Option.map_eq_some_iff.mp hj
    exact ⟨d, List.mem_of_getElem? hd, (Prod.mk.inj heq).1, (Prod.mk.inj heq).2⟩
  · rintro ⟨d, hd, rfl, hstatus⟩
    exact ⟨d.disputeId, by rw [dispute_docket hs hd, hstatus]⟩

/-- Of the disputes about an auction at most one is not rejected. -/
theorem unique_dispute (hs : s.Sound) (hk : s.view.docket.Orderly) {d d' : Dispute}
    (hd : d ∈ s.store.disputes) (hd' : d' ∈ s.store.disputes) (hne : d.status ≠ .disputeRejected)
    (hne' : d'.status ≠ .disputeRejected) (heq : d.auctionId = d'.auctionId) : d = d' :=
  hs.view.disputes.eq_of_id hd hd' <|
    hk.unique _ _ _ _ _ (dispute_docket hs hd) (heq ▸ dispute_docket hs hd') hne hne'

/-- **Life cycle of disputes**: along every run from the seeded state an auction has
at most one open dispute and is then `AUCTION_DISPUTED`; a dispute is decided once;
an auction is refunded at most once, and after that it stays in dispute and no
further dispute about it is accepted. -/
theorem disputeLife_of_serves (createdAt now : Int)
    (h : Serves sha256Hex anyInput (.seeded sha256Hex createdAt now) calls s) :
    DisputeLife sha256Hex calls s := by
  have hseeded : (Server.seeded sha256Hex createdAt now).Sound := sound_seeded createdAt now
  have hs := h.sound hseeded
  have hk := (h.later hseeded (orderly_seeded createdAt now)).1
  have htally := h.tally hseeded (orderly_seeded createdAt now) (tally_seeded createdAt now)
  have hdisputed {s : Server} {id : UInt32}
      (hlot : ∃ x, s.view.docket.lot id = some x ∧ x.status = .auctionDisputed) :
      s.auctionStatus id = some .auctionDisputed := by
    obtain ⟨x, hx, hstatus⟩ := hlot
    rw [← lotStatus_docket, Docket.lotStatus, hx, Option.map_some, hstatus]
  constructor
  · intro d hd d' hd' hopen hopen'
    exact unique_dispute hs hk hd hd' (by simp [hopen]) (by simp [hopen'])
  · intro d hd hopen
    exact hdisputed (hk.disputed _ _ _ (dispute_docket hs hd) (by simp [hopen]))
  · intro i id hroom hpossible
    have hstep : Docket.Step _ _ (s.handle sha256Hex i).view.docket :=
      (hs.change hroom hpossible).docket_step hs.view hroom.view
    have hmove := hstep.disputeMove id
    rwa [disputeStatus_docket, disputeStatus_docket] at hmove
  · intro calls' s' h' id x hx hne
    rw [← disputeStatus_docket, Docket.disputeStatus] at hx
    obtain ⟨⟨a, y⟩, hy, rfl⟩ := Option.map_eq_some_iff.mp hx
    rw [← disputeStatus_docket, Docket.disputeStatus, (h'.later hs hk).2.decided id a y hy hne]
    rfl
  · intro d hd d' hd' hres hres'
    exact unique_dispute hs hk hd hd' (by simp [hres]) (by simp [hres'])
  · intro id
    rw [← count_refunded, htally.refunded, granted_docket hs]
  · intro d hd hres calls' s' h'
    have hs' := h'.sound hs
    obtain ⟨hk', hlater⟩ := h'.later hs hk
    obtain ⟨hlot, hopen⟩ := hlater.resolved hk' (hres ▸ dispute_docket hs hd)
    refine ⟨hdisputed hlot, fun d' hd' heq hstatus => hopen d'.disputeId ?_, fun fd req hreq => ?_⟩
    · rw [dispute_docket hs' hd', heq, hstatus]
    · exact .of_status (hreq ▸ hdisputed hlot) (by decide) fd

end Disputes

/-- The same auction is disputed again, and the winner refunded. -/
theorem disputeLife_of_serves_refunded :
    let s := played (saleScript ++
      [.message 6 (.fileDispute ⟨1, .zero _⟩), .message 5 (.resolveDispute ⟨2, 1, .zero _⟩)])
    s.disputeStatus 2 = some .disputeResolved ∧ ∃ calls, DisputeLife adminSha256Hex calls s := by
  have hscript : Playable anyInput (saleScript ++
      [.message 6 (.fileDispute ⟨1, .zero _⟩), .message 5 (.resolveDispute ⟨2, 1, .zero _⟩)]) := by
    decide +kernel
  obtain ⟨calls, h⟩ := Serves.of_scripted hscript
  exact ⟨by decide +kernel, calls, disputeLife_of_serves 0 1000 h⟩

end OnlineAuction
