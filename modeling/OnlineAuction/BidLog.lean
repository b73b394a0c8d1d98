import OnlineAuction.Lib.RisingLog
import OnlineAuction.References

/-!
# OnlineAuction.BidLog

The auctions and the bids that are recorded of them.

An auction carries the number of its bids, the highest one and who made it; `bids.dat`
carries the bids.  A bid writes both, a close rewrites `bids.dat` in place, and the requests
about disputes write the auction back: along every run the two stay in agreement
(`agreement_of_serves`).  What the flag `is_winning` of a bid says after the close is another
matter (`namesWinner_of_serves`).
-/

namespace OnlineAuction

/-- The bids on an auction, in the order of the file. -/
def bidsOn (auctionId : UInt32) (bids : List Bid) : List Bid :=
  bids.filter fun b => b.auctionId == auctionId

/-- What a bid offers. -/
def Bid.offer (b : Bid) : UInt32 × ℚ := (b.bidderId, b.amount)

/-- The bid without its flag. -/
def Bid.unflagged (b : Bid) : Bid := { b with isWinning := false }

/-- The auction and its bids say the same. -/
structure AgreesWith (a : Auction) (bids : List Bid) : Prop where
  count : a.bidCount = bids.length
  start_pos : 0 < a.startPrice
  above : ∀ b ∈ bids, a.startPrice < b.amount
  increasing : (bids.map Bid.amount).Pairwise (· < ·)
  no_bid : bids = [] → a.highestBidderId = 0 ∧ a.currentBid = a.startPrice
  last : ∀ b, bids.getLast? = some b → a.highestBidderId = b.bidderId ∧ a.currentBid = b.amount
  largest : ∀ b ∈ bids, b.amount ≤ a.currentBid

section Files

variable {auctionId bidderId : UInt32} {bids bids' : List Bid} {b : Bid} {a : Auction}

theorem map_unflagged_markWinning :
    (markWinning auctionId bidderId bids).map Bid.unflagged = bids.map Bid.unflagged := by
  rw [markWinning, List.map_map]
  refine List.map_congr_left fun b _ => ?_
  simp only [Function.comp]
  split <;> rfl

/-- The offers on an auction are the same when only flags differ. -/
theorem offers_congr (h : bids'.map Bid.unflagged = bids.map Bid.unflagged) :
    (bidsOn auctionId bids').map Bid.offer = (bidsOn auctionId bids).map Bid.offer := by
  have hfilter (l : List Bid) : (bidsOn auctionId l).map Bid.offer =
      ((l.map Bid.unflagged).filter fun b => b.auctionId == auctionId).map Bid.offer := by
    rw [List.filter_map, List.map_map]
    rfl
  rw [hfilter, hfilter, h]

theorem bidsOn_append_self (hb : b.auctionId = auctionId) :
    bidsOn auctionId (bids ++ [b]) = bidsOn auctionId bids ++ [b] := by
  simp [bidsOn, hb]

theorem bidsOn_append_of_ne (hb : b.auctionId ≠ auctionId) :
    bidsOn auctionId (bids ++ [b]) = bidsOn auctionId bids := by
  simp [bidsOn, hb]

theorem bidsOn_eq_nil (h : auctionId ∉ bids.map Bid.auctionId) : bidsOn auctionId bids = [] := by
  rw [bidsOn, List.filter_eq_nil_iff]
  intro b hb heq
  exact h (List.mem_map.mpr ⟨b, hb, eq_of_beq heq⟩)

end Files

/-! ## the invariant -/

/-- The auction follows a rising log of offers. -/
structure Follows (a : Auction) (offers : List (UInt32 × ℚ)) : Prop where
  start_pos : 0 < a.startPrice
  rising : Rising a.startPrice offers
  count : a.bidCount = offers.length
  current : a.currentBid = topOffer a.startPrice offers
  leader : a.highestBidderId = (topBidder offers).getD 0

/-- Every auction follows the bids on it, and every bid is on an auction. -/
structure LogAgrees (v : View) : Prop where
  follows : ∀ a ∈ v.auctions, Follows a ((bidsOn a.auctionId v.bids).map Bid.offer)
  bid_auction : ∀ b ∈ v.bids, b.auctionId ∈ v.auctions.map Auction.auctionId

section Invariant

variable {sha256Hex : List UInt8 → List UInt8} {v v' : View} {i : Input} {ms : List Mark}
  {a x : Auction} {bids : List Bid} {offers : List (UInt32 × ℚ)}

theorem Follows.agrees (h : Follows a (bids.map Bid.offer)) : AgreesWith a bids := by
  have hamount : (bids.map Bid.offer).map Prod.snd = bids.map Bid.amount := by
    rw [List.map_map]
    rfl
  constructor
  · rw [h.count, List.length_map]
  · exact h.start_pos
  · exact fun b hb => h.rising.above _ (List.mem_map_of_mem (f := Bid.offer) hb)
  · exact hamount ▸ h.rising.increasing
  · rintro rfl
    exact ⟨h.leader, h.current⟩
  · intro b hb
    have hlast : (bids.map Bid.offer).getLast? = some b.offer := by rw [List.getLast?_map, hb]; rfl
    rw [h.leader, h.current, topOffer, topBidder, hlast]
    exact ⟨rfl, rfl⟩
  · intro b hb
    rw [h.current]
    exact h.rising.le_top (List.mem_map_of_mem (f := Bid.offer) hb)

/-- Another status is not a bid. -/
theorem Follows.withStatus (h : Follows a offers) (status : AuctionStatus) :
    Follows (a.withStatus status) offers := ⟨h.start_pos, h.rising, h.count, h.current, h.leader⟩

/-- A higher bid. -/
theorem Follows.withBid (h : Follows a offers) {bidder : UInt32} {amount : ℚ}
    (hhigher : a.currentBid < amount) :
    Follows (a.withBid bidder amount) (offers ++ [(bidder, amount)]) where
  start_pos := h.start_pos
  rising := h.rising.append (h.current ▸ hhigher)
  count := by
    rw [Auction.withBid_bidCount, h.count, List.length_append]
    rfl
  current := by rw [topOffer_append]; rfl
  leader := by rw [topBidder_append]; rfl

/-- When an auction is rewritten, every other one follows the same offers. -/
theorem LogAgrees.overwrite (hk : LogAgrees v) {bids : List Bid}
    (hx : Follows x ((bidsOn x.auctionId bids).map Bid.offer))
    (hothers : ∀ b ∈ v.auctions, b.auctionId ≠ x.auctionId →
      (bidsOn b.auctionId bids).map Bid.offer = (bidsOn b.auctionId v.bids).map Bid.offer) :
    ∀ b ∈ overwrite Auction.auctionId x v.auctions,
      Follows b ((bidsOn b.auctionId bids).map Bid.offer) := by
  intro b hb
  rcases mem_overwrite hb with rfl | ⟨hb, hne⟩
  · exact hx
  · rw [hothers b hb hne]
    exact hk.follows b hb

/-- **Step lemma**: a step leaves every auction in agreement with the bids on it. -/
theorem LogAgrees.step (hk : LogAgrees v) (hroom : v.HasRoom) (hs : Sound v)
    (h : Change sha256Hex v i ms v') : LogAgrees v' := by
  refine ⟨?_, fun b hb => ?_⟩
  · cases h with
    | @placeBid fd c req a w b _ _ ha _ _ _ _ _ hhigher hb =>
        have hself : b.auctionId = a.auctionId := by rw [hb]
        refine hk.overwrite ?_ fun b' _ hne => ?_
        · show Follows _ ((bidsOn a.auctionId (v.bids ++ [b])).map Bid.offer)
          rw [bidsOn_append_self hself, List.map_append]
          have hoffer : b.offer = (w.userId, req.amount) := by rw [hb]; rfl
          rw [List.map_singleton, hoffer]
          exact (hk.follows a ha).withBid hhigher
        · rw [bidsOn_append_of_ne fun heq => hne (heq.symm.trans hself)]
    | @close _ a hi ha hopen =>
        have hsame (id : UInt32) : (bidsOn id (if a.Settles then
            markWinning a.auctionId a.highestBidderId v.bids else v.bids)).map Bid.offer =
              (bidsOn id v.bids).map Bid.offer := by
          refine offers_congr ?_
          split
          · exact map_unflagged_markWinning
          · rfl
        refine hk.overwrite ?_ fun b _ _ => hsame b.auctionId
        rw [hsame]
        exact (hk.follows a ha).withStatus _
    | @fileDispute _ _ _ a _ _ _ ha =>
        exact hk.overwrite ((hk.follows a ha).withStatus _) fun _ _ _ => rfl
    | @reject _ _ _ a _ _ _ _ _ _ _ ha =>
        exact hk.overwrite ((hk.follows a ha).withStatus _) fun _ _ _ => rfl
    | @createAuction _ _ _ a _ _ hid _ _ hleader hstart hpos hcount =>
        intro b hb
        rcases List.mem_append.mp hb with hb | hb
        · exact hk.follows b hb
        · obtain rfl := List.mem_singleton.mp hb
          have hnone : bidsOn b.auctionId v.bids = [] := by
            refine bidsOn_eq_nil fun hmem => ?_
            obtain ⟨x, hx, hxid⟩ := List.mem_map.mp hmem
            obtain ⟨y, hy, hyid⟩ := List.mem_map.mp (hk.bid_auction x hx)
            have hread : readRec v.auctions (nextRecId v.auctions) = some y :=
              hs.auctions.readRec_eq_some.mpr ⟨hy, hyid.trans (hxid.trans hid)⟩
            rw [readRec_nextRecId hroom.auctions] at hread
            cases hread
          show Follows b ((bidsOn b.auctionId v.bids).map Bid.offer)
          rw [hnone]
          exact ⟨hpos, rising_nil, hcount, hstart, hleader⟩
    | _ => exact hk.follows
  · rcases h.bid_names hb with ⟨b₀, hb₀, -, heq⟩ | ⟨-, hid⟩
    · exact h.auctions_extends.mem (heq ▸ hk.bid_auction b₀ hb₀)
    · exact h.auctions_extends.mem hid

/-- A close changes nothing of a bid but its flag. -/
theorem Change.bids_of_closed (h : Change sha256Hex v i ms v') {id : UInt32}
    (hm : .closed id ∈ ms) : v'.bids.map Bid.unflagged = v.bids.map Bid.unflagged := by
  cases h with
  | placeBid =>
      obtain ⟨c, -, r, heq⟩ := mem_walletMarks hm
      cases heq
  | close =>
      simp only
      split
      · exact map_unflagged_markWinning
      · rfl
  | _ => rfl

end Invariant

/-! ## every run -/

/-- The auctions agree with the bids that are recorded of them, and a close that rewrites
the bids changes nothing of them but the flag. -/
structure Agreement (sha256Hex : List UInt8 → List UInt8) (s : Server) : Prop where
  auctions : ∀ a ∈ s.store.auctions, AgreesWith a (bidsOn a.auctionId s.store.bids)
  rewritten : ∀ i, s.store.HasRoom → i.Possible s → ∀ id,
    .closed id ∈ marks (s.calls sha256Hex i) →
      (s.handle sha256Hex i).store.bids.map Bid.unflagged = s.store.bids.map Bid.unflagged

section Runs

variable {sha256Hex : List UInt8 → List UInt8} {s s₀ : Server} {calls : List (Event ApiSig)}
  {ok : Server → Input → Prop}

theorem logAgrees_seeded (createdAt now : Int) :
    LogAgrees (Server.seeded sha256Hex createdAt now).view where
  follows _ ha := nomatch ha
  bid_auction _ hb := nomatch hb

theorem Serves.logAgrees (h : Serves sha256Hex ok s₀ calls s) (hs : s₀.Sound)
    (hk : LogAgrees s₀.view) : LogAgrees s.view :=
  h.induct (P := fun _ v => LogAgrees v) hs hk fun _ _ _ _ _ hk hs hroom _ hchange =>
    hk.step hroom.view hs.view hchange

/-- **Agreement with the bid log**: along every run from the seeded state an auction carries
the number of its bids, which rise from a positive start price, the last of them and who made
it. -/
theorem agreement_of_serves (createdAt now : Int)
    (h : Serves sha256Hex anyInput (.seeded sha256Hex createdAt now) calls s) :
    Agreement sha256Hex s := by
  have hseeded : (Server.seeded sha256Hex createdAt now).Sound := sound_seeded createdAt now
  have hk : LogAgrees s.view := h.logAgrees hseeded (logAgrees_seeded createdAt now)
  constructor
  · exact fun a ha => (hk.follows a ha).agrees
  · intro i hroom hpossible id hm
    have hchange : Change sha256Hex s.view i _ (s.handle sha256Hex i).view :=
      (h.sound hseeded).change hroom hpossible
    exact hchange.bids_of_closed hm

end Runs

/-- A market with three bids on one auction and one on another, which is closed. -/
theorem agreement_of_serves_market :
    let s := played marketScript
    s.store.bids.map Bid.offer = [(2, 20), (3, 61 / 2), (2, 60), (3, 15)] ∧
      s.auctionStatus 2 = some .auctionDisputed ∧ Agreement adminSha256Hex s := by
  have hscript : Playable anyInput marketScript := by decide +kernel
  obtain ⟨calls, h⟩ := Serves.of_scripted hscript
  exact ⟨by decide +kernel, by decide +kernel, agreement_of_serves 0 1000 h⟩

/-! ## the flags after a close -/

/-- The flags name the winner of an auction that is closed: exactly one bid is flagged, and
it is the highest bidder's winning one; or none is, when there is no winner. -/
def NamesWinner (a : Auction) (bids : List Bid) : Prop :=
  if a.Settles then
    (∃ b ∈ bids, b.isWinning = true ∧ b.bidderId = a.highestBidderId ∧ b.amount = a.currentBid) ∧
      bids.countP Bid.isWinning = 1
  else ∀ b ∈ bids, b.isWinning = false

instance (a : Auction) (bids : List Bid) : Decidable (NamesWinner a bids) := by
  unfold NamesWinner
  infer_instance

/-- The auction has no bid, or a single one that meets the reserve. -/
def Auction.SoleBid (a : Auction) : Prop := a.bidCount = 0 ∨ a.bidCount = 1 ∧ a.ReserveMet

instance (a : Auction) : Decidable a.SoleBid := inferInstanceAs (Decidable (_ ∨ _))

instance (v : View) (a : Auction) (i : Input) : Decidable (i.Closes v a) := by
  unfold Input.Closes
  split
  · infer_instance
  · next fd req =>
      refine @instDecidableAnd _ _ inferInstance ?_
      cases hc : v.conns fd with
      | none => exact isFalse (by simp)
      | some c =>
          refine decidable_of_iff (c.authenticated = true ∧
            (c.currentUser.role = roleAuctioneer ∨ c.currentUser.role = roleAdmin) ∧
            (a.sellerId = c.currentUser.userId ∨ c.currentUser.role = roleAdmin)) ?_
          simp
  · infer_instance

/-- What is closed has no bid, or a single one that meets the reserve. -/
def ClosesSoleBid (s : Server) (i : Input) : Prop :=
  ∀ a ∈ s.store.auctions, i.Closes s.view a → a.status = .auctionOpen → a.SoleBid

instance (s : Server) (i : Input) : Decidable (ClosesSoleBid s i) :=
  inferInstanceAs (Decidable (∀ a ∈ s.store.auctions, _))

/-- Every bid that was placed is flagged, and nothing takes a flag away. -/
structure Flagged (v : View) : Prop where
  winning : ∀ b ∈ v.bids, b.isWinning = true
  bidder_ne_zero : ∀ b ∈ v.bids, b.bidderId ≠ 0

section Flags

variable {sha256Hex : List UInt8 → List UInt8} {v v' : View} {s s₀ : Server} {i : Input}
  {ms : List Mark} {a : Auction} {bids : List Bid} {calls : List (Event ApiSig)}
  {ok : Server → Input → Prop}

theorem Flagged.step (hk : Flagged v) (hs : Sound v) (h : Change sha256Hex v i ms v') :
    Flagged v' := by
  have hnew (b : Bid) (hb : b ∈ v'.bids) : b.isWinning = true ∧ b.bidderId ≠ 0 := by
    have hold {b : Bid} (hb : b ∈ v.bids) : b.isWinning = true ∧ b.bidderId ≠ 0 :=
      ⟨hk.winning b hb, hk.bidder_ne_zero b hb⟩
    cases h with
    | placeBid _ _ _ _ _ hw _ _ _ hb' =>
        rcases List.mem_append.mp hb with hb | hb
        · exact hold hb
        · rw [List.mem_singleton.mp hb, hb']
          exact ⟨rfl, hs.users.ne_zero hw⟩
    | close =>
        simp only at hb
        split at hb
        · obtain ⟨b₀, hb₀, rfl | rfl⟩ := mem_markWinning hb
          · exact hold hb₀
          · exact ⟨rfl, (hold hb₀).2⟩
        · exact hold hb
    | _ => exact hold hb
  exact ⟨fun b hb => (hnew b hb).1, fun b hb => (hnew b hb).2⟩

/-- With every bid flagged, the flags name the winner of at most one bid. -/
theorem namesWinner_iff (h : AgreesWith a bids) (hflag : ∀ b ∈ bids, b.isWinning = true)
    (hbidder : ∀ b ∈ bids, b.bidderId ≠ 0) : NamesWinner a bids ↔ a.SoleBid := by
  have hcount : bids.countP Bid.isWinning = bids.length := List.countP_eq_length.mpr hflag
  have hzero : a.bidCount = 0 ↔ bids = [] := by
    rw [h.count, Int.natCast_eq_zero, List.length_eq_zero_iff]
  have hone : a.bidCount = 1 ↔ bids.length = 1 := by
    rw [h.count]
    omega
  unfold NamesWinner Auction.SoleBid
  rw [hzero, hone, hcount]
  split
  · next hsettles =>
      constructor
      · exact fun hnames => .inr ⟨hnames.2, hsettles.2⟩
      · rintro (hnil | ⟨hlen, -⟩)
        · exact absurd (h.no_bid hnil).1 hsettles.1
        · obtain ⟨b, rfl⟩ := List.length_eq_one_iff.mp hlen
          obtain ⟨hleader, hcurrent⟩ := h.last b rfl
          exact ⟨⟨b, by simp, hflag b (by simp), hleader.symm, hcurrent.symm⟩, hlen⟩
  · next hsettles =>
      constructor
      · intro hnone
        refine .inl (List.eq_nil_iff_forall_not_mem.mpr fun b hb => ?_)
        have hfalse := hnone b hb
        rw [hflag b hb] at hfalse
        cases hfalse
      · rintro (rfl | ⟨hlen, hreserve⟩)
        · simp
        · obtain ⟨b, rfl⟩ := List.length_eq_one_iff.mp hlen
          have hleader : a.highestBidderId ≠ 0 := (h.last b rfl).1 ▸ hbidder b (by simp)
          exact absurd ⟨hleader, hreserve⟩ hsettles

/-- **Step lemma**: what is closed stays with no bid or a single one. -/
theorem soleBid_step (hk : ∀ a ∈ s.view.auctions, a.status ≠ .auctionOpen → a.SoleBid)
    (hdocket : s.view.docket.Orderly) (hs : Sound s.view) (hok : ClosesSoleBid s i)
    (h : Change sha256Hex s.view i ms v') :
    ∀ a ∈ v'.auctions, a.status ≠ .auctionOpen → a.SoleBid := by
  intro a ha hclosed
  have hover {b : Auction} {status : AuctionStatus} (hb : b.SoleBid)
      (ha : a ∈ overwrite Auction.auctionId (b.withStatus status) s.view.auctions) :
      a.SoleBid := by
    rcases mem_overwrite ha with rfl | ⟨ha, -⟩
    · exact hb
    · exact hk a ha hclosed
  cases h with
  | placeBid _ _ _ _ hopen =>
      rcases mem_overwrite ha with rfl | ⟨ha, -⟩
      · exact absurd hopen hclosed
      · exact hk a ha hclosed
  | close hi hb hopen => exact hover (hok _ hb hi hopen) ha
  | createAuction _ _ _ _ hopen =>
      rcases List.mem_append.mp ha with ha | ha
      · exact hk a ha hclosed
      · rw [List.mem_singleton.mp ha] at hclosed
        exact absurd hopen hclosed
  | fileDispute _ _ hb _ hclosed' => exact hover (hk _ hb (by simp [hclosed'])) ha
  | reject _ _ hd _ hopen hb hid =>
      have hdisputed := hdocket.disputed_auction hs hd hopen hb hid
      exact hover (hk _ hb (by simp [hdisputed])) ha
  | _ => exact hk a ha hclosed

theorem flagged_seeded (createdAt now : Int) :
    Flagged (Server.seeded sha256Hex createdAt now).view where
  winning _ hb := nomatch hb
  bidder_ne_zero _ hb := nomatch hb

theorem Serves.flagged (h : Serves sha256Hex ok s₀ calls s) (hs : s₀.Sound)
    (hk : Flagged s₀.view) : Flagged s.view :=
  h.induct (P := fun _ v => Flagged v) hs hk fun _ _ _ _ _ hk hs _ _ hchange =>
    hk.step hs.view hchange

/-- What the flags say: in every state of every run they name the winner of an auction
exactly when it has no bid, or a single one that meets the reserve. -/
theorem Serves.namesWinner_iff (createdAt now : Int)
    (h : Serves sha256Hex ok (.seeded sha256Hex createdAt now) calls s)
    (ha : a ∈ s.store.auctions) :
    NamesWinner a (bidsOn a.auctionId s.store.bids) ↔ a.SoleBid := by
  have hseeded : (Server.seeded sha256Hex createdAt now).Sound := sound_seeded createdAt now
  have hlogged : LogAgrees s.view := h.logAgrees hseeded (logAgrees_seeded createdAt now)
  have hflagged : Flagged s.view := h.flagged hseeded (flagged_seeded createdAt now)
  exact OnlineAuction.namesWinner_iff (hlogged.follows a ha).agrees
    (fun b hb => hflagged.winning b (List.mem_of_mem_filter hb))
    (fun b hb => hflagged.bidder_ne_zero b (List.mem_of_mem_filter hb))

/-- **The winner by the flags**: along every run from the seeded state in which what is
closed has no bid, or a single one that meets the reserve, the flags of the bids name the
winner of every auction that is closed. -/
theorem namesWinner_of_serves (createdAt now : Int)
    (h : Serves sha256Hex ClosesSoleBid (.seeded sha256Hex createdAt now) calls s) :
    ∀ a ∈ s.store.auctions, a.status ≠ .auctionOpen →
      NamesWinner a (bidsOn a.auctionId s.store.bids) := by
  intro a ha hclosed
  have hseeded : (Server.seeded sha256Hex createdAt now).Sound := sound_seeded createdAt now
  have hsole : s.view.docket.Orderly ∧
      ∀ a ∈ s.view.auctions, a.status ≠ .auctionOpen → a.SoleBid := by
    refine h.induct (P := fun _ v => v.docket.Orderly ∧
      ∀ a ∈ v.auctions, a.status ≠ .auctionOpen → a.SoleBid) hseeded
      ⟨orderly_seeded createdAt now, fun _ ha => nomatch ha⟩ ?_
    intro _ s i _ v' hP hs hroom hok hchange
    exact ⟨hP.1.step (hchange.docket_step hs.view hroom.view),
      soleBid_step hP.2 hP.1 hs.view hok hchange⟩
  exact (h.namesWinner_iff createdAt now ha).mpr (hsole.2 a ha hclosed)

end Flags

/-- The sale with its one bid. -/
theorem namesWinner_of_serves_sale :
    let s := played saleScript
    s.auctionStatus 1 = some .auctionClosed ∧ ∀ a ∈ s.store.auctions, a.status ≠ .auctionOpen →
      NamesWinner a (bidsOn a.auctionId s.store.bids) := by
  have hscript : Playable ClosesSoleBid saleScript := by decide +kernel
  obtain ⟨calls, h⟩ := Serves.of_scripted hscript
  exact ⟨by decide +kernel, namesWinner_of_serves 0 1000 h⟩

/-- The buyer raises the bid before the close: both bids stay flagged. -/
def raisedScript : List Input :=
  saleScript.take 8 ++ [.message 6 (.placeBid ⟨1, 200⟩), .timerClose 1]

/-- A second bid is enough for the flags to name no winner. -/
theorem not_namesWinner :
    ¬ ∀ calls s, Plays anyInput calls s → ∀ a ∈ s.store.auctions, a.status ≠ .auctionOpen →
      NamesWinner a (bidsOn a.auctionId s.store.bids) := by
  intro h
  have hscript : Playable anyInput raisedScript := by decide +kernel
  have hnames := h _ _ (.of_script hscript)
  have hnot : ¬ ∀ a ∈ (played raisedScript).store.auctions, a.status ≠ .auctionOpen →
      NamesWinner a (bidsOn a.auctionId (played raisedScript).store.bids) := by
    decide +kernel
  exact hnot hnames

end OnlineAuction
