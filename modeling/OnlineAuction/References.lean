import OnlineAuction.LifeCycle

/-!
# OnlineAuction.References

Where the records are, and whom they name.

In every state of a run the record at position `i` of a file carries the identifier `i + 1`,
the files only grow, and every identifier that a record holds of another one was read, or
logged in with, before it was written, so that it still names a record (`Linked`).  `Sound`
has the half of this that the other invariants rest on.
-/

namespace OnlineAuction

/-! ## the identifiers that can be read -/

/-- The identifiers in use are those up to the number of records. -/
theorem isSome_readRec_iff {α : Type} {idOf : α → UInt32} {l : List α} (h : Numbered idOf l)
    (id : UInt32) : (readRec l id).isSome ↔ 1 ≤ id.toNat ∧ id.toNat ≤ l.length := by
  have hlen := h.length_lt
  rw [readRec, isSome_getElem?]
  by_cases h0 : id.toNat = 0
  · have hid : id = 0 := UInt32.toNat_inj.mp h0
    rw [hid, recPos_zero]
    simp only [UInt32.toNat_zero]
    omega
  · rw [recPos_of_pos (Nat.pos_of_ne_zero h0)]
    omega

theorem Extends.length_le {α : Type} {idOf : α → UInt32} {l l' : List α} (h : Extends idOf l l') :
    l.length ≤ l'.length := by
  have hlen : (l'.map idOf).length = l.length ∨ (l'.map idOf).length = l.length + 1 := by
    rcases h with h | h
    · exact .inl (by rw [h, List.length_map])
    · exact .inr (by rw [h]; simp)
  rw [List.length_map] at hlen
  omega

theorem map_bidId_markWinning (auctionId bidderId : UInt32) (bids : List Bid) :
    (markWinning auctionId bidderId bids).map Bid.bidId = bids.map Bid.bidId := by
  rw [markWinning, List.map_map]
  refine List.map_congr_left fun b _ => ?_
  simp only [Function.comp]
  split <;> rfl

/-- A marked bid is one that was there, marked or not. -/
theorem mem_markWinning {auctionId bidderId : UInt32} {bids : List Bid} {b : Bid}
    (h : b ∈ markWinning auctionId bidderId bids) :
    ∃ b₀ ∈ bids, b = b₀ ∨ b = { b₀ with isWinning := true } := by
  obtain ⟨b₀, hb₀, rfl⟩ := List.mem_map.mp h
  refine ⟨b₀, hb₀, ?_⟩
  split
  · exact .inr rfl
  · exact .inl rfl

/-! ## the records that are named -/

/-- A user with this identifier exists. -/
abbrev View.HasUser (v : View) (id : UInt32) : Prop := id ∈ v.users.map User.userId

/-- Every identifier in a record names a record. -/
structure Linked (v : View) : Prop where
  bids : Numbered Bid.bidId v.bids
  seller : ∀ a ∈ v.auctions, v.HasUser a.sellerId
  leader : ∀ a ∈ v.auctions, a.highestBidderId ≠ 0 → v.HasUser a.highestBidderId
  bidder : ∀ b ∈ v.bids, v.HasUser b.bidderId
  bid_auction : ∀ b ∈ v.bids, b.auctionId ∈ v.auctions.map Auction.auctionId
  raiser : ∀ d ∈ v.disputes, v.HasUser d.raisedByUserId
  resolver : ∀ d ∈ v.disputes, d.resolvedByUserId ≠ 0 → v.HasUser d.resolvedByUserId

section Changes

variable {sha256Hex : List UInt8 → List UInt8} {v v' : View} {i : Input} {ms : List Mark}

/-- No change takes a bid away. -/
theorem Change.bids_extends (h : Change sha256Hex v i ms v') :
    Extends Bid.bidId v.bids v'.bids := by
  cases h with
  | placeBid _ _ _ _ _ _ _ _ _ hb => exact .append (by rw [hb])
  | close =>
      refine .of_eq ?_
      simp only
      split
      · exact map_bidId_markWinning _ _ _
      · rfl
  | _ => exact .of_eq rfl

/-- The users that an auction names were named before, or exist. -/
theorem Change.auction_names (h : Change sha256Hex v i ms v') (hs : Sound v) {a : Auction}
    (ha : a ∈ v'.auctions) :
    ((∃ a₀ ∈ v.auctions, a₀.sellerId = a.sellerId) ∨ v.HasUser a.sellerId) ∧
      ((∃ a₀ ∈ v.auctions, a₀.highestBidderId = a.highestBidderId) ∨ a.highestBidderId = 0 ∨
        v.HasUser a.highestBidderId) := by
  have hold {a₀ : Auction} (ha₀ : a₀ ∈ v.auctions) (hseller : a₀.sellerId = a.sellerId)
      (hleader : a₀.highestBidderId = a.highestBidderId) :
      ((∃ a₀ ∈ v.auctions, a₀.sellerId = a.sellerId) ∨ v.HasUser a.sellerId) ∧
        ((∃ a₀ ∈ v.auctions, a₀.highestBidderId = a.highestBidderId) ∨ a.highestBidderId = 0 ∨
          v.HasUser a.highestBidderId) := ⟨.inl ⟨a₀, ha₀, hseller⟩, .inl ⟨a₀, ha₀, hleader⟩⟩
  cases h with
  | placeBid _ _ hb _ _ hw =>
      rcases mem_overwrite ha with rfl | ⟨ha, -⟩
      · exact ⟨.inl ⟨_, hb, rfl⟩, .inr (.inr (List.mem_map_of_mem hw))⟩
      · exact hold ha rfl rfl
  | close _ hb | fileDispute _ _ hb | reject _ _ _ _ _ hb =>
      rcases mem_overwrite ha with rfl | ⟨ha, -⟩
      · exact hold hb rfl rfl
      · exact hold ha rfl rfl
  | createAuction hlogged _ _ hseller _ hleader =>
      rcases List.mem_append.mp ha with ha | ha
      · exact hold ha rfl rfl
      · obtain rfl := List.mem_singleton.mp ha
        exact ⟨.inr (hseller ▸ hs.user_mem _ _ hlogged), .inr (.inl hleader)⟩
  | _ => exact hold ha rfl rfl

/-- So were the bidder and the auction of a bid. -/
theorem Change.bid_names (h : Change sha256Hex v i ms v') {b : Bid} (hb : b ∈ v'.bids) :
    (∃ b₀ ∈ v.bids, b₀.bidderId = b.bidderId ∧ b₀.auctionId = b.auctionId) ∨
      v.HasUser b.bidderId ∧ b.auctionId ∈ v.auctions.map Auction.auctionId := by
  cases h with
  | placeBid _ _ ha _ _ hw _ _ _ hnew =>
      rcases List.mem_append.mp hb with hb | hb
      · exact .inl ⟨b, hb, rfl, rfl⟩
      · obtain rfl := List.mem_singleton.mp hb
        rw [hnew]
        exact .inr ⟨List.mem_map_of_mem hw, List.mem_map_of_mem ha⟩
  | close =>
      simp only at hb
      split at hb
      · obtain ⟨b₀, hb₀, rfl | rfl⟩ := mem_markWinning hb
        · exact .inl ⟨_, hb₀, rfl, rfl⟩
        · exact .inl ⟨_, hb₀, rfl, rfl⟩
      · exact .inl ⟨b, hb, rfl, rfl⟩
  | _ => exact .inl ⟨b, hb, rfl, rfl⟩

/-- And so were the users that a dispute names. -/
theorem Change.dispute_names (h : Change sha256Hex v i ms v') (hs : Sound v) {d : Dispute}
    (hd : d ∈ v'.disputes) :
    ((∃ d₀ ∈ v.disputes, d₀.raisedByUserId = d.raisedByUserId) ∨ v.HasUser d.raisedByUserId) ∧
      ((∃ d₀ ∈ v.disputes, d₀.resolvedByUserId = d.resolvedByUserId) ∨ d.resolvedByUserId = 0 ∨
        v.HasUser d.resolvedByUserId) := by
  cases h with
  | fileDispute hlogged _ _ _ _ _ _ _ hraised hresolved =>
      rcases List.mem_append.mp hd with hd | hd
      · exact ⟨.inl ⟨d, hd, rfl⟩, .inl ⟨d, hd, rfl⟩⟩
      · obtain rfl := List.mem_singleton.mp hd
        exact ⟨.inr (hraised ▸ hs.user_mem _ _ hlogged), .inr (.inl hresolved)⟩
  | reject hlogged _ hd₀ _ _ _ _ _ _ _ hraised hresolved
  | refund hlogged _ hd₀ _ _ _ _ _ _ _ hraised hresolved =>
      rcases mem_overwrite hd with rfl | ⟨hd, -⟩
      · exact ⟨.inl ⟨_, hd₀, hraised.symm⟩, .inr (.inr (hresolved ▸ hs.user_mem _ _ hlogged))⟩
      · exact ⟨.inl ⟨d, hd, rfl⟩, .inl ⟨d, hd, rfl⟩⟩
  | _ => exact ⟨.inl ⟨d, hd, rfl⟩, .inl ⟨d, hd, rfl⟩⟩

/-- **Step lemma** for the links between the files. -/
theorem Linked.step (hk : Linked v) (hs : Sound v) (hroom : v.bids.length < 2 ^ 32 - 1)
    (h : Change sha256Hex v i ms v') : Linked v' := by
  have huser {id : UInt32} (hid : v.HasUser id) : v'.HasUser id := (h.users_extends hs).mem hid
  constructor
  · exact h.bids_extends.numbered hk.bids hroom
  · intro a ha
    rcases (h.auction_names hs ha).1 with ⟨a₀, ha₀, heq⟩ | hid
    · exact huser (heq ▸ hk.seller a₀ ha₀)
    · exact huser hid
  · intro a ha hne
    rcases (h.auction_names hs ha).2 with ⟨a₀, ha₀, heq⟩ | h0 | hid
    · rw [← heq] at hne ⊢
      exact huser (hk.leader a₀ ha₀ hne)
    · exact absurd h0 hne
    · exact huser hid
  · intro b hb
    rcases h.bid_names hb with ⟨b₀, hb₀, heq, -⟩ | ⟨hid, -⟩
    · exact huser (heq ▸ hk.bidder b₀ hb₀)
    · exact huser hid
  · intro b hb
    rcases h.bid_names hb with ⟨b₀, hb₀, -, heq⟩ | ⟨-, hid⟩
    · exact h.auctions_extends.mem (heq ▸ hk.bid_auction b₀ hb₀)
    · exact h.auctions_extends.mem hid
  · intro d hd
    rcases (h.dispute_names hs hd).1 with ⟨d₀, hd₀, heq⟩ | hid
    · exact huser (heq ▸ hk.raiser d₀ hd₀)
    · exact huser hid
  · intro d hd hne
    rcases (h.dispute_names hs hd).2 with ⟨d₀, hd₀, heq⟩ | h0 | hid
    · rw [← heq] at hne ⊢
      exact huser (hk.resolver d₀ hd₀ hne)
    · exact absurd h0 hne
    · exact huser hid

end Changes

/-! ## every run -/

/-- There is an identifier left for one more bid. -/
def BidsRoom (s : Server) (_ : Input) : Prop := s.store.bids.length < 2 ^ 32 - 1

instance (s : Server) (i : Input) : Decidable (BidsRoom s i) :=
  inferInstanceAs (Decidable (_ < _))

/-- The files of one store reach at least as far as those of another. -/
structure Store.Grew (s s' : Store) : Prop where
  users : s.users.length ≤ s'.users.length
  auctions : s.auctions.length ≤ s'.auctions.length
  bids : s.bids.length ≤ s'.bids.length
  disputes : s.disputes.length ≤ s'.disputes.length

/-- The four files are addressed by identifier, only grow, and name each other's records. -/
structure WellAddressed (sha256Hex : List UInt8 → List UInt8) (s : Server) : Prop where
  users : Numbered User.userId s.store.users
  auctions : Numbered Auction.auctionId s.store.auctions
  bids : Numbered Bid.bidId s.store.bids
  disputes : Numbered Dispute.disputeId s.store.disputes
  seller : ∀ a ∈ s.store.auctions, ∃ u ∈ s.store.users, u.userId = a.sellerId
  leader : ∀ a ∈ s.store.auctions, a.highestBidderId ≠ 0 →
    ∃ u ∈ s.store.users, u.userId = a.highestBidderId
  bidder : ∀ b ∈ s.store.bids, ∃ u ∈ s.store.users, u.userId = b.bidderId
  bid_auction : ∀ b ∈ s.store.bids, ∃ a ∈ s.store.auctions, a.auctionId = b.auctionId
  dispute_auction : ∀ d ∈ s.store.disputes, ∃ a ∈ s.store.auctions, a.auctionId = d.auctionId
  raiser : ∀ d ∈ s.store.disputes, ∃ u ∈ s.store.users, u.userId = d.raisedByUserId
  resolver : ∀ d ∈ s.store.disputes, d.resolvedByUserId ≠ 0 →
    ∃ u ∈ s.store.users, u.userId = d.resolvedByUserId
  read_user : ∀ id, (Store.exec (.readUser id) s.store).1.isSome ↔
    1 ≤ id.toNat ∧ id.toNat ≤ s.store.users.length
  read_auction : ∀ id, (Store.exec (.readAuction id) s.store).1.isSome ↔
    1 ≤ id.toNat ∧ id.toNat ≤ s.store.auctions.length
  read_dispute : ∀ id, (Store.exec (.readDispute id) s.store).1.isSome ↔
    1 ≤ id.toNat ∧ id.toNat ≤ s.store.disputes.length
  grows : ∀ calls s', Serves sha256Hex BidsRoom s calls s' → s.store.Grew s'.store

section Runs

variable {sha256Hex : List UInt8 → List UInt8} {s s' s₀ : Server} {calls : List (Event ApiSig)}
  {ok : Server → Input → Prop}

theorem linked_seeded (createdAt now : Int) :
    Linked (Server.seeded sha256Hex createdAt now).view where
  bids := numbered_nil
  seller _ ha := nomatch ha
  leader _ ha := nomatch ha
  bidder _ hb := nomatch hb
  bid_auction _ hb := nomatch hb
  raiser _ hd := nomatch hd
  resolver _ hd := nomatch hd

/-- Every reachable state is linked. -/
theorem Serves.linked (h : Serves sha256Hex BidsRoom s₀ calls s) (hs : s₀.Sound)
    (hk : Linked s₀.view) : Linked s.view :=
  h.induct (P := fun _ v => Linked v) hs hk fun _ _ _ _ _ hk hs _ hok hchange =>
    hk.step hs.view hok hchange

/-- No file shrinks. -/
theorem Serves.grew (h : Serves sha256Hex ok s₀ calls s) (hs : s₀.Sound) :
    s₀.store.Grew s.store := by
  have hgrew : s₀.store.users.length ≤ s.view.users.length ∧
      s₀.store.auctions.length ≤ s.view.auctions.length ∧
      s₀.store.bids.length ≤ s.view.bids.length ∧
      s₀.store.disputes.length ≤ s.view.disputes.length := by
    refine h.induct (P := fun _ v => s₀.store.users.length ≤ v.users.length ∧
      s₀.store.auctions.length ≤ v.auctions.length ∧ s₀.store.bids.length ≤ v.bids.length ∧
      s₀.store.disputes.length ≤ v.disputes.length) hs ⟨le_rfl, le_rfl, le_rfl, le_rfl⟩ ?_
    intro _ s i _ v' hP hs _ _ hchange
    obtain ⟨hu, ha, hb, hd⟩ := hP
    exact ⟨hu.trans (hchange.users_extends hs.view).length_le,
      ha.trans hchange.auctions_extends.length_le, hb.trans hchange.bids_extends.length_le,
      hd.trans hchange.disputes_extends.length_le⟩
  obtain ⟨hu, ha, hb, hd⟩ := hgrew
  exact ⟨hu, ha, hb, hd⟩

/-- **Addressing and references**: along every run from the seeded state with an identifier
left in each file, the record at position `i` of a file carries the identifier `i + 1`, the
files only grow, and every identifier in a record names a record. -/
theorem wellAddressed_of_serves (createdAt now : Int)
    (h : Serves sha256Hex BidsRoom (.seeded sha256Hex createdAt now) calls s) :
    WellAddressed sha256Hex s := by
  have hseeded : (Server.seeded sha256Hex createdAt now).Sound := sound_seeded createdAt now
  have hs := h.sound hseeded
  have hk : Linked s.view := h.linked hseeded (linked_seeded createdAt now)
  exact {
    users := hs.view.users
    auctions := hs.view.auctions
    bids := hk.bids
    disputes := hs.view.disputes
    seller := fun a ha => List.mem_map.mp (hk.seller a ha)
    leader := fun a ha hne => List.mem_map.mp (hk.leader a ha hne)
    bidder := fun b hb => List.mem_map.mp (hk.bidder b hb)
    bid_auction := fun b hb => List.mem_map.mp (hk.bid_auction b hb)
    dispute_auction := fun d hd => List.mem_map.mp (hs.view.auction_mem d hd)
    raiser := fun d hd => List.mem_map.mp (hk.raiser d hd)
    resolver := fun d hd hne => List.mem_map.mp (hk.resolver d hd hne)
    read_user := isSome_readRec_iff hs.view.users
    read_auction := isSome_readRec_iff hs.view.auctions
    read_dispute := isSome_readRec_iff hs.view.disputes
    grows := fun _ _ h' => h'.grew hs }

end Runs

/-- A sale, a dispute and its rejection. -/
theorem wellAddressed_of_serves_sale :
    let s := played saleScript
    s.store.disputes.map Dispute.resolvedByUserId = [1] ∧ WellAddressed adminSha256Hex s := by
  have hscript : Playable BidsRoom saleScript := by decide +kernel
  obtain ⟨calls, h⟩ := Serves.of_scripted hscript
  exact ⟨by decide +kernel, wellAddressed_of_serves 0 1000 h⟩

end OnlineAuction
