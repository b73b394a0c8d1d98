import OnlineAuction.BidAnswers
import OnlineAuction.WalletSafety

/-!
# OnlineAuction.BidOrder

Two bids on different auctions by different users.

Neither bidder leads the other's auction, so each bid is checked against records that the other
does not touch (`bidAnswer_placeBid`).  What both may write is the record of a user who leads both
auctions: two releases of one wallet, which commute as long as the clamp at zero is the only
guard that acts (`Commutes.release`).
-/

namespace OnlineAuction

/-! ## wallet calls that commute -/

/-- On a sound wallet it does not matter which call comes first. -/
def WalletCall.Commutes (c c' : WalletCall) : Prop :=
  ∀ u : User, u.WalletOk → c.update (c'.update u) = c'.update (c.update u)

section Commutes

variable {c c' : WalletCall} {u : User}

theorem WalletCall.update_walletOk (h : u.WalletOk) (c : WalletCall) : (c.update u).WalletOk := by
  unfold WalletCall.update
  split
  · cases happly : c.apply u with
    | none => exact h
    | some v => exact (c.apply_eq_some happly).2
  · exact h

theorem updates_walletOk (h : u.WalletOk) (cs : List WalletCall) : (updates cs u).WalletOk := by
  induction cs generalizing u with
  | nil => exact h
  | cons c cs ih => exact ih (c.update_walletOk h)

/-- Calls about different users. -/
theorem Commutes.of_ne (h : c.userId ≠ c'.userId) : c.Commutes c' := by
  intro u _
  by_cases hc : u.userId = c.userId
  · have hne : u.userId ≠ c'.userId := fun he => h (hc.symm.trans he)
    have hne' : (c.update u).userId ≠ c'.userId := by rwa [c.update_userId]
    rw [WalletCall.update_of_ne hne, WalletCall.update_of_ne hne']
  · have hne' : (c'.update u).userId ≠ c.userId := by rwa [c'.update_userId]
    rw [WalletCall.update_of_ne hc, WalletCall.update_of_ne hne']

/-- What a release makes of a sound wallet. -/
theorem update_releaseHold {id : UInt32} {x : ℚ} (hx : 0 ≤ x) (hu : u.WalletOk)
    (hid : u.userId = id) : (WalletCall.releaseHold id x).update u =
      u.withWallet u.walletBalance (max (u.walletHold - x) 0) := by
  have hbalance : 0 ≤ u.walletBalance := hu.1.trans hu.2
  have hle : max (u.walletHold - x) 0 ≤ u.walletBalance :=
    max_le (by linarith [hu.2]) hbalance
  refine WalletCall.update_of_apply hid ?_
  simp only [WalletCall.apply, walletDelta_eq, add_zero, ← sub_eq_add_neg, not_lt.mpr hbalance,
    not_lt.mpr hle, if_false]

/-- Two releases of one wallet: the clamp acts on what is left in the end. -/
theorem Commutes.release {id : UInt32} {x y : ℚ} (hx : 0 ≤ x) (hy : 0 ≤ y) :
    (WalletCall.releaseHold id x).Commutes (.releaseHold id y) := by
  intro u hu
  by_cases hid : u.userId = id
  · have hclamp {x y : ℚ} (hx : 0 ≤ x) (hy : 0 ≤ y) :
        max (max (u.walletHold - y) 0 - x) 0 = max (u.walletHold - (x + y)) 0 := by
      rcases le_total (u.walletHold - y) 0 with h | h
      · rw [max_eq_right h, max_eq_right (by linarith), max_eq_right (by linarith)]
      · rw [max_eq_left h]
        congr 1
        ring
    have hu' {x : ℚ} : ((WalletCall.releaseHold id x).update u).WalletOk :=
      WalletCall.update_walletOk hu _
    rw [update_releaseHold hx hu' ((WalletCall.update_userId _ _).trans hid),
      update_releaseHold hy hu' ((WalletCall.update_userId _ _).trans hid),
      update_releaseHold hx hu hid, update_releaseHold hy hu hid]
    simp only [User.withWallet_walletHold, User.withWallet_walletBalance]
    rw [hclamp hx hy, hclamp hy hx, add_comm]
    rfl
  · have hne {x : ℚ} : u.userId ≠ (WalletCall.releaseHold id x).userId := hid
    rw [WalletCall.update_of_ne hne, WalletCall.update_of_ne hne, WalletCall.update_of_ne hne]

/-- Lists of calls that commute pairwise. -/
theorem updates_comm {cs cs' : List WalletCall} (h : ∀ c ∈ cs, ∀ c' ∈ cs', c.Commutes c')
    (hu : u.WalletOk) : updates cs (updates cs' u) = updates cs' (updates cs u) := by
  have hone (c : WalletCall) (hc : ∀ c' ∈ cs', c.Commutes c') (u : User) (hu : u.WalletOk) :
      c.update (updates cs' u) = updates cs' (c.update u) := by
    clear h
    induction cs' generalizing u with
    | nil => rfl
    | cons c' cs' ih =>
        rw [updates_cons, updates_cons,
          ih (fun d hd => hc d (List.mem_cons_of_mem _ hd)) _ (c'.update_walletOk hu),
          hc c' (List.mem_cons_self ..) u hu]
  induction cs generalizing u with
  | nil => rfl
  | cons c cs ih =>
      rw [updates_cons, updates_cons, hone c (h c (List.mem_cons_self ..)) u hu]
      exact ih (fun d hd => h d (List.mem_cons_of_mem _ hd)) (c.update_walletOk hu)

end Commutes

/-! ## what the bids rely on -/

/-- Wallets are sound, in the file and in the sessions, and current bids are positive. -/
structure Backed (v : View) : Prop where
  users : ∀ u ∈ v.users, u.WalletOk
  copies : ∀ fd c, v.conns fd = some c → c.currentUser.WalletOk
  bids : ∀ a ∈ v.auctions, 0 < a.currentBid

section Backed

variable {sha256Hex : List UInt8 → List UInt8} {v v' : View} {i : Input} {ms : List Mark}

theorem Backed.step (hk : Backed v) (hs : Sound v) (h : Change sha256Hex v i ms v') :
    Backed v' := by
  have hwallets (cs : List WalletCall) : ∀ u ∈ usersAfter cs v.users, u.WalletOk := by
    rw [usersAfter_eq_map hs.users]
    intro u hu
    obtain ⟨w, hw, rfl⟩ := List.mem_map.mp hu
    exact updates_walletOk (hk.users w hw) cs
  have hrecord {w u : User} (hw : w.WalletOk) (hbalance : u.walletBalance = w.walletBalance)
      (hhold : u.walletHold = w.walletHold) :
      ∀ x ∈ overwrite User.userId u v.users, x.WalletOk := by
    intro x hx
    rcases mem_overwrite hx with rfl | ⟨hx, -⟩
    · rwa [User.WalletOk, hbalance, hhold]
    · exact hk.users x hx
  have hconn {fd : Int} {c : Option Conn} {v' : View} (hv' : v'.conns = v.conns)
      (hc : ∀ c' ∈ c, c'.currentUser.WalletOk) :
      ∀ fd' c', (v'.setConn fd c).conns fd' = some c' → c'.currentUser.WalletOk := by
    intro fd' c' hc'
    by_cases hfd : fd' = fd
    · simp only [View.setConn, hfd, Function.update_self] at hc'
      exact hc c' hc'
    · simp only [View.setConn, Function.update_of_ne hfd, hv'] at hc'
      exact hk.copies fd' c' hc'
  have hauction {a x : Auction} (ha : a ∈ v.auctions) (hx : a.currentBid ≤ x.currentBid) :
      ∀ b ∈ overwrite Auction.auctionId x v.auctions, 0 < b.currentBid := by
    intro b hb
    rcases mem_overwrite hb with rfl | ⟨hb, -⟩
    · exact (hk.bids a ha).trans_le hx
    · exact hk.bids b hb
  cases h with
  | nothing | clock | depositFails => exact ⟨hk.users, hk.copies, hk.bids⟩
  | restart => exact ⟨hk.users, fun _ _ hc => by simp at hc, hk.bids⟩
  | connect => exact ⟨hk.users, hconn rfl (by simp [Conn.fresh, User.walletOk_zero]), hk.bids⟩
  | hangUp => exact ⟨hk.users, hconn rfl (by simp), hk.bids⟩
  | signOff => exact ⟨hk.users, hconn rfl (by simp), hk.bids⟩
  | loginFails hc => exact ⟨hk.users, hconn rfl (by simpa using hk.copies _ _ hc), hk.bids⟩
  | logsIn hc hu =>
      have hw := hk.users _ (mem_of_findByUsername hu)
      exact ⟨hrecord hw rfl rfl, hconn rfl (by simpa using hw), hk.bids⟩
  | changePass hc =>
      have hw := hk.copies _ _ hc.1
      refine ⟨hrecord hw rfl rfl, hconn rfl fun c' hc' => ?_, hk.bids⟩
      obtain rfl := Option.some.inj hc'
      exact hw
  | deposit hc hpos hw =>
      have hw' := hwallets [_] _ hw
      exact ⟨hwallets _, hconn rfl (by simpa using hw'), hk.bids⟩
  | placeBid hc hrole ha hid hopen hw hwid hfunds hhigher =>
      exact ⟨hwallets _, hk.copies, hauction ha hhigher.le⟩
  | close hi ha => exact ⟨hwallets _, hk.copies, hauction ha le_rfl⟩
  | createAuction hc hrole hid hseller hopen hleader hstart hpos =>
      refine ⟨hk.users, hk.copies, fun a ha => ?_⟩
      rcases List.mem_append.mp ha with ha | ha
      · exact hk.bids a ha
      · obtain rfl := List.mem_singleton.mp ha
        exact hstart ▸ hpos
  | fileDispute _ _ ha => exact ⟨hk.users, hk.copies, hauction ha le_rfl⟩
  | reject _ _ _ _ _ ha => exact ⟨hk.users, hk.copies, hauction ha le_rfl⟩
  | refund => exact ⟨hwallets _, hk.copies, hk.bids⟩
  | toggleAccount _ _ hw | changeRole _ _ hw =>
      exact ⟨hrecord (hk.users _ hw) rfl rfl, hk.copies, hk.bids⟩
  | addUser =>
      refine ⟨fun u hu => ?_, hk.copies, hk.bids⟩
      rcases List.mem_append.mp hu with hu | hu
      · exact hk.users u hu
      · obtain rfl := List.mem_singleton.mp hu
        exact ⟨le_rfl, le_rfl⟩

theorem backed_seeded (createdAt now : Int) :
    Backed (Server.seeded sha256Hex createdAt now).view where
  users u hu := by
    obtain rfl := List.mem_singleton.mp hu
    exact ⟨le_rfl, le_rfl⟩
  copies _ _ hc := by cases hc
  bids _ ha := by cases ha

theorem Serves.backed {ok : Server → Input → Prop} {s₀ s : Server} {calls : List (Event ApiSig)}
    (h : Serves sha256Hex ok s₀ calls s) (hs : s₀.Sound) (hk : Backed s₀.view) : Backed s.view :=
  h.induct (P := fun _ v => Backed v) hs hk fun _ _ _ _ _ hP hs _ _ hchange =>
    hP.step hs.view hchange

end Backed

/-! ## two bids -/

/-- The user leads the auction. -/
def Auction.LedBy (a : Auction) (userId : UInt32) : Prop :=
  a.highestBidderId ≠ 0 ∧ a.highestBidderId = userId

instance (a : Auction) (userId : UInt32) : Decidable (a.LedBy userId) :=
  inferInstanceAs (Decidable (_ ∧ _))

section Bids

variable {v : View} {req req' : PlaceBidPayload} {bidder bidder' : UInt32} {a a' : Auction}

/-- The wallets that an accepted bid touches. -/
theorem userId_biddingCalls {c : WalletCall} {amount : ℚ} (h : c ∈ a.biddingCalls bidder amount) :
    c = .placeHold bidder amount ∨
      a.highestBidderId ≠ 0 ∧ c = .releaseHold a.highestBidderId a.currentBid := by
  unfold Auction.biddingCalls at h
  split at h
  · next hleader =>
      rcases List.mem_cons.mp h with rfl | h
      · exact .inr ⟨hleader, rfl⟩
      · exact .inl (List.mem_singleton.mp h)
  · exact .inl (List.mem_singleton.mp h)

/-- The calls of two bids commute unless a bidder leads the other's auction. -/
theorem commutes_biddingCalls {amount amount' : ℚ} (ha : 0 < a.currentBid)
    (ha' : 0 < a'.currentBid) (hne : bidder ≠ bidder') (hled : ¬ a'.LedBy bidder)
    (hled' : ¬ a.LedBy bidder') {c c' : WalletCall} (hc : c ∈ a.biddingCalls bidder amount)
    (hc' : c' ∈ a'.biddingCalls bidder' amount') : c.Commutes c' := by
  rcases userId_biddingCalls hc with rfl | ⟨hleader, rfl⟩
  · rcases userId_biddingCalls hc' with rfl | ⟨hleader', rfl⟩
    · exact Commutes.of_ne hne
    · exact Commutes.of_ne fun h => hled ⟨hleader', h.symm⟩
  · rcases userId_biddingCalls hc' with rfl | ⟨hleader', rfl⟩
    · exact Commutes.of_ne fun h => hled' ⟨hleader, h⟩
    · by_cases hsame : a.highestBidderId = a'.highestBidderId
      · rw [hsame]
        exact Commutes.release ha.le ha'.le
      · exact Commutes.of_ne hsame

/-- The record of a bidder who does not lead the other's auction is left alone. -/
theorem updates_biddingCalls {amount : ℚ} {u : User} (hne : u.userId ≠ bidder')
    (hled : ¬ a'.LedBy u.userId) : updates (a'.biddingCalls bidder' amount) u = u := by
  refine updates_of_ne fun c hc => ?_
  rcases userId_biddingCalls hc with rfl | ⟨hleader, rfl⟩
  · exact hne
  · exact fun h => hled ⟨hleader, h.symm⟩

/-- An accepted bid, on numbered files. -/
theorem placeBid_of_ok (husers : Numbered User.userId v.users)
    (hauctions : Numbered Auction.auctionId v.auctions)
    (hread : readRec v.auctions req.auctionId = some a)
    (hok : bidAnswer v.users v.auctions req bidder = .errOk) : v.placeBid req bidder = { v with
      users := v.users.map (updates (a.biddingCalls bidder req.amount))
      auctions := overwrite Auction.auctionId (a.withBid bidder req.amount) v.auctions
      bids := v.bids ++
        [⟨nextRecId v.bids, req.auctionId, bidder, req.amount, v.clock, true⟩] } := by
  obtain ⟨ha, -⟩ := hauctions.readRec_eq_some.mp hread
  have hwrite : writeRec .zero v.auctions a.auctionId (a.withBid bidder req.amount) =
      overwrite Auction.auctionId (a.withBid bidder req.amount) v.auctions :=
    hauctions.writeRec_eq_overwrite (x := a.withBid bidder req.amount) ha rfl
  rw [View.placeBid, if_pos hok, hread, ← usersAfter_eq_map husers, ← hwrite]

/-- The other auction is read as before. -/
theorem readRec_overwrite_withBid (hauctions : Numbered Auction.auctionId v.auctions)
    (hread : readRec v.auctions req'.auctionId = some a')
    (hids : req.auctionId ≠ req'.auctionId) (amount : ℚ) :
    readRec (overwrite Auction.auctionId (a'.withBid bidder' amount) v.auctions) req.auctionId =
      readRec v.auctions req.auctionId := by
  obtain ⟨ha, hid⟩ := hauctions.readRec_eq_some.mp hread
  rw [hauctions.readRec_overwrite ha (by rfl)]
  exact if_neg fun h => hids (h.trans hid)

theorem placeBid_of_not_ok (hok : bidAnswer v.users v.auctions req bidder ≠ .errOk) :
    v.placeBid req bidder = v := if_neg hok

/-- A bid is checked against records that the other bid does not touch. -/
theorem bidAnswer_placeBid (hs : Sound v) (hids : req.auctionId ≠ req'.auctionId)
    (hne : bidder ≠ bidder')
    (hled : ∀ a ∈ v.auctions, a.auctionId = req'.auctionId → ¬ a.LedBy bidder) :
    bidAnswer (v.placeBid req' bidder').users (v.placeBid req' bidder').auctions req bidder =
      bidAnswer v.users v.auctions req bidder := by
  by_cases hok : bidAnswer v.users v.auctions req' bidder' = .errOk
  case neg => rw [placeBid_of_not_ok hok]
  obtain ⟨a', -, hread, -⟩ := bidAnswer_eq_ok.mp hok
  obtain ⟨ha', hid'⟩ := hs.auctions.readRec_eq_some.mp hread
  rw [placeBid_of_ok hs.users hs.auctions hread hok]
  have hauction : readRec (overwrite Auction.auctionId (a'.withBid bidder' req'.amount) v.auctions)
      req.auctionId = readRec v.auctions req.auctionId :=
    readRec_overwrite_withBid hs.auctions hread hids _
  have huser : readRec (v.users.map (updates (a'.biddingCalls bidder' req'.amount))) bidder =
      readRec v.users bidder := by
    rw [← readRec_map]
    cases hread : readRec v.users bidder with
    | none => rfl
    | some u =>
        obtain ⟨-, rfl⟩ := hs.users.readRec_eq_some.mp hread
        exact congrArg some (updates_biddingCalls hne (hled a' ha' hid'))
  simp only [bidAnswer, hauction, huser]

/-- What a record of a bid says besides its number and its time. -/
def Bid.content (b : Bid) : UInt32 × UInt32 × ℚ × Bool :=
  (b.auctionId, b.bidderId, b.amount, b.isWinning)

/-- **Two accepted or refused bids** leave the same users and auctions in either order, and the
same bids up to order, number and time. -/
theorem placeBid_comm (hs : Sound v) (hk : Backed v) (hids : req.auctionId ≠ req'.auctionId)
    (hne : bidder ≠ bidder')
    (hled : ∀ a ∈ v.auctions, a.auctionId = req'.auctionId → ¬ a.LedBy bidder)
    (hled' : ∀ a ∈ v.auctions, a.auctionId = req.auctionId → ¬ a.LedBy bidder') :
    ((v.placeBid req bidder).placeBid req' bidder').users =
        ((v.placeBid req' bidder').placeBid req bidder).users ∧
      ((v.placeBid req bidder).placeBid req' bidder').auctions =
        ((v.placeBid req' bidder').placeBid req bidder).auctions ∧
      (((v.placeBid req bidder).placeBid req' bidder').bids.map Bid.content).Perm
        (((v.placeBid req' bidder').placeBid req bidder).bids.map Bid.content) := by
  have hanswer := bidAnswer_placeBid hs hids hne hled
  have hanswer' := bidAnswer_placeBid hs hids.symm hne.symm hled'
  by_cases hok : bidAnswer v.users v.auctions req bidder = .errOk
  case neg =>
    rw [placeBid_of_not_ok hok, placeBid_of_not_ok (hanswer.trans_ne hok)]
    exact ⟨rfl, rfl, .refl _⟩
  by_cases hok' : bidAnswer v.users v.auctions req' bidder' = .errOk
  case neg =>
    rw [placeBid_of_not_ok hok', placeBid_of_not_ok (hanswer'.trans_ne hok')]
    exact ⟨rfl, rfl, .refl _⟩
  obtain ⟨a, -, hread, -⟩ := bidAnswer_eq_ok.mp hok
  obtain ⟨a', -, hread', -⟩ := bidAnswer_eq_ok.mp hok'
  obtain ⟨ha, hid⟩ := hs.auctions.readRec_eq_some.mp hread
  obtain ⟨ha', hid'⟩ := hs.auctions.readRec_eq_some.mp hread'
  have hother := (readRec_overwrite_withBid hs.auctions hread' hids req'.amount :
    readRec (overwrite _ (a'.withBid bidder' _) _) _ = _).trans hread
  have hother' := (readRec_overwrite_withBid hs.auctions hread hids.symm req.amount :
    readRec (overwrite _ (a.withBid bidder _) _) _ = _).trans hread'
  have husers (cs : List WalletCall) : Numbered User.userId (v.users.map (updates cs)) :=
    hs.users.map_users fun u => updates_userId cs u
  have hplaced := placeBid_of_ok hs.users hs.auctions hread hok
  have hplaced' := placeBid_of_ok hs.users hs.auctions hread' hok'
  rw [hplaced'] at hanswer
  rw [hplaced] at hanswer'
  rw [hplaced, hplaced',
    placeBid_of_ok (husers _) (hs.auctions.overwrite _) hother' (hanswer'.trans hok'),
    placeBid_of_ok (husers _) (hs.auctions.overwrite _) hother (hanswer.trans hok)]
  refine ⟨?_, ?_, ?_⟩
  · simp only [List.map_map]
    refine List.map_congr_left fun u hu => ?_
    refine updates_comm (fun c' hc' c hc => ?_) (hk.users u hu)
    exact commutes_biddingCalls (hk.bids a' ha') (hk.bids a ha) hne.symm (hled' a ha hid)
      (hled a' ha' hid') hc' hc
  · exact overwrite_comm fun h => hids (hid.symm.trans (h.symm.trans hid'))
  · simp only [List.map_append, List.map_cons, List.map_nil, List.append_assoc, Bid.content]
    exact (List.Perm.swap _ _ []).append_left _

end Bids

/-! ## the handler -/

/-- The store after a bid. -/
def Store.afterBid (s : Store) (fd : Int) (req : PlaceBidPayload) (bidder : User) : Store :=
  (Prog.run Api.exec (handlePlaceBid fd req bidder) s).2

/-- The status codes that the bidder is sent. -/
def Store.bidStatus (s : Store) (fd : Int) (req : PlaceBidPayload) (bidder : User) :
    List ErrCode :=
  (bidAnswers (Prog.trace Api.exec (handlePlaceBid fd req bidder) s)).map fun answer => answer.2.1

/-- In either order the bidders are told the same, and the files are the same. -/
structure BidsCommute (s : Store) (fd fd' : Int) (req req' : PlaceBidPayload)
    (bidder bidder' : User) : Prop where
  status : (s.afterBid fd' req' bidder').bidStatus fd req bidder = s.bidStatus fd req bidder
  status' : (s.afterBid fd req bidder).bidStatus fd' req' bidder' = s.bidStatus fd' req' bidder'
  users : ((s.afterBid fd req bidder).afterBid fd' req' bidder').users =
    ((s.afterBid fd' req' bidder').afterBid fd req bidder).users
  auctions : ((s.afterBid fd req bidder).afterBid fd' req' bidder').auctions =
    ((s.afterBid fd' req' bidder').afterBid fd req bidder).auctions
  bids : (((s.afterBid fd req bidder).afterBid fd' req' bidder').bids.map Bid.content).Perm
    (((s.afterBid fd' req' bidder').afterBid fd req bidder).bids.map Bid.content)

section Handler

variable {sha256Hex : List UInt8 → List UInt8} {s : Server} {calls : List (Event ApiSig)}
  {req req' : PlaceBidPayload} {bidder bidder' : User}

theorem bidStatus_eq (s : Store) (fd : Int) (req : PlaceBidPayload) (bidder : User) :
    s.bidStatus fd req bidder = [bidAnswer s.users s.auctions req bidder.userId] := by
  simp [Store.bidStatus, answers_handlePlaceBid]

/-- **Bids on different auctions**, by users who do not lead the other's auction, commute in every
state that is reached by requests. -/
theorem bidsCommute_of_serves (createdAt now : Int)
    (h : Serves sha256Hex anyInput (.seeded sha256Hex createdAt now) calls s) (fd fd' : Int)
    (hids : req.auctionId ≠ req'.auctionId) (hne : bidder.userId ≠ bidder'.userId)
    (hled : ∀ a ∈ s.store.auctions, a.auctionId = req'.auctionId → ¬ a.LedBy bidder.userId)
    (hled' : ∀ a ∈ s.store.auctions, a.auctionId = req.auctionId → ¬ a.LedBy bidder'.userId) :
    BidsCommute s.store fd fd' req req' bidder bidder' := by
  have hseeded : (Server.seeded sha256Hex createdAt now).Sound := sound_seeded createdAt now
  have hs := (h.sound hseeded).view
  have hk := h.backed hseeded (backed_seeded createdAt now)
  have hafter (t : Store) (fd : Int) (req : PlaceBidPayload) (bidder : User) :
      (t.afterBid fd req bidder).view s.conns = (t.view s.conns).placeBid req bidder.userId :=
    view_handlePlaceBid s.conns fd req bidder t
  have hone : (s.store.afterBid fd req bidder).view s.conns = s.view.placeBid req bidder.userId :=
    hafter s.store fd req bidder
  have hone' : (s.store.afterBid fd' req' bidder').view s.conns =
      s.view.placeBid req' bidder'.userId := hafter s.store fd' req' bidder'
  have htwo := hafter (s.store.afterBid fd req bidder) fd' req' bidder'
  have htwo' := hafter (s.store.afterBid fd' req' bidder') fd req bidder
  rw [hone] at htwo
  rw [hone'] at htwo'
  obtain ⟨husers, hauctions, hbids⟩ := placeBid_comm hs hk hids hne hled hled'
  rw [← htwo, ← htwo'] at husers hauctions hbids
  have hanswer := bidAnswer_placeBid hs hids hne hled
  have hanswer' := bidAnswer_placeBid hs hids.symm hne.symm hled'
  rw [← hone'] at hanswer
  rw [← hone] at hanswer'
  refine ⟨?_, ?_, husers, hauctions, hbids⟩
  · rw [bidStatus_eq, bidStatus_eq]
    exact congrArg (fun status => [status]) hanswer
  · rw [bidStatus_eq, bidStatus_eq]
    exact congrArg (fun status => [status]) hanswer'

end Handler

/-- User `2` leads both auctions when users `3` and `4` bid. -/
def twoAuctionsScript : List Input :=
  [.connect 5, logIn 5 adminName, addUser 5 [98] roleBidder, addUser 5 [99] roleBidder,
    addUser 5 [100] roleBidder, .connect 6, logIn 6 [98], .message 6 (.deposit ⟨500⟩),
    .connect 7, logIn 7 [99], .message 7 (.deposit ⟨500⟩), .connect 8, logIn 8 [100],
    .message 8 (.deposit ⟨500⟩), .message 5 (.createAuction ⟨.zero _, .zero _, 100, 0, 60⟩),
    .message 5 (.createAuction ⟨.zero _, .zero _, 100, 0, 60⟩), .message 6 (.placeBid ⟨1, 150⟩),
    .message 6 (.placeBid ⟨2, 200⟩)]

theorem bidsCommute_of_serves_two :
    BidsCommute (played twoAuctionsScript).store 7 8 ⟨1, 160⟩ ⟨2, 210⟩
      { User.zero with userId := 3 } { User.zero with userId := 4 } := by
  have hscript : Playable anyInput twoAuctionsScript := by decide +kernel
  exact bidsCommute_of_serves 0 1000 (.of_script hscript) 7 8 (by decide) (by decide)
    (by decide +kernel) (by decide +kernel)

end OnlineAuction
