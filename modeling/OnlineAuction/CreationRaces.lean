import OnlineAuction.Creations

/-!
# OnlineAuction.CreationRaces

When a created record stays what its client was told.

Two requests that compute the size of a file before either has written its record give
out the same identifier, and the second one overwrites the user or the auction of the
first (`not_created`).  In a run in which every record is written where its file ends
(`OnTime`) nobody's record is lost and no identifier is given out twice
(`created_of_run`).
-/

namespace OnlineAuction

section Races

variable {ι α : Type}

/-- The records that the calls of a log are about, with who made these calls. -/
def recordsIn (f : Creation → SysOp → Option α) (req : ι → Creation)
    (log : List (ι × Event SysSig)) : List (ι × α) :=
  log.filterMap fun e => (f (req e.1) e.2.1).map fun x => (e.1, x)

/-- Nothing that was told has been lost: no two clients were told of the same identifier,
and what is read there is what they were told. -/
structure NoneLost (idOf : α → UInt32) (told : List (ι × α)) (read : UInt32 → Option α) :
    Prop where
  distinct : ∀ t t' x x', (t, x) ∈ told → (t', x') ∈ told → idOf x = idOf x' → t = t'
  stored : ∀ t x, (t, x) ∈ told → read (idOf x) = some x

/-- No identifier is told twice. -/
theorem NoneLost.eq_of_id {idOf : α → UInt32} {told : List (ι × α)} {read : UInt32 → Option α}
    {t t' : ι} {i : UInt32} (h : NoneLost idOf told read)
    (ht : (t, i) ∈ told.map fun x => (x.1, idOf x.2))
    (ht' : (t', i) ∈ told.map fun x => (x.1, idOf x.2)) : t = t' := by
  obtain ⟨⟨_, x⟩, hx, heq⟩ := List.mem_map.mp ht
  obtain ⟨⟨_, x'⟩, hx', heq'⟩ := List.mem_map.mp ht'
  obtain ⟨rfl, hid⟩ := Prod.mk.inj heq
  obtain ⟨rfl, hid'⟩ := Prod.mk.inj heq'
  exact h.distinct _ _ x x' hx hx' (hid.trans hid'.symm)

/-- What is to hold of the three files. -/
structure Created (req : ι → Creation) (w : SysLogged ι) : Prop where
  users : NoneLost User.userId (recordsIn Creation.toldUser req w.2)
    fun id => (readRec w.1.store.users id).map User.blank
  auctions : NoneLost Auction.auctionId (recordsIn Creation.toldAuction req w.2)
    (readRec w.1.store.auctions)
  bids : NoneLost Bid.bidId (recordsIn Creation.toldBid req w.2) (readRec w.1.store.bids)

/-- A record is written where its file ends; a bid rewrites an auction that has been there
from the start. -/
def OnTime (req : ι → Creation) (first : Store) (t : ι) (op : SysOp) (w : SysLogged ι) : Prop :=
  (∀ u ∈ (req t).madeUser op, recPos u.userId = w.1.store.users.length) ∧
    (∀ a ∈ (req t).madeAuction op, recPos a.auctionId = w.1.store.auctions.length) ∧
    (∀ b ∈ (req t).madeBid op, recPos b.bidId = w.1.store.bids.length) ∧
    ∀ a ∈ (req t).bidOn op, recPos a.auctionId < first.auctions.length

instance (req : ι → Creation) (first : Store) (t : ι) (op : SysOp) (w : SysLogged ι) :
    Decidable (OnTime req first t op w) := inferInstanceAs (Decidable (_ ∧ _ ∧ _ ∧ _))

section Log

variable {f : Creation → SysOp → Option α} {req : ι → Creation} {log : List (ι × Event SysSig)}
  {t u : ι} {e : Event SysSig} {x : α}

/-- A further event adds what it tells. -/
theorem recordsIn_append : recordsIn f req (log ++ [(t, e)]) =
    recordsIn f req log ++ ((f (req t) e.1).map fun x => (t, x)).toList := by
  rw [recordsIn, List.filterMap_append]
  cases h : f (req t) e.1 <;> simp [recordsIn, h]

theorem recordsIn_append_none (h : f (req t) e.1 = none) :
    recordsIn f req (log ++ [(t, e)]) = recordsIn f req log := by
  rw [recordsIn_append, h]
  exact List.append_nil _

theorem recordsIn_append_some (h : f (req t) e.1 = some x) :
    recordsIn f req (log ++ [(t, e)]) = recordsIn f req log ++ [(t, x)] := by
  rw [recordsIn_append, h]
  rfl

/-- What was in the log stays in it. -/
theorem mem_recordsIn_append (h : (u, x) ∈ recordsIn f req log) :
    (u, x) ∈ recordsIn f req (log ++ [(t, e)]) := by
  rw [recordsIn_append]
  exact List.mem_append_left _ h

end Log

/-! ## what requests remember and tell -/

section Honest

variable {req : ι → Creation} {log : List (ι × Event SysSig)} {t : ι}

/-- What a request remembers to have made it has made. -/
def Remembers [DecidableEq ι] (f : Creation → SysOp → Option α) (proj : Made → Option α)
    (req : ι → Creation) (log : List (ι × Event SysSig)) : Prop :=
  ∀ t x, proj ((req t).conduct.memory t log) = some x → (t, x) ∈ recordsIn f req log

/-- At first nothing is remembered. -/
theorem remembers_start [DecidableEq ι] {f : Creation → SysOp → Option α} {proj : Made → Option α}
    (hfirst : ∀ c : Creation, proj c.conduct.first = none) : Remembers f proj req [] := by
  intro t x hx
  rw [Conduct.memory_nil, hfirst] at hx
  cases hx

/-- What a thread remembers of its calls is in the log. -/
theorem Remembers.append [DecidableEq ι] {f : Creation → SysOp → Option α} {proj : Made → Option α}
    (h : Remembers f proj req log)
    (hproj : ∀ c g e, proj (Made.note c g e) = (f c e.1).or (proj g)) (e : Event SysSig) :
    Remembers f proj req (log ++ [(t, e)]) := by
  intro u x hx
  by_cases hu : u = t
  · subst hu
    rw [Conduct.memory_append_self, conduct_note, hproj] at hx
    cases hf : f (req u) e.1 with
    | none =>
        rw [hf] at hx
        exact mem_recordsIn_append (h u x hx)
    | some y =>
        rw [hf] at hx
        obtain rfl := Option.some.inj hx
        rw [recordsIn_append_some hf]
        simp
  · rw [Conduct.memory_append_of_ne _ (Ne.symm hu)] at hx
    exact mem_recordsIn_append (h u x hx)

/-- Who was told of a record has made it. -/
def Honest (told made : Creation → SysOp → Option α) (view : α → α) (req : ι → Creation)
    (log : List (ι × Event SysSig)) : Prop :=
  ∀ t x, (t, x) ∈ recordsIn told req log → ∃ y, (t, y) ∈ recordsIn made req log ∧ view y = x

/-- At first nothing is told. -/
theorem honest_start {told made : Creation → SysOp → Option α} {view : α → α} :
    Honest told made view req [] := fun _ _ h => (List.not_mem_nil h).elim

/-- A thread tells what it has made. -/
theorem Honest.append {told made : Creation → SysOp → Option α} {view : α → α}
    (h : Honest told made view req log) {e : Event SysSig}
    (he : ∀ x ∈ told (req t) e.1, ∃ y, (t, y) ∈ recordsIn made req log ∧ view y = x) :
    Honest told made view req (log ++ [(t, e)]) := by
  intro u x hx
  rw [recordsIn_append, List.mem_append] at hx
  rcases hx with hx | hx
  · obtain ⟨y, hy, hyx⟩ := h u x hx
    exact ⟨y, mem_recordsIn_append hy, hyx⟩
  · simp only [Option.mem_toList, Option.map_eq_some_iff, Prod.mk.injEq] at hx
    obtain ⟨_, hf, rfl, rfl⟩ := hx
    obtain ⟨y, hy, hyx⟩ := he _ hf
    exact ⟨y, mem_recordsIn_append hy, hyx⟩

end Honest

/-- What was told is read back. -/
theorem noneLost_of_grown {idOf : α → UInt32} {n : Nat} {l : List α} {view : α → α}
    {told made : Creation → SysOp → Option α} {log : List (ι × Event SysSig)}
    (hview : ∀ x, idOf (view x) = idOf x) (h : Grown idOf n (recordsIn made req log) l)
    (hhonest : Honest told made view req log) :
    NoneLost idOf (recordsIn told req log) fun id => (readRec l id).map view where
  distinct t t' x x' hx hx' hid := by
    obtain ⟨y, hy, rfl⟩ := hhonest t x hx
    obtain ⟨y', hy', rfl⟩ := hhonest t' x' hx'
    rw [hview, hview] at hid
    exact h.maker_eq hy hy' hid
  stored t x hx := by
    obtain ⟨y, hy, rfl⟩ := hhonest t x hx
    rw [hview, h.readRec hy, Option.map_some]

/-! ## the files -/

section Files

variable [DecidableEq ι] {req : ι → Creation} {first : Store} {w w' : SysLogged ι} {t : ι}
  {op : SysOp} {r : op.Res}

/-- The users: those made have no money, and what a request has seen is there, unchanged
if it was made. -/
structure UsersIntact (req : ι → Creation) (first : Store) (w : SysLogged ι) : Prop where
  placed : ∀ i u, w.1.store.users[i]? = some u → recPos u.userId = i
  grown : Grown User.userId first.users.length (recordsIn Creation.madeUser req w.2)
    w.1.store.users
  unfunded : ∀ t u, (t, u) ∈ recordsIn Creation.madeUser req w.2 →
    u.walletBalance = 0 ∧ u.walletHold = 0
  seen : ∀ t u, ((req t).conduct.memory t w.2).seen = some u →
    recPos u.userId < w.1.store.users.length ∧
      (first.users.length ≤ recPos u.userId → readRec w.1.store.users u.userId = some u)

/-- A hold cannot be moved where there is no money. -/
theorem eq_of_walletDelta_unfunded {u v : User} {hold : ℚ} (h : walletDelta u 0 hold = some v)
    (hu : u.walletBalance = 0 ∧ u.walletHold = 0) : v = u := by
  obtain ⟨hv, -, hle⟩ := walletDelta_eq_some h
  rw [hv, User.withWallet_walletBalance, User.withWallet_walletHold, hu.1, add_zero] at hle
  have hzero : max (u.walletHold + hold) 0 = 0 := le_antisymm hle (le_max_right _ _)
  obtain ⟨hbalance, hhold⟩ := hu
  rw [hv, hzero, hbalance, add_zero]
  cases u
  simp_all [User.withWallet]

/-- A call that writes no user keeps the users intact. -/
theorem UsersIntact.refl_step (h : UsersIntact req first w) (hop : ∀ v, op ≠ .writeUser v)
    (hs : sysMachine.logged.step t op w = some (r, w')) : UsersIntact req first w' := by
  obtain ⟨-, hr, hstore, hlog⟩ := sysMachine_logged_step.mp hs
  have husers : w'.1.store.users = w.1.store.users := by
    rw [hstore]
    cases op with
    | writeUser v => exact absurd rfl (hop v)
    | _ => rfl
  have hmade : recordsIn Creation.madeUser req w'.2 = recordsIn Creation.madeUser req w.2 := by
    rw [hlog, recordsIn_append_none (Creation.madeUser_eq_none hop)]
  constructor
  · rw [husers]
    exact h.placed
  · rw [husers, hmade]
    exact h.grown
  · rw [hmade]
    exact h.unfunded
  · intro v u hu
    rw [husers]
    by_cases hv : v = t
    · subst hv
      rw [hlog, Conduct.memory_append_self] at hu
      cases hread : userRead ⟨op, r⟩ with
      | none =>
          simp only [conduct_note, Made.note, hread, Option.none_or] at hu
          exact h.seen v u hu
      | some x =>
          simp only [conduct_note, Made.note, hread, Option.some_or, Option.some.injEq] at hu
          subst hu
          cases op with
          | readUser id =>
              -- the record is where its identifier says
              have hx : w.1.store.users[recPos id]? = some x := hr.trans hread
              have hpos := h.placed _ _ hx
              refine ⟨hpos ▸ (List.getElem?_eq_some_iff.mp hx).1, fun _ => ?_⟩
              rw [readRec, hpos, hx]
          | _ => cases hread
    · rw [hlog, Conduct.memory_append_of_ne _ (Ne.symm hv)] at hu
      exact h.seen v u hu

/-- A user is made. -/
theorem UsersIntact.add {v : User} {r : Int} (h : UsersIntact req first w)
    (hmade : (req t).madeUser (.writeUser v) = some v)
    (hend : recPos v.userId = w.1.store.users.length)
    (hv : v.walletBalance = 0 ∧ v.walletHold = 0)
    (hs : sysMachine.logged.step t (.writeUser v) w = some (r, w')) : UsersIntact req first w' := by
  obtain ⟨-, -, hstore, hlog⟩ := sysMachine_logged_step.mp hs
  have husers : w'.1.store.users = w.1.store.users ++ [v] := by
    rw [hstore]
    change writeRec .zero w.1.store.users v.userId v = _
    rw [writeRec, hend, writeAt_length]
  have hrecords : recordsIn Creation.madeUser req w'.2 =
      recordsIn Creation.madeUser req w.2 ++ [(t, v)] := by
    rw [hlog, recordsIn_append_some hmade]
  constructor
  · intro i u hu
    rw [husers] at hu
    rcases getElem?_concat_eq_some hu with hu | ⟨rfl, rfl⟩
    · exact h.placed i u hu
    · exact hend
  · rw [husers, hrecords]
    exact h.grown.append hend
  · intro u x hx
    rw [hrecords, List.mem_append, List.mem_singleton] at hx
    rcases hx with hx | hx
    · exact h.unfunded u x hx
    · rw [(Prod.mk.inj hx).2]
      exact hv
  · intro u x hx
    have hold : ((req u).conduct.memory u w.2).seen = some x := by
      by_cases hu : u = t
      · subst hu
        rwa [hlog, Conduct.memory_append_self] at hx
      · rwa [hlog, Conduct.memory_append_of_ne _ (Ne.symm hu)] at hx
    obtain ⟨hlt, hstored⟩ := h.seen u x hold
    rw [husers, List.length_append, readRec_append_of_lt hlt]
    exact ⟨by omega, hstored⟩

/-- The hold of a user is moved. -/
theorem UsersIntact.moveHold {u v : User} {hold : ℚ} {r : Int} (h : UsersIntact req first w)
    (hseen : ((req t).conduct.memory t w.2).seen = some u) (hv : walletDelta u 0 hold = some v)
    (hmade : (req t).madeUser (.writeUser v) = none)
    (hs : sysMachine.logged.step t (.writeUser v) w = some (r, w')) : UsersIntact req first w' := by
  obtain ⟨-, -, hstore, hlog⟩ := sysMachine_logged_step.mp hs
  obtain ⟨hlt, hstored⟩ := h.seen t u hseen
  have hid : v.userId = u.userId := by
    rw [(walletDelta_eq_some hv).1, User.withWallet_userId]
  have husers : w'.1.store.users = w.1.store.users.set (recPos u.userId) v := by
    rw [hstore]
    change writeRec .zero w.1.store.users v.userId v = _
    rw [writeRec, hid, writeAt_of_lt hlt]
  have hrecords : recordsIn Creation.madeUser req w'.2 = recordsIn Creation.madeUser req w.2 := by
    rw [hlog, recordsIn_append_none hmade]
  -- a user that was made keeps its record
  have hkeeps : first.users.length ≤ recPos u.userId → w'.1.store.users = w.1.store.users := by
    intro hge
    have hget := hstored hge
    obtain ⟨t', ht'⟩ := h.grown.exists_maker hge hget
    obtain rfl := eq_of_walletDelta_unfunded hv (h.unfunded t' u ht')
    obtain ⟨hbound, hx⟩ := List.getElem?_eq_some_iff.mp hget
    have hself := List.set_getElem_self hbound
    rw [hx] at hself
    rw [husers, hself]
  constructor
  · intro i x hx
    rw [husers] at hx
    by_cases hi : i = recPos u.userId
    · subst hi
      rw [List.getElem?_set_self hlt] at hx
      rw [← Option.some.inj hx, hid]
    · rw [List.getElem?_set_ne (Ne.symm hi)] at hx
      exact h.placed i x hx
  · rw [hrecords]
    rcases Nat.lt_or_ge (recPos u.userId) first.users.length with hold' | hnew
    · rw [husers]
      exact h.grown.set hold'
    · rw [hkeeps hnew]
      exact h.grown
  · rw [hrecords]
    exact h.unfunded
  · intro t' x hx
    have hold' : ((req t').conduct.memory t' w.2).seen = some x := by
      by_cases ht : t' = t
      · subst ht
        rwa [hlog, Conduct.memory_append_self] at hx
      · rwa [hlog, Conduct.memory_append_of_ne _ (Ne.symm ht)] at hx
    obtain ⟨hxlt, hxstored⟩ := h.seen t' x hold'
    refine ⟨by rwa [husers, List.length_set], fun hge => ?_⟩
    rcases Nat.lt_or_ge (recPos u.userId) first.users.length with hold' | hnew
    · rw [readRec, husers, List.getElem?_set_ne (by omega)]
      exact hxstored hge
    · rw [hkeeps hnew]
      exact hxstored hge

/-- **Step lemma** for the users. -/
theorem UsersIntact.step (h : UsersIntact req first w)
    (hcalls : (req t).Calls ((req t).conduct.memory t w.2) op) (hok : OnTime req first t op w)
    (hs : sysMachine.logged.step t op w = some (r, w')) : UsersIntact req first w' := by
  by_cases hop : ∃ v, op = .writeUser v
  · obtain ⟨v, rfl⟩ := hop
    have hwrites : (req t).WritesUser ((req t).conduct.memory t w.2) v := hcalls.1
    obtain ⟨hend, -⟩ := hok
    cases hc : req t with
    | addUser clientFd addReq =>
        have hmade : (req t).madeUser (.writeUser v) = some v := by rw [hc]; rfl
        rw [hc] at hwrites
        exact h.add hmade (hend v hmade) hwrites hs
    | createAuction clientFd createReq seller =>
        rw [hc] at hwrites
        exact hwrites.elim
    | placeBid clientFd bidReq bidder =>
        have hmade : (req t).madeUser (.writeUser v) = none := by rw [hc]; rfl
        simp only [hc, Creation.WritesUser] at hwrites
        obtain ⟨u, hseen, hold, hv⟩ := hwrites
        rw [← hc] at hseen
        exact h.moveHold hseen hv hmade hs
  · exact h.refl_step (fun v hv => hop ⟨v, hv⟩) hs

/-- **Step lemma** for the auctions. -/
theorem grown_auctions_step
    (h : Grown Auction.auctionId first.auctions.length (recordsIn Creation.madeAuction req w.2)
      w.1.store.auctions)
    (hcalls : (req t).Calls ((req t).conduct.memory t w.2) op) (hok : OnTime req first t op w)
    (hs : sysMachine.logged.step t op w = some (r, w')) :
    Grown Auction.auctionId first.auctions.length (recordsIn Creation.madeAuction req w'.2)
      w'.1.store.auctions := by
  obtain ⟨-, -, hstore, hlog⟩ := sysMachine_logged_step.mp hs
  by_cases hop : ∃ a, op = .writeAuction a
  · obtain ⟨a, rfl⟩ := hop
    obtain ⟨-, hend, -, hold⟩ := hok
    have hauctions : w'.1.store.auctions =
        writeAt .zero w.1.store.auctions (recPos a.auctionId) a := by
      rw [hstore]
      rfl
    cases hc : req t with
    | addUser clientFd addReq => exact absurd hc (hcalls.1 _ _)
    | createAuction clientFd createReq seller =>
        have hmade : (req t).madeAuction (.writeAuction a) = some a := by rw [hc]; rfl
        rw [hauctions, hend a hmade, writeAt_length, hlog, recordsIn_append_some hmade]
        exact h.append (hend a hmade)
    | placeBid clientFd bidReq bidder =>
        have hmade : (req t).madeAuction (.writeAuction a) = none := by rw [hc]; rfl
        have hlt := hold a (by rw [hc]; rfl)
        rw [hauctions, writeAt_of_lt (hlt.trans_le h.base), hlog, recordsIn_append_none hmade]
        exact h.set hlt
  · have hauctions : w'.1.store.auctions = w.1.store.auctions := by
      rw [hstore]
      cases op with
      | writeAuction a => exact absurd ⟨a, rfl⟩ hop
      | _ => rfl
    have hmade : (req t).madeAuction op = none :=
      Creation.madeAuction_eq_none fun a ha => hop ⟨a, ha⟩
    rw [hauctions, hlog, recordsIn_append_none hmade]
    exact h

/-- **Step lemma** for the bids. -/
theorem grown_bids_step
    (h : Grown Bid.bidId first.bids.length (recordsIn Creation.madeBid req w.2) w.1.store.bids)
    (hcalls : (req t).Calls ((req t).conduct.memory t w.2) op) (hok : OnTime req first t op w)
    (hs : sysMachine.logged.step t op w = some (r, w')) :
    Grown Bid.bidId first.bids.length (recordsIn Creation.madeBid req w'.2)
      w'.1.store.bids := by
  obtain ⟨-, -, hstore, hlog⟩ := sysMachine_logged_step.mp hs
  by_cases hop : ∃ b, op = .appendBid b
  · obtain ⟨b, rfl⟩ := hop
    obtain ⟨-, -, hend, -⟩ := hok
    have hmade : (req t).madeBid (.appendBid b) = some b := hcalls.1
    have hbids : w'.1.store.bids = w.1.store.bids ++ [b] := by
      rw [hstore]
      rfl
    rw [hbids, hlog, recordsIn_append_some hmade]
    exact h.append (hend b hmade)
  · have hbids : w'.1.store.bids = w.1.store.bids := by
      rw [hstore]
      cases op with
      | appendBid b => exact absurd ⟨b, rfl⟩ hop
      | markWinningBids id bidder => exact hcalls.1.elim
      | _ => rfl
    have hmade : (req t).madeBid op = none := Creation.madeBid_eq_none fun b hb => hop ⟨b, hb⟩
    rw [hbids, hlog, recordsIn_append_none hmade]
    exact h

/-- What requests that are on time keep. -/
structure Intact (req : ι → Creation) (first : Store) (w : SysLogged ι) : Prop where
  users : UsersIntact req first w
  auctions : Grown Auction.auctionId first.auctions.length
    (recordsIn Creation.madeAuction req w.2) w.1.store.auctions
  bids : Grown Bid.bidId first.bids.length (recordsIn Creation.madeBid req w.2) w.1.store.bids
  madeUsers : Remembers Creation.madeUser Made.user req w.2
  madeAuctions : Remembers Creation.madeAuction Made.auction req w.2
  madeBids : Remembers Creation.madeBid Made.bid req w.2
  toldUsers : Honest Creation.toldUser Creation.madeUser User.blank req w.2
  toldAuctions : Honest Creation.toldAuction Creation.madeAuction id req w.2
  toldBids : Honest Creation.toldBid Creation.madeBid id req w.2

/-- **Step lemma**. -/
theorem Intact.step (h : Intact req first w)
    (hcalls : (req t).Calls ((req t).conduct.memory t w.2) op) (hok : OnTime req first t op w)
    (hs : sysMachine.logged.step t op w = some (r, w')) : Intact req first w' := by
  have hlog := (sysMachine_logged_step.mp hs).2.2.2
  obtain ⟨huser, hauction, hbid⟩ := hcalls.2
  constructor
  · exact h.users.step hcalls hok hs
  · exact grown_auctions_step h.auctions hcalls hok hs
  · exact grown_bids_step h.bids hcalls hok hs
  · rw [hlog]
    exact h.madeUsers.append (fun _ _ _ => rfl) _
  · rw [hlog]
    exact h.madeAuctions.append (fun _ _ _ => rfl) _
  · rw [hlog]
    exact h.madeBids.append (fun _ _ _ => rfl) _
  · rw [hlog]
    refine h.toldUsers.append fun v hv => ?_
    obtain ⟨u, hu, hblank⟩ := huser v hv
    exact ⟨u, h.madeUsers t u hu, hblank⟩
  · rw [hlog]
    exact h.toldAuctions.append fun a ha => ⟨a, h.madeAuctions t a (hauction a ha), rfl⟩
  · rw [hlog]
    exact h.toldBids.append fun b hb => ⟨b, h.madeBids t b (hbid b hb), rfl⟩

/-- What is intact is what was to be shown. -/
theorem Intact.created (h : Intact req first w) : Created req w where
  users := noneLost_of_grown (fun _ => rfl) h.users.grown h.toldUsers
  auctions := by
    simpa using noneLost_of_grown (fun _ => rfl) h.auctions h.toldAuctions
  bids := by
    simpa using noneLost_of_grown (fun _ => rfl) h.bids h.toldBids

/-- At first all is intact. -/
theorem intact_start (hfirst : Numbered User.userId first.users) :
    Intact req first (.idle first, []) where
  users := {
    placed := fun i u hu => by
      have hid := hfirst i u hu
      have hlt := u.userId.toNat_lt
      exact (recPos_eq_iff (by omega)).mpr hid
    grown := grown_start
    unfunded := nofun
    seen := nofun }
  auctions := grown_start
  bids := grown_start
  madeUsers := remembers_start fun _ => rfl
  madeAuctions := remembers_start fun _ => rfl
  madeBids := remembers_start fun _ => rfl
  toldUsers := honest_start
  toldAuctions := honest_start
  toldBids := honest_start

end Files

/-! ## every interleaving -/

/-- Every request runs in any company. -/
theorem keeps_creation (sha256Hex : List UInt8 → List UInt8) (c : Creation) :
    c.conduct.Keeps (fun _ _ => True) (c.prog sha256Hex) c.conduct.first := by
  cases c with
  | addUser clientFd req => exact keeps_addUser sha256Hex clientFd req
  | createAuction clientFd req seller => exact keeps_createAuction sha256Hex clientFd req seller
  | placeBid clientFd req bidder => exact keeps_placeBid sha256Hex clientFd req bidder

/-- **No lost creation**: in a run in which every record is written where its file ends,
every client that was told of a new record has it for itself. -/
theorem created_of_run [DecidableEq ι] (sha256Hex : List UInt8 → List UInt8) (req : ι → Creation)
    {first : Store} (hfirst : Numbered User.userId first.users)
    {d : Config SysSig ι (SysLogged ι)}
    (h : Run sysMachine.logged (fun c t op => OnTime req first t op c.shared)
      (each (.idle first) fun t => (req t).prog sha256Hex) d) : Created req d.shared := by
  have hrun : Intact req first d.shared ∧ ∀ t, (req t).conduct.At (fun _ => True)
      ((req t).prog sha256Hex) (d.prog t) (d.queue t) ((req t).conduct.memory t d.shared.2) := by
    refine h.conduct (fun t => keeps_creation sha256Hex (req t)) ?_ ?_ (intact_start hfirst)
    · exact fun t op w r w' hw hcalls hok hs => ⟨hw.step hcalls hok hs, trivial⟩
    · rintro w ⟨s, log⟩ hw ⟨⟨now, rfl⟩, rfl⟩
      exact { hw with users := { hw.users with } }
  exact hrun.1.created

/-! ## two administrators -/

/-- Two users are added. -/
def addTwo : Fin 2 → Creation
  | 0 => .addUser 5 ⟨.ofBytes _ [97], .ofBytes _ adminPassword, .ofBytes _ [97], roleBidder, []⟩
  | 1 => .addUser 6 ⟨.ofBytes _ [98], .ofBytes _ adminPassword, .ofBytes _ [98], roleBidder, []⟩

/-- The threads that add them to a new installation. -/
def addTwoStart : Config SysSig (Fin 2) (SysLogged (Fin 2)) :=
  each (.idle (.seeded adminSha256Hex 0 1000)) fun t => (addTwo t).prog adminSha256Hex

/-- The second request computes its identifier when the first one has written its record. -/
theorem created_of_run_addTwo :
    let d := addTwoStart.after sysMachine.logged
      (fun c t op => OnTime addTwo (.seeded adminSha256Hex 0 1000) t op c.shared)
      ([0, 1, 1] ++ List.replicate 6 0 ++ List.replicate 5 1)
    d.shared.1.store.users.map User.userId = [1, 2, 3] ∧ Created addTwo d.shared :=
  ⟨by decide +kernel,
    created_of_run adminSha256Hex addTwo (numbered_seeded adminSha256Hex 0 1000) (Run.after _)⟩

/-- When both compute it before either has written, both clients are told of identifier 2,
and the user of one of them is gone. -/
theorem not_created :
    ¬ ∀ d, Reach sysMachine.logged addTwoStart d → Created addTwo d.shared := by
  intro h
  have hcreated := h _ (Run.after ([0, 0, 0] ++ List.replicate 7 1 ++ List.replicate 4 0))
  have heq : (0 : Fin 2) = 1 :=
    hcreated.users.eq_of_id (i := 2) (by decide +kernel) (by decide +kernel)
  exact absurd heq (by decide)

end Races

end OnlineAuction
