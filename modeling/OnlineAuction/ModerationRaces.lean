import OnlineAuction.Accounting
import OnlineAuction.Footprint
import OnlineAuction.Lib.Growth
import OnlineAuction.Moderations

/-!
# OnlineAuction.ModerationRaces

When a dispute is decided once.

Two moderators who have both read a dispute while it was open both decide it, and when
both grant it the winner is paid twice (`not_moderated`).  In a run in which a dispute is
filed where the file ends, while every earlier one of its auction is rejected, and decided
while it is still open (`Moderation.Timely`), the winner is credited once at most and
everybody finds what he was told of (`moderated_of_run`).
-/

namespace OnlineAuction

section Races

variable {ι : Type}

/-! ## what is promised -/

/-- Who was told of which dispute. -/
def tellings (log : List (ι × Event ApiSig)) : List (ι × Dispute) :=
  gathered (fun e => disputeTold e.1) log

/-- Who wrote which dispute. -/
def writings (log : List (ι × Event ApiSig)) : List (ι × Dispute) :=
  gathered (fun e => disputeWritten e.1) log

/-- Who credited how much to whom. -/
def payments (log : List (ι × Event ApiSig)) : List (ι × UInt32 × ℚ) :=
  gathered (fun e => (creditOf e.1).filter fun c => decide (0 < c.2)) log

@[simp] def Moderation.Files : Moderation → Prop
  | .file _ _ _ => True
  | .resolve _ _ _ => False

/-- The request decides the dispute like that. -/
@[simp] def Moderation.Rules (m : Moderation) (d : Dispute) : Prop :=
  match m with
  | .file _ _ _ => False
  | .resolve _ req _ =>
      d.disputeId = req.disputeId ∧ DisputeStatus.ofCode req.newStatus = some d.status

/-- What is to hold of the disputes of the auction `a`, from the disputes `first` on. -/
structure Moderated (req : ι → Moderation) (a : Auction) (first : List Dispute)
    (d : Config ApiSig ι (ApiLogged ι)) : Prop where
  /-- The winner is credited at most once. -/
  paidOnce : (payments d.shared.2).countP (fun p => p.2.1 = a.highestBidderId) ≤ 1
  /-- A dispute is stored, as it was filed, where its filer was told. -/
  filed : ∀ t x, (t, x) ∈ tellings d.shared.2 → (req t).Files →
    (readRec d.shared.1.store.disputes x.disputeId).map Dispute.filed = some x
  /-- What a moderator was told is stored, and is what was asked for. -/
  ruled : ∀ t x, (t, x) ∈ tellings d.shared.2 → ¬ (req t).Files →
    readRec d.shared.1.store.disputes x.disputeId = some x ∧ (req t).Rules x
  /-- No two filers, and no two moderators, were told of the same dispute. -/
  distinct : ∀ t t' x x', (t, x) ∈ tellings d.shared.2 → (t', x') ∈ tellings d.shared.2 →
    ((req t).Files ↔ (req t').Files) → x.disputeId = x'.disputeId → t = t'
  /-- In the end a dispute that was decided in the run has been answered for. -/
  final : d.Done → ∀ x ∈ d.shared.1.store.disputes, x.status ≠ .disputeOpen →
    x ∈ first ∨ ∃ t, (t, x) ∈ tellings d.shared.2 ∧ ¬ (req t).Files

/-! ## what is asked of a run -/

/-- A dispute is filed at the end of the file while no other dispute of its auction is
live, and decided while it is open. -/
@[simp] def Moderation.Timely (m : Moderation) (ds : List Dispute) (d : Dispute) : Prop :=
  match m with
  | .file _ _ _ => recPos d.disputeId = ds.length ∧
      ∀ d' ∈ ds, d'.auctionId = d.auctionId → d'.status = .disputeRejected
  | .resolve _ _ _ => ∀ d' ∈ readRec ds d.disputeId, d'.status = .disputeOpen

instance (ds : List Dispute) (d : Dispute) : (m : Moderation) → Decidable (m.Timely ds d)
  | .file _ _ _ => inferInstanceAs (Decidable (_ ∧ _))
  | .resolve _ _ _ => inferInstanceAs (Decidable (∀ d' ∈ readRec ds d.disputeId, _))

/-- Every dispute is written in time. -/
def InTime (req : ι → Moderation) (t : ι) (op : ApiOp) (w : ApiLogged ι) : Prop :=
  ∀ d ∈ disputeWritten op, (req t).Timely w.1.store.disputes d

instance (req : ι → Moderation) (t : ι) (op : ApiOp) (w : ApiLogged ι) :
    Decidable (InTime req t op w) := inferInstanceAs (Decidable (∀ d ∈ disputeWritten op, _))

/-- A request is about the auction. -/
@[simp] def Moderation.About (m : Moderation) (auctionId : UInt32) (ds : List Dispute) : Prop :=
  match m with
  | .file _ req _ => req.auctionId = auctionId
  | .resolve _ req _ => ∀ d ∈ readRec ds req.disputeId, d.auctionId = auctionId

/-- Of the disputes of an auction one at most is live. -/
def OneLive (auctionId : UInt32) (ds : List Dispute) : Prop :=
  ∀ d ∈ ds, ∀ d' ∈ ds, d.auctionId = auctionId → d'.auctionId = auctionId →
    d.status ≠ .disputeRejected → d'.status ≠ .disputeRejected → d.disputeId = d'.disputeId

/-! ## the file -/

/-- The disputes `ds` come of `first` by filing on the auction and deciding. -/
structure Docketed (auctionId : UInt32) (first ds : List Dispute) : Prop where
  placed : ∀ i (d : Dispute), ds[i]? = some d → recPos d.disputeId = i
  kept : first.map Dispute.filed <+: ds.map Dispute.filed
  added : ∀ i (d : Dispute), ds[i]? = some d → first.length ≤ i → d.auctionId = auctionId
  live : OneLive auctionId ds

section Docketed

variable {auctionId : UInt32} {first ds : List Dispute} {d d₀ : Dispute} {id : UInt32}

theorem docketed_start (hfirst : Numbered Dispute.disputeId first)
    (hlive : OneLive auctionId first) : Docketed auctionId first first where
  placed i d hd := by
    have hid := hfirst i d hd
    have hlt := d.disputeId.toNat_lt
    exact (recPos_eq_iff (by omega)).mpr hid
  kept := List.prefix_rfl
  added i d hd hi := by
    have hlt := (List.getElem?_eq_some_iff.mp hd).1
    omega
  live := hlive

/-- As it was filed, a dispute stays when it is decided. -/
theorem map_filed_set (hd : readRec ds d.disputeId = some d₀) (hfiled : d.filed = d₀.filed) :
    (ds.set (recPos d.disputeId) d).map Dispute.filed = ds.map Dispute.filed := by
  obtain ⟨hlt, hget⟩ := List.getElem?_eq_some_iff.mp hd
  have hlt' : recPos d.disputeId < (ds.map Dispute.filed).length := by simpa using hlt
  have hself : (ds.map Dispute.filed)[recPos d.disputeId] = d.filed := by
    rw [List.getElem_map, hget, hfiled]
  rw [List.map_set, ← hself, List.set_getElem_self]

theorem Docketed.disputeId_eq (h : Docketed auctionId first ds) (hd : readRec ds id = some d) :
    d.disputeId = id :=
  recPos_inj.mp (h.placed _ d hd)

/-- What was there at first is there as it was filed. -/
theorem Docketed.auctionId_eq (h : Docketed auctionId first ds) (hd : readRec ds id = some d)
    (hfirst : ∀ d ∈ readRec first id, d.auctionId = auctionId) : d.auctionId = auctionId := by
  rcases Nat.lt_or_ge (recPos id) first.length with hold | hnew
  · have hread : readRec first id = some first[recPos id] := List.getElem?_eq_getElem hold
    have hkept := h.kept.getElem (i := recPos id) (by simpa using hold)
    obtain ⟨hlt, rfl⟩ := List.getElem?_eq_some_iff.mp hd
    simp only [List.getElem_map] at hkept
    calc ds[recPos id].auctionId = first[recPos id].auctionId :=
          Dispute.auctionId_of_filed hkept.symm
      _ = auctionId := hfirst _ hread
  · exact h.added _ d hd hnew

/-- A dispute is filed. -/
theorem Docketed.append (h : Docketed auctionId first ds) (hend : recPos d.disputeId = ds.length)
    (hrejected : ∀ d' ∈ ds, d'.auctionId = auctionId → d'.status = .disputeRejected)
    (hauction : d.auctionId = auctionId) : Docketed auctionId first (ds ++ [d]) where
  placed i x hx := by
    rcases getElem?_concat_eq_some hx with hx | ⟨rfl, rfl⟩
    · exact h.placed i x hx
    · exact hend
  kept := by
    rw [List.map_append]
    exact h.kept.trans (List.prefix_append ..)
  added i x hx hi := by
    rcases getElem?_concat_eq_some hx with hx | ⟨rfl, rfl⟩
    · exact h.added i x hx hi
    · exact hauction
  live x hx y hy hxa hya hxs hys := by
    -- no old dispute of the auction is live
    have hnew : ∀ z ∈ ds ++ [d], z.auctionId = auctionId → z.status ≠ .disputeRejected → z = d := by
      intro z hz hza hzs
      rcases List.mem_append.mp hz with hz | hz
      · exact absurd (hrejected z hz hza) hzs
      · exact List.mem_singleton.mp hz
    rw [hnew x hx hxa hxs, hnew y hy hya hys]

/-- A dispute is decided. -/
theorem Docketed.set (h : Docketed auctionId first ds) (hd : readRec ds d.disputeId = some d₀)
    (hopen : d₀.status = .disputeOpen) (hfiled : d.filed = d₀.filed) :
    Docketed auctionId first (ds.set (recPos d.disputeId) d) where
  placed i x hx := by
    rw [List.getElem?_set] at hx
    grind [h.placed i x]
  kept := by
    rw [map_filed_set hd hfiled]
    exact h.kept
  added i x hx hi := by
    rw [List.getElem?_set] at hx
    have hauction := Dispute.auctionId_of_filed hfiled
    have hd₀ := h.added _ d₀ hd
    grind [h.added i x]
  live x hx y hy hxa hya hxs hys := by
    -- what is live now was live
    have hold : ∀ z ∈ ds.set (recPos d.disputeId) d, z.auctionId = auctionId →
        z.status ≠ .disputeRejected → ∃ z₀ ∈ ds, z₀.auctionId = auctionId ∧
          z₀.status ≠ .disputeRejected ∧ z₀.disputeId = z.disputeId := by
      intro z hz hza hzs
      rcases List.mem_or_eq_of_mem_set hz with hz | rfl
      · exact ⟨z, hz, hza, hzs, rfl⟩
      · exact ⟨d₀, List.mem_of_getElem? hd, (Dispute.auctionId_of_filed hfiled).symm.trans hza,
          by rw [hopen]; decide, (Dispute.disputeId_of_filed hfiled).symm⟩
    obtain ⟨x₀, hx₀, hxa₀, hxs₀, hxid⟩ := hold x hx hxa hxs
    obtain ⟨y₀, hy₀, hya₀, hys₀, hyid⟩ := hold y hy hya hys
    rw [← hxid, ← hyid]
    exact h.live x₀ hx₀ y₀ hy₀ hxa₀ hya₀ hxs₀ hys₀

/-- Two stored disputes of the auction that are live are one. -/
theorem Docketed.eq_of_live (h : Docketed auctionId first ds) {d' : Dispute} {id' : UInt32}
    (hd : readRec ds id = some d) (hd' : readRec ds id' = some d')
      (hauction : d.auctionId = auctionId)
    (hauction' : d'.auctionId = auctionId) (hs : d.status ≠ .disputeRejected)
    (hs' : d'.status ≠ .disputeRejected) : id = id' :=
  calc id = d.disputeId := (h.disputeId_eq hd).symm
    _ = d'.disputeId := h.live d (List.mem_of_getElem? hd) d' (List.mem_of_getElem? hd') hauction
        hauction' hs hs'
    _ = id' := h.disputeId_eq hd'

end Docketed

/-! ## who wrote what -/

/-- What was written is in the file: of the filings what was filed, of the decisions the
whole record. -/
structure Recorded (req : ι → Moderation) (auctionId : UInt32) (first ds : List Dispute)
    (written : List (ι × Dispute)) : Prop where
  about : ∀ t d, (t, d) ∈ written → d.auctionId = auctionId
  filed : ∀ t d, (t, d) ∈ written → (req t).Files →
    (readRec ds d.disputeId).map Dispute.filed = some d
  ruled : ∀ t d, (t, d) ∈ written → ¬ (req t).Files →
    readRec ds d.disputeId = some d ∧ (req t).Rules d ∧ d.status ≠ .disputeOpen
  distinct : ∀ t t' d d', (t, d) ∈ written → (t', d') ∈ written →
    ((req t).Files ↔ (req t').Files) → d.disputeId = d'.disputeId → t = t'
  decided : ∀ d ∈ ds, d.status ≠ .disputeOpen →
    d ∈ first ∨ ∃ t, (t, d) ∈ written ∧ ¬ (req t).Files

section Recorded

variable {req : ι → Moderation} {auctionId : UInt32} {first ds : List Dispute}
  {written : List (ι × Dispute)} {t : ι} {d d₀ : Dispute}

theorem recorded_start : Recorded req auctionId first first [] where
  about := nofun
  filed := nofun
  ruled := nofun
  distinct := nofun
  decided _ hd _ := .inl hd

/-- A dispute that somebody wrote is in the file. -/
theorem Recorded.lt (h : Recorded req auctionId first ds written) (hd : (t, d) ∈ written) :
    recPos d.disputeId < ds.length := by
  by_cases hfiles : (req t).Files
  · obtain ⟨x, hx, -⟩ := Option.map_eq_some_iff.mp (h.filed t d hd hfiles)
    exact (List.getElem?_eq_some_iff.mp hx).1
  · exact (List.getElem?_eq_some_iff.mp (h.ruled t d hd hfiles).1).1

theorem Recorded.append (h : Recorded req auctionId first ds written) (hfiles : (req t).Files)
    (hend : recPos d.disputeId = ds.length) (hauction : d.auctionId = auctionId)
    (hfiled : d.filed = d) :
    Recorded req auctionId first (ds ++ [d]) (written ++ [(t, d)]) := by
  have hold : ∀ u x, (u, x) ∈ written →
      readRec (ds ++ [d]) x.disputeId = readRec ds x.disputeId := fun u x hx =>
    readRec_append_of_lt (h.lt hx)
  have hnew : readRec (ds ++ [d]) d.disputeId = some d := by
    rw [readRec, hend, List.getElem?_concat_length]
  have hne : ∀ u x, (u, x) ∈ written → x.disputeId ≠ d.disputeId := fun u x hx hid => by
    have hlt := h.lt hx
    rw [hid, hend] at hlt
    exact lt_irrefl _ hlt
  constructor
  · intro u x hx
    rcases List.mem_append.mp hx with hx | hx
    · exact h.about u x hx
    · cases List.mem_singleton.mp hx
      exact hauction
  · intro u x hx hu
    rcases List.mem_append.mp hx with hx | hx
    · rw [hold u x hx]
      exact h.filed u x hx hu
    · cases List.mem_singleton.mp hx
      rw [hnew, Option.map_some, hfiled]
  · intro u x hx hu
    rcases List.mem_append.mp hx with hx | hx
    · rw [hold u x hx]
      exact h.ruled u x hx hu
    · cases List.mem_singleton.mp hx
      exact absurd hfiles hu
  · intro u u' x x' hx hx' hiff hid
    rcases List.mem_append.mp hx with hx | hx <;> rcases List.mem_append.mp hx' with hx' | hx'
    · exact h.distinct u u' x x' hx hx' hiff hid
    · cases List.mem_singleton.mp hx'
      exact absurd hid (hne u x hx)
    · cases List.mem_singleton.mp hx
      exact absurd hid.symm (hne u' x' hx')
    · cases List.mem_singleton.mp hx
      cases List.mem_singleton.mp hx'
      rfl
  · intro x hx hs
    rcases List.mem_append.mp hx with hx | hx
    · rcases h.decided x hx hs with hfirst | ⟨u, hu, hrules⟩
      · exact .inl hfirst
      · exact .inr ⟨u, List.mem_append_left _ hu, hrules⟩
    · obtain rfl := List.mem_singleton.mp hx
      exact absurd (congrArg Dispute.status hfiled).symm hs

theorem Recorded.set (h : Recorded req auctionId first ds written) (hfiles : ¬ (req t).Files)
    (hd : readRec ds d.disputeId = some d₀) (hopen : d₀.status = .disputeOpen)
    (hfiled : d.filed = d₀.filed) (hauction : d.auctionId = auctionId) (hrules : (req t).Rules d)
    (hs : d.status ≠ .disputeOpen) :
    Recorded req auctionId first (ds.set (recPos d.disputeId) d) (written ++ [(t, d)]) := by
  have hlt := (List.getElem?_eq_some_iff.mp hd).1
  -- an open dispute has not been decided by anybody
  have hne : ∀ u x, (u, x) ∈ written → ¬ (req u).Files → x.disputeId ≠ d.disputeId := by
    intro u x hx hu hid
    obtain ⟨hread, -, hxs⟩ := h.ruled u x hx hu
    rw [hid, hd] at hread
    obtain rfl := Option.some.inj hread
    exact hxs hopen
  constructor
  · intro u x hx
    rcases List.mem_append.mp hx with hx | hx
    · exact h.about u x hx
    · cases List.mem_singleton.mp hx
      exact hauction
  · intro u x hx hu
    rcases List.mem_append.mp hx with hx | hx
    · rw [readRec_map, map_filed_set hd hfiled, ← readRec_map]
      exact h.filed u x hx hu
    · cases List.mem_singleton.mp hx
      exact absurd hu hfiles
  · intro u x hx hu
    rcases List.mem_append.mp hx with hx | hx
    · rw [readRec, List.getElem?_set_ne fun he => hne u x hx hu (recPos_inj.mp he).symm]
      exact h.ruled u x hx hu
    · cases List.mem_singleton.mp hx
      exact ⟨List.getElem?_set_self hlt, hrules, hs⟩
  · intro u u' x x' hx hx' hiff hid
    rcases List.mem_append.mp hx with hx | hx <;> rcases List.mem_append.mp hx' with hx' | hx'
    · exact h.distinct u u' x x' hx hx' hiff hid
    · cases List.mem_singleton.mp hx'
      exact absurd hid (hne u x hx fun hu => hfiles (hiff.mp hu))
    · cases List.mem_singleton.mp hx
      exact absurd hid.symm (hne u' x' hx' fun hu => hfiles (hiff.mpr hu))
    · cases List.mem_singleton.mp hx
      cases List.mem_singleton.mp hx'
      rfl
  · intro x hx hxs
    rcases List.mem_or_eq_of_mem_set hx with hx | rfl
    · rcases h.decided x hx hxs with hfirst | ⟨u, hu, hrules⟩
      · exact .inl hfirst
      · exact .inr ⟨u, List.mem_append_left _ hu, hrules⟩
    · exact .inr ⟨t, List.mem_append_right _ (List.mem_singleton.mpr rfl), hfiles⟩

end Recorded

/-! ## steps -/

section Steps

variable [DecidableEq ι] {req : ι → Moderation} {a : Auction} {first : Store} {w w' : ApiLogged ι}
  {t : ι} {op : ApiOp} {r : op.Res}

/-- What requests that are in time keep. -/
structure Moderating (req : ι → Moderation) (a : Auction) (first : Store) (w : ApiLogged ι) :
    Prop where
  docketed : Docketed a.auctionId first.disputes w.1.store.disputes
  recorded : Recorded req a.auctionId first.disputes w.1.store.disputes (writings w.2)
  auction : ∃ status, readRec w.1.store.auctions a.auctionId = some (a.withStatus status)
  seen : ∀ t d, (((req t).conduct a).memory t w.2).seen = some d →
    (readRec w.1.store.disputes d.disputeId).map Dispute.filed = some d.filed
  single : ∀ t d, (t, d) ∈ writings w.2 → (((req t).conduct a).memory t w.2).written = some d
  told : ∀ t x, (t, x) ∈ tellings w.2 → (t, x) ∈ writings w.2
  paid : ∀ t c, (t, c) ∈ payments w.2 →
    ∃ d, (t, d) ∈ writings w.2 ∧ ¬ (req t).Files ∧ d.status = .disputeResolved
  once : (payments w.2).length ≤ 1

theorem note_paid (g : Handled) (e : Event ApiSig) : (g.note e).paid =
    (g.paid || ((creditOf e.1).filter fun c => decide (0 < c.2)).isSome) := by
  rw [Handled.note]
  cases creditOf e.1 with
  | none => rfl
  | some c => by_cases hc : 0 < c.2 <;> simp [Option.filter, hc]

/-- What a request remembers to have written it has written. -/
theorem mem_writings {d : Dispute} (h : (((req t).conduct a).memory t w.2).written = some d) :
    (t, d) ∈ writings w.2 :=
  Conduct.mem_gathered ((req t).conduct a) Handled.written rfl (fun _ _ => rfl) t w.2 h

theorem area_ne_disputes (h : disputeWritten op = none) : op.area ≠ .disputes := by
  intro harea
  cases op with
  | sys op =>
      cases op with
      | writeDispute d => cases h
      | _ => cases harea
  | wallet site c => cases harea

/-- The file of disputes after a step: as before, a dispute longer, or with one of its open
disputes decided. -/
theorem Moderating.disputes_step (h : Moderating req a first w)
    (habout : ∀ t, (req t).About a.auctionId first.disputes)
    (hcalls : (req t).Calls a (((req t).conduct a).memory t w.2) op) (hok : InTime req t op w)
    (hs : apiMachine.logged.step t op w = some (r, w')) :
    Docketed a.auctionId first.disputes w'.1.store.disputes ∧
      Recorded req a.auctionId first.disputes w'.1.store.disputes (writings w'.2) ∧
      w.1.store.disputes.map Dispute.filed <+: w'.1.store.disputes.map Dispute.filed := by
  obtain ⟨-, -, hstore, hlog⟩ := apiMachine_logged_step.mp hs
  cases hwritten : disputeWritten op with
  | none =>
      have hds : w'.1.store.disputes = w.1.store.disputes := by
        rw [hstore, exec_disputes (area_ne_disputes hwritten)]
      have hlist : writings w'.2 = writings w.2 := by
        rw [hlog]
        exact gathered_append_none hwritten
      rw [hds, hlist]
      exact ⟨h.docketed, h.recorded, List.prefix_rfl⟩
  | some d =>
      obtain rfl := disputeWritten_eq_some hwritten
      have htimely : (req t).Timely w.1.store.disputes d := hok d rfl
      have hlist : writings w'.2 = writings w.2 ++ [(t, d)] := by
        rw [hlog]
        exact gathered_append_some rfl
      have hds : w'.1.store.disputes = writeAt .zero w.1.store.disputes (recPos d.disputeId) d := by
        rw [hstore]
        rfl
      rw [hlist, hds]
      cases hc : req t with
      | file fd fileReq u =>
          have hfiles : (req t).Files := by rw [hc]; trivial
          simp only [hc, Moderation.Timely] at htimely
          simp only [hc, Moderation.Calls, Moderation.Decides] at hcalls
          obtain ⟨-, hauction, hfiled⟩ := hcalls
          obtain ⟨hend, hrejected⟩ := htimely
          rw [hauction] at hrejected
          rw [hend, writeAt_length]
          exact ⟨h.docketed.append hend hrejected hauction,
            h.recorded.append hfiles hend hauction hfiled, by simp⟩
      | resolve fd resolveReq u =>
          have hfiles : ¬ (req t).Files := by rw [hc]; exact not_false
          have hfirst := habout t
          simp only [hc, Moderation.Timely] at htimely
          simp only [hc, Moderation.Calls, Moderation.Decides] at hcalls
          simp only [hc, Moderation.About] at hfirst
          obtain ⟨-, ⟨d₁, hseen, hd₁⟩, hid, hcode, hopen⟩ := hcalls
          rw [← hc] at hseen
          obtain ⟨d₀, hd₀, hfiled⟩ := Option.map_eq_some_iff.mp (h.seen t d₁ hseen)
          rw [← Dispute.disputeId_of_filed hd₁] at hd₀
          rw [← hd₁] at hfiled
          have hauction : d.auctionId = a.auctionId :=
            (Dispute.auctionId_of_filed hfiled.symm).trans
              (h.docketed.auctionId_eq hd₀ (by rw [hid]; exact hfirst))
          have hlt := (List.getElem?_eq_some_iff.mp hd₀).1
          rw [writeAt_of_lt hlt, map_filed_set hd₀ hfiled.symm]
          exact ⟨h.docketed.set hd₀ (htimely d₀ hd₀) hfiled.symm,
            h.recorded.set hfiles hd₀ (htimely d₀ hd₀) hfiled.symm hauction
              (by rw [hc]; exact ⟨hid, hcode⟩) hopen, List.prefix_rfl⟩

/-- The auction keeps all but its status. -/
theorem Moderating.auction_step (h : Moderating req a first w)
    (hcalls : (req t).Calls a (((req t).conduct a).memory t w.2) op)
    (hs : apiMachine.logged.step t op w = some (r, w')) :
    ∃ status, readRec w'.1.store.auctions a.auctionId = some (a.withStatus status) := by
  have hstore := (apiMachine_logged_step.mp hs).2.2.1
  by_cases hop : ∃ b, op = .sys (.writeAuction b)
  · obtain ⟨b, rfl⟩ := hop
    obtain ⟨status, rfl⟩ := hcalls
    refine ⟨status, ?_⟩
    rw [hstore]
    exact readRec_writeRec_self ..
  · have harea : op.area ≠ .auctions := by
      intro harea
      cases op with
      | sys op =>
          cases op with
          | writeAuction b => exact hop ⟨b, rfl⟩
          | _ => cases harea
      | wallet site c => cases harea
    rw [hstore, exec_auctions harea]
    exact h.auction

/-- What a request has seen is in the file as it was filed. -/
theorem Moderating.seen_step (h : Moderating req a first w)
    (hkept : w.1.store.disputes.map Dispute.filed <+: w'.1.store.disputes.map Dispute.filed)
    (hs : apiMachine.logged.step t op w = some (r, w')) (u : ι) (d : Dispute)
    (hd : (((req u).conduct a).memory u w'.2).seen = some d) :
    (readRec w'.1.store.disputes d.disputeId).map Dispute.filed = some d.filed := by
  obtain ⟨-, hr, -, hlog⟩ := apiMachine_logged_step.mp hs
  -- it was so before, or the request has just read it
  have hbefore : (readRec w.1.store.disputes d.disputeId).map Dispute.filed = some d.filed := by
    by_cases hu : u = t
    · subst hu
      rw [hlog, Conduct.memory_append_self] at hd
      rcases Option.or_eq_some_iff.mp hd with hread | ⟨-, hseen⟩
      · cases op with
        | sys op =>
            cases op with
            | readDispute id =>
                have hget : readRec w.1.store.disputes id = some d := hr.trans hread
                rw [h.docketed.disputeId_eq hget, hget, Option.map_some]
            | _ => cases hread
        | wallet site c => cases hread
      · exact h.seen u d hseen
    · rw [hlog, Conduct.memory_append_of_ne _ (Ne.symm hu)] at hd
      exact h.seen u d hd
  rw [readRec_map] at hbefore ⊢
  exact readRec_of_prefix hkept hbefore

/-- Nobody writes twice. -/
theorem Moderating.single_step (h : Moderating req a first w)
    (hcalls : (req t).Calls a (((req t).conduct a).memory t w.2) op)
    (hs : apiMachine.logged.step t op w = some (r, w')) (u : ι) (d : Dispute)
    (hd : (u, d) ∈ writings w'.2) : (((req u).conduct a).memory u w'.2).written = some d := by
  obtain ⟨-, -, -, hlog⟩ := apiMachine_logged_step.mp hs
  rw [hlog] at hd ⊢
  rcases mem_gathered_append.mp hd with hold | ⟨rfl, hnew⟩
  · have hwritten := h.single u d hold
    by_cases hu : u = t
    · subst hu
      rw [Conduct.memory_append_self]
      cases hop : disputeWritten op with
      | none => exact Option.or_eq_some_iff.mpr (.inr ⟨hop, hwritten⟩)
      | some x =>
          obtain rfl := disputeWritten_eq_some hop
          rw [hcalls.1] at hwritten
          cases hwritten
    · rwa [Conduct.memory_append_of_ne _ (Ne.symm hu)]
  · rw [Conduct.memory_append_self]
    exact Option.or_eq_some_iff.mpr (.inl hnew)

/-- Who is told of a dispute has written it. -/
theorem Moderating.told_step (h : Moderating req a first w)
    (hcalls : (req t).Calls a (((req t).conduct a).memory t w.2) op)
    (hs : apiMachine.logged.step t op w = some (r, w')) (u : ι) (x : Dispute)
    (hx : (u, x) ∈ tellings w'.2) : (u, x) ∈ writings w'.2 := by
  obtain ⟨-, -, -, hlog⟩ := apiMachine_logged_step.mp hs
  rw [hlog] at hx ⊢
  refine mem_gathered_append.mpr (.inl ?_)
  rcases mem_gathered_append.mp hx with hold | ⟨rfl, hnew⟩
  · exact h.told u x hold
  · obtain ⟨fd, rfl⟩ := disputeTold_eq_some hnew
    exact mem_writings hcalls

/-- Two requests that credit are one. -/
theorem Moderating.payer_eq (h : Moderating req a first w) {u : ι} {d d' : Dispute}
    (hd : (t, d) ∈ writings w.2) (hd' : (u, d') ∈ writings w.2) (ht : ¬ (req t).Files)
    (hu : ¬ (req u).Files) (hs : d.status = .disputeResolved) (hs' : d'.status = .disputeResolved) :
    t = u := by
  have hread := (h.recorded.ruled t d hd ht).1
  have hread' := (h.recorded.ruled u d' hd' hu).1
  have hid := h.docketed.eq_of_live hread hread' (h.recorded.about t d hd)
    (h.recorded.about u d' hd') (by rw [hs]; decide) (by rw [hs']; decide)
  exact h.recorded.distinct t u d d' hd hd' (iff_of_false ht hu) hid

/-- Only who has granted a dispute credits, and only once. -/
theorem Moderating.paid_step (h : Moderating req a first w)
    (hcalls : (req t).Calls a (((req t).conduct a).memory t w.2) op)
    (hs : apiMachine.logged.step t op w = some (r, w')) :
    (∀ u c, (u, c) ∈ payments w'.2 →
      ∃ d, (u, d) ∈ writings w'.2 ∧ ¬ (req u).Files ∧ d.status = .disputeResolved) ∧
      (payments w'.2).length ≤ 1 := by
  obtain ⟨-, -, -, hlog⟩ := apiMachine_logged_step.mp hs
  have hmono : ∀ u d, (u, d) ∈ writings w.2 → (u, d) ∈ writings w'.2 := fun u d hd => by
    rw [hlog]
    exact mem_gathered_append.mpr (.inl hd)
  cases hpay : (creditOf op).filter fun c => decide (0 < c.2) with
  | none =>
      have hlist : payments w'.2 = payments w.2 := by
        rw [hlog]
        exact gathered_append_none hpay
      rw [hlist]
      refine ⟨fun u c hc => ?_, h.once⟩
      obtain ⟨d, hd, hu, hs⟩ := h.paid u c hc
      exact ⟨d, hmono u d hd, hu, hs⟩
  | some c =>
      have hlist : payments w'.2 = payments w.2 ++ [(t, c)] := by
        rw [hlog]
        exact gathered_append_some hpay
      obtain ⟨hcredit, hpos⟩ := Option.filter_eq_some_iff.mp hpay
      obtain ⟨site, rfl⟩ := creditOf_eq_some hcredit
      obtain ⟨⟨fd, resolveReq, moderator, hc⟩, -, hcalls⟩ := hcalls
      obtain ⟨hunpaid, d, hwritten, hgranted⟩ := hcalls _ _ rfl (of_decide_eq_true hpos)
      have ht : ¬ (req t).Files := by rw [hc]; exact not_false
      have hd := mem_writings hwritten
      -- who has credited before is the same one, and he has not
      have hnone : payments w.2 = [] := by
        refine List.eq_nil_iff_forall_not_mem.mpr fun ⟨u, c'⟩ hc' => ?_
        obtain ⟨d', hd', hu, hgranted'⟩ := h.paid u c' hc'
        obtain rfl := h.payer_eq hd hd' ht hu hgranted hgranted'
        have hpaid := Conduct.memory_of_gathered ((req t).conduct a) Handled.paid note_paid hc'
        rw [hunpaid] at hpaid
        cases hpaid
      rw [hlist, hnone]
      refine ⟨fun u c' hc' => ?_, le_rfl⟩
      cases List.mem_singleton.mp hc'
      exact ⟨d, hmono t d hd, ht, hgranted⟩

/-- **Step lemma**. -/
theorem Moderating.step (h : Moderating req a first w)
    (habout : ∀ t, (req t).About a.auctionId first.disputes)
    (hcalls : (req t).Calls a (((req t).conduct a).memory t w.2) op) (hok : InTime req t op w)
    (hs : apiMachine.logged.step t op w = some (r, w')) : Moderating req a first w' := by
  obtain ⟨hdocketed, hrecorded, hkept⟩ := h.disputes_step habout hcalls hok hs
  obtain ⟨hpaid, honce⟩ := h.paid_step hcalls hs
  exact {
    docketed := hdocketed
    recorded := hrecorded
    auction := h.auction_step hcalls hs
    seen := h.seen_step hkept hs
    single := h.single_step hcalls hs
    told := h.told_step hcalls hs
    paid := hpaid
    once := honce }

/-- The auction and the dispute that a request asks for are those it counts on. -/
theorem Moderating.answers (h : Moderating req a first w)
    (habout : ∀ t, (req t).About a.auctionId first.disputes)
    (hcalls : (req t).Calls a (((req t).conduct a).memory t w.2) op)
    (hs : apiMachine.logged.step t op w = some (r, w')) : Moderation.Answers a op r := by
  have hr := (apiMachine_logged_step.mp hs).2.1
  cases op with
  | sys op =>
      cases op with
      | readAuction id =>
          rintro rfl
          obtain ⟨status, hread⟩ := h.auction
          exact ⟨status, hr.symm.trans hread⟩
      | readDispute id =>
          intro d hd
          have hget : readRec w.1.store.disputes id = some d := hr.trans hd
          obtain ⟨fd, resolveReq, u, hc, rfl⟩ := hcalls
          have hfirst := habout t
          simp only [hc, Moderation.About] at hfirst
          exact ⟨h.docketed.disputeId_eq hget, h.docketed.auctionId_eq hget hfirst⟩
      | _ => trivial
  | wallet site c => trivial

theorem moderating_start (hfirst : Numbered Dispute.disputeId first.disputes)
    (hauction : readRec first.auctions a.auctionId = some a)
    (hlive : OneLive a.auctionId first.disputes) : Moderating req a first (.idle first, []) where
  docketed := docketed_start hfirst hlive
  recorded := recorded_start
  auction := ⟨a.status, hauction⟩
  seen := nofun
  single := nofun
  told := nofun
  paid := nofun
  once := Nat.zero_le _

end Steps

/-! ## every interleaving -/

/-- What a moderator has told of is what he has written. -/
def Moderation.Ends (m : Moderation) (g : Handled) : Prop := ¬ m.Files → g.told = g.written

theorem keeps_moderation {m : Moderation} {a : Auction} {ds : List Dispute}
    (h : m.About a.auctionId ds) :
    (m.conduct a).Keeps (fun _ => m.Ends) m.prog (m.conduct a).first := by
  cases m with
  | file fd req u => exact (keeps_file h fd u).mono fun _ _ _ hfiles => absurd trivial hfiles
  | resolve fd req moderator => exact (keeps_resolve fd req moderator).mono fun _ _ hg _ => hg

/-- **Disputes are decided once**: in a run in which every dispute is written in time, the
winner is credited at most once, and everybody finds what he was told of. -/
theorem moderated_of_run [DecidableEq ι] (req : ι → Moderation) {a : Auction} {first : Store}
    (hfirst : Numbered Dispute.disputeId first.disputes)
    (hauction : readRec first.auctions a.auctionId = some a)
    (hlive : OneLive a.auctionId first.disputes)
    (habout : ∀ t, (req t).About a.auctionId first.disputes)
    {d : Config ApiSig ι (ApiLogged ι)}
    (h : Run apiMachine.logged (fun c t op => InTime req t op c.shared)
      (each (.idle first) fun t => (req t).prog) d) : Moderated req a first.disputes d := by
  obtain ⟨hinv, hat⟩ : Moderating req a first d.shared ∧ ∀ t, ((req t).conduct a).At (req t).Ends
      (req t).prog (d.prog t) (d.queue t) (((req t).conduct a).memory t d.shared.2) := by
    refine h.conduct (fun t => keeps_moderation (habout t)) ?_ ?_
      (moderating_start hfirst hauction hlive)
    · exact fun t op w r w' hw hcalls hok hs =>
        ⟨hw.step habout hcalls hok hs, hw.answers habout hcalls hs⟩
    · rintro w ⟨s, log⟩ hw ⟨⟨now, rfl⟩, rfl⟩
      exact { hw with }
  constructor
  · exact (List.countP_le_length).trans hinv.once
  · exact fun t x hx hfiles => hinv.recorded.filed t x (hinv.told t x hx) hfiles
  · intro t x hx hfiles
    obtain ⟨hread, hrules, -⟩ := hinv.recorded.ruled t x (hinv.told t x hx) hfiles
    exact ⟨hread, hrules⟩
  · exact fun t t' x x' hx hx' => hinv.recorded.distinct t t' x x' (hinv.told t x hx)
      (hinv.told t' x' hx')
  · intro hdone x hx hs
    refine (hinv.recorded.decided x hx hs).imp_right ?_
    rintro ⟨t, ht, hfiles⟩
    have htold := (hat t).done (hdone t).1 (hdone t).2 hfiles
    rw [hinv.single t x ht] at htold
    exact ⟨t, Conduct.mem_gathered _ Handled.told rfl (fun _ _ => rfl) t _ htold, hfiles⟩

/-! ## two moderators -/

/-- The winner of the auction complains, and two moderators grant it. -/
def grantTwice : Fin 3 → Moderation
  | 0 => .file 5 ⟨1, .zero _⟩ (.sample 2 roleBidder 100 10)
  | 1 => .resolve 6 ⟨1, 1, .zero _⟩ (.sample 4 roleModerator 0 0)
  | 2 => .resolve 7 ⟨1, 1, .zero _⟩ (.sample 5 roleModerator 0 0)

/-- The threads that serve them, in a market whose auction is closed. -/
def grantTwiceStart : Config ApiSig (Fin 3) (ApiLogged (Fin 3)) :=
  each (.idle .closedMarket) fun t => (grantTwice t).prog

theorem about_grantTwice : ∀ t, (grantTwice t).About 1 Store.closedMarket.disputes
  | 0 => rfl
  | 1 | 2 => fun _ hd => by cases hd

/-- The second moderator finds the dispute decided. -/
theorem moderated_of_run_grantTwice :
    let d := grantTwiceStart.after apiMachine.logged
      (fun c t op => InTime grantTwice t op c.shared)
      (List.replicate 10 0 ++ List.replicate 5 1 ++ List.replicate 5 2 ++ List.replicate 15 1)
    (d.Done ∧ (tellings d.shared.2).map Prod.fst = [0, 1]) ∧
      ∀ a ∈ Store.closedMarket.auctions, Moderated grantTwice a [] d := by
  refine ⟨by decide +kernel, fun a ha => ?_⟩
  obtain rfl := List.mem_singleton.mp ha
  have hnum : Numbered Dispute.disputeId Store.closedMarket.disputes := numbered_nil
  have hlive : OneLive 1 Store.closedMarket.disputes := fun _ hd => (List.not_mem_nil hd).elim
  exact moderated_of_run grantTwice hnum rfl hlive about_grantTwice (Run.after _)

/-- When both have read the dispute while it was open, the winner is paid twice. -/
theorem not_moderated : ¬ ∀ d, Reach apiMachine.logged grantTwiceStart d →
    ∀ a ∈ Store.closedMarket.auctions, Moderated grantTwice a [] d := by
  intro h
  have hmoderated := h _ (Run.after
    (List.replicate 10 0 ++ List.replicate 3 1 ++ List.replicate 3 2 ++ List.replicate 15 1 ++
      List.replicate 15 2)) _ (List.mem_singleton.mpr rfl)
  have honce := hmoderated.paidOnce
  revert honce
  decide +kernel

end Races

end OnlineAuction
