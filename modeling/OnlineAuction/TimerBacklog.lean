import OnlineAuction.CrashRecovery

/-!
# OnlineAuction.TimerBacklog

A pass of the timer closes at most 64 auctions.

`timer_thread` collects the identifiers of expired auctions in an array of fixed
size and reads each auction again before it closes it.  `timerCloses` is the
plain loop over the auctions themselves: `timerPass_eq` says that a pass makes the
calls of that loop for the first 64 that are due (`due`), and `auctions_timerPass`
what is in the file then.  `Passes` are the passes of a server that goes on
working in between; as long as no further auction expires each takes 64 off the
backlog (`Passes.inv`).
-/

namespace OnlineAuction

/-- The open auctions whose end has come. -/
def due (now : Int) (auctions : List Auction) : List Auction :=
  auctions.filter fun a => a.status == .auctionOpen && decide (a.endTime ≤ now)

/-- Close these auctions one after the other, as the timer does. -/
def timerCloses : List Auction → Prog ApiSig Unit
  | [] => pure ()
  | a :: as => do
      let _ ← readAuction a.auctionId
      let _ ← closeAuctionInternal a
      logTxn (.timerClose a.auctionId)
      timerCloses as

/-- The file after these auctions are closed. -/
def withClosed (closed auctions : List Auction) : List Auction :=
  auctions.map fun a => if a ∈ closed then a.withStatus .auctionClosed else a

section Pass

variable {s : Store} {a : Auction} {as l : List Auction} {now : Int}

theorem mem_due : a ∈ due now l ↔
    a ∈ l ∧ a.status = .auctionOpen ∧ a.endTime ≤ now := by
  simp [due]

@[simp] theorem withClosed_nil : withClosed [] l = l := by simp [withClosed]

@[simp] theorem map_auctionId_withClosed :
    (withClosed as l).map Auction.auctionId = l.map Auction.auctionId := by
  rw [withClosed, List.map_map]
  refine List.map_congr_left fun a _ => ?_
  simp only [Function.comp]
  split <;> rfl

theorem Numbered.withClosed (hnum : Numbered Auction.auctionId l) :
    Numbered Auction.auctionId (withClosed as l) := hnum.congr map_auctionId_withClosed

/-- One auction of a list is closed first. -/
theorem withClosed_cons (hnum : Numbered Auction.auctionId l) (ha : a ∈ l)
    (hopen : ∀ b ∈ as, b.status = .auctionOpen) :
    withClosed as (overwrite Auction.auctionId (a.withStatus .auctionClosed) l) =
      withClosed (a :: as) l := by
  rw [withClosed, overwrite, List.map_map, withClosed]
  refine List.map_congr_left fun b hb => ?_
  by_cases hid : b.auctionId = a.auctionId
  · obtain rfl := hnum.eq_of_id hb ha hid
    have hnot : b.withStatus .auctionClosed ∉ as := fun h => by simpa using hopen _ h
    simp [hnot]
  · have hne : b ≠ a := fun h => hid (h ▸ rfl)
    simp [hid, hne]

/-- An auction that is closed is not due any more. -/
theorem due_withClosed (closed l : List Auction) :
    due now (withClosed closed l) = (due now l).filter fun a => decide (a ∉ closed) := by
  induction l with
  | nil => rfl
  | cons a l ih =>
      by_cases ha : a ∈ closed
      · by_cases hdue : a.status = .auctionOpen ∧ a.endTime ≤ now
        all_goals simp_all [due, withClosed]
      · by_cases hdue : a.status = .auctionOpen ∧ a.endTime ≤ now
        all_goals simp_all [due, withClosed]

/-- What is left of a list without its first elements. -/
theorem filter_notMem_take {α : Type} [DecidableEq α] {l : List α} (hl : l.Nodup) (n : Nat) :
    (l.filter fun x => decide (x ∉ l.take n)) = l.drop n := by
  have happend : (l.take n ++ l.drop n).Nodup := by rwa [List.take_append_drop]
  have hdisjoint := (List.nodup_append.mp happend).2.2
  conv_lhs => rw [← List.take_append_drop n l, List.filter_append]
  rw [List.take_append_drop, List.filter_eq_nil_iff.mpr (by simp), List.nil_append,
    List.filter_eq_self.mpr]
  intro x hx
  have hnot : x ∉ l.take n := fun ht => hdisjoint x ht x hx rfl
  simpa using hnot

/-- The clock is not set by a call. -/
theorem run_clock {α : Type} (p : Prog ApiSig α) (s : Store) :
    (Prog.run Api.exec p s).2.clock = s.clock := by
  induction p generalizing s with
  | pure a => rfl
  | call op k ih =>
      rw [Prog.run_call, ih]
      cases op with
      | wallet site c =>
          rw [exec_wallet]
          split <;> rfl
      | sys op => cases op <;> rfl

/-- What a turn of the timer does to the stored auctions. -/
theorem auctions_closed (hnum : Numbered Auction.auctionId s.auctions) (ha : a ∈ s.auctions) :
    (Prog.run Api.exec (closeAuctionInternal a) s).2.auctions =
      overwrite Auction.auctionId (a.withStatus .auctionClosed) s.auctions := by
  rw [auctions_closeAuctionInternal]
  exact hnum.writeRec_eq_overwrite (x := a.withStatus .auctionClosed) ha rfl

/-- These are different open auctions of the file. -/
structure Closable (s : Store) (as : List Auction) : Prop where
  numbered : Numbered Auction.auctionId s.auctions
  nodup : (as.map Auction.auctionId).Nodup
  stored : ∀ a ∈ as, a ∈ s.auctions
  isOpen : ∀ a ∈ as, a.status = .auctionOpen

/-- The rest are as they were once the first is closed. -/
theorem Closable.tail (h : Closable s (a :: as)) :
    Closable ((Prog.run Api.exec (closeAuctionInternal a) s).2.putLines [.timerClose a.auctionId])
      as := by
  have ha := h.stored a (List.mem_cons_self ..)
  have hauctions := auctions_closed h.numbered ha
  have hnodup := List.nodup_cons.mp h.nodup
  refine ⟨?_, hnodup.2, fun b hb => ?_, fun b hb => h.isOpen b (List.mem_cons_of_mem _ hb)⟩
  · show Numbered Auction.auctionId (Prog.run Api.exec (closeAuctionInternal a) s).2.auctions
    rw [hauctions]
    exact h.numbered.overwrite _
  · show b ∈ (Prog.run Api.exec (closeAuctionInternal a) s).2.auctions
    rw [hauctions, overwrite]
    have hne : b.auctionId ≠ (a.withStatus .auctionClosed).auctionId := fun he =>
      hnodup.1 (List.mem_map.mpr ⟨b, hb, he⟩)
    exact List.mem_map.mpr ⟨b, h.stored b (List.mem_cons_of_mem _ hb), if_neg hne⟩

/-- The auction is read again as it was. -/
theorem Closable.readRec (h : Closable s (a :: as)) : readRec s.auctions a.auctionId = some a :=
  h.numbered.readRec_eq_some.mpr ⟨h.stored a (List.mem_cons_self ..), rfl⟩

/-- **Loop lemma**: reading each auction again finds it open, so each is closed once. -/
theorem Closable.closeExpired (h : Closable s as) :
    Prog.run Api.exec (closeExpired (as.map Auction.auctionId)) s =
        Prog.run Api.exec (timerCloses as) s ∧
      Prog.trace Api.exec (closeExpired (as.map Auction.auctionId)) s =
        Prog.trace Api.exec (timerCloses as) s := by
  induction as generalizing s with
  | nil => exact ⟨rfl, rfl⟩
  | cons a as ih =>
      obtain ⟨hrun, htrace⟩ := ih h.tail
      have hopen := h.isOpen a (List.mem_cons_self ..)
      simp only [List.map_cons, OnlineAuction.closeExpired, timerClose, timerCloses, readAuction,
        logTxn, Prog.bind_call, Prog.bind_pure, Prog.run_call, Prog.trace_call, Api.exec_sys,
        Store.exec, h.readRec, hopen, ne_eq, not_true_eq_false, if_false, Prog.bind_assoc,
        Prog.run_bind, Prog.trace_bind]
      exact ⟨hrun, congrArg (fun calls => _ :: (_ ++ _ :: calls)) htrace⟩

theorem Closable.auctions (h : Closable s as) :
    (Prog.run Api.exec (timerCloses as) s).2.auctions = withClosed as s.auctions := by
  induction as generalizing s with
  | nil => exact withClosed_nil.symm
  | cons a as ih =>
      have ha := h.stored a (List.mem_cons_self ..)
      simp only [timerCloses, readAuction, logTxn, Prog.bind_call, Prog.bind_pure, Prog.run_call,
        Api.exec_sys, Store.exec, Prog.run_bind]
      refine (ih h.tail).trans ?_
      show withClosed as (Prog.run Api.exec (closeAuctionInternal a) s).2.auctions = _
      rw [auctions_closed h.numbered ha]
      exact withClosed_cons h.numbered ha fun b hb => h.isOpen b (List.mem_cons_of_mem _ hb)

/-- What a pass collects, is collected once. -/
theorem closable_due (hnum : Numbered Auction.auctionId s.auctions) :
    Closable s ((due now s.auctions).take 64) := by
  have hsub : List.Sublist ((due now s.auctions).take 64) s.auctions :=
    (List.take_sublist ..).trans List.filter_sublist
  refine ⟨hnum, hnum.nodup.sublist (hsub.map _), fun a ha => hsub.subset ha, fun a ha => ?_⟩
  exact (mem_due.mp (List.mem_of_mem_take ha)).2.1

end Pass

/-! ## one pass -/

/-- What a pass of the timer does: the calls are the clock, the file, and then those of the
loop over the first 64 auctions that are due; these are closed and the others stay. -/
structure ClosesFirst (s : Store) : Prop where
  run : Prog.run Api.exec timerPass s =
    Prog.run Api.exec (timerCloses ((due s.clock s.auctions).take 64)) s
  calls : Prog.trace Api.exec timerPass s = [⟨.sys .time, s.clock⟩,
    ⟨.sys .scanAuctions, s.scan .auctions s.auctions⟩] ++
      Prog.trace Api.exec (timerCloses ((due s.clock s.auctions).take 64)) s
  auctions : (Prog.run Api.exec timerPass s).2.auctions =
    withClosed ((due s.clock s.auctions).take 64) s.auctions

section Passes

variable {s s' s₀ : Store} {a : Auction} {k : Nat}

/-- A file that is not there has no records that could be due. -/
theorem closesFirst (hnum : Numbered Auction.auctionId s.auctions)
    (hfile : due s.clock s.auctions ≠ [] → s.present .auctions = true) : ClosesFirst s := by
  have hclosable : Closable s ((due s.clock s.auctions).take 64) := closable_due hnum
  obtain ⟨hrun, htrace⟩ := hclosable.closeExpired
  have hids : expiredIds s.clock s.auctions =
      ((due s.clock s.auctions).take 64).map Auction.auctionId := rfl
  by_cases hpresent : s.present .auctions = true
  · have hscan : s.scan .auctions s.auctions = some s.auctions := if_pos hpresent
    have hpass : Prog.run Api.exec timerPass s =
        Prog.run Api.exec (timerCloses ((due s.clock s.auctions).take 64)) s := by
      simp only [timerPass, time, scanAuctions, Prog.bind_call, Prog.bind_pure, Prog.run_call,
        Api.exec_sys, Store.exec, hscan]
      rw [hids, hrun]
    refine ⟨hpass, ?_, ?_⟩
    · simp only [timerPass, time, scanAuctions, Prog.bind_call, Prog.bind_pure, Prog.trace_call,
        Api.exec_sys, Store.exec, hscan]
      rw [hids, htrace]
      rfl
    · rw [hpass]
      exact hclosable.auctions
  · have hnil : due s.clock s.auctions = [] := by
      by_contra hne
      exact hpresent (hfile hne)
    have hscan : s.scan .auctions s.auctions = none := if_neg hpresent
    refine ⟨?_, ?_, ?_⟩
    all_goals simp [timerPass, time, scanAuctions, Store.exec, hscan, hnil, timerCloses]

/-! ## the backlog -/

/-- From one pass to the next the server may do anything but let a further auction expire:
the file stays numbered, what is due was due, and what has expired stays expired. -/
structure Waits (s s' : Store) : Prop where
  numbered : Numbered Auction.auctionId s'.auctions
  present : s.present .auctions = true → s'.present .auctions = true
  due_mem : ∀ b ∈ due s'.clock s'.auctions,
    b.auctionId ∈ (due s.clock s.auctions).map Auction.auctionId
  expired : ∀ a ∈ s.auctions, a.endTime ≤ s.clock →
    ∃ b ∈ s'.auctions, b.auctionId = a.auctionId ∧ b.endTime ≤ s'.clock

/-- `k` passes, each of them alone. -/
inductive Passes (s₀ : Store) : Nat → Store → Prop
  | start : Passes s₀ 0 s₀
  | wait {k : Nat} {s s' : Store} (h : Passes s₀ k s) (hwait : Waits s s') : Passes s₀ k s'
  | pass {k : Nat} {s : Store} (h : Passes s₀ k s) :
      Passes s₀ (k + 1) (Prog.run Api.exec timerPass s).2

/-- What is due after a pass. -/
theorem ClosesFirst.due (h : ClosesFirst s) (hnum : Numbered Auction.auctionId s.auctions) :
    due (Prog.run Api.exec timerPass s).2.clock (Prog.run Api.exec timerPass s).2.auctions =
      (due s.clock s.auctions).drop 64 := by
  rw [run_clock, h.auctions, due_withClosed]
  exact filter_notMem_take (List.Nodup.of_map _ hnum.nodup |>.filter _) 64

/-- What is known after `k` passes: each has taken 64 off the backlog, and the auctions that had
expired are in the file. -/
structure Reduced (s₀ : Store) (k : Nat) (s : Store) : Prop where
  numbered : Numbered Auction.auctionId s.auctions
  present : due s.clock s.auctions ≠ [] → s.present .auctions = true
  length_due : (due s.clock s.auctions).length ≤ (due s₀.clock s₀.auctions).length - 64 * k
  expired : ∀ a ∈ due s₀.clock s₀.auctions,
    ∃ b ∈ s.auctions, b.auctionId = a.auctionId ∧ b.endTime ≤ s.clock

theorem Reduced.wait (h : Reduced s₀ k s) (hw : Waits s s') : Reduced s₀ k s' where
  numbered := hw.numbered
  present hne := by
    obtain ⟨b, hb⟩ := List.exists_mem_of_ne_nil _ hne
    obtain ⟨a, ha, -⟩ := List.mem_map.mp (hw.due_mem b hb)
    exact hw.present (h.present (List.ne_nil_of_mem ha))
  length_due := by
    have hnodup : ((due s'.clock s'.auctions).map Auction.auctionId).Nodup :=
      hw.numbered.nodup.sublist (List.filter_sublist.map _)
    have hsub : (due s'.clock s'.auctions).map Auction.auctionId ⊆
        (due s.clock s.auctions).map Auction.auctionId := by
      intro id hid
      obtain ⟨b, hb, rfl⟩ := List.mem_map.mp hid
      exact hw.due_mem b hb
    have hle := (hnodup.subperm hsub).length_le
    simp only [List.length_map] at hle
    exact hle.trans h.length_due
  expired a ha := by
    obtain ⟨b, hb, hid, hend⟩ := h.expired a ha
    obtain ⟨c, hc, hcid, hcend⟩ := hw.expired b hb hend
    exact ⟨c, hc, hcid.trans hid, hcend⟩

/-- **Step lemma**: a pass takes 64 off the backlog. -/
theorem Reduced.pass (h : Reduced s₀ k s) :
    Reduced s₀ (k + 1) (Prog.run Api.exec timerPass s).2 := by
  have hpass : ClosesFirst s := closesFirst h.numbered h.present
  have hdue := hpass.due h.numbered
  refine ⟨?_, fun hne => ?_, ?_, fun a ha => ?_⟩
  · rw [hpass.auctions]
    exact h.numbered.withClosed
  · have hsome : due s.clock s.auctions ≠ [] := fun hnil => hne (by rw [hdue, hnil, List.drop_nil])
    exact run_present (h.present hsome) timerPass
  · have hlength := h.length_due
    rw [hdue, List.length_drop]
    omega
  · obtain ⟨b, hb, hid, hend⟩ := h.expired a ha
    rw [hpass.auctions, run_clock]
    refine ⟨_, List.mem_map.mpr ⟨b, hb, rfl⟩, ?_, ?_⟩
    · split <;> exact hid
    · split <;> exact hend

/-- **Run lemma**. -/
theorem Passes.reduced (h : Passes s₀ k s) (hnum : Numbered Auction.auctionId s₀.auctions)
    (hfile : due s₀.clock s₀.auctions ≠ [] → s₀.present .auctions = true) : Reduced s₀ k s := by
  induction h with
  | start =>
      refine ⟨hnum, hfile, by omega, fun a ha => ?_⟩
      exact ⟨a, (mem_due.mp ha).1, rfl, (mem_due.mp ha).2.2⟩
  | wait _ hwait ih => exact ih.wait hwait
  | pass _ ih => exact ih.pass

/-- **The backlog is drained**: a pass closes the first 64 of the `n` auctions that are due, each
of them once, and changes no other; after enough passes, with no further auction expiring in
between, none of the `n` is open. -/
theorem timer_drains (hnum : Numbered Auction.auctionId s₀.auctions)
    (hfile : due s₀.clock s₀.auctions ≠ [] → s₀.present .auctions = true) :
    ClosesFirst s₀ ∧ ∀ k s, Passes s₀ k s → (due s₀.clock s₀.auctions).length ≤ 64 * k →
      ∀ a ∈ due s₀.clock s₀.auctions, ∃ b, readRec s.auctions a.auctionId = some b ∧
        b.status ≠ .auctionOpen := by
  refine ⟨closesFirst hnum hfile, fun k s hk hlength a ha => ?_⟩
  have hreduced := hk.reduced hnum hfile
  obtain ⟨b, hb, hid, hend⟩ := hreduced.expired a ha
  refine ⟨b, hreduced.numbered.readRec_eq_some.mpr ⟨hb, hid⟩, fun hopen => ?_⟩
  have hnone : due s.clock s.auctions = [] := by
    have hle := hreduced.length_due
    exact List.length_eq_zero_iff.mp (by omega)
  have hdue : b ∈ due s.clock s.auctions := mem_due.mpr ⟨hb, hopen, hend⟩
  rw [hnone] at hdue
  cases hdue

/-- Seventy auctions of user 1 that are due, the first of them led by user 2. -/
def Store.backlog : Store :=
  { Store.market with
    auctions := (List.range 70).map fun i => { Auction.zero with
      auctionId := .ofNat (i + 1), sellerId := 1, currentBid := 10, status := .auctionOpen
      highestBidderId := if i = 0 then 2 else 0, endTime := 4000 }
    clock := 5000 }

/-- One pass closes 64 of them; after two none is open. -/
theorem timer_drains_backlog :
    (due 5000 Store.backlog.auctions).length = 70 ∧ ClosesFirst Store.backlog ∧
      (due 5000 (Prog.run Api.exec timerPass Store.backlog).2.auctions).length = 6 ∧
      ∀ s, Passes Store.backlog 2 s → ∀ a ∈ due 5000 Store.backlog.auctions,
        ∃ b, readRec s.auctions a.auctionId = some b ∧ b.status ≠ .auctionOpen := by
  have hnum : Numbered Auction.auctionId Store.backlog.auctions := by decide +kernel
  have hlength : (due 5000 Store.backlog.auctions).length = 70 := by decide +kernel
  have hdrains := timer_drains hnum fun _ => rfl
  exact ⟨hlength, hdrains.1, by decide +kernel,
    fun s hpasses => hdrains.2 2 s hpasses (hlength.trans_le (by decide))⟩

end Passes

/-! ## requests in between -/

section Requests

variable {sha256Hex : List UInt8 → List UInt8} {v v' : View} {i : Input} {ms : List Mark}
  {s : Server} {a : Auction}

/-- An auction ends when it was said to end. -/
theorem Change.endTime (h : Change sha256Hex v i ms v') (hs : Sound v) (ha : a ∈ v.auctions) :
    ∃ b ∈ v'.auctions, b.auctionId = a.auctionId ∧ b.endTime = a.endTime := by
  have hover {x y : Auction} (hy : y ∈ v.auctions) (hid : x.auctionId = y.auctionId)
      (hend : x.endTime = y.endTime) : ∃ b ∈ overwrite Auction.auctionId x v.auctions,
        b.auctionId = a.auctionId ∧ b.endTime = a.endTime := by
    have hmap : (overwrite Auction.auctionId x v.auctions).map
        (fun b => (b.auctionId, b.endTime)) = v.auctions.map fun b => (b.auctionId, b.endTime) :=
      hs.auctions.map_overwrite hy hid (by rw [hid, hend])
    have hmem : (a.auctionId, a.endTime) ∈ v.auctions.map fun b => (b.auctionId, b.endTime) :=
      List.mem_map.mpr ⟨a, ha, rfl⟩
    rw [← hmap] at hmem
    obtain ⟨b, hb, he⟩ := List.mem_map.mp hmem
    exact ⟨b, hb, (Prod.mk.inj he).1, (Prod.mk.inj he).2⟩
  cases h with
  | createAuction => exact ⟨a, List.mem_append_left _ ha, rfl, rfl⟩
  | placeBid _ _ hold | close _ hold | fileDispute _ _ hold => exact hover hold rfl rfl
  | reject _ _ _ _ _ hold => exact hover hold rfl rfl
  | _ => exact ⟨a, ha, rfl, rfl⟩

/-- Between two passes the server may handle any input that does not set the clock back and
after which no further auction is due. -/
theorem Server.Sound.waits (hs : s.Sound) (hroom : s.store.HasRoom) (hpossible : i.Possible s)
    (hclock : s.store.clock ≤ (s.handle sha256Hex i).store.clock)
    (hdue : ∀ b ∈ due (s.handle sha256Hex i).store.clock (s.handle sha256Hex i).store.auctions,
      b.auctionId ∈ (due s.store.clock s.store.auctions).map Auction.auctionId) :
    Waits s.store (s.handle sha256Hex i).store where
  numbered := (hs.handle hroom hpossible).view.auctions
  present hpresent := by
    refine run_present (s := i.before s.store) ?_ _
    cases i <;> exact hpresent
  due_mem := hdue
  expired a ha hend := by
    obtain ⟨b, hb, hid, hbend⟩ := (hs.change hroom hpossible).endTime hs.view ha
    exact ⟨b, hb, hid, hbend ▸ hend.trans hclock⟩

end Requests

end OnlineAuction
