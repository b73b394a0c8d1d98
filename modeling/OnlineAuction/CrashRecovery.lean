import OnlineAuction.Accounting
import OnlineAuction.Lib.Crash
import OnlineAuction.TxnLog

/-!
# OnlineAuction.CrashRecovery

A close that is cut off.

`close_auction_internal` writes the auction, then a line that announces the settlement,
then the wallets and the bids.  The process may die between any two writes
(`Store.crashedClose`); when it is back the timer closes what is still open
(`Store.recovered`), and nothing else looks at the log.  `announced_recovered_iff` says
after which of the writes a crash leaves a closed auction that the log says nothing of.
-/

namespace OnlineAuction

/-! ## the writes -/

/-- The stores after each write that a call makes to the data files: a pass over a file
writes the records it changes one after the other. -/
def SysOp.writes (op : SysOp) (s : Store) : List Store :=
  match op with
  | .markWinningBids auctionId bidderId =>
      (rewrites (fun b => decide (b.auctionId = auctionId ∧ b.bidderId = bidderId))
        (fun b => { b with isWinning := true }) s.bids).map fun bids => { s with bids := bids }
  | .markFeedbackReviewed =>
      (rewrites (fun f => !f.reviewed) (fun f => { f with reviewed := true }) s.feedback).map
        fun feedback => { s with feedback := feedback }
  | .writeUser _ | .writeAuction _ | .appendBid _ | .writeSession _ _ | .logTxn _
  | .appendFeedback _ | .writeDispute _ => [(Store.exec op s).2]
  | _ => []

/-- The store when the process dies after `n` writes of `close_auction_internal`. -/
def Store.crashedClose (s : Store) (a : Auction) (n : Nat) : Store :=
  Prog.crashed Store.exec SysOp.writes n ((closeAuctionInternal a).subst Api.impl) s

/-- The store after a restart and a pass of the timer at each of these times. -/
def Store.recovered (s : Store) (times : List Int) : Store :=
  times.foldl (fun s now => (Prog.run Api.exec timerPass { s with clock := now }).2)
    (Input.restart.before s)

/-! ## the announcement -/

/-- The line that announces the settlement. -/
def Auction.announcement (a : Auction) : LogLine :=
  .walSettle a.auctionId a.highestBidderId a.sellerId a.currentBid

/-- Unless the stored auction is open, the log announces its settlement. -/
def Announced (a : Auction) (s : Store) : Prop :=
  ∀ b, readRec s.auctions a.auctionId = some b → b.status ≠ .auctionOpen → a.announcement ∈ s.txnLog

/-- The call neither writes the auction nor announces its settlement. -/
def ApiOp.Spares (a : Auction) : ApiOp → Prop
  | .sys (.writeAuction b) => b.auctionId ≠ a.auctionId
  | .sys (.logTxn line) => line ≠ a.announcement
  | _ => True

/-- As far as the auction and its announcement are concerned, nothing has happened. -/
structure Spared (a : Auction) (s s' : Store) : Prop where
  record : readRec s'.auctions a.auctionId = readRec s.auctions a.auctionId
  log : a.announcement ∈ s'.txnLog ↔ a.announcement ∈ s.txnLog

section Timer

variable {a b : Auction} {s s' : Store} {id : UInt32}

theorem Spared.trans {s'' : Store} (h : Spared a s s') (h' : Spared a s' s'') :
    Spared a s s'' := ⟨h'.record.trans h.record, h'.log.trans h.log⟩

theorem spared_exec {o : ApiOp} (ho : o.Spares a) (ha : (readRec s.auctions a.auctionId).isSome) :
    Spared a s (Api.exec o s).2 := by
  cases o with
  | wallet site c =>
      refine ⟨by rw [exec_wallet_auctions], ?_⟩
      have hlines (r : Option User) : a.announcement ∉ c.lines r := by
        cases c <;> cases r <;> simp only [WalletCall.lines, Auction.announcement] <;> grind
      rw [exec_wallet]
      split <;> simp [Store.putLines, Store.putUser, Store.create, hlines]
  | sys op =>
      cases op with
      | writeAuction b => exact ⟨readRec_writeRec_ne ha ho, Iff.rfl⟩
      | logTxn line =>
          refine ⟨rfl, ?_⟩
          have hne : a.announcement ≠ line := fun h => ho h.symm
          simp [Store.exec, hne]
      | _ => exact ⟨rfl, Iff.rfl⟩

theorem spared_run {α : Type} {p : Prog ApiSig α}
    (hp : p.Respects (ApiOp.Spares a) (fun _ _ => True) fun _ => True)
    (ha : (readRec s.auctions a.auctionId).isSome) : Spared a s (Prog.run Api.exec p s).2 := by
  refine (hp.run (I := Spared a s) (fun o s' hs' ho => ⟨?_, trivial⟩) ⟨rfl, Iff.rfl⟩).1
  exact hs'.trans (spared_exec ho (hs'.record ▸ ha))

/-- The close of another auction. -/
theorem spares_closeAuctionInternal (hne : b.auctionId ≠ a.auctionId) :
    (closeAuctionInternal b).Respects (ApiOp.Spares a) (fun _ _ => True) fun _ => True := by
  have hrelease : (releaseLeader (.close b.auctionId) (b.withStatus .auctionClosed)).Respects
      (ApiOp.Spares a) (fun _ _ => True) fun _ => True := by
    unfold releaseLeader
    split <;> simp [ApiOp.Spares]
  simp [closeAuctionInternal, hrelease, notifyAuctionWon, notifyAuctionClosed,
    pushNotification, ApiOp.Spares, Auction.announcement, hne]

/-- What a close does to the stored auctions. -/
theorem auctions_closeAuctionInternal (b : Auction) :
    (Prog.run Api.exec (closeAuctionInternal b) s).2.auctions =
      writeRec .zero s.auctions b.auctionId (b.withStatus .auctionClosed) := by
  have hview : s.view (fun _ => none) = s.view fun _ => none := rfl
  exact congrArg View.auctions (does_closeAuctionInternal hview b).view

/-- A close that settles announces it. -/
theorem announcement_closeAuctionInternal (hsettles : b.Settles) :
    b.announcement ∈ (Prog.run Api.exec (closeAuctionInternal b) s).2.txnLog := by
  have hclosed : (b.withStatus .auctionClosed).Settles := hsettles
  simp only [closeAuctionInternal, writeAuction, logTxn, hclosed, if_true, Prog.bind_call,
    Prog.bind_pure, Prog.run_call]
  refine (run_txnLog _ _).subset ?_
  exact List.mem_append_right _ (List.mem_singleton.mpr rfl)

/-- A turn of the timer closes an open auction or does nothing. -/
theorem run_timerClose (hnum : Numbered Auction.auctionId s.auctions) (id : UInt32) :
    (∃ ea ∈ s.auctions, ea.auctionId = id ∧ ea.status = .auctionOpen ∧
      (Prog.run Api.exec (timerClose id) s).2 =
        (Prog.run Api.exec (closeAuctionInternal ea) s).2.putLines [.timerClose id]) ∨
      (Prog.run Api.exec (timerClose id) s).2 = s := by
  simp only [timerClose, OnlineAuction.readAuction, Prog.bind_call, Prog.bind_pure, Prog.run_call,
    Api.exec_sys, Store.exec]
  cases hread : readRec s.auctions id with
  | none => exact .inr rfl
  | some ea =>
      obtain ⟨hmem, hid⟩ := hnum.readRec_eq_some.mp hread
      by_cases hopen : ea.status = .auctionOpen
      · simp only [hopen, ne_eq, not_true_eq_false, if_false, Prog.run_bind]
        exact .inl ⟨ea, hmem, hid, hopen, rfl⟩
      · simp only [hopen, ne_eq, not_false_eq_true, if_true]
        exact .inr rfl

theorem numbered_writeClosed (hnum : Numbered Auction.auctionId s.auctions) (hb : b ∈ s.auctions) :
    Numbered Auction.auctionId
      (writeRec .zero s.auctions b.auctionId (b.withStatus .auctionClosed)) := by
  have hwrite : writeRec .zero s.auctions b.auctionId (b.withStatus .auctionClosed) =
      overwrite Auction.auctionId (b.withStatus .auctionClosed) s.auctions :=
    hnum.writeRec_eq_overwrite (x := b.withStatus .auctionClosed) hb rfl
  rw [hwrite]
  exact hnum.overwrite _

theorem numbered_timerClose (hnum : Numbered Auction.auctionId s.auctions) (id : UInt32) :
    Numbered Auction.auctionId (Prog.run Api.exec (timerClose id) s).2.auctions := by
  rcases run_timerClose hnum id with ⟨ea, hmem, -, -, hrun⟩ | hrun
  · rw [hrun, Store.putLines, auctions_closeAuctionInternal]
    exact numbered_writeClosed hnum hmem
  · rw [hrun]
    exact hnum

/-- **Step lemma**: a turn of the timer leaves an auction alone or closes it. -/
theorem timerClose_spares (hnum : Numbered Auction.auctionId s.auctions)
    (ha : readRec s.auctions a.auctionId = some b) (id : UInt32) :
    Spared a s (Prog.run Api.exec (timerClose id) s).2 ∨ b.status = .auctionOpen ∧
      (b.Settles → b.announcement ∈ (Prog.run Api.exec (timerClose id) s).2.txnLog) := by
  rcases run_timerClose hnum id with ⟨ea, hmem, hid, hopen, hrun⟩ | hrun
  · rw [hrun]
    by_cases hself : ea.auctionId = a.auctionId
    · have hea : readRec s.auctions a.auctionId = some ea := hnum.readRec_eq_some.mpr ⟨hmem, hself⟩
      obtain rfl : b = ea := Option.some.inj (ha.symm.trans hea)
      exact .inr ⟨hopen, fun hsettles =>
        List.mem_append_left _ (announcement_closeAuctionInternal hsettles)⟩
    · have hspared : Spared a s (Prog.run Api.exec (closeAuctionInternal ea) s).2 :=
        spared_run (spares_closeAuctionInternal hself) (ha ▸ rfl)
      refine .inl ⟨hspared.record, Iff.trans ?_ hspared.log⟩
      simp [Store.putLines, Auction.announcement]
  · rw [hrun]
    exact .inl ⟨rfl, Iff.rfl⟩

/-- **Invariant rule** for a restart: what every turn of the timer keeps. -/
theorem recovered_keeps {P : List Auction → List LogLine → Prop}
    (hclose : ∀ s id, P s.auctions s.txnLog → P (Prog.run Api.exec (timerClose id) s).2.auctions
      (Prog.run Api.exec (timerClose id) s).2.txnLog)
    (hs : P s.auctions s.txnLog) (times : List Int) :
    P (s.recovered times).auctions (s.recovered times).txnLog := by
  have hclosed (ids : List UInt32) (s : Store) (hs : P s.auctions s.txnLog) :
      P (Prog.run Api.exec (closeExpired ids) s).2.auctions
        (Prog.run Api.exec (closeExpired ids) s).2.txnLog := by
    induction ids generalizing s with
    | nil => exact hs
    | cons id ids ih =>
        rw [closeExpired, Prog.run_bind]
        exact ih _ (hclose s id hs)
  have hpasses (times : List Int) (s : Store) (hs : P s.auctions s.txnLog) :
      P (times.foldl (fun s now => (Prog.run Api.exec timerPass { s with clock := now }).2)
          s).auctions
        (times.foldl (fun s now => (Prog.run Api.exec timerPass { s with clock := now }).2)
          s).txnLog := by
    induction times generalizing s with
    | nil => exact hs
    | cons now times ih =>
        refine ih _ ?_
        simp only [timerPass, time, scanAuctions, Prog.bind_call, Prog.bind_pure, Prog.run_call,
          Api.exec_sys, Store.exec]
        cases Store.scan _ .auctions s.auctions with
        | none => exact hs
        | some l => exact hclosed _ _ hs
  exact hpasses times _ hs

end Timer

/-! ## every crash point -/

section Crash

variable {a : Auction} {s : Store}

/-- What is announced stays so. -/
theorem announced_recovered (h : a.announcement ∈ s.txnLog) (times : List Int) :
    Announced a (s.recovered times) :=
  fun _ _ _ => recovered_keeps (P := fun _ log => a.announcement ∈ log)
    (fun s id h => (run_txnLog s (timerClose id)).subset h) h times

/-- An open auction is closed as a whole or stays open. -/
theorem announced_recovered_open (hopen : a.status = .auctionOpen) (hsettles : a.Settles)
    (hnum : Numbered Auction.auctionId s.auctions)
    (ha : readRec s.auctions a.auctionId = some a) (times : List Int) :
    Announced a (s.recovered times) := by
  have hkeeps := recovered_keeps (s := s)
    (P := fun auctions log => Numbered Auction.auctionId auctions ∧
      (readRec auctions a.auctionId = some a ∨ a.announcement ∈ log)) ?_ ⟨hnum, .inl ha⟩ times
  · intro b hb hclosed
    rcases hkeeps.2 with h | h
    · obtain rfl := Option.some.inj (h.symm.trans hb)
      exact absurd hopen hclosed
    · exact h
  · rintro s id ⟨hnum, h⟩
    refine ⟨numbered_timerClose hnum id, ?_⟩
    rcases h with ha | hlog
    · rcases timerClose_spares hnum ha id with hspared | ⟨-, hsettled⟩
      · exact .inl (hspared.record.trans ha)
      · exact .inr (hsettled hsettles)
    · exact .inr ((run_txnLog s (timerClose id)).subset hlog)

/-- A closed auction stays as it is, and nothing is announced any more. -/
theorem not_announced_recovered (hnum : Numbered Auction.auctionId s.auctions)
    (ha : readRec s.auctions a.auctionId = some (a.withStatus .auctionClosed))
    (hlog : a.announcement ∉ s.txnLog) (times : List Int) : ¬ Announced a (s.recovered times) := by
  have hkeeps := recovered_keeps (s := s)
    (P := fun auctions log => Numbered Auction.auctionId auctions ∧
      readRec auctions a.auctionId = some (a.withStatus .auctionClosed) ∧ a.announcement ∉ log)
    ?_ ⟨hnum, ha, hlog⟩ times
  · exact fun h => hkeeps.2.2 (h _ hkeeps.2.1 (by simp))
  · rintro s id ⟨hnum, ha, hlog⟩
    refine ⟨numbered_timerClose hnum id, ?_⟩
    rcases timerClose_spares hnum ha id with hspared | ⟨hopen, -⟩
    · exact ⟨hspared.record.trans ha, fun h => hlog (hspared.log.mp h)⟩
    · cases hopen

/-- The auction is the first thing written. -/
theorem crashedClose_succ (n : Nat) : ∃ p : Prog SysSig Auction,
    (s.crashedClose a (n + 1) = Prog.crashed Store.exec SysOp.writes n p
      (Store.exec (.writeAuction (a.withStatus .auctionClosed)) s).2) ∧
    (a.Settles → ∃ k : Unit → Prog SysSig Auction, p = .call (.logTxn a.announcement) k) := by
  refine ⟨_, Prog.crashed_succ rfl n, fun hsettles => ?_⟩
  have hclosed : (a.withStatus .auctionClosed).Settles := hsettles
  simp only [if_pos hclosed]
  exact ⟨_, rfl⟩

theorem crashedClose_one : s.crashedClose a 1 =
    (Store.exec (.writeAuction (a.withStatus .auctionClosed)) s).2 := by
  obtain ⟨p, hp, -⟩ := crashedClose_succ (a := a) (s := s) 0
  rw [hp, Prog.crashed_zero]

/-- The announcement is the second. -/
theorem announcement_crashedClose (hsettles : a.Settles) (n : Nat) :
    a.announcement ∈ (s.crashedClose a (n + 2)).txnLog := by
  obtain ⟨p, hp, hcall⟩ := crashedClose_succ (a := a) (s := s) (n + 1)
  obtain ⟨k, rfl⟩ := hcall hsettles
  rw [hp, Prog.crashed_succ rfl]
  refine Prog.crashed_keeps (P := fun s : Store => a.announcement ∈ s.txnLog) ?_ ?_ ?_ n
  · exact fun o s h => (exec_txnLog s o).subset h
  · intro o s h s' hs'
    unfold SysOp.writes at hs'
    split at hs'
    · obtain ⟨_, -, rfl⟩ := List.mem_map.mp hs'
      exact h
    · obtain ⟨_, -, rfl⟩ := List.mem_map.mp hs'
      exact h
    all_goals simp only [List.mem_singleton, List.not_mem_nil] at hs'
    all_goals exact hs' ▸ (exec_txnLog s _).subset h
  · exact List.mem_append_right _ (List.mem_singleton.mpr rfl)

/-- **Crash points**: when a close that settles is cut off and the server restarts, an
auction that is not open any more is announced in the log, exactly if the crash does not
come right after the first write, that of the auction. -/
theorem announced_recovered_iff (hs : s.Balanced) (ha : a ∈ s.auctions)
    (hopen : a.status = .auctionOpen) (hsettles : a.Settles) (n : Nat) (times : List Int) :
    Announced a ((s.crashedClose a n).recovered times) ↔ n ≠ 1 ∨ a.announcement ∈ s.txnLog := by
  have hnum := hs.auctions_numbered
  have hread : readRec s.auctions a.auctionId = some a := hnum.readRec_eq_some.mpr ⟨ha, rfl⟩
  match n with
  | 0 =>
      exact iff_of_true (announced_recovered_open hopen hsettles hnum hread times) (.inl (by simp))
  | 1 =>
      rw [crashedClose_one]
      generalize hclosed : (Store.exec (.writeAuction (a.withStatus .auctionClosed)) s).2 = s'
      have hlog' : s'.txnLog = s.txnLog := by rw [← hclosed]; rfl
      by_cases hlog : a.announcement ∈ s.txnLog
      · exact iff_of_true (announced_recovered (hlog' ▸ hlog) times) (.inr hlog)
      · refine iff_of_false (not_announced_recovered ?_ ?_ (hlog' ▸ hlog) times) (by simp [hlog])
        · rw [← hclosed]
          exact numbered_writeClosed (b := a) hnum ha
        · rw [← hclosed]
          exact readRec_writeRec_self _ _ _ _
  | n + 2 =>
      exact iff_of_true (announced_recovered (announcement_crashedClose hsettles n) times)
        (.inl (by simp))

end Crash

/-! ## the market -/

/-- The auction of the market. -/
def marketAuction : Auction :=
  { Auction.zero with
    auctionId := 1, sellerId := 1, currentBid := 10, highestBidderId := 2, status := .auctionOpen }

/-- The process dies while the winner pays. -/
theorem announced_recovered_iff_market :
    Announced marketAuction ((Store.market.crashedClose marketAuction 3).recovered [2000, 3000]) :=
  (announced_recovered_iff (by decide +kernel) (List.mem_singleton.mpr rfl) rfl (by decide +kernel)
    3 [2000, 3000]).mpr (.inl (by decide))

/-- It dies once the auction is written: the auction is closed, the winner's hold stays, and
the log is empty. -/
theorem not_announced :
    ¬ ∀ s : Store, s.Balanced → ∀ a ∈ s.auctions, a.status = .auctionOpen → a.Settles →
      ∀ n times, Announced a ((s.crashedClose a n).recovered times) := by
  intro h
  have hannounced := h Store.market (by decide +kernel) marketAuction (List.mem_singleton.mpr rfl)
    rfl (by decide +kernel) 1 [2000]
  have hlog : ((Store.market.crashedClose marketAuction 1).recovered [2000]).txnLog = [] := by
    decide +kernel
  have hread : readRec ((Store.market.crashedClose marketAuction 1).recovered [2000]).auctions 1 =
      some (marketAuction.withStatus .auctionClosed) := by
    decide +kernel
  have hline := hannounced _ hread (by decide)
  rw [hlog] at hline
  cases hline

end OnlineAuction
