import OnlineAuction.Lib.MarkingPass
import OnlineAuction.SharedStorage

/-!
# OnlineAuction.MarkingPasses

What becomes of the records of `bids.dat` and `feedback.dat` while the server runs.

Bids and feedback are only ever appended, and marked in passes over the file: by
`close_auction_internal` (`is_winning`) and by `handle_view_feedback` (`reviewed`).  A pass reads a
record and writes it back as a whole in two calls, under a lock of `fcntl` that does not keep the
threads of one process apart; two passes, or a pass and an append, interleave as they like.  No
record is lost by this, none is changed otherwise, and none that a pass should mark is missed
(`bids_marked`, `feedback_marked`).
-/

namespace OnlineAuction

open Posix FileCalls

/-! ## the marks -/

/-- `b.is_winning = 1` -/
def winMark : Mark (CharArray bidSize) where
  put b := BidField.isWinning.set b (toLe 4 1)
  put_put _ := Field.set_set_self (length_toLe 4 1)

/-- `tmp.reviewed = 1` -/
def seenMark : Mark (CharArray feedbackSize) where
  put f := FeedbackField.reviewed.set f (toLe 4 1)
  put_put _ := Field.set_set_self (length_toLe 4 1)

/-- The pass over the bids puts the mark of winners. -/
theorem puts_winningMark (auctionId bidderId : UInt32) :
    winMark.Puts (winningMark auctionId bidderId) := by
  intro b y h
  rw [winningMark] at h
  split at h
  · exact (Option.some.inj h).symm
  · cases h

/-- The pass over the feedback puts the mark of what was reviewed. -/
theorem puts_reviewedMark : seenMark.Puts reviewedMark := by
  intro f y h
  rw [reviewedMark] at h
  split at h
  · exact (Option.some.inj h).symm
  · cases h

/-! ## the functions write nothing else -/

/-- The file whose records a function overwrites. -/
def FileOp.overwrites : FileOp → Option FileName
  | .writeUser _ => some .users
  | .writeAuction _ => some .auctions
  | .writeSession _ _ => some .sessions
  | .writeDispute _ => some .disputes
  | .markWinningBids _ _ _ => some .bids
  | .markFeedbackReviewed _ => some .feedback
  | _ => none

/-- A loop that only reads spares every file. -/
theorem spares_recordScan {σ : Type} {path : FileName} (path' : FileName) {guard : σ → Bool}
    (next : σ → CharArray (recordSize path') → Bool × σ) (fuel : Nat) (init : σ) :
    (recordScan path' guard next fuel init).Respects (Mark.Spares path) (fun _ _ => True)
      fun _ => True :=
  Mark.spares_recordLoop (fun _ _ _ => (Prog.respects_pure _).mpr trivial) fuel 0 init

/-- A pass over another file spares this one. -/
theorem spares_recordPass {path path' : FileName} (hne : path' ≠ path)
    (change : CharArray (recordSize path') → Option (CharArray (recordSize path'))) (fuel : Nat) :
    (recordPass path' change fuel).Respects (Mark.Spares path) (fun _ _ => True)
      fun _ => True := by
  refine Mark.spares_recordLoop (fun i offset x => ?_) fuel 0 0
  rw [writeBackAt]
  split
  · exact ⟨hne, fun _ _ => trivial⟩
  · trivial

/-- A function that overwrites other files, or none. -/
theorem FileOp.spares (path : FileName) (op : FileOp) (hop : op.overwrites ≠ some path) :
    op.accesses.Respects (Mark.Spares path) (fun _ _ => True) fun _ => True := by
  cases op with
  | readUser _ | readAuction _ | readDispute _ | nextUserId | nextAuctionId | nextBidId
  | nextFeedbackId | nextDisputeId | appendBid _ | appendFeedback _ =>
      exact ⟨trivial, fun _ _ => trivial⟩
  | writeUser _ | writeAuction _ | writeSession _ _ | writeDispute _ =>
      exact ⟨fun h => hop (congrArg some h), fun _ _ => trivial⟩
  | findUserByUsername _ _ | collect _ _ _ _ | countFile _ _ _ | anyInFile _ _ _ =>
      exact spares_recordScan _ _ _ _
  | findSessionSlot _ _ | findFreeSlot _ =>
      exact (spares_recordScan _ _ _ _).bind fun _ _ => trivial
  | markWinningBids _ _ _ | markFeedbackReviewed _ =>
      exact spares_recordPass (fun h => hop (congrArg some h)) _ _

/-! ## runs -/

section Runs

variable {ι υ : Type} [DecidableEq ι] {O : Sig} {other : System O ι υ} {path : FileName}
  {m : Mark (CharArray (recordSize path))}
  {change : CharArray (recordSize path) → Option (CharArray (recordSize path))}

omit [DecidableEq ι] in
/-- What overwrites the file marks, so nothing else is written to it. -/
theorem tame_recordAccesses {l₀ : List (CharArray (recordSize path))}
    (hpass : ∀ op : FileOp, op.overwrites = some path → m.Tame other l₀ op.accesses.inl)
    (o : (FileSig.sum O).Op) : m.Tame other l₀ (recordAccesses o) := by
  cases o with
  | inr o => exact Mark.tame_of_spares ⟨trivial, fun _ _ => trivial⟩
  | inl op =>
      by_cases hop : op.overwrites = some path
      · exact hpass op hop
      · exact Mark.tame_of_spares (Mark.respects_inl (op.spares path hop))

-- The path is given, as it cannot be told from the size of the records.
omit [DecidableEq ι] in
/-- A pass that has its turns has passed. -/
theorem ends_pass (path : FileName) {m : Mark (CharArray (recordSize path))}
    {l₀ : List (CharArray (recordSize path))}
    {change : CharArray (recordSize path) → Option (CharArray (recordSize path))}
    (hputs : m.Puts change) (fuel : Nat) : m.Ends (ι := ι) (O := O) other l₀
      (Mark.Passed m l₀ change fuel) (recordPass path change fuel).inl :=
  Mark.ends_recordPass hputs fuel

omit [DecidableEq ι] in
/-- A pass is tame. -/
theorem tame_pass (path : FileName) {m : Mark (CharArray (recordSize path))}
    {l₀ : List (CharArray (recordSize path))}
    {change : CharArray (recordSize path) → Option (CharArray (recordSize path))}
    (hputs : m.Puts change) (fuel : Nat) :
    m.Tame (ι := ι) (O := O) other l₀ (recordPass path change fuel).inl :=
  Mark.tame_recordPass hputs fuel

/-- What has become of a file that is only marked: it holds the records that were there and those
appended, in this order, each as it was or marked; and when a program that must make a pass `P` has
run, no record that was there and that the pass looks for is unmarked, unless the pass had too few
turns. -/
structure Marked (path : FileName) (m : Mark (CharArray (recordSize path)))
    (change : CharArray (recordSize path) → Option (CharArray (recordSize path)))
    (P : FileOp → Prop) (fuel : Nat) (l : Records recordSize)
    (queue : ι → List (Prog (FileSig.sum O) Unit))
    (e : Config ((PosixSig FileName).sum O) ι (SharedDisk ι FileName × υ))
    (final : Mark.Logged ι υ O recordSize) : Prop where
  bytes : ∀ path, e.shared.1.disk.bytes path = pack (final.1.1 path)
  kept : m.Kept (l path ++ Mark.appended path final.2) (final.1.1 path)
  marked : ∀ t before after, e.prog t = .pure () → queue t = before ++ after →
    e.queue t = after.map (Prog.subst kernelCalls) →
      (∃ p ∈ before, p.Must (Sum.elim P fun _ => False)) → (final.1.1 path).length < fuel →
        m.MarkedTo change (l path).length (l path) (final.1.1 path)

/-- **Run lemma**, for either of the files. -/
theorem marked_of_reach [Fintype ι] (path : FileName) {m : Mark (CharArray (recordSize path))}
    {change : CharArray (recordSize path) → Option (CharArray (recordSize path))}
    {P : FileOp → Prop} {fuel : Nat} {d : Disk FileName} {u : υ}
    {l : Records recordSize} {taken : Finset Nat} {queue : ι → List (Prog (FileSig.sum O) Unit)}
    {e : Config ((PosixSig FileName).sum O) ι (SharedDisk ι FileName × υ)}
    (hpass : ∀ op : FileOp, op.overwrites = some path →
      m.Tame (ι := ι) other (l path) op.accesses.inl)
    (hP : ∀ op : FileOp, P op →
      m.Ends (ι := ι) other (l path) (Mark.Passed m (l path) change fuel) op.accesses.inl)
    (hbegins : Begins d l taken (Fintype.card ι))
    (hprogs : ∀ t, ∀ p ∈ queue t, CoveredBy (fun path => (d.content path).isSome) p)
    (h : Reach (fileSystem other)
      (.start (⟨d, fun _ => none⟩, u) fun t => (queue t).map (Prog.subst kernelCalls)) e) :
    ∃ e', Reach (recordSystem other).logged
        (.start ((l, u), []) fun t => (queue t).map (Prog.subst recordAccesses)) e' ∧
      Marked path m change P fuel l queue e e'.shared := by
  obtain ⟨e', hrun, hcorresponds⟩ :=
    fileFunctions_atomic other d u l taken queue e hbegins hprogs h
  obtain ⟨y, hlogged, hy⟩ :=
    (simulates_logged (recordSystem other)).reach hrun (x := ((l, u), [])) rfl
  refine ⟨_, hlogged, ?_⟩
  have hends (o : (FileSig.sum O).Op) (ho : Sum.elim P (fun _ => False) o) :
      m.Ends other (l path) (Mark.Passed m (l path) change fuel) (recordAccesses o) := by
    cases o with
    | inl op => exact hP op ho
    | inr o => exact ho.elim
  obtain ⟨hkept, hmarked⟩ := Mark.run_tame fuel (tame_recordAccesses hpass) hends hlogged
  refine ⟨fun path => ?_, hkept, fun t before after ht hqueue hafter hmust hlt => ?_⟩
  · show _ = pack (y.1.1 path)
    rw [hcorresponds.bytes, hy]
  · obtain ⟨hprog, n, hlow, hhigh⟩ := hcorresponds.quiet t ht
    refine hmarked t before after hprog hqueue ?_ hmust hlt
    have hlength := congrArg List.length (hafter.symm.trans hlow)
    rw [List.length_map, List.length_map] at hlength
    have hsuffix : after <:+ queue t := ⟨before, hqueue.symm⟩
    have hdrop : (queue t).drop n = after :=
      ((List.suffix_of_suffix_length_le (List.drop_suffix n _) hsuffix
        (Nat.le_of_eq hlength.symm)).eq_of_length hlength.symm)
    show e'.queue t = _
    rw [hhigh, hdrop]

/-- **The bids survive**: whatever the threads do to the files and however their calls to the
kernel interleave, `bids.dat` holds the bids that were there and those appended, in this order and
each as it was but for `is_winning`; and where a thread has closed an auction, every bid of the
winner on it that was there from the beginning is marked. -/
theorem bids_marked [Fintype ι] (other : System O ι υ) (auctionId bidderId : UInt32) (fuel : Nat)
    (d : Disk FileName) (u : υ) (l : Records recordSize) (taken : Finset Nat)
    (queue : ι → List (Prog (FileSig.sum O) Unit))
    (e : Config ((PosixSig FileName).sum O) ι (SharedDisk ι FileName × υ))
    (hbegins : Begins d l taken (Fintype.card ι))
    (hprogs : ∀ t, ∀ p ∈ queue t, CoveredBy (fun path => (d.content path).isSome) p)
    (h : Reach (fileSystem other)
      (.start (⟨d, fun _ => none⟩, u) fun t => (queue t).map (Prog.subst kernelCalls)) e) :
    ∃ e', Reach (recordSystem other).logged
        (.start ((l, u), []) fun t => (queue t).map (Prog.subst recordAccesses)) e' ∧
      Marked .bids winMark (winningMark auctionId bidderId)
        (fun op => op = .markWinningBids auctionId bidderId fuel) fuel l queue e e'.shared := by
  refine marked_of_reach .bids (fun op hop => ?_) (fun op hop => ?_) hbegins hprogs h
  · cases op <;> simp only [FileOp.overwrites, Option.some.injEq, reduceCtorEq] at hop
    exact tame_pass .bids (puts_winningMark _ _) _
  · subst hop
    exact ends_pass .bids (puts_winningMark _ _) _

/-- A bid that is appended during the pass over the one of the winner, which is marked. -/
theorem bids_marked_closeAndBid : ∃ final, closeAndBidEnd.shared.1.disk.bytes .bids = pack final ∧
    final[0]? = some (winMark.put wonBid) := by
  obtain ⟨e', -, h⟩ := bids_marked noSystem 1 7 3 oneBidDisk () oneBid {0} closeAndBid
    closeAndBidEnd begins_oneBid covered_closeAndBid (Run.after _)
  have hlength := congrArg List.length (h.bytes .bids)
  have hbytes : (closeAndBidEnd.shared.1.disk.bytes .bids).length = 80 := by decide +kernel
  rw [length_pack, hbytes] at hlength
  have htwo : 2 * 40 = (e'.shared.1.1 .bids).length * 40 := hlength
  refine ⟨_, h.bytes .bids, h.marked true [callOf (.markWinningBids 1 7 3)] []
    (by decide +kernel) rfl ?_ ⟨_, List.mem_singleton_self _, .inl rfl⟩
    (by omega) 0 wonBid
    (by decide) rfl (by decide +kernel)⟩
  have hqueue : closeAndBidEnd.queue true = [] := by decide +kernel
  exact hqueue

/-- The feedback survives, and where a moderator has viewed it, none is unreviewed of what was
there from the beginning. -/
theorem feedback_marked [Fintype ι] (other : System O ι υ) (fuel : Nat) (d : Disk FileName) (u : υ)
    (l : Records recordSize) (taken : Finset Nat) (queue : ι → List (Prog (FileSig.sum O) Unit))
    (e : Config ((PosixSig FileName).sum O) ι (SharedDisk ι FileName × υ))
    (hbegins : Begins d l taken (Fintype.card ι))
    (hprogs : ∀ t, ∀ p ∈ queue t, CoveredBy (fun path => (d.content path).isSome) p)
    (h : Reach (fileSystem other)
      (.start (⟨d, fun _ => none⟩, u) fun t => (queue t).map (Prog.subst kernelCalls)) e) :
    ∃ e', Reach (recordSystem other).logged
        (.start ((l, u), []) fun t => (queue t).map (Prog.subst recordAccesses)) e' ∧
      Marked .feedback seenMark reviewedMark (fun op => op = .markFeedbackReviewed fuel) fuel l
        queue e e'.shared := by
  refine marked_of_reach .feedback (fun op hop => ?_) (fun op hop => ?_) hbegins hprogs h
  · cases op <;> simp only [FileOp.overwrites, Option.some.injEq, reduceCtorEq] at hop
    exact tame_pass .feedback puts_reviewedMark _
  · subst hop
    exact ends_pass .feedback puts_reviewedMark _

end Runs

end OnlineAuction
