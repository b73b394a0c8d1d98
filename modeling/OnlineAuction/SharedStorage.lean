import OnlineAuction.FileCalls
import OnlineAuction.Lib.SharedFiles

/-!
# OnlineAuction.SharedStorage

The functions of `FileCalls` called by many threads at once.

The mutexes of `file_io.h` keep apart only functions of one translation unit, and a lock of `fcntl`
belongs to the process, so here the calls to the kernel of the threads interleave in any way.  A
function that addresses a record, appends one or takes the next identifier is nevertheless one
step, and a loop is one step for each record that it reads or writes back (`FileOp.accesses`).
-/

namespace OnlineAuction

open Posix FileCalls

/-! ## the functions as accesses to records -/

/-- The sizes of the records. -/
abbrev recordSize : FileName → Nat
  | .users => userSize
  | .auctions => auctionSize
  | .bids => bidSize
  | .sessions => sessionSize
  | .feedback => feedbackSize
  | .disputes => disputeSize

/-- The functions; a loop comes with how many turns it may take. -/
inductive FileOp
  | readUser (userId : UInt32)
  | writeUser (u : CharArray userSize)
  | findUserByUsername (username : List UInt8) (fuel : Nat)
  | nextUserId
  | readAuction (auctionId : UInt32)
  | writeAuction (a : CharArray auctionSize)
  | nextAuctionId
  | appendBid (b : CharArray bidSize)
  | nextBidId
  | findSessionSlot (userId : UInt32) (fuel : Nat)
  | findFreeSlot (fuel : Nat)
  | writeSession (slot : Nat) (s : CharArray sessionSize)
  | appendFeedback (f : CharArray feedbackSize)
  | nextFeedbackId
  | readDispute (disputeId : UInt32)
  | writeDispute (d : CharArray disputeSize)
  | nextDisputeId
  | collect (path : FileName) (cap : Nat) (matching : CharArray (recordSize path) → Bool)
      (fuel : Nat)
  | countFile (path : FileName) (matching : CharArray (recordSize path) → Bool) (fuel : Nat)
  | anyInFile (path : FileName) (matching : CharArray (recordSize path) → Bool) (fuel : Nat)
  | markWinningBids (auctionId bidderId : UInt32) (fuel : Nat)
  | markFeedbackReviewed (fuel : Nat)

namespace FileOp

/-- The answers; none for a loop that has not ended. -/
abbrev Res : FileOp → Type
  | readUser _ => Option (CharArray userSize)
  | findUserByUsername _ _ => Option (Option (CharArray userSize))
  | readAuction _ => Option (CharArray auctionSize)
  | readDispute _ => Option (CharArray disputeSize)
  | nextUserId | nextAuctionId | nextBidId | nextFeedbackId | nextDisputeId => UInt32
  | findSessionSlot _ _ | findFreeSlot _ => Option Int
  | collect path _ _ _ => Option (Option (List (CharArray (recordSize path))))
  | countFile _ _ _ | markWinningBids _ _ _ | markFeedbackReviewed _ => Option Nat
  | anyInFile _ _ _ => Option Bool
  | writeUser _ | writeAuction _ | appendBid _ | writeSession _ _ | appendFeedback _
  | writeDispute _ => Int

/-- The calls to the kernel that a function makes. -/
def calls : (op : FileOp) → FileProg op.Res
  | readUser userId => FileCalls.readUser userId
  | writeUser u => FileCalls.writeUser u
  | findUserByUsername username fuel => FileCalls.findUserByUsername username fuel
  | nextUserId => FileCalls.nextUserId
  | readAuction auctionId => FileCalls.readAuction auctionId
  | writeAuction a => FileCalls.writeAuction a
  | nextAuctionId => FileCalls.nextAuctionId
  | appendBid b => FileCalls.appendBid b
  | nextBidId => FileCalls.nextBidId
  | findSessionSlot userId fuel => FileCalls.findSessionSlot userId fuel
  | findFreeSlot fuel => FileCalls.findFreeSlot fuel
  | writeSession slot s => FileCalls.writeSession slot s
  | appendFeedback f => FileCalls.appendFeedback f
  | nextFeedbackId => FileCalls.nextFeedbackId
  | readDispute disputeId => FileCalls.readDispute disputeId
  | writeDispute d => FileCalls.writeDispute d
  | nextDisputeId => FileCalls.nextDisputeId
  | collect path cap matching fuel => FileCalls.collect path cap matching id fuel
  | countFile path matching fuel => FileCalls.countFile path matching fuel
  | anyInFile path matching fuel => FileCalls.anyInFile path matching fuel
  | markWinningBids auctionId bidderId fuel => FileCalls.markWinningBids auctionId bidderId fuel
  | markFeedbackReviewed fuel => FileCalls.markFeedbackReviewed fuel

/-- Programs that access records. -/
abbrev RecordProg (α : Type) : Type := Prog (RecordSig recordSize) α

/-- One record is written. -/
def writes (path : FileName) (i : Nat) (x : CharArray (recordSize path)) : RecordProg Int :=
  .call (.writeAt path i x) fun _ => .pure 0

def appends (path : FileName) (x : CharArray (recordSize path)) : RecordProg Int :=
  .call (.append path x) fun _ => .pure 0

/-- The next identifier by the number of records. -/
def counts (path : FileName) : RecordProg UInt32 :=
  .call (.count path) fun (n : Nat) => .pure (UInt32.ofNat n + 1)

/-- The accesses to records that a function makes. -/
def accesses : (op : FileOp) → RecordProg op.Res
  | readUser userId => .call (.readAt .users (recPos userId)) .pure
  | writeUser u => writes .users (recPos (uint32 (UserField.userId.get u))) u
  | findUserByUsername username fuel =>
      recordScan .users (fun _ => true)
        (fun found tmp => if named username tmp then (false, some tmp) else (true, found)) fuel none
  | nextUserId => counts .users
  | readAuction auctionId => .call (.readAt .auctions (recPos auctionId)) .pure
  | writeAuction a => writes .auctions (recPos (uint32 (AuctionField.auctionId.get a))) a
  | nextAuctionId => counts .auctions
  | appendBid b => appends .bids b
  | nextBidId => counts .bids
  | findSessionSlot userId fuel => do
      let s ← recordScan .sessions (fun _ => true) (slotNext (activeOf userId)) fuel
        ((0, -1) : Int × Int)
      return s.map Prod.snd
  | findFreeSlot fuel => do
      let s ← recordScan .sessions (fun s => decide (s.1 < ((maxSessions : Nat) : Int)))
        (slotNext fun x => !active x) fuel ((0, -1) : Int × Int)
      return s.map fun (slot, found) =>
        if 0 ≤ found then found else if slot < ((maxSessions : Nat) : Int) then slot else -1
  | writeSession slot s => writes .sessions slot s
  | appendFeedback f => appends .feedback f
  | nextFeedbackId => counts .feedback
  | readDispute disputeId => .call (.readAt .disputes (recPos disputeId)) .pure
  | writeDispute d => writes .disputes (recPos (uint32 (DisputeField.disputeId.get d))) d
  | nextDisputeId => counts .disputes
  | collect path cap matching fuel =>
      recordScan path (fun _ => true) (fun list x =>
        if (list.getD []).length < cap then
          (true, some (if matching x then list.getD [] ++ [x] else list.getD []))
        else (false, list)) fuel (some [])
  | countFile path matching fuel =>
      recordScan path (fun _ => true)
        (fun count x => (true, if matching x then count + 1 else count)) fuel 0
  | anyInFile path matching fuel =>
      recordScan path (fun _ => true) (fun _ x => (!matching x, matching x)) fuel false
  | markWinningBids auctionId bidderId fuel =>
      recordPass .bids (winningMark auctionId bidderId) fuel
  | markFeedbackReviewed fuel => recordPass .feedback reviewedMark fuel

/-- A function that can tell a file that is not there from one without records finds it there;
the other loops can take a turn. -/
def Covered (there : FileName → Prop) : FileOp → Prop
  | collect path _ _ _ => there path
  | nextFeedbackId => there .feedback
  | findUserByUsername _ fuel | findSessionSlot _ fuel | countFile _ _ fuel | anyInFile _ _ fuel
  | markWinningBids _ _ fuel | markFeedbackReviewed fuel => 0 < fuel
  | _ => True

end FileOp

/-! ## one function -/

section Functions

variable {ι υ : Type} [DecidableEq ι] [Fintype ι] {O : Sig} {W : Sharing O ι FileName υ}
  {c₀ : Config ((RecordSig recordSize).sum O) ι (Records recordSize × υ)} {t : ι}
  {path : FileName} (hroom : W.taken.card + Fintype.card ι ≤ W.descriptors)

theorem recordSize_pos (path : FileName) : 0 < recordSize path := by
  cases path <;> decide

omit [Fintype ι] in
/-- The record at the offset is read. -/
theorem does_readRest (path : FileName) (fd i : Nat) :
    W.Does c₀ t (Owns t fd ⟨path, rdonly, i * recordSize path⟩) (.call (.readAt path i) .pure)
      (do
        let r ← readFile fd (recordSize path)
        let _ ← closeFile fd
        return whole (recordSize path) r)
      fun a b s => a = b ∧ HasNone t s := by
  refine Sharing.does_bind (Sharing.does_read recordSize_pos rfl i) fun a r => .assume fun hr => ?_
  subst hr
  refine .conseq ?_ (fun _ h => h.2) fun _ _ _ => id
  refine .exists fun offset => Sharing.does_before Sharing.does_close fun _ => ?_
  exact Sharing.does_pure fun _ hn => ⟨rfl, hn⟩

omit [Fintype ι] in
/-- The record at the offset is written. -/
theorem does_writeRest (path : FileName) (fd i : Nat) (x : CharArray (recordSize path)) :
    W.Does c₀ t (Owns t fd ⟨path, openRw, i * recordSize path⟩) (FileOp.writes path i x)
      (do
        let w ← writeFile fd x.val
        let _ ← closeFile fd
        return if w = recordSize path then 0 else -1)
      fun a b s => a = b ∧ HasNone t s := by
  refine Sharing.does_bind (Sharing.does_write ⟨rfl, rfl⟩ i x) fun a w => .assume fun hw => ?_
  rw [if_pos hw]
  exact Sharing.does_before Sharing.does_close fun _ => Sharing.does_pure fun _ hn => ⟨rfl, hn⟩

include hroom

/-- A record is read. -/
theorem does_readRecord (path : FileName) (i : Nat) :
    W.Does c₀ t (HasNone t) (.call (.readAt path i) .pure)
      (readRecord path (recordSize path) (i * recordSize path))
      fun a b s => a = b ∧ HasNone t s := by
  refine Sharing.does_openMaybe hroom recordSize_pos rfl (fun fd => ?_) fun l hl => ⟨rfl, ?_⟩
  · have hfd : ¬ ((fd : Int) < 0) := by omega
    rw [if_neg hfd]
    exact Sharing.does_before (Sharing.does_lseek _) fun pos => .assume fun _ =>
      does_readRest path fd i
  · have hnone : (RecordCall.exec (.readAt path i) l).1 = none := by
      simp [RecordCall.exec, hl]
    rw [hnone]
    exact Sharing.does_pure fun _ hn => ⟨rfl, hn⟩

/-- `read_user` looks at the answer of `lseek`. -/
theorem does_readUser (userId : UInt32) :
    W.Does c₀ t (HasNone t) (FileOp.readUser userId).accesses (FileOp.readUser userId).calls
      fun a b s => a = b ∧ HasNone t s := by
  refine Sharing.does_openMaybe hroom recordSize_pos (o := .readAt FileName.users (recPos userId))
    rfl (fun fd => ?_) fun l hl => ⟨rfl, ?_⟩
  · have hfd : ¬ ((fd : Int) < 0) := by omega
    rw [if_neg hfd]
    refine Sharing.does_before (Sharing.does_lseek _) fun pos => .assume fun hpos => ?_
    have hpos : ¬ (pos < 0) := by omega
    rw [if_neg hpos]
    exact does_readRest .users fd (recPos userId)
  · have hnone : (RecordCall.exec (.readAt .users (recPos userId)) l).1 = none := by
      simp [RecordCall.exec, hl]
    rw [hnone]
    exact Sharing.does_pure fun _ hn => ⟨rfl, hn⟩

/-- A program that opens its file first. -/
theorem does_opened {α β : Type} {p : Prog (RecordSig recordSize) α} {flags : OpenFlags}
    {failed : FileProg β} {body : Int → FileProg β} {R : α → β → SharedDisk ι FileName × υ → Prop}
    (htrunc : flags.trunc = false) (hopens : W.there path ∨ flags.creat = true)
    (h : ∀ fd : Nat, W.Does c₀ t (Owns t fd ⟨path, flags, 0⟩) p (body fd) R) :
    W.Does c₀ t (HasNone t) p
      (openFile path flags >>= fun fd => if fd < 0 then failed else body fd) R := by
  refine Sharing.does_before (Sharing.does_open hroom htrunc hopens) fun r => ?_
  refine .exists fun fd => .assume fun hr => ?_
  have hfd : ¬ ((fd : Int) < 0) := by omega
  rw [hr, if_neg hfd]
  exact h fd

/-- A record is written. -/
theorem does_writeRecord (path : FileName) (i : Nat) (x : CharArray (recordSize path)) :
    W.Does c₀ t (HasNone t) (FileOp.writes path i x) (writeRecord path (i * recordSize path) x)
      fun a b s => a = b ∧ HasNone t s :=
  does_opened hroom rfl (.inr rfl) fun fd =>
    Sharing.does_before (Sharing.does_lseek _) fun _ => .assume fun _ =>
      does_writeRest path fd i x

/-- `write_user` looks at the answer of `lseek`. -/
theorem does_writeUser (u : CharArray userSize) :
    W.Does c₀ t (HasNone t) (FileOp.writeUser u).accesses (FileOp.writeUser u).calls
      fun a b s => a = b ∧ HasNone t s := by
  refine does_opened hroom rfl (.inr rfl) fun fd => ?_
  refine Sharing.does_before (Sharing.does_lseek _) fun pos => .assume fun hpos => ?_
  have hpos : ¬ (pos < 0) := by omega
  rw [if_neg hpos]
  exact does_writeRest .users fd _ u

/-- A record is appended. -/
theorem does_appendRecord (path : FileName) (x : CharArray (recordSize path)) :
    W.Does c₀ t (HasNone t) (FileOp.appends path x) (appendRecord path x)
      fun a b s => a = b ∧ HasNone t s := by
  refine does_opened hroom rfl (.inr rfl) fun fd => ?_
  refine Sharing.does_bind (Sharing.does_append ⟨rfl, rfl⟩ x) fun a w => .assume fun hw => ?_
  rw [if_pos hw]
  refine .exists fun offset => Sharing.does_before Sharing.does_close fun _ => ?_
  exact Sharing.does_pure fun _ hn => ⟨rfl, hn⟩

/-- The next identifier is the number of records at one moment. -/
theorem does_nextId (path : FileName) :
    W.Does c₀ t (HasNone t) (FileOp.counts path) (nextId path (recordSize path))
      fun a b s => a = b ∧ HasNone t s := by
  refine Sharing.does_openMaybe hroom recordSize_pos rfl (fun fd => ?_) fun l hl => ⟨rfl, ?_⟩
  · have hfd : ¬ ((fd : Int) < 0) := by omega
    rw [if_neg hfd]
    refine Sharing.does_bind (p := .call (.count path) .pure)
      (Sharing.does_measure (f := ⟨path, rdonly, 0⟩)) fun (count : Nat) bytes =>
        .assume fun hbytes => ?_
    have hid : (if bytes ≤ 0 then 1 else UInt32.ofNat (bytes.toNat / recordSize path) + 1) =
        UInt32.ofNat count + 1 := by
      rw [hbytes, Int.toNat_natCast, Nat.mul_div_cancel _ (recordSize_pos path)]
      split
      · next hle =>
          have hnone : count * recordSize path = 0 :=
            Nat.le_zero.mp (Int.ofNat_le.mp hle)
          have hzero : count = 0 := (Nat.mul_eq_zero.mp hnone).resolve_right
            (Nat.pos_iff_ne_zero.mp (recordSize_pos path))
          rw [hzero]
          rfl
      · rfl
    refine .exists fun offset => Sharing.does_before Sharing.does_close fun _ => ?_
    exact Sharing.does_pure fun _ hn => ⟨hid.symm, hn⟩
  · have hzero : (RecordCall.exec (.count path) l).1 = (0 : Nat) := by
      simp [RecordCall.exec, hl]
    rw [hzero]
    exact Sharing.does_pure fun _ hn => ⟨rfl, hn⟩

/-- The identifier that `handle_submit_feedback` computes, if the file is there. -/
theorem does_nextFeedbackId (hthere : W.there .feedback) :
    W.Does c₀ t (HasNone t) FileOp.nextFeedbackId.accesses FileOp.nextFeedbackId.calls
      fun a b s => a = b ∧ HasNone t s := by
  refine does_opened hroom rfl (.inl hthere) fun fd => ?_
  refine Sharing.does_bind (p := .call (.count FileName.feedback) .pure)
    (Sharing.does_measure (f := ⟨FileName.feedback, rdonly, 0⟩)) fun (count : Nat) bytes =>
      .assume fun hbytes => ?_
  refine .exists fun offset => Sharing.does_before Sharing.does_close fun _ => ?_
  refine Sharing.does_pure fun _ hn => ⟨?_, hn⟩
  rw [hbytes, Int.toNat_natCast, Nat.mul_div_cancel _ (by decide)]

end Functions

/-! ## loops -/

section Loops

variable {ι υ σ : Type} [DecidableEq ι] {O : Sig} {W : Sharing O ι FileName υ}
  {c₀ : Config ((RecordSig recordSize).sum O) ι (Records recordSize × υ)} {t : ι}
  {path : FileName} {flags : OpenFlags} {guard : σ → Bool} {failed init : σ}
  {body : Nat → σ → CharArray (recordSize path) → FileOp.RecordProg (Bool × σ)}
  {body' : Int → σ → CharArray (recordSize path) → FileProg (Bool × σ)} {ok : Nat → σ → Prop}
  {fuel : Nat}

/-- The bodies of a loop do the same with the record that was read. -/
def BodyDoes (W : Sharing O ι FileName υ)
    (c₀ : Config ((RecordSig recordSize).sum O) ι (Records recordSize × υ)) (t : ι)
    (path : FileName) (flags : OpenFlags)
    (body : Nat → σ → CharArray (recordSize path) → FileOp.RecordProg (Bool × σ))
    (body' : Int → σ → CharArray (recordSize path) → FileProg (Bool × σ))
    (ok : Nat → σ → Prop) : Prop :=
  ∀ (fd : Nat) i s x, ok i s →
    W.Does c₀ t (Owns t fd ⟨path, flags, (i + 1) * recordSize path⟩) (body i s x) (body' fd s x)
      fun a b st => (a = b ∧ ok (i + 1) b.2) ∧
        Owns t fd ⟨path, flags, (i + 1) * recordSize path⟩ st

/-- The file of a loop that has been opened. -/
theorem does_scanRest (guard : σ → Bool) (fuel : Nat) (hread : flags.read = true)
    (hbody : BodyDoes W c₀ t path flags body body' ok)
    (hok : ok 0 init) (fd : Nat) :
    W.Does c₀ t (Owns t fd ⟨path, flags, 0⟩) (recordLoop path guard body fuel 0 init)
      (do
        let s ← readLoop fd guard (body' fd) fuel init
        let _ ← closeFile fd
        return s)
      fun a b s => a = b ∧ HasNone t s := by
  have hloop := Sharing.does_readLoop guard recordSize_pos hread (hbody fd) fuel 0 init hok
  rw [Nat.zero_mul] at hloop
  rw [← Prog.bind_pure_right (recordLoop path guard body fuel 0 init)]
  refine Sharing.does_bind hloop fun a b => .assume fun hab => ?_
  refine .exists fun offset => Sharing.does_before Sharing.does_close fun _ => ?_
  exact Sharing.does_pure fun _ hn => ⟨hab, hn⟩

variable [Fintype ι] (hroom : W.taken.card + Fintype.card ι ≤ W.descriptors)

include hroom

/-- **A loop over a file**; one that leaves with what it began with need not find the file. -/
theorem does_scanFile (ok : Nat → σ → Prop) (hread : flags.read = true)
    (htrunc : flags.trunc = false)
    (hbody : BodyDoes W c₀ t path flags body body' ok) (hok : ok 0 init)
    (hopens : (W.there path ∨ flags.creat = true) ∨
      failed = init ∧ guard init = true ∧ 0 < fuel) :
    W.Does c₀ t (HasNone t) (recordLoop path guard body fuel 0 init)
      (scanFile path flags failed guard body' fuel init) fun a b s => a = b ∧ HasNone t s := by
  rcases hopens with hopens | ⟨rfl, hguard, hfuel⟩
  · exact does_opened hroom htrunc hopens (does_scanRest guard fuel hread hbody hok)
  · obtain ⟨fuel, rfl⟩ : ∃ n, fuel = n + 1 := ⟨fuel - 1, by omega⟩
    have hrest (fd : Nat) := does_scanRest guard (fuel + 1) hread hbody hok fd
    rw [recordLoop, if_pos hguard] at hrest ⊢
    refine Sharing.does_openMaybe hroom recordSize_pos htrunc (fun fd => ?_)
      fun l hl => ⟨rfl, ?_⟩
    · have hfd : ¬ ((fd : Int) < 0) := by omega
      rw [if_neg hfd]
      exact hrest fd
    · have hnone : (RecordCall.exec (.readAt path 0) l).1 = none := by
        simp [RecordCall.exec, hl]
      rw [hnone]
      exact Sharing.does_pure fun _ hn => ⟨rfl, hn⟩

/-- A loop that only reads. -/
theorem does_recordScan (next : σ → CharArray (recordSize path) → Bool × σ)
    (hread : flags.read = true) (htrunc : flags.trunc = false)
    (hopens : (W.there path ∨ flags.creat = true) ∨
      failed = init ∧ guard init = true ∧ 0 < fuel) :
    W.Does c₀ t (HasNone t) (recordScan path guard next fuel init)
      (scanFile path flags failed guard (fun _ s x => return next s x) fuel init)
      fun a b s => a = b ∧ HasNone t s :=
  does_scanFile hroom (fun _ _ => True) hread htrunc
    (fun _ _ _ _ _ => Sharing.does_pure fun _ ho => ⟨⟨rfl, trivial⟩, ho⟩) trivial hopens

/-- **A pass that writes back** reads a record and writes it, in two steps. -/
theorem does_recordPass (path : FileName)
    (change : CharArray (recordSize path) → Option (CharArray (recordSize path)))
    (hfuel : 0 < fuel) :
    W.Does c₀ t (HasNone t) (recordPass path change fuel) (updateFile path change fuel)
      fun a b s => a = b ∧ HasNone t s := by
  refine does_scanFile hroom (fun i offset => offset = i * recordSize path) rfl rfl ?_
    (Nat.zero_mul _).symm (.inr ⟨rfl, rfl, hfuel⟩)
  intro fd i offset x hoffset
  have hnext : offset + recordSize path = (i + 1) * recordSize path := by
    rw [hoffset, Nat.succ_mul]
  subst hoffset
  rw [writeBackAt, writeBack]
  cases change x with
  | none => exact Sharing.does_pure fun _ ho => ⟨⟨rfl, hnext⟩, ho⟩
  | some y =>
      refine Sharing.does_before (Sharing.does_lseek _) fun _ => .assume fun _ => ?_
      refine Sharing.does_bind (p := .call (.writeAt path i y) .pure)
        (Sharing.does_write ⟨rfl, rfl⟩ i y) fun _ _ => .assume fun _ => ?_
      exact Sharing.does_pure fun _ ho => ⟨⟨rfl, hnext⟩, ho⟩

/-- **The functions of the server**: in any company, their calls to the kernel are their accesses
to records. -/
theorem does_fileOp (op : FileOp) (hop : op.Covered W.there) :
    W.Does c₀ t (HasNone t) op.accesses op.calls fun a b s => a = b ∧ HasNone t s := by
  cases op with
  | readUser userId => exact does_readUser hroom userId
  | writeUser u => exact does_writeUser hroom u
  | readAuction id => exact does_readRecord hroom .auctions (recPos id)
  | readDispute id => exact does_readRecord hroom .disputes (recPos id)
  | writeAuction a => exact does_writeRecord hroom .auctions _ a
  | writeDispute d => exact does_writeRecord hroom .disputes _ d
  | writeSession slot s => exact does_writeRecord hroom .sessions slot s
  | appendBid b => exact does_appendRecord hroom .bids b
  | appendFeedback f => exact does_appendRecord hroom .feedback f
  | nextUserId => exact does_nextId hroom .users
  | nextAuctionId => exact does_nextId hroom .auctions
  | nextBidId => exact does_nextId hroom .bids
  | nextDisputeId => exact does_nextId hroom .disputes
  | nextFeedbackId => exact does_nextFeedbackId hroom hop
  | findUserByUsername username fuel =>
      exact does_recordScan hroom _ rfl rfl (.inr ⟨rfl, rfl, hop⟩)
  | collect path cap matching fuel => exact does_recordScan hroom _ rfl rfl (.inl (.inl hop))
  | countFile path matching fuel => exact does_recordScan hroom _ rfl rfl (.inr ⟨rfl, rfl, hop⟩)
  | anyInFile path matching fuel => exact does_recordScan hroom _ rfl rfl (.inr ⟨rfl, rfl, hop⟩)
  | findSessionSlot userId fuel =>
      refine Sharing.does_bind (does_recordScan hroom _ rfl rfl (.inr ⟨rfl, rfl, hop⟩)) fun a b =>
        .assume fun hab => ?_
      exact Sharing.does_pure fun _ hn => ⟨by rw [hab], hn⟩
  | findFreeSlot fuel =>
      refine Sharing.does_bind (does_recordScan hroom _ rfl rfl (.inl (.inr rfl))) fun a b =>
        .assume fun hab => ?_
      exact Sharing.does_pure fun _ hn => ⟨by rw [hab], hn⟩
  | markWinningBids auctionId bidderId fuel => exact does_recordPass hroom .bids _ hop
  | markFeedbackReviewed fuel => exact does_recordPass hroom .feedback _ hop

end Loops

/-! ## threads -/

/-- The signature of the functions. -/
abbrev FileSig : Sig := ⟨FileOp, FileOp.Res⟩

section Threads

variable {ι υ : Type} [DecidableEq ι] {O : Sig}

/-- What a thread does to the kernel and besides. -/
def kernelCalls :
    (o : (FileSig.sum O).Op) → Prog ((PosixSig FileName).sum O) ((FileSig.sum O).Res o)
  | .inl op => op.calls.inl
  | .inr o => .call (.inr o) .pure

/-- What it does to records and besides. -/
def recordAccesses :
    (o : (FileSig.sum O).Op) → Prog ((RecordSig recordSize).sum O) ((FileSig.sum O).Res o)
  | .inl op => op.accesses.inl
  | .inr o => .call (.inr o) .pure

/-- A function can do without the files that are not there. -/
def CallCovered (there : FileName → Prop) : (FileSig.sum O).Op → Prop
  | .inl op => op.Covered there
  | .inr _ => True

/-- Each function that a program calls can. -/
abbrev CoveredBy (there : FileName → Prop) (p : Prog (FileSig.sum O) Unit) : Prop :=
  p.Respects (CallCovered there) (fun _ _ => True) fun _ => True

/-- A server that has begun with these programs, over its files and over their records. -/
structure Corresponds (queue : ι → List (Prog (FileSig.sum O) Unit)) (taken : Finset Nat)
    (e : Config ((PosixSig FileName).sum O) ι (SharedDisk ι FileName × υ))
    (e' : Config ((RecordSig recordSize).sum O) ι (Records recordSize × υ)) : Prop where
  bytes : ∀ path, e.shared.1.disk.bytes path = pack (e'.shared.1 path)
  other : e.shared.2 = e'.shared.2
  quiet : ∀ t, e.prog t = .pure () → e'.prog t = .pure () ∧
    ∃ n, e.queue t = ((queue t).drop n).map (Prog.subst kernelCalls) ∧
      e'.queue t = ((queue t).drop n).map (Prog.subst recordAccesses)
  closed : (∀ t, e.prog t = .pure ()) → ∀ fd f, e.shared.1.disk.table[fd]? = some (some f) →
    fd ∈ taken

/-- A server that has not begun. -/
structure Begins (d : Disk FileName) (l : Records recordSize) (taken : Finset Nat) (threads : Nat) :
    Prop where
  bytes : ∀ path, d.bytes path = pack (l path)
  accepts : d.accepts = []
  known : ∀ fd f, d.table[fd]? = some (some f) → fd ∈ taken
  room : taken.card + threads ≤ d.table.length

/-- **Atomicity of the file functions**: whatever their threads do and however their calls to the
kernel interleave, the server does what it would do if every access to a record were one step; the
files are these records, and no descriptor stays open. -/
theorem fileFunctions_atomic [Fintype ι] (other : System O ι υ) (d : Disk FileName) (u : υ)
    (l : Records recordSize) (taken : Finset Nat) (queue : ι → List (Prog (FileSig.sum O) Unit))
    (e : Config ((PosixSig FileName).sum O) ι (SharedDisk ι FileName × υ))
    (hbegins : Begins d l taken (Fintype.card ι))
    (hprogs : ∀ t, ∀ p ∈ queue t, CoveredBy (fun path => (d.content path).isSome) p)
    (h : Reach (fileSystem other)
      (.start (⟨d, fun _ => none⟩, u) fun t => (queue t).map (Prog.subst kernelCalls)) e) :
    ∃ e', Reach (recordSystem other)
        (.start (l, u) fun t => (queue t).map (Prog.subst recordAccesses)) e' ∧
      Corresponds queue taken e e' := by
  let W : Sharing O ι FileName υ :=
    ⟨other, fun path => (d.content path).isSome, taken, d.table.length⟩
  have hcalls (t : ι) (p : Prog (FileSig.sum O) Unit) (hp : p ∈ queue t) :
      (W.files recordSize).Refines
        (.start (l, u) fun t => (queue t).map (Prog.subst recordAccesses)) t (HasNone t)
        (p.subst recordAccesses) (p.subst kernelCalls) fun a b s => a = b ∧ HasNone t s := by
    refine Coupling.Refines.subst (fun o ho => ?_) (hprogs t p hp)
    cases o with
    | inl op => exact does_fileOp hbegins.room op ho
    | inr o => exact Sharing.refines_other o
  have hmatching : Matching W (⟨d, fun _ => none⟩, u) (l, u) :=
    ⟨hbegins.bytes, fun _ => id, hbegins.accepts,
      ⟨rfl, fun _ _ hheld => (Option.some_ne_none _ hheld.symm).elim,
        fun _ _ _ hheld => (Option.some_ne_none _ hheld.symm).elim,
        fun fd f hf => .inl (hbegins.known fd f hf)⟩, rfl⟩
  obtain ⟨e', hreach, hrel, hquiet⟩ := Coupling.run_refines (C := W.files recordSize)
    (I := fun t => HasNone t) (fun _ => stays_hasNone)
    (fun t => List.forall₂_map_left_iff.mpr (List.forall₂_map_right_iff.mpr
      (List.forall₂_same.mpr fun p hp => (hcalls t p hp).conseq (fun _ => id) fun _ _ _ h => h.2)))
    (fun s x s' hm henv => ⟨⟨(x.1, s'.2), ⟨rfl, hm.other ▸ henv.2⟩,
      ⟨henv.1 ▸ hm.bytes, henv.1 ▸ hm.there, henv.1 ▸ hm.accepts, henv.1 ▸ hm.descriptors, rfl⟩⟩,
      fun t => ⟨henv.1 ▸ rfl, fun _ _ => henv.1 ▸ rfl⟩⟩)
    hmatching (fun _ => rfl) h
  refine ⟨e', hreach, hrel.bytes, hrel.other, fun t ht => ?_, fun hall fd f hf => ?_⟩
  · obtain ⟨hprog, -, n, hlow, hhigh⟩ := hquiet t ht
    exact ⟨hprog, n, by rw [hlow, List.map_drop], by rw [hhigh, List.map_drop]⟩
  · rcases hrel.descriptors.known fd f hf with hin | ⟨t, ht⟩
    · exact hin
    · obtain ⟨-, hnone, -⟩ := hquiet t (hall t)
      rw [hnone] at ht
      cases ht

end Threads

/-! ## two threads -/

/-- No calls besides those on files. -/
abbrev noCalls : Sig := ⟨Empty, Empty.elim⟩

def noSystem : System noCalls Bool Unit := ⟨fun _ o => o.elim, fun s s' => s' = s⟩

/-- A program of one call. -/
def callOf (op : FileOp) : Prog (FileSig.sum noCalls) Unit := .call (.inl op) fun _ => .pure ()

/-- A bid of the winner 7 on the auction 1. -/
def wonBid : CharArray bidSize :=
  BidField.bidderId.set (BidField.auctionId.set (.zero bidSize) (toLe 4 1)) (toLe 4 7)

def oneBid : Records recordSize
  | .bids => [wonBid]
  | _ => []

def oneBidDisk : Disk FileName where
  content path := some (pack (oneBid path))
  table := [some ⟨.users, rdonly, 0⟩, none, none]
  accepts := []

/-- A thread closes the auction while another appends a bid. -/
def closeAndBid : Bool → List (Prog (FileSig.sum noCalls) Unit)
  | true => [callOf (.markWinningBids 1 7 3)]
  | false => [callOf (.appendBid (.zero bidSize))]

/-- The bid is appended after the first record has been read. -/
def closeAndBidEnd :
    Config ((PosixSig FileName).sum noCalls) Bool (SharedDisk Bool FileName × Unit) :=
  (Config.start (⟨oneBidDisk, fun _ => none⟩, ())
    fun t => (closeAndBid t).map (Prog.subst kernelCalls)).after (fileSystem noSystem) anyStep
    [true, true, true, false, false, false, false, true, true, true, true, true, true]

theorem begins_oneBid : Begins oneBidDisk oneBid {0} (Fintype.card Bool) where
  bytes _ := rfl
  accepts := rfl
  known fd f hf := by
    match fd with
    | 0 => exact Finset.mem_singleton_self 0
    | 1 | 2 => cases hf
    | fd + 3 => cases hf
  room := by decide

theorem covered_closeAndBid (t : Bool) (p : Prog (FileSig.sum noCalls) Unit)
    (hp : p ∈ closeAndBid t) : CoveredBy (fun path => (oneBidDisk.content path).isSome) p := by
  cases t with
  | true =>
      obtain rfl := List.mem_singleton.mp hp
      exact ⟨(by decide : 0 < 3), fun _ _ => trivial⟩
  | false =>
      obtain rfl := List.mem_singleton.mp hp
      exact ⟨trivial, fun _ _ => trivial⟩

theorem fileFunctions_atomic_closeAndBid :
    ∃ e', Reach (recordSystem noSystem)
        (.start (oneBid, ()) fun t => (closeAndBid t).map (Prog.subst recordAccesses)) e' ∧
      Corresponds closeAndBid {0} closeAndBidEnd e' :=
  fileFunctions_atomic noSystem oneBidDisk () oneBid {0} closeAndBid closeAndBidEnd begins_oneBid
    covered_closeAndBid (Run.after _)

end OnlineAuction
