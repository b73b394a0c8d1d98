import OnlineAuction.FileIO
import OnlineAuction.Lib.RecordIO
import OnlineAuction.RecordBytes

/-!
# OnlineAuction.FileCalls

The functions of `common/file_io.h`, and the passes of the handlers over a file, as the calls of
`open`, `lseek`, `read`, `write` and `close` that they make.

The lemmas say what each does to a disk whose files are records: the functions that address a
record by its identifier are `readRec` and `writeRec`, those that append add a record at the end,
and the loops are passes over the list.  The descriptor is always closed.  A loop needs as much
fuel as there are records, and one turn more.
-/

namespace OnlineAuction.FileCalls

open Posix

/-- Programs over the files of the server. -/
abbrev FileProg (α : Type) : Type := Prog (PosixSig FileName) α

/-- `OPEN_RW` -/
abbrev openRw : OpenFlags := ⟨true, true, true, false, false⟩

/-- `OPEN_APP` -/
abbrev openApp : OpenFlags := ⟨true, true, true, true, false⟩

section Generic

variable {size : Nat}

/-- A record is written at an offset: `write_auction`, `write_dispute` and `write_session`. -/
def writeRecord (path : FileName) (offset : Nat) (x : CharArray size) : FileProg Int := do
  let fd ← openFile path openRw
  if fd < 0 then return -1
  else
    let _ ← lseek fd offset .set
    let w ← writeFile fd x.val
    let _ ← closeFile fd
    return if w = size then 0 else -1

/-- A record is read at an offset: `read_auction` and `read_dispute`. -/
def readRecord (path : FileName) (size offset : Nat) : FileProg (Option (CharArray size)) := do
  let fd ← openFile path rdonly
  if fd < 0 then return none
  else
    let _ ← lseek fd offset .set
    let r ← readFile fd size
    let _ ← closeFile fd
    return whole size r

/-- A record is appended: `append_bid` and `append_feedback`. -/
def appendRecord (path : FileName) (x : CharArray size) : FileProg Int := do
  let fd ← openFile path openApp
  if fd < 0 then return -1
  else
    let w ← writeFile fd x.val
    let _ ← closeFile fd
    return if w = size then 0 else -1

/-- The next identifier by the size of the file: `next_*_id`. -/
def nextId (path : FileName) (size : Nat) : FileProg UInt32 := do
  let fd ← openFile path rdonly
  if fd < 0 then return 1
  else
    let bytes ← lseek fd 0 .end
    let _ ← closeFile fd
    return if bytes ≤ 0 then 1 else UInt32.ofNat (bytes.toNat / size) + 1

/-- A loop over a file that is opened for it; `failed` where it cannot be opened. -/
def scanFile {σ : Type} (path : FileName) (flags : OpenFlags) (failed : σ) (guard : σ → Bool)
    (body : Int → σ → CharArray size → FileProg (Bool × σ)) (fuel : Nat) (init : σ) :
    FileProg (Option σ) := do
  let fd ← openFile path flags
  if fd < 0 then return some failed
  else
    let s ← readLoop fd guard (body fd) fuel init
    let _ ← closeFile fd
    return s

/-- `if (…) { …; lseek(fd, offset, SEEK_SET); write(fd, &x, sizeof(x)); } offset += sizeof(x);`,
where `change` gives what is written. -/
def writeBack (change : CharArray size → Option (CharArray size)) (fd : Int) (offset : Nat)
    (x : CharArray size) : FileProg (Bool × Nat) :=
  match change x with
  | some y => do
      let _ ← lseek fd offset .set
      let _ ← writeFile fd y.val
      return (true, offset + size)
  | none => return (true, offset + size)

/-- A pass that writes back the records that it changes. -/
def updateFile (path : FileName) (change : CharArray size → Option (CharArray size))
    (fuel : Nat) : FileProg (Option Nat) :=
  scanFile path rdwr 0 (fun _ => true) (writeBack change) fuel 0

end Generic

/-! ## `common/file_io.h` -/

/-- `write_user`, which looks at the answer of `lseek`. -/
def writeUser (u : CharArray userSize) : FileProg Int := do
  let fd ← openFile .users openRw
  if fd < 0 then return -1
  else
    let offset := recPos (uint32 (UserField.userId.get u)) * userSize
    let pos ← lseek fd offset .set
    if pos < 0 then
      let _ ← closeFile fd
      return -1
    else
      let written ← writeFile fd u.val
      let _ ← closeFile fd
      return if written = userSize then 0 else -1

/-- `read_user`, which looks at the answer of `lseek`. -/
def readUser (userId : UInt32) : FileProg (Option (CharArray userSize)) := do
  let fd ← openFile .users rdonly
  if fd < 0 then return none
  else
    let pos ← lseek fd (recPos userId * userSize : Nat) .set
    if pos < 0 then
      let _ ← closeFile fd
      return none
    else
      let r ← readFile fd userSize
      let _ ← closeFile fd
      return whole userSize r

/-- The test of `find_user_by_username` and of `handle_add_user`. -/
def named (username : List UInt8) (tmp : CharArray userSize) : Bool :=
  uint32 (UserField.isDeleted.get tmp) == 0 &&
    strncmpEq maxUsername (UserField.username.get tmp).val username

/-- `find_user_by_username` -/
def findUserByUsername (username : List UInt8) (fuel : Nat) :
    FileProg (Option (Option (CharArray userSize))) :=
  scanFile .users rdonly none (fun _ => true) (fun _ found tmp =>
    return if named username tmp then (false, some tmp) else (true, found)) fuel none

def nextUserId : FileProg UInt32 := nextId .users userSize

def writeAuction (a : CharArray auctionSize) : FileProg Int :=
  writeRecord .auctions (recPos (uint32 (AuctionField.auctionId.get a)) * auctionSize) a

def readAuction (auctionId : UInt32) : FileProg (Option (CharArray auctionSize)) :=
  readRecord .auctions auctionSize (recPos auctionId * auctionSize)

def nextAuctionId : FileProg UInt32 := nextId .auctions auctionSize

def appendBid (b : CharArray bidSize) : FileProg Int := appendRecord .bids b

def nextBidId : FileProg UInt32 := nextId .bids bidSize

def writeSession (slot : Nat) (s : CharArray sessionSize) : FileProg Int :=
  writeRecord .sessions (slot * sessionSize) s

/-- `s.is_active` -/
def active (s : CharArray sessionSize) : Bool := uint32 (SessionField.isActive.get s) != 0

/-- `if (…) { found = slot; break; } slot++;`, with the state `slot` and `found`. -/
def slotNext {size : Nat} (p : CharArray size → Bool) (s : Int × Int) (x : CharArray size) :
    Bool × (Int × Int) :=
  if p x then (false, s.1, s.1) else (true, s.1 + 1, s.2)

/-- The test of `find_session_slot`. -/
def activeOf (userId : UInt32) (s : CharArray sessionSize) : Bool :=
  active s && uint32 (SessionField.userId.get s) == userId

/-- `find_session_slot` -/
def findSessionSlot (userId : UInt32) (fuel : Nat) : FileProg (Option Int) := do
  let s ← scanFile .sessions rdonly ((0, -1) : Int × Int) (fun _ => true)
    (fun _ s x => return slotNext (activeOf userId) s x) fuel (0, -1)
  return s.map Prod.snd

/-- `find_free_slot`; where the file cannot be opened it answers 0. -/
def findFreeSlot (fuel : Nat) : FileProg (Option Int) := do
  let s ← scanFile .sessions openRw ((0, 0) : Int × Int)
    (fun s => decide (s.1 < ((maxSessions : Nat) : Int)))
    (fun _ s x => return slotNext (fun x => !active x) s x) fuel (0, -1)
  return s.map fun (slot, found) =>
    if 0 ≤ found then found else if slot < ((maxSessions : Nat) : Int) then slot else -1

def appendFeedback (f : CharArray feedbackSize) : FileProg Int := appendRecord .feedback f

def writeDispute (d : CharArray disputeSize) : FileProg Int :=
  writeRecord .disputes (recPos (uint32 (DisputeField.disputeId.get d)) * disputeSize) d

def readDispute (disputeId : UInt32) : FileProg (Option (CharArray disputeSize)) :=
  readRecord .disputes disputeSize (recPos disputeId * disputeSize)

def nextDisputeId : FileProg UInt32 := nextId .disputes disputeSize

/-! ## the passes of the handlers -/

/-- The identifier that `handle_submit_feedback` computes by itself. -/
def nextFeedbackId : FileProg UInt32 := do
  let fd ← openFile .feedback rdonly
  if fd < 0 then return 0
  else
    let sz ← lseek fd 0 .end
    let _ ← closeFile fd
    return UInt32.ofNat (sz.toNat / feedbackSize) + 1

/-- `while (read(fd, &x, sizeof(x)) == sizeof(x) && count < cap)`, with a list of what matches:
the loops of the handlers that answer with a list, and of the timer. -/
def collect {size : Nat} {α : Type} (path : FileName) (cap : Nat)
    (matching : CharArray size → Bool) (entry : CharArray size → α) (fuel : Nat) :
    FileProg (Option (Option (List α))) :=
  scanFile path rdonly none (fun _ => true) (fun _ list x =>
    return if (list.getD []).length < cap then
        (true, some (if matching x then list.getD [] ++ [entry x] else list.getD []))
      else (false, list)) fuel (some [])

/-- These loops, over the records that are left in the file. -/
def scanLoop {size : Nat} {α : Type} (cap : Nat) (matching : CharArray size → Bool)
    (entry : CharArray size → α) : List α → List (CharArray size) → List α
  | list, [] => list
  | list, x :: records =>
      if list.length < cap then
        scanLoop cap matching entry (if matching x then list ++ [entry x] else list) records
      else list

/-- All records of a file. -/
def readAll (path : FileName) (size fuel : Nat) :
    FileProg (Option (Option (List (CharArray size)))) :=
  scanFile path rdonly none (fun _ => true)
    (fun _ list x => return (true, some (list.getD [] ++ [x]))) fuel (some [])

/-- How many records match: the loop of `handle_change_role`. -/
def countFile {size : Nat} (path : FileName) (matching : CharArray size → Bool) (fuel : Nat) :
    FileProg (Option Nat) :=
  scanFile path rdonly 0 (fun _ => true)
    (fun _ count x => return (true, if matching x then count + 1 else count)) fuel 0

/-- Whether a record matches: the loop of `handle_add_user`. -/
def anyInFile {size : Nat} (path : FileName) (matching : CharArray size → Bool) (fuel : Nat) :
    FileProg (Option Bool) :=
  scanFile path rdonly false (fun _ => true)
    (fun _ _ x => return (!matching x, matching x)) fuel false

/-- `b.is_winning = 1` where the bid is one of the winner. -/
def winningMark (auctionId bidderId : UInt32) (b : CharArray bidSize) :
    Option (CharArray bidSize) :=
  if uint32 (BidField.auctionId.get b) = auctionId ∧ uint32 (BidField.bidderId.get b) = bidderId
  then some (BidField.isWinning.set b (toLe 4 1)) else none

/-- The pass of `close_auction_internal` over `bids.dat`. -/
def markWinningBids (auctionId bidderId : UInt32) (fuel : Nat) : FileProg (Option Nat) :=
  updateFile .bids (winningMark auctionId bidderId) fuel

/-- `tmp.reviewed = 1` where it is not. -/
def reviewedMark (tmp : CharArray feedbackSize) : Option (CharArray feedbackSize) :=
  if uint32 (FeedbackField.reviewed.get tmp) = 0 then
    some (FeedbackField.reviewed.set tmp (toLe 4 1)) else none

/-- The pass of `handle_view_feedback` that marks what has been seen. -/
def markFeedbackReviewed (fuel : Nat) : FileProg (Option Nat) :=
  updateFile .feedback reviewedMark fuel

/-! ## what they do -/

/-- The file consists of these records; it has none if it is not there. -/
structure FileIs {size : Nat} (d : Disk FileName) (path : FileName) (present : Bool)
    (l : List (CharArray size)) : Prop where
  content : d.content path = if present then some (pack l) else none
  absent : present = false → l = []

/-- There is a free descriptor, and writes are taken as a whole. -/
structure Ready (d : Disk FileName) (fd : Nat) : Prop where
  free : d.freeFd = some fd
  accepts : d.accepts = []

section Specs

variable {size : Nat} {d : Disk FileName} {path : FileName} {present : Bool} {fd : Nat}
  {l : List (CharArray size)}

theorem FileIs.bytes (h : FileIs d path present l) : d.bytes path = pack l := by
  cases present with
  | false => simp [Disk.bytes, h.content, h.absent rfl]
  | true => simp [Disk.bytes, h.content]

theorem FileIs.of_put (l : List (CharArray size)) : FileIs (d.put path (pack l)) path true l :=
  ⟨Disk.put_content_self, nofun⟩

theorem Ready.put (h : Ready d fd) (bs : List UInt8) : Ready (d.put path bs) fd :=
  ⟨h.free, h.accepts⟩

/-- A file that is there, opened without `O_TRUNC`. -/
theorem Ready.open_present (h : Ready d fd) (hfile : FileIs d path true l) {flags : OpenFlags}
    (htrunc : flags.trunc = false) :
    Disk.exec (.open path flags) d = ((fd : Int), d.opened fd ⟨path, flags, 0⟩) :=
  Disk.exec_open h.free hfile.content htrunc

/-- A file that is created if it is not there. -/
theorem Ready.open_create (h : Ready d fd) (hfile : FileIs d path present l) {flags : OpenFlags}
    (hcreat : flags.creat = true) (htrunc : flags.trunc = false) :
    Disk.exec (.open path flags) d =
      ((fd : Int), (d.put path (pack l)).opened fd ⟨path, flags, 0⟩) := by
  rw [Disk.exec_open_create h.free hcreat htrunc, hfile.bytes]

/-- A program that goes on with a descriptor. -/
theorem run_opened {α : Type} {d' : Disk FileName} {flags : OpenFlags} {failed : FileProg α}
    {body : Int → FileProg α} (hopen : Disk.exec (.open path flags) d = ((fd : Int), d')) :
    Prog.run Disk.exec (openFile path flags >>= fun fd => if fd < 0 then failed else body fd) d =
      Prog.run Disk.exec (body fd) d' := by
  have hfd : ¬ ((fd : Int) < 0) := by omega
  rw [openFile, Prog.bind_call, Prog.run_call, hopen, Prog.bind_pure, if_neg hfd]

/-- A program that cannot open its file. -/
theorem run_not_opened {α : Type} {flags : OpenFlags} {failed : FileProg α}
    {body : Int → FileProg α} (hopen : Disk.exec (.open path flags) d = (-1, d)) :
    Prog.run Disk.exec (openFile path flags >>= fun fd => if fd < 0 then failed else body fd) d =
      Prog.run Disk.exec failed d := by
  have hfailed : (-1 : Int) < 0 := by decide
  rw [openFile, Prog.bind_call, Prog.run_call, hopen, Prog.bind_pure, if_pos hfailed]

/-- A missing file is not opened for reading. -/
theorem open_missing (hfile : FileIs d path false l) {flags : OpenFlags}
    (hcreat : flags.creat = false) : Disk.exec (.open path flags) d = (-1, d) :=
  Disk.exec_open_missing hfile.content hcreat

/-- A record written over a list of records. -/
theorem exec_write_record (hfree : d.table[fd]? = some none) (haccepts : d.accepts = [])
    {flags : OpenFlags} (hflags : flags.write = true ∧ flags.append = false)
    (l : List (CharArray size)) (i : Nat) (x : CharArray size) :
    Disk.exec (.write fd x.val) ((d.put path (pack l)).opened fd ⟨path, flags, i * size⟩) =
      ((size : Int), (d.put path (pack (writeAt (.zero size) l i x))).opened fd
        ⟨path, flags, (i + 1) * size⟩) := by
  have hwrite := Disk.exec_write_all (d := d.put path (pack l)) (f := ⟨path, flags, i * size⟩)
    hfree hflags.1 haccepts x.val
  simp only [hflags.2, Bool.false_eq_true, if_false, Disk.put_bytes_self, Disk.put_put,
    splice_pack, x.length_val] at hwrite
  rw [hwrite, Nat.succ_mul]

/-- **Write**: the record is put at its place. -/
theorem run_writeRecord (h : Ready d fd) (hfile : FileIs d path present l) (i : Nat)
    (x : CharArray size) : Prog.run Disk.exec (writeRecord path (i * size) x) d =
      (0, d.put path (pack (writeAt (.zero size) l i x))) := by
  have hfree := Disk.freeFd_spec h.free
  rw [writeRecord, run_opened (h.open_create hfile rfl rfl)]
  simp only [lseek, writeFile, closeFile, Prog.bind_call, Prog.bind_pure, Prog.run_call,
    Prog.pure_eq, Prog.run_pure]
  rw [Disk.exec_lseek_set (d := d.put path (pack l)) hfree,
    exec_write_record hfree h.accepts ⟨rfl, rfl⟩, Disk.exec_close (d := d.put path _) hfree,
    if_pos rfl]

/-- `write_user` never sees `lseek` fail. -/
theorem writeUser_eq (d : Disk FileName) (u : CharArray userSize) :
    Prog.run Disk.exec (writeUser u) d = Prog.run Disk.exec
      (writeRecord .users (recPos (uint32 (UserField.userId.get u)) * userSize) u) d := by
  rcases Disk.exec_open_cases .users openRw d with hopen | ⟨fd, d', hfree, hopen⟩
  · rw [writeRecord, run_not_opened hopen, writeUser, run_not_opened hopen]
  · rw [writeRecord, run_opened hopen, writeUser, run_opened hopen]
    simp only [lseek, Prog.bind_call, Prog.bind_pure, Prog.run_call]
    rw [Disk.exec_lseek_set hfree, if_neg (by omega)]
    rfl

/-- **Read**: the record at its place, if there is one. -/
theorem run_readRecord (h : Ready d fd) (hfile : FileIs d path present l) (i : Nat)
    (hsize : 0 < size) : Prog.run Disk.exec (readRecord path size (i * size)) d = (l[i]?, d) := by
  have hfree := Disk.freeFd_spec h.free
  cases present with
  | false =>
      rw [readRecord, run_not_opened (open_missing hfile rfl), hfile.absent rfl]
      rfl
  | true =>
      rw [readRecord, run_opened (h.open_present hfile rfl)]
      have hgot := whole_take_drop l (show ([] : List UInt8).length < size from hsize) i
      rw [List.append_nil] at hgot
      simp only [lseek, readFile, closeFile, Prog.bind_call, Prog.bind_pure, Prog.run_call,
        Prog.pure_eq, Prog.run_pure]
      rw [Disk.exec_lseek_set hfree, Disk.exec_read hfree rfl, Disk.exec_close hfree, hfile.bytes,
        hgot]

/-- `read_user` never sees `lseek` fail. -/
theorem readUser_eq (d : Disk FileName) (userId : UInt32) :
    Prog.run Disk.exec (readUser userId) d =
      Prog.run Disk.exec (readRecord .users userSize (recPos userId * userSize)) d := by
  rcases Disk.exec_open_cases .users rdonly d with hopen | ⟨fd, d', hfree, hopen⟩
  · rw [readRecord, run_not_opened hopen, readUser, run_not_opened hopen]
  · rw [readRecord, run_opened hopen, readUser, run_opened hopen]
    simp only [lseek, Prog.bind_call, Prog.bind_pure, Prog.run_call]
    rw [Disk.exec_lseek_set hfree, if_neg (by omega)]
    rfl

/-- **Append**: the record is put at the end. -/
theorem run_appendRecord (h : Ready d fd) (hfile : FileIs d path present l) (x : CharArray size) :
    Prog.run Disk.exec (appendRecord path x) d = (0, d.put path (pack (l ++ [x]))) := by
  have hfree := Disk.freeFd_spec h.free
  have hwrite := Disk.exec_write_all (d := d.put path (pack l)) (f := ⟨path, openApp, 0⟩) hfree rfl
    h.accepts x.val
  simp only [if_true, Disk.put_bytes_self, Disk.put_put, splice_length, x.length_val] at hwrite
  have hpack : pack (l ++ [x]) = pack l ++ x.val := by simp
  rw [appendRecord, run_opened (h.open_create hfile rfl rfl)]
  simp only [writeFile, closeFile, Prog.bind_call, Prog.bind_pure, Prog.run_call, Prog.pure_eq,
    Prog.run_pure]
  rw [hwrite, Disk.exec_close (d := d.put path _) hfree, if_pos rfl, hpack]

/-- **Next identifier**: one more than there are records. -/
theorem run_nextId (h : Ready d fd) (hfile : FileIs d path present l) (hsize : 0 < size) :
    Prog.run Disk.exec (nextId path size) d = (nextRecId l, d) := by
  have hfree := Disk.freeFd_spec h.free
  cases present with
  | false =>
      rw [nextId, run_not_opened (open_missing hfile rfl), hfile.absent rfl]
      rfl
  | true =>
      rw [nextId, run_opened (h.open_present hfile rfl)]
      simp only [lseek, closeFile, Prog.bind_call, Prog.bind_pure, Prog.run_call, Prog.pure_eq,
        Prog.run_pure]
      rw [Disk.exec_lseek_end hfree, Disk.exec_close hfree, hfile.bytes, length_pack,
        Int.toNat_natCast, Nat.mul_div_cancel _ hsize, ← nextRecId]
      split
      · next hle =>
          have hnil : l.length = 0 := by
            rcases Nat.mul_eq_zero.mp (show l.length * size = 0 by omega) with h0 | h0
            · exact h0
            · omega
          rw [nextRecId, hnil]
          rfl
      · rfl

theorem run_nextFeedbackId (h : Ready d fd) {l : List (CharArray feedbackSize)}
    (hfile : FileIs d .feedback present l) : Prog.run Disk.exec nextFeedbackId d =
      (if present then nextRecId l else 0, d) := by
  have hfree := Disk.freeFd_spec h.free
  cases present with
  | false =>
      rw [nextFeedbackId, run_not_opened (open_missing hfile rfl)]
      rfl
  | true =>
      rw [nextFeedbackId, run_opened (h.open_present hfile rfl)]
      simp only [lseek, closeFile, Prog.bind_call, Prog.bind_pure, Prog.run_call, Prog.pure_eq,
        Prog.run_pure]
      rw [Disk.exec_lseek_end hfree, Disk.exec_close hfree, hfile.bytes, length_pack,
        Int.toNat_natCast, Nat.mul_div_cancel _ (by decide)]
      rfl

end Specs

/-! ## what the loops do -/

section Loops

variable {size : Nat} {d : Disk FileName} {path : FileName} {present : Bool} {fd fuel : Nat}
  {l : List (CharArray size)} {σ : Type} {flags : OpenFlags}
  {step : σ → CharArray size → CharArray size × Bool × σ}

/-- **A loop over a file** is a pass over its records; a piece of one more does not matter. -/
theorem run_scanFile_tail (body : Int → σ → CharArray size → FileProg (Bool × σ))
    {tail : List UInt8} (hfree : d.table[fd]? = some none)
    (hopen : Disk.exec (.open path flags) d =
      ((fd : Int), (d.put path (pack l ++ tail)).opened fd ⟨path, flags, 0⟩))
    (hread : flags.read = true) (htail : tail.length < size) {ok : Nat → σ → Prop}
    (hbody : BodyIs d path flags fd tail (body fd) step ok) (failed init : σ) (guard : σ → Bool)
    (hok : ok 0 init) (hfuel : l.length < fuel) :
    Prog.run Disk.exec (scanFile path flags failed guard body fuel init) d =
      (some (sweep guard step init l).1,
        d.put path (pack (sweep guard step init l).2 ++ tail)) := by
  obtain ⟨offset, hloop⟩ := run_readLoop hfree hread htail hbody guard [] l hok hfuel
  rw [inLoop, List.nil_append, List.nil_append, List.length_nil, Nat.zero_mul] at hloop
  rw [scanFile, run_opened hopen]
  simp only [closeFile, Prog.run_bind, hloop, Prog.run_call, Prog.run_pure, Prog.pure_eq]
  rw [Disk.exec_close (d := d.put path _) hfree]

theorem run_scanFile (body : Int → σ → CharArray size → FileProg (Bool × σ))
    (hfree : d.table[fd]? = some none)
    (hopen : Disk.exec (.open path flags) d =
      ((fd : Int), (d.put path (pack l)).opened fd ⟨path, flags, 0⟩))
    (hread : flags.read = true) (hsize : 0 < size) {ok : Nat → σ → Prop}
    (hbody : BodyIs d path flags fd [] (body fd) step ok) (failed init : σ) (guard : σ → Bool)
    (hok : ok 0 init) (hfuel : l.length < fuel) :
    Prog.run Disk.exec (scanFile path flags failed guard body fuel init) d =
      (some (sweep guard step init l).1, d.put path (pack (sweep guard step init l).2)) := by
  rw [← List.append_nil (pack l)] at hopen
  have hrun := run_scanFile_tail body hfree hopen hread hsize hbody failed init guard hok hfuel
  rwa [List.append_nil] at hrun

/-- A loop over a file that is not there. -/
theorem run_scanFile_missing (hfile : FileIs d path false l) (hcreat : flags.creat = false)
    {failed init : σ} {guard : σ → Bool} {body : Int → σ → CharArray size → FileProg (Bool × σ)} :
    Prog.run Disk.exec (scanFile path flags failed guard body fuel init) d = (some failed, d) := by
  rw [scanFile, run_not_opened (open_missing hfile hcreat)]
  rfl

theorem put_unchanged (hfile : FileIs d path true l) : d.put path (pack l) = d := by
  rw [← hfile.bytes]
  exact Disk.put_bytes (by rw [hfile.content]; rfl)

/-- A file that is opened as it is. -/
theorem open_unchanged (h : Ready d fd) (hfile : FileIs d path true l)
    (htrunc : flags.trunc = false) : Disk.exec (.open path flags) d =
      ((fd : Int), (d.put path (pack l)).opened fd ⟨path, flags, 0⟩) := by
  rw [put_unchanged hfile, h.open_present hfile htrunc]

/-- **A loop that only reads**, over a file that is there. -/
theorem run_scanFile_read (h : Ready d fd) (hfile : FileIs d path true l) (hsize : 0 < size)
    (hfuel : l.length < fuel) (next : σ → CharArray size → Bool × σ) {failed init : σ}
    {guard : σ → Bool} :
    Prog.run Disk.exec
        (scanFile path rdonly failed guard (fun _ s x => return next s x) fuel init) d =
      (some (sweep guard (fun s x => (x, next s x)) init l).1, d) := by
  have hopen : Disk.exec (.open path rdonly) d =
      ((fd : Int), (d.put path (pack l)).opened fd ⟨path, rdonly, 0⟩) := open_unchanged h hfile rfl
  have hbody : BodyIs d path rdonly fd [] (fun s x => .pure (next s x)) (fun s x => (x, next s x))
      fun _ _ => True := bodyIs_pure next
  have hrun := run_scanFile (fun _ s x => .pure (next s x)) (Disk.freeFd_spec h.free) hopen
    rfl hsize hbody failed init guard trivial hfuel
  rw [sweep_snd_of_read, put_unchanged hfile] at hrun
  exact hrun

/-- The loop of `find_user_by_username` over the records that follow. -/
theorem sweep_find (p : CharArray size → Bool) (l : List (CharArray size)) :
    (sweep (fun _ => true) (fun found x => (x, if p x then (false, some x) else (true, found)))
      none l).1 = l.find? p := by
  induction l with
  | nil => rfl
  | cons x l ih =>
      rw [sweep, if_pos rfl]
      by_cases hx : p x = true
      · simp [hx]
      · simpa [hx] using ih

/-- What a loop that looks for a slot leaves: the first one that is wanted, else how many were
looked at. -/
def slotResult (slot : Nat) (found : Option Nat) (count : Nat) : Int × Int :=
  match found with
  | some i => ((slot + i : Nat), (slot + i : Nat))
  | none => ((slot + count : Nat), -1)

theorem slotResult_succ (slot : Nat) (found : Option Nat) (count : Nat) :
    slotResult (slot + 1) found count = slotResult slot (found.map (· + 1)) (count + 1) := by
  cases found <;> simp [slotResult, Nat.add_assoc, Nat.add_comm 1]

/-- The loop looks at no more than `cap` records, counted from the first. -/
theorem sweep_slot (guard : Int × Int → Bool) (p : CharArray size → Bool) (cap : Nat)
    (l : List (CharArray size)) (slot : Nat)
    (hguard : ∀ i < slot + l.length, ∀ found, guard ((i : Nat), found) = decide (i < cap)) :
    (sweep guard (fun s x => (x, slotNext p s x)) ((slot : Int), -1) l).1 =
      slotResult slot ((l.take (cap - slot)).findIdx? p) (l.take (cap - slot)).length := by
  induction l generalizing slot with
  | nil => simp [sweep, slotResult]
  | cons x l ih =>
      rw [sweep, hguard slot (by simp)]
      by_cases hslot : slot < cap
      · have hcap : cap - slot = cap - (slot + 1) + 1 := by omega
        have hnext := ih (slot + 1) fun i hi => hguard i (by rw [List.length_cons]; omega)
        rw [if_pos (decide_eq_true hslot), hcap, List.take_succ_cons, List.findIdx?_cons,
          List.length_cons]
        by_cases hx : p x = true
        · simp [slotNext, hx, slotResult]
        · rw [slotResult_succ] at hnext
          simpa [slotNext, hx] using hnext
      · have hcap : cap - slot = 0 := by omega
        simp [hslot, hcap, slotResult]

section Collect

variable {α : Type} (cap : Nat) (matching : CharArray size → Bool) (entry : CharArray size → α)

/-- **The loop** finds the first records that match. -/
theorem scanLoop_eq (list : List α) (records : List (CharArray size)) :
    scanLoop cap matching entry list records =
      list ++ ((records.filter matching).take (cap - list.length)).map entry := by
  induction records generalizing list with
  | nil => simp [scanLoop]
  | cons x records ih =>
      rw [scanLoop]
      by_cases hroom : list.length < cap
      · rw [if_pos hroom, ih]
        by_cases hx : matching x = true
        · have hcap : cap - list.length = cap - (list.length + 1) + 1 := by omega
          rw [if_pos hx, List.filter_cons_of_pos hx, List.length_append, List.length_singleton,
            hcap, List.take_succ_cons, List.map_cons, List.append_assoc, List.singleton_append]
        · rw [if_neg hx, List.filter_cons_of_neg hx]
      · have hcap : cap - list.length = 0 := by omega
        rw [if_neg hroom, hcap, List.take_zero, List.map_nil, List.append_nil]

/-- The loop with its calls is the loop over the records. -/
theorem sweep_collect (list : List α) (l : List (CharArray size)) :
    (sweep (fun _ => true) (fun (list : Option (List α)) x =>
        (x, if (list.getD []).length < cap then
            (true, some (if matching x then list.getD [] ++ [entry x] else list.getD []))
          else (false, list))) (some list) l).1 =
      some (scanLoop cap matching entry list l) := by
  induction l generalizing list with
  | nil => rfl
  | cons x l ih =>
      rw [sweep, if_pos rfl, scanLoop]
      by_cases hroom : list.length < cap
      · simpa [hroom] using ih (if matching x then list ++ [entry x] else list)
      · simp [hroom]

end Collect

/-- The loop that reads all. -/
theorem sweep_readAll (list l : List (CharArray size)) :
    (sweep (fun _ => true) (fun (list : Option (List (CharArray size))) x =>
      (x, true, some (list.getD [] ++ [x]))) (some list) l).1 = some (list ++ l) := by
  induction l generalizing list with
  | nil => rw [List.append_nil]; rfl
  | cons x l ih =>
      have hnext := ih (list ++ [x])
      rw [List.append_assoc, List.singleton_append] at hnext
      simpa [sweep] using hnext

/-- The loop that counts. -/
theorem sweep_count (matching : CharArray size → Bool) (count : Nat) (l : List (CharArray size)) :
    (sweep (fun _ => true)
        (fun (count : Nat) x => (x, true, if matching x then count + 1 else count)) count l).1 =
      count + l.countP matching := by
  induction l generalizing count with
  | nil => rfl
  | cons x l ih =>
      rw [sweep, if_pos rfl, List.countP_cons]
      simp only [if_true, ih]
      split <;> omega

/-- The loop that looks for a match. -/
theorem sweep_any (matching : CharArray size → Bool) (l : List (CharArray size)) :
    (sweep (fun _ => true) (fun (_ : Bool) x => (x, !matching x, matching x)) false l).1 =
      l.any matching := by
  induction l with
  | nil => rfl
  | cons x l ih =>
      rw [sweep, if_pos rfl, List.any_cons]
      by_cases hx : matching x = true
      · simp [hx]
      · simpa [hx] using ih

/-- The passes that write records back. -/
theorem sweep_update (change : CharArray size → Option (CharArray size)) (offset : Nat)
    (l : List (CharArray size)) :
    sweep (fun _ => true) (fun (offset : Nat) x => ((change x).getD x, true, offset + size))
      offset l = (offset + l.length * size, l.map fun x => (change x).getD x) := by
  induction l generalizing offset with
  | nil => simp [sweep]
  | cons x l ih =>
      rw [sweep, if_pos rfl, List.map_cons, List.length_cons, Nat.succ_mul]
      simp only [if_true, ih, Nat.add_assoc, Nat.add_comm size]

/-- **Find by name**: the first record in use with this name. -/
theorem run_findUserByUsername (h : Ready d fd) {l : List (CharArray userSize)}
    (hfile : FileIs d .users present l) (hfuel : l.length < fuel) (username : List UInt8) :
    Prog.run Disk.exec (findUserByUsername username fuel) d =
      (some (l.find? (named username)), d) := by
  cases present with
  | false =>
      rw [findUserByUsername, run_scanFile_missing hfile rfl, hfile.absent rfl]
      rfl
  | true =>
      rw [← sweep_find]
      exact run_scanFile_read h hfile (by decide) hfuel _

/-- **Find a session**: the first active slot of the user, else -1. -/
theorem run_findSessionSlot (h : Ready d fd) {l : List (CharArray sessionSize)}
    (hfile : FileIs d .sessions present l) (hfuel : l.length < fuel) (userId : UInt32) :
    Prog.run Disk.exec (findSessionSlot userId fuel) d =
      (some (((l.findIdx? (activeOf userId)).map Int.ofNat).getD (-1)), d) := by
  cases present with
  | false =>
      rw [findSessionSlot, Prog.run_bind, run_scanFile_missing hfile rfl, hfile.absent rfl]
      rfl
  | true =>
      have hsweep := sweep_slot (fun _ => true) (activeOf userId) l.length l 0
        (by intro i hi _; exact (decide_eq_true (by omega)).symm)
      rw [Nat.sub_zero, List.take_length, Nat.cast_zero] at hsweep
      rw [findSessionSlot, Prog.run_bind, run_scanFile_read h hfile (by decide) hfuel
        (slotNext (activeOf userId)), hsweep]
      cases l.findIdx? (activeOf userId) <;> simp [slotResult]

/-- The answer of `find_free_slot`, by the first free slot and the number of slots. -/
def freeAnswer (found : Option Nat) (count : Nat) : Int :=
  match found with
  | some slot => slot
  | none => if count < maxSessions then count else -1

/-- **Find a free slot**: the first inactive one, else one past the end, else -1; the file is
created. -/
theorem run_findFreeSlot (h : Ready d fd) {l : List (CharArray sessionSize)}
    (hfile : FileIs d .sessions present l) (hfuel : l.length < fuel) :
    Prog.run Disk.exec (findFreeSlot fuel) d =
      (some (freeAnswer ((l.take maxSessions).findIdx? fun x => !active x) l.length),
        d.put .sessions (pack l)) := by
  have hsweep := sweep_slot (fun s => decide (s.1 < ((maxSessions : Nat) : Int)))
    (fun x => !active x) maxSessions l 0
    (by intro i _ _; exact decide_eq_decide.mpr Int.ofNat_lt)
  rw [Nat.sub_zero, Nat.cast_zero] at hsweep
  have hopen : Disk.exec (.open .sessions openRw) d =
      ((fd : Int), (d.put .sessions (pack l)).opened fd ⟨.sessions, openRw, 0⟩) :=
    h.open_create hfile rfl rfl
  have hbody : BodyIs d .sessions openRw fd []
      (fun s x => .pure (slotNext (fun x => !active x) s x))
      (fun s x => (x, slotNext (fun x => !active x) s x)) fun _ _ => True := bodyIs_pure _
  have hrun := run_scanFile (fun _ s x => .pure (slotNext (fun x => !active x) s x))
    (Disk.freeFd_spec h.free) hopen rfl (by decide) hbody (0, 0) (0, -1)
    (fun s => decide (s.1 < ((maxSessions : Nat) : Int))) trivial hfuel
  rw [sweep_snd_of_read, hsweep] at hrun
  rw [findFreeSlot, Prog.run_bind]
  simp only [Prog.pure_eq, hrun, Prog.run_pure, Option.map_some]
  cases (l.take maxSessions).findIdx? fun x => !active x with
  | some slot => simp [slotResult, freeAnswer]
  | none =>
      rw [freeAnswer, slotResult, List.length_take, Nat.zero_add]
      by_cases hlt : l.length < maxSessions
      · have hcast : (l.length : Int) < 64 := Int.ofNat_lt.mpr hlt
        rw [Nat.min_eq_right hlt.le]
        simp [hlt, hcast]
      · rw [Nat.min_eq_left (by omega)]
        simp [hlt]

/-- **The loops of the list handlers and of the timer** collect the first `cap` that match. -/
theorem run_collect (h : Ready d fd) (hfile : FileIs d path present l) (hsize : 0 < size)
    (hfuel : l.length < fuel) {α : Type} (cap : Nat) (matching : CharArray size → Bool)
    (entry : CharArray size → α) :
    Prog.run Disk.exec (collect path cap matching entry fuel) d =
      (some (if present then some (((l.filter matching).take cap).map entry) else none), d) := by
  cases present with
  | false => rw [collect, run_scanFile_missing hfile rfl]; rfl
  | true =>
      have hsweep := sweep_collect cap matching entry [] l
      rw [scanLoop_eq, List.nil_append, List.length_nil, Nat.sub_zero] at hsweep
      rw [if_pos rfl, ← hsweep]
      exact run_scanFile_read h hfile hsize hfuel _

theorem run_readAll (h : Ready d fd) (hfile : FileIs d path present l) (hsize : 0 < size)
    (hfuel : l.length < fuel) : Prog.run Disk.exec (readAll path size fuel) d =
      (some (if present then some l else none), d) := by
  cases present with
  | false => rw [readAll, run_scanFile_missing hfile rfl]; rfl
  | true =>
      have hsweep := sweep_readAll [] l
      rw [List.nil_append] at hsweep
      rw [if_pos rfl, ← hsweep]
      exact run_scanFile_read h hfile hsize hfuel _

/-- **The loop of `handle_change_role`** counts what matches. -/
theorem run_countFile (h : Ready d fd) (hfile : FileIs d path present l) (hsize : 0 < size)
    (hfuel : l.length < fuel) (matching : CharArray size → Bool) :
    Prog.run Disk.exec (countFile path matching fuel) d = (some (l.countP matching), d) := by
  cases present with
  | false => rw [countFile, run_scanFile_missing hfile rfl, hfile.absent rfl]; rfl
  | true =>
      have hsweep := sweep_count matching 0 l
      rw [Nat.zero_add] at hsweep
      rw [← hsweep]
      exact run_scanFile_read h hfile hsize hfuel _

/-- **The loop of `handle_add_user`** looks whether one matches. -/
theorem run_anyInFile (h : Ready d fd) (hfile : FileIs d path present l) (hsize : 0 < size)
    (hfuel : l.length < fuel) (matching : CharArray size → Bool) :
    Prog.run Disk.exec (anyInFile path matching fuel) d = (some (l.any matching), d) := by
  cases present with
  | false => rw [anyInFile, run_scanFile_missing hfile rfl, hfile.absent rfl]; rfl
  | true =>
      rw [← sweep_any]
      exact run_scanFile_read h hfile hsize hfuel _

/-- The body of a pass that writes records back in their places. -/
theorem bodyIs_update (hfree : d.table[fd]? = some none) (haccepts : d.accepts = [])
    (path : FileName) (change : CharArray size → Option (CharArray size)) :
    BodyIs d path rdwr fd [] (writeBack change fd)
      (fun (offset : Nat) x => ((change x).getD x, true, offset + size))
      fun i offset => offset = i * size where
  run offset x before after hok := by
    subst hok
    cases hx : change x with
    | none => simp only [writeBack, hx]; rfl
    | some y =>
        have hset : writeAt (.zero size) (before ++ x :: after) before.length y =
            before ++ y :: after := by
          rw [writeAt_of_lt (by simp), List.set_append_right _ _ (Nat.le_refl _), Nat.sub_self]
          rfl
        simp only [writeBack, hx, inLoop, List.append_nil, lseek, writeFile, Prog.bind_call,
          Prog.bind_pure, Prog.run_call, Prog.pure_eq, Prog.run_pure, Option.getD_some]
        rw [Disk.exec_lseek_set (d := d.put path _) hfree,
          exec_write_record hfree haccepts ⟨rfl, rfl⟩, hset]
  ok offset x i hok := by rw [hok, Nat.succ_mul]

/-- **The passes that write back**: every record that they change is changed in its place. -/
theorem run_updateFile (h : Ready d fd) (hfile : FileIs d path present l) (hsize : 0 < size)
    (hfuel : l.length < fuel) (change : CharArray size → Option (CharArray size)) :
    Prog.run Disk.exec (updateFile path change fuel) d = (some (l.length * size),
      if present then d.put path (pack (l.map fun x => (change x).getD x)) else d) := by
  cases present with
  | false =>
      rw [updateFile, run_scanFile_missing hfile rfl, hfile.absent rfl, List.length_nil,
        Nat.zero_mul]
      rfl
  | true =>
      have hopen : Disk.exec (.open path rdwr) d =
          ((fd : Int), (d.put path (pack l)).opened fd ⟨path, rdwr, 0⟩) :=
        open_unchanged h hfile rfl
      have hfree := Disk.freeFd_spec h.free
      have hbody := bodyIs_update hfree h.accepts path change
      have hrun := run_scanFile (writeBack change) hfree hopen rfl hsize hbody 0 0 (fun _ => true)
        (Nat.zero_mul size).symm hfuel
      rw [sweep_update, Nat.zero_add] at hrun
      exact hrun

end Loops

end OnlineAuction.FileCalls
