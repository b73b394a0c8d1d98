import OnlineAuction.FileCalls

/-!
# OnlineAuction.TornWrites

Writes of which only a part reaches the file.

A record is written at the place that its identifier gives, or is appended.  A torn write of the
first kind costs no more than itself: a record that was not created is not there, its bytes are
overwritten by the next one, and every other record is as it was (`tornRecords_heal`).  After a
torn append all that is appended is shifted: no later record is read as it was written, though
the identifiers go on as if nothing had been torn (`tornAppend_shifts`).
-/

namespace OnlineAuction.TornWrites

open Posix FileCalls

/-! ## writes that are cut short -/

section Writes

variable {size : Nat}

/-- A write to a file of records: of a new one, at the next identifier, or over one that has been
read. -/
inductive RecordWrite (size : Nat)
  | create (x : CharArray size)
  | update (i : Nat) (x : CharArray size)

/-- `x.id = next_id(); write(&x);` or `write(&x);`.  On every disk `write_user` and `read_user` do
what the functions of the other files do (`writeUser_eq`, `readUser_eq`). -/
def RecordWrite.prog (path : FileName) : RecordWrite size → FileProg Int
  | .create x => do
      let id ← nextId path size
      writeRecord path (recPos id * size) x
  | .update i x => writeRecord path (i * size) x

/-- The disk after a write of which `w.2` bytes are taken, if it has as many. -/
def afterWrite (path : FileName) (d : Disk FileName) (w : RecordWrite size × Nat) : Disk FileName :=
  (Prog.run Disk.exec (w.1.prog path) { d with accepts := [w.2] }).2

/-- The first `k` bytes of `x`, over `y`. -/
def overlay (x y : CharArray size) (k : Nat) : CharArray size :=
  .ofBytes size (x.val.take k ++ y.val.drop k)

/-- What a write does to the records: a new record is there if all of it has been taken. -/
def replay (l : List (CharArray size)) : RecordWrite size × Nat → List (CharArray size)
  | (.create x, k) => if size ≤ k then l ++ [x] else l
  | (.update i x, k) => l.modify i fun y => overlay x y k

/-- There is an identifier left for a new record, and a record to write over. -/
def InRange (l : List (CharArray size)) : RecordWrite size → Prop
  | .create _ => l.length < 2 ^ 32 - 1
  | .update i _ => i < l.length

def AllInRange : List (CharArray size) → List (RecordWrite size × Nat) → Prop
  | _, [] => True
  | l, w :: ws => InRange l w.1 ∧ AllInRange (replay l w) ws

end Writes

/-! ## files with a piece of a record at the end -/

section Files

variable {size : Nat} {d : Disk FileName} {path : FileName} {fd k i : Nat}
  {l : List (CharArray size)} {x y : CharArray size} {tail : List UInt8}

/-- A file of records, with a piece of one more. -/
structure RecordsAndTail (d : Disk FileName) (path : FileName) (l : List (CharArray size))
    (tail : List UInt8) : Prop where
  content : d.content path = some (pack l ++ tail)
  short : tail.length < size

theorem val_overlay (x y : CharArray size) (k : Nat) :
    (overlay x y k).val = x.val.take k ++ y.val.drop k := by
  have hlength : (x.val.take k ++ y.val.drop k).length = size := by
    simp only [List.length_append, List.length_take, List.length_drop, CharArray.length_val]
    omega
  rw [overlay, CharArray.ofBytes_val hlength.le, hlength, Nat.sub_self, List.replicate_zero,
    List.append_nil]

/-- A piece of a record is written over a record. -/
theorem splice_over (hi : i < l.length) : splice (pack l ++ tail) (i * size) (x.val.take k) =
    pack (l.modify i fun y => overlay x y k) ++ tail := by
  have hsplit : l = l.take i ++ l[i] :: l.drop (i + 1) := by
    rw [List.getElem_cons_drop, List.take_append_drop]
  have hlength : (pack (l.take i)).length = i * size := by
    rw [length_pack, List.length_take, Nat.min_eq_left hi.le]
  have hfits : 0 + (x.val.take k).length ≤ l[i].val.length := by
    rw [List.length_take, x.length_val, l[i].length_val]
    omega
  have hover : splice l[i].val 0 (x.val.take k) = (overlay x l[i] k).val := by
    rw [splice_of_le (Nat.zero_le _), val_overlay, List.take_zero, List.nil_append,
      List.length_take, x.length_val, Nat.zero_add]
    rcases Nat.le_total k size with hk | hk
    · rw [Nat.min_eq_left hk]
    · rw [Nat.min_eq_right hk, List.drop_eq_nil_of_le l[i].length_val.le,
        List.drop_eq_nil_of_le (l[i].length_val.le.trans hk)]
  have hpack : pack l ++ tail =
      pack (l.take i) ++ (l[i].val ++ (pack (l.drop (i + 1)) ++ tail)) := by
    conv_lhs => rw [hsplit]
    rw [pack_append, pack_cons, List.append_assoc, List.append_assoc]
  have hmodify : l.modify i (fun y => overlay x y k) =
      l.take i ++ overlay x l[i] k :: l.drop (i + 1) := by
    rw [List.modify_eq_take_cons_drop hi]
  rw [hpack, ← hlength, ← Nat.add_zero (pack (l.take i)).length, splice_append_left,
    splice_append_right hfits, hover, hmodify, pack_append, pack_cons]
  simp only [List.append_assoc]

/-- A piece of a record is written at the end. -/
theorem splice_end : splice (pack l ++ tail) (l.length * size) (x.val.take k) =
    pack l ++ (x.val.take k ++ tail.drop (min k size)) := by
  have hlength : l.length * size = (pack l).length + 0 := by rw [length_pack, Nat.add_zero]
  rw [hlength, splice_append_left, splice_of_le (Nat.zero_le _), List.take_zero, List.nil_append,
    Nat.zero_add, List.length_take, x.length_val]

/-- How much of a record is taken. -/
theorem take_accepted (d : Disk FileName) (x : CharArray size) (k : Nat) :
    x.val.take ({ d with accepts := [k] }.accepted x.val) = x.val.take k := by
  have haccepted : { d with accepts := [k] }.accepted x.val = min k x.val.length := rfl
  rw [haccepted]
  rcases Nat.le_total k x.val.length with hk | hk
  · rw [Nat.min_eq_left hk]
  · rw [Nat.min_eq_right hk, List.take_length, List.take_of_length_le hk]

variable (hfree : d.freeFd = some fd) {bytes : List UInt8} (hcontent : d.content path = some bytes)

include hfree hcontent

/-- A record of which `k` bytes are written. -/
theorem writeRecord_torn (offset : Nat) :
    (Prog.run Disk.exec (writeRecord path offset x) { d with accepts := [k] }).2 =
      { d.put path (splice bytes offset (x.val.take k)) with accepts := [] } := by
  have hopen : Disk.exec (.open path openRw) { d with accepts := [k] } =
      ((fd : Int), { d with accepts := [k] }.opened fd ⟨path, openRw, 0⟩) :=
    Disk.exec_open (d := { d with accepts := [k] }) hfree hcontent rfl
  have hfree' : { d with accepts := [k] }.table[fd]? = some none := Disk.freeFd_spec hfree
  have hbytes : { d with accepts := [k] }.bytes path = bytes := by simp [Disk.bytes, hcontent]
  rw [writeRecord, run_opened hopen]
  simp only [lseek, writeFile, closeFile, Prog.bind_call, Prog.bind_pure, Prog.run_call,
    Prog.pure_eq, Prog.run_pure]
  rw [Disk.exec_lseek_set hfree', Disk.exec_write hfree' rfl, take_accepted, hbytes,
    Disk.exec_close (by exact hfree')]
  rfl

/-- A record of which `k` bytes are appended. -/
theorem appendRecord_torn : (Prog.run Disk.exec (appendRecord path x) { d with accepts := [k] }).2 =
      { d.put path (bytes ++ x.val.take k) with accepts := [] } := by
  have hopen : Disk.exec (.open path openApp) { d with accepts := [k] } =
      ((fd : Int), { d with accepts := [k] }.opened fd ⟨path, openApp, 0⟩) :=
    Disk.exec_open (d := { d with accepts := [k] }) hfree hcontent rfl
  have hfree' : { d with accepts := [k] }.table[fd]? = some none := Disk.freeFd_spec hfree
  have hbytes : { d with accepts := [k] }.bytes path = bytes := by simp [Disk.bytes, hcontent]
  rw [appendRecord, run_opened hopen]
  simp only [writeFile, closeFile, Prog.bind_call, Prog.bind_pure, Prog.run_call, Prog.pure_eq,
    Prog.run_pure]
  rw [Disk.exec_write hfree' rfl, take_accepted, hbytes, Disk.exec_close (by exact hfree'),
    if_pos rfl, splice_length]
  rfl

/-- The next identifier is that of the bytes in the file. -/
theorem run_nextId_bytes :
    Prog.run Disk.exec (nextId path size) d =
      (if bytes = [] then 1 else UInt32.ofNat (bytes.length / size) + 1, d) := by
  have hopen : Disk.exec (.open path rdonly) d = ((fd : Int), d.opened fd ⟨path, rdonly, 0⟩) :=
    Disk.exec_open hfree hcontent rfl
  have hfree' := Disk.freeFd_spec hfree
  have hbytes : d.bytes path = bytes := by simp [Disk.bytes, hcontent]
  have hempty : ((bytes.length : Int) ≤ 0) = (bytes = []) := by
    rw [eq_iff_iff, ← List.length_eq_zero_iff]
    omega
  rw [nextId, run_opened hopen]
  simp only [lseek, closeFile, Prog.bind_call, Prog.bind_pure, Prog.run_call, Prog.pure_eq,
    Prog.run_pure]
  rw [Disk.exec_lseek_end hfree', Disk.exec_close hfree', hbytes, Int.toNat_natCast]
  simp only [hempty]

/-- The record at a place is what is there. -/
theorem run_readRecord_bytes (offset : Nat) :
    Prog.run Disk.exec (readRecord path size offset) d =
      (whole size (some ((bytes.drop offset).take size)), d) := by
  have hopen : Disk.exec (.open path rdonly) d = ((fd : Int), d.opened fd ⟨path, rdonly, 0⟩) :=
    Disk.exec_open hfree hcontent rfl
  have hfree' := Disk.freeFd_spec hfree
  have hbytes : d.bytes path = bytes := by simp [Disk.bytes, hcontent]
  rw [readRecord, run_opened hopen]
  simp only [lseek, readFile, closeFile, Prog.bind_call, Prog.bind_pure, Prog.run_call,
    Prog.pure_eq, Prog.run_pure]
  rw [Disk.exec_lseek_set hfree', Disk.exec_read hfree' rfl, Disk.exec_close hfree', hbytes]

end Files

/-! ## records at their places -/

section Records

variable {size : Nat} {d : Disk FileName} {path : FileName} {fd : Nat}
  {l : List (CharArray size)} {tail : List UInt8} {w : RecordWrite size × Nat}
  {ws : List (RecordWrite size × Nat)}

/-- The whole records of a file. -/
theorem length_div (h : tail.length < size) :
    (pack l ++ tail).length / size = l.length := by
  rw [List.length_append, length_pack, Nat.mul_comm, Nat.mul_add_div (by omega),
    Nat.div_eq_of_lt h, Nat.add_zero]

/-- A piece of a record is not counted. -/
theorem run_nextId_tail (hfree : d.freeFd = some fd) (h : RecordsAndTail d path l tail) :
    Prog.run Disk.exec (nextId path size) d = (nextRecId l, d) := by
  rw [run_nextId_bytes hfree h.content, length_div h.short, ← nextRecId]
  split
  · next hnil =>
      obtain ⟨hpack, -⟩ := List.append_eq_nil_iff.mp hnil
      have hlength := congrArg List.length hpack
      rw [length_pack, List.length_nil] at hlength
      have hzero : l.length = 0 := (Nat.mul_eq_zero.mp hlength).resolve_right (by
        have := h.short
        omega)
      rw [nextRecId, hzero]
      rfl
  · rfl

/-- A piece of a record is not read. -/
theorem run_readRecord_tail (hfree : d.freeFd = some fd) (h : RecordsAndTail d path l tail)
    (i : Nat) : Prog.run Disk.exec (readRecord path size (i * size)) d = (l[i]?, d) := by
  rw [run_readRecord_bytes hfree h.content, whole_take_drop l h.short i]

/-- A loop that only reads does not see a piece of a record. -/
theorem run_scanFile_read_tail (hfree : d.freeFd = some fd) (h : RecordsAndTail d path l tail)
    {σ : Type} (next : σ → CharArray size → Bool × σ) {failed init : σ} {guard : σ → Bool}
    {fuel : Nat} (hfuel : l.length < fuel) :
    Prog.run Disk.exec
        (scanFile path rdonly failed guard (fun _ s x => return next s x) fuel init) d =
      (some (sweep guard (fun s x => (x, next s x)) init l).1, d) := by
  have hput : d.put path (pack l ++ tail) = d := by
    have hbytes : d.bytes path = pack l ++ tail := by simp [Disk.bytes, h.content]
    rw [← hbytes]
    exact Disk.put_bytes (by rw [h.content]; rfl)
  have hopen : Disk.exec (.open path rdonly) d =
      ((fd : Int), (d.put path (pack l ++ tail)).opened fd ⟨path, rdonly, 0⟩) := by
    rw [hput]
    exact Disk.exec_open hfree h.content rfl
  have hbody : BodyIs d path rdonly fd tail (fun s x => .pure (next s x))
      (fun s x => (x, next s x)) fun _ _ => True := bodyIs_pure next
  have hrun := run_scanFile_tail (fun _ s x => .pure (next s x)) (Disk.freeFd_spec hfree) hopen
    rfl h.short hbody failed init guard trivial hfuel
  rw [sweep_snd_of_read, hput] at hrun
  exact hrun

/-- **Step lemma**: a write costs no more than itself. -/
theorem RecordsAndTail.afterWrite (hfree : d.freeFd = some fd) (h : RecordsAndTail d path l tail)
    (hrange : InRange l w.1) :
    ∃ tail', RecordsAndTail (afterWrite path d w) path (replay l w) tail' ∧
      (afterWrite path d w).table = d.table := by
  obtain ⟨w, k⟩ := w
  cases w with
  | update i x =>
      refine ⟨tail, ⟨?_, h.short⟩, ?_⟩
      · rw [TornWrites.afterWrite, RecordWrite.prog, writeRecord_torn hfree h.content,
          splice_over hrange]
        exact Disk.put_content_self
      · rw [TornWrites.afterWrite, RecordWrite.prog, writeRecord_torn hfree h.content]
        rfl
  | create x =>
      have hafter : TornWrites.afterWrite path d (.create x, k) =
          { d.put path (pack l ++ (x.val.take k ++ tail.drop (min k size))) with
            accepts := [] } := by
        have hnext := run_nextId_tail (d := { d with accepts := [k] }) hfree ⟨h.content, h.short⟩
        rw [TornWrites.afterWrite, RecordWrite.prog, Prog.run_bind, hnext, recPos_nextRecId hrange,
          writeRecord_torn hfree h.content, splice_end]
      rw [hafter, replay]
      by_cases hk : size ≤ k
      · have hwhole : x.val.take k ++ tail.drop (min k size) = x.val := by
          have hshort := h.short
          rw [List.take_of_length_le (by rw [x.length_val]; exact hk), Nat.min_eq_right hk,
            List.drop_eq_nil_of_le hshort.le, List.append_nil]
        refine ⟨[], ⟨?_, by have := h.short; rw [List.length_nil]; omega⟩, rfl⟩
        rw [if_pos hk, hwhole, List.append_nil, pack_append, pack_cons, pack_nil, List.append_nil]
        exact Disk.put_content_self
      · refine ⟨_, ⟨by rw [if_neg hk]; exact Disk.put_content_self, ?_⟩, rfl⟩
        have hshort := h.short
        simp only [List.length_append, List.length_take, List.length_drop, x.length_val]
        omega

/-- **Torn records heal**: after any writes, each of them torn or not, the file reads as the
records that were created in full, each as its last writes left it; the next identifier is that
of the first one missing. -/
theorem tornRecords_heal (size : Nat) (path : FileName) (d : Disk FileName) (fd : Nat)
    (l : List (CharArray size)) (tail : List UInt8) (ws : List (RecordWrite size × Nat))
    (hfree : d.freeFd = some fd) (h : RecordsAndTail d path l tail) (hrange : AllInRange l ws) :
    let d' := ws.foldl (afterWrite path) d
    let l' := ws.foldl replay l
    Prog.run Disk.exec (nextId path size) d' = (nextRecId l', d') ∧
      (∀ i, Prog.run Disk.exec (readRecord path size (i * size)) d' = (l'[i]?, d')) ∧
      d'.table = d.table := by
  induction ws generalizing d l tail with
  | nil => exact ⟨run_nextId_tail hfree h, run_readRecord_tail hfree h, rfl⟩
  | cons w ws ih =>
      obtain ⟨tail', hafter, htable⟩ := h.afterWrite hfree hrange.1
      have hfree' : (afterWrite path d w).freeFd = some fd := by
        rw [Disk.freeFd, htable]
        exact hfree
      obtain ⟨hnext, hread, htable'⟩ := ih _ _ tail' hfree' hafter hrange.2
      exact ⟨hnext, hread, htable'.trans htable⟩

/-- A disk with an empty file of users. -/
def emptyDisk : Disk FileName := ⟨fun _ => some [], [none], []⟩

/-- A record is torn, created again, and torn when it is written over. -/
theorem tornRecords_heal_two :
    let x : CharArray 2 := .ofBytes 2 [1, 2]
    let y : CharArray 2 := .ofBytes 2 [3, 4]
    let d' := [(.create x, 1), (.create y, 2), (.update 0 x, 1)].foldl (afterWrite .users) emptyDisk
    Prog.run Disk.exec (readRecord .users 2 (0 * 2)) d' = (some (.ofBytes 2 [1, 4]), d') :=
  (tornRecords_heal 2 .users emptyDisk 0 [] []
    [(.create (.ofBytes 2 [1, 2]), 1), (.create (.ofBytes 2 [3, 4]), 2),
      (.update 0 (.ofBytes 2 [1, 2]), 1)] rfl ⟨rfl, by decide⟩
    ⟨by simp [InRange], by simp [InRange, replay], by simp [InRange, replay], trivial⟩).2.1 0

end Records

/-! ## records that are appended -/

section Appends

variable {size : Nat} {d : Disk FileName} {path : FileName} {fd : Nat}

/-- The disk after an append of which `w.2` bytes are taken, if it has as many. -/
def afterAppend (path : FileName) (d : Disk FileName) (w : CharArray size × Nat) : Disk FileName :=
  (Prog.run Disk.exec (appendRecord path w.1) { d with accepts := [w.2] }).2

/-- What appends leave at the end of a file. -/
def appended (ws : List (CharArray size × Nat)) : List UInt8 := ws.flatMap fun w => w.1.val.take w.2

theorem content_afterAppends (hfree : d.freeFd = some fd) {bytes : List UInt8}
    (hcontent : d.content path = some bytes) (ws : List (CharArray size × Nat)) :
    (ws.foldl (afterAppend path) d).content path = some (bytes ++ appended ws) ∧
      (ws.foldl (afterAppend path) d).table = d.table := by
  induction ws generalizing d bytes with
  | nil => exact ⟨by rw [appended, List.flatMap_nil, List.append_nil]; exact hcontent, rfl⟩
  | cons w ws ih =>
      have hafter : afterAppend path d w =
          { d.put path (bytes ++ w.1.val.take w.2) with accepts := [] } :=
        appendRecord_torn hfree hcontent
      have hcontent' : (afterAppend path d w).content path =
          some (bytes ++ w.1.val.take w.2) := by
        rw [hafter]
        exact Disk.put_content_self
      have hnext := ih (by rw [hafter]; exact hfree) hcontent'
      refine ⟨?_, hnext.2.trans (by rw [hafter]; rfl)⟩
      rw [List.foldl_cons, hnext.1, appended, appended, List.flatMap_cons, List.append_assoc]

/-- Records that are appended in full. -/
theorem appended_whole (ys : List (CharArray size)) :
    appended (ys.map fun y => (y, size)) = pack ys := by
  induction ys with
  | nil => rfl
  | cons y ys ih =>
      rw [List.map_cons, appended, List.flatMap_cons, ← appended, ih, pack_cons,
        List.take_of_length_le y.length_val.le]

/-- What is read after a torn append: the last `k` bytes of the record before, or of what was
torn, and the first bytes of the record that was appended. -/
def shifted (x : CharArray size) (k : Nat) (ys : List (CharArray size)) (j : Nat) : List UInt8 :=
  (if j = 0 then x.val.take k else (ys[j - 1]?.elim [] fun y => y.val.drop (size - k))) ++
    (ys[j]?.elim [] fun y => y.val.take (size - k))

/-- The bytes that are read in place of a record. -/
theorem take_shifted {x : CharArray size} {k : Nat} (hk : k < size) {ys : List (CharArray size)}
    {j : Nat} (hj : j < ys.length) :
    ((x.val.take k ++ pack ys).drop (j * size)).take size = shifted x k ys j := by
  have hlength : (x.val.take k).length = k := by
    rw [List.length_take, x.length_val, Nat.min_eq_left hk.le]
  have hpack (i : Nat) (hi : i < ys.length) :
      pack (ys.drop i) = ys[i].val ++ pack (ys.drop (i + 1)) := by
    rw [List.drop_eq_getElem_cons hi, pack_cons]
  rw [shifted, List.getElem?_eq_getElem hj, Option.elim_some]
  cases j with
  | zero =>
      have hfirst := hpack 0 hj
      rw [List.drop_zero] at hfirst
      rw [if_pos rfl, Nat.zero_mul, List.drop_zero, List.take_append, hlength,
        List.take_of_length_le (by rw [hlength]; exact hk.le), hfirst,
        List.take_append_of_le_length (by rw [ys[0].length_val]; omega)]
  | succ j =>
      have hj' : j < ys.length := by omega
      have hskip : (j + 1) * size = (x.val.take k).length + (j * size + (size - k)) := by
        rw [hlength, Nat.succ_mul]
        omega
      have hend : (ys[j].val.drop (size - k)).length = k := by
        rw [List.length_drop, ys[j].length_val]
        omega
      have hdrop := drop_pack hj'.le []
      rw [List.append_nil, List.append_nil] at hdrop
      rw [if_neg (by omega), Nat.add_sub_cancel, List.getElem?_eq_getElem hj', Option.elim_some,
        hskip, ← List.drop_drop, List.drop_left, ← List.drop_drop, hdrop, hpack j hj',
        List.drop_append_of_le_length (by rw [ys[j].length_val]; omega), List.take_append, hend,
        List.take_of_length_le (by rw [hend]; exact hk.le), hpack (j + 1) hj,
        List.take_append_of_le_length (by rw [ys[j + 1].length_val]; omega)]

theorem length_shifted {x : CharArray size} {k : Nat} (hk : k < size)
    {ys : List (CharArray size)} {j : Nat} (hj : j < ys.length) :
    (shifted x k ys j).length = size := by
  rw [← take_shifted hk hj, List.length_take, List.length_drop, List.length_append, length_pack,
    List.length_take, x.length_val]
  have hle : j * size + size ≤ ys.length * size := by
    rw [← Nat.succ_mul]
    exact Nat.mul_le_mul_right size hj
  omega

/-- The records that are read in place of those that were appended. -/
def shiftedRecords (x : CharArray size) (k : Nat) (ys : List (CharArray size)) :
    List (CharArray size) :=
  (List.range ys.length).map fun j => .ofBytes size (shifted x k ys j)

/-- After the shifted records there are `k` bytes. -/
theorem pack_shiftedRecords {x : CharArray size} {k : Nat} (hk : k < size)
    (ys : List (CharArray size)) :
    ∃ tail, tail.length = k ∧ pack (shiftedRecords x k ys) ++ tail = x.val.take k ++ pack ys := by
  have hlength : (x.val.take k ++ pack ys).length = k + ys.length * size := by
    rw [List.length_append, length_pack, List.length_take, x.length_val, Nat.min_eq_left hk.le]
  refine ⟨(x.val.take k ++ pack ys).drop (ys.length * size), ?_, ?_⟩
  · rw [List.length_drop, hlength, Nat.add_sub_cancel]
  · have hmap : shiftedRecords x k ys = (List.range ys.length).map fun j =>
        CharArray.ofBytes size (((x.val.take k ++ pack ys).drop (j * size)).take size) :=
      List.map_congr_left fun j hj => by rw [take_shifted hk (List.mem_range.mp hj)]
    rw [hmap]
    exact pack_chunks (by rw [hlength]; exact Nat.le_add_left _ _)

/-- **A torn append shifts** all that is appended later: the loops read the records before it as
they were, and in place of every later record the bytes of two neighbours, while the identifiers go
on as if nothing had been torn. -/
theorem tornAppend_shifts (size : Nat) (path : FileName) (d : Disk FileName) (fd : Nat)
    (l : List (CharArray size)) (x : CharArray size) (k : Nat) (ys : List (CharArray size))
    (hfree : d.freeFd = some fd) (hcontent : d.content path = some (pack l)) (hk : k < size) :
    let d' := ((x, k) :: ys.map fun y => (y, size)).foldl (afterAppend path) d
    let l' := l ++ shiftedRecords x k ys
    (∀ fuel > l'.length, (Prog.run Disk.exec (readAll path size fuel) d').1 = some (some l')) ∧
      (∀ fuel > l'.length, ∀ (cap : Nat) (matching : CharArray size → Bool),
        (Prog.run Disk.exec (collect path cap matching id fuel) d').1 =
          some (some ((l'.filter matching).take cap))) ∧
      (∀ j < ys.length, (shiftedRecords x k ys)[j]?.map Subtype.val = some (shifted x k ys j)) ∧
      (Prog.run Disk.exec (nextId path size) d').1 = nextRecId (l ++ ys) := by
  intro d' l'
  obtain ⟨hcontent', htable⟩ := content_afterAppends hfree hcontent
    ((x, k) :: ys.map fun y => (y, size))
  have happended : appended ((x, k) :: ys.map fun y => (y, size)) = x.val.take k ++ pack ys := by
    rw [appended, List.flatMap_cons, ← appended, appended_whole]
  have hfree' : d'.freeFd = some fd := by
    rw [Disk.freeFd, htable]
    exact hfree
  obtain ⟨tail, htail, hpack⟩ := pack_shiftedRecords (x := x) hk ys
  rw [happended, ← hpack, ← List.append_assoc, ← pack_append] at hcontent'
  have hrecords : RecordsAndTail d' path l' tail := ⟨hcontent', htail.trans_lt hk⟩
  refine ⟨fun fuel hfuel => ?_, fun fuel hfuel cap matching => ?_, fun j hj => ?_, ?_⟩
  · have hsweep := sweep_readAll [] l'
    rw [readAll, run_scanFile_read_tail hfree' hrecords _ hfuel, hsweep, List.nil_append]
  · have hsweep := sweep_collect cap matching id [] l'
    rw [collect, run_scanFile_read_tail hfree' hrecords _ hfuel, hsweep, scanLoop_eq,
      List.nil_append, List.map_id, List.length_nil, Nat.sub_zero]
  · rw [shiftedRecords, List.getElem?_map, List.getElem?_range hj, Option.map_some]
    exact congrArg some (CharArray.val_ofBytes (length_shifted hk hj))
  · have hlength : (l ++ ys).length = l'.length := by
      simp only [l', shiftedRecords, List.length_append, List.length_map, List.length_range]
    rw [run_nextId_tail hfree' hrecords, nextRecId, nextRecId, hlength]

/-- One byte of a record is appended, then two records. -/
theorem tornAppend_shifts_two :
    let d' := [(.ofBytes 2 [1, 2], 1), (.ofBytes 2 [3, 4], 2), (.ofBytes 2 [5, 6], 2)].foldl
      (afterAppend .bids) emptyDisk
    (Prog.run Disk.exec (readAll .bids 2 3) d').1 =
      some (some [.ofBytes 2 [1, 3], .ofBytes 2 [4, 5]]) :=
  (tornAppend_shifts 2 .bids emptyDisk 0 [] (.ofBytes 2 [1, 2]) 1
    [.ofBytes 2 [3, 4], .ofBytes 2 [5, 6]] rfl rfl (by decide)).1 3 (by decide)

end Appends

end OnlineAuction.TornWrites
