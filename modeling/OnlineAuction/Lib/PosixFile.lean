import OnlineAuction.Lib.Prog
import Mathlib.Logic.Function.Basic

/-!
# OnlineAuction.Lib.PosixFile

Files as a process sees them through `open`, `lseek`, `read`, `write` and `close`.

A file is a string of bytes, or is not there; a descriptor is an entry of a table of a fixed
size, with the path, the flags and the offset.  A `write` at an offset replaces the bytes there
and fills a gap with zeros (`splice`), and takes no more than `accepts` says, so that a write
that is cut short can be spoken of.

The lemmas say what each call does with a descriptor that has just been opened (`opened`), so
that a program that opens, works and closes is executed by `simp` and leaves the table as it was.
-/

namespace OnlineAuction.Posix

variable {π α β : Type}

/-! ## the calls -/

/-- The flags of `open`. -/
structure OpenFlags where
  read : Bool
  write : Bool
  creat : Bool
  append : Bool
  trunc : Bool
  deriving DecidableEq

/-- `O_RDONLY` -/
abbrev rdonly : OpenFlags := ⟨true, false, false, false, false⟩

/-- `O_RDWR` -/
abbrev rdwr : OpenFlags := ⟨true, true, false, false, false⟩

inductive Whence
  | set | «end»
  deriving DecidableEq

inductive FileCall (π : Type)
  | open (path : π) (flags : OpenFlags)
  | lseek (fd : Int) (offset : Int) (whence : Whence)
  | read (fd : Int) (count : Nat)
  | write (fd : Int) (bytes : List UInt8)
  | close (fd : Int)

/-- The answers; a read that fails answers `none`. -/
abbrev FileCall.Res : FileCall π → Type
  | .read _ _ => Option (List UInt8)
  | _ => Int

/-- The signature of the calls. -/
abbrev PosixSig (π : Type) : Sig := ⟨FileCall π, FileCall.Res⟩

/-- The calls as programs. -/
abbrev openFile (path : π) (flags : OpenFlags) : Prog (PosixSig π) Int :=
  .call (.open path flags) .pure

abbrev lseek (fd offset : Int) (whence : Whence) : Prog (PosixSig π) Int :=
  .call (.lseek fd offset whence) .pure

abbrev readFile (fd : Int) (count : Nat) : Prog (PosixSig π) (Option (List UInt8)) :=
  .call (.read fd count) .pure

abbrev writeFile (fd : Int) (bytes : List UInt8) : Prog (PosixSig π) Int :=
  .call (.write fd bytes) .pure

abbrev closeFile (fd : Int) : Prog (PosixSig π) Int := .call (.close fd) .pure

/-! ## the state -/

/-- An open file description. -/
structure OpenFile (π : Type) where
  path : π
  flags : OpenFlags
  offset : Nat

/-- What is on the disk, and the descriptors of the process.  Each number of `accepts` is how
many bytes one of the coming writes can take; once they are used up, a write takes all. -/
structure Disk (π : Type) where
  content : π → Option (List UInt8)
  table : List (Option (OpenFile π))
  accepts : List Nat

/-- The bytes with `bs` written from `i` on. -/
def splice (bytes : List UInt8) (i : Nat) (bs : List UInt8) : List UInt8 :=
  bytes.take i ++ List.replicate (i - bytes.length) 0 ++ bs ++ bytes.drop (i + bs.length)

namespace Disk

/-- The bytes of a file, none if it is not there. -/
def bytes (d : Disk π) (path : π) : List UInt8 := (d.content path).getD []

/-- The lowest descriptor that is not in use. -/
def freeFd (d : Disk π) : Option Nat := d.table.findIdx? (·.isNone)

/-- The file that a descriptor refers to. -/
def file (d : Disk π) (fd : Int) : Option (OpenFile π) :=
  if fd < 0 then none else (d.table[fd.toNat]?).join

/-- The disk with a descriptor that refers to a file. -/
def opened (d : Disk π) (fd : Nat) (f : OpenFile π) : Disk π :=
  { d with table := d.table.set fd (some f) }

/-- How much of a write is taken. -/
def accepted (d : Disk π) (bs : List UInt8) : Nat :=
  match d.accepts with
  | [] => bs.length
  | n :: _ => min n bs.length

variable [DecidableEq π]

/-- The disk with other bytes in a file. -/
def put (d : Disk π) (path : π) (bytes : List UInt8) : Disk π :=
  { d with content := Function.update d.content path (some bytes) }

/-- What the calls answer and do. -/
def exec : Prog.Handler (PosixSig π) (Disk π)
  | .open path flags, d =>
      match d.freeFd with
      | none => (-1, d)
      | some fd =>
          if (d.content path).isSome || flags.creat then
            let d := d.put path (if flags.trunc then [] else d.bytes path)
            ((fd : Int), d.opened fd ⟨path, flags, 0⟩)
          else (-1, d)
  | .lseek fd offset whence, d =>
      match d.file fd with
      | none => (-1, d)
      | some f =>
          let base : Nat := match whence with
            | .set => 0
            | .end => (d.bytes f.path).length
          if base + offset < 0 then (-1, d)
          else (base + offset, d.opened fd.toNat { f with offset := (base + offset).toNat })
  | .read fd count, d =>
      match d.file fd with
      | none => (none, d)
      | some f =>
          if f.flags.read then
            let got := ((d.bytes f.path).drop f.offset).take count
            (some got, d.opened fd.toNat { f with offset := f.offset + got.length })
          else (none, d)
  | .write fd bs, d =>
      match d.file fd with
      | none => (-1, d)
      | some f =>
          if f.flags.write then
            let offset := if f.flags.append then (d.bytes f.path).length else f.offset
            let taken := bs.take (d.accepted bs)
            let d' := { d.put f.path (splice (d.bytes f.path) offset taken) with
              accepts := d.accepts.tail }
            ((taken.length : Int), d'.opened fd.toNat { f with offset := offset + taken.length })
          else (-1, d)
  | .close fd, d =>
      match d.file fd with
      | none => (-1, d)
      | some _ => (0, { d with table := d.table.set fd.toNat none })

/-! ## a descriptor that has just been opened -/

section Opened

omit [DecidableEq π]

variable {d : Disk π} {fd : Nat} {f : OpenFile π}

/-- The descriptor that is found is free. -/
theorem freeFd_spec (h : d.freeFd = some fd) : d.table[fd]? = some none := by
  obtain ⟨hlt, hnone, -⟩ := List.findIdx?_eq_some_iff_getElem.mp h
  rw [List.getElem?_eq_getElem hlt, Option.isNone_iff_eq_none.mp hnone]

@[simp] theorem opened_content : (d.opened fd f).content = d.content := rfl
@[simp] theorem opened_bytes : (d.opened fd f).bytes = d.bytes := rfl
@[simp] theorem opened_accepts : (d.opened fd f).accepts = d.accepts := rfl
@[simp] theorem opened_accepted : (d.opened fd f).accepted = d.accepted := rfl

/-- Of two openings of a descriptor the last one counts. -/
@[simp] theorem opened_opened (f' : OpenFile π) :
    (d.opened fd f).opened fd f' = d.opened fd f' := by
  simp [opened]

/-- The file that was opened is at its descriptor. -/
theorem file_opened (h : d.table[fd]? = some none) : (d.opened fd f).file fd = some f := by
  have hlt : fd < d.table.length := (List.getElem?_eq_some_iff.mp h).1
  simp [file, opened, hlt]

/-- The table is as it was before the file was opened. -/
theorem table_closed (h : d.table[fd]? = some none) :
    (d.opened fd f).table.set fd none = d.table := by
  obtain ⟨hlt, hnone⟩ := List.getElem?_eq_some_iff.mp h
  rw [opened, List.set_set, ← hnone, List.set_getElem_self]

end Opened

section Contents

variable {d : Disk π} {path path' : π} {bs : List UInt8}

@[simp] theorem put_table : (d.put path bs).table = d.table := rfl
@[simp] theorem put_accepts : (d.put path bs).accepts = d.accepts := rfl

/-- The bytes that were put are in the file. -/
@[simp] theorem put_bytes_self : (d.put path bs).bytes path = bs := by
  simp [bytes, put]

/-- And the file is there. -/
theorem put_content_self : (d.put path bs).content path = some bs :=
  Function.update_self ..

/-- The other files stay. -/
theorem put_content_ne (h : path' ≠ path) :
    (d.put path bs).content path' = d.content path' := Function.update_of_ne h ..

/-- To write what is there changes nothing. -/
theorem put_bytes (h : (d.content path).isSome) : d.put path (d.bytes path) = d := by
  obtain ⟨x, hx⟩ := Option.isSome_iff_exists.mp h
  have hcontent : Function.update d.content path (some (d.bytes path)) = d.content := by
    rw [bytes, hx, Option.getD_some, ← hx, Function.update_eq_self]
  rw [put, hcontent]

/-- Of two contents the last one counts. -/
@[simp] theorem put_put (bs' : List UInt8) : (d.put path bs).put path bs' = d.put path bs' := by
  simp [put]

/-- Contents and descriptors are apart. -/
@[simp] theorem put_opened {fd : Nat} {f : OpenFile π} :
    (d.opened fd f).put path bs = (d.put path bs).opened fd f := rfl

end Contents

section Calls

variable {d : Disk π} {fd : Nat} {f : OpenFile π} (h : d.table[fd]? = some none)

include h

/-- Closing frees the descriptor. -/
theorem exec_close : exec (.close fd) (d.opened fd f) = (0, d) := by
  simp only [exec, file_opened h, Int.toNat_natCast, table_closed h]
  rfl

/-- Seeking sets the offset of the descriptor. -/
theorem exec_lseek_set (offset : Nat) : exec (.lseek fd offset .set) (d.opened fd f) =
    ((offset : Int), d.opened fd { f with offset := offset }) := by
  have hnonneg : ¬ (((0 : Nat) : Int) + (offset : Int) < 0) := by omega
  simp only [exec, file_opened h, if_neg hnonneg]
  simp

/-- Seeking to the end answers the length of the file. -/
theorem exec_lseek_end : exec (.lseek fd 0 .end) (d.opened fd f) =
    (((d.bytes f.path).length : Int),
      d.opened fd { f with offset := (d.bytes f.path).length }) := by
  simp only [exec, file_opened h, opened_bytes]
  simp

/-- A read gives what follows the offset, and moves it. -/
theorem exec_read (hread : f.flags.read = true) (count : Nat) :
    exec (.read fd count) (d.opened fd f) =
      (some (((d.bytes f.path).drop f.offset).take count),
        d.opened fd { f with
          offset := f.offset + (((d.bytes f.path).drop f.offset).take count).length }) := by
  simp only [exec, file_opened h, hread, if_true, opened_bytes, Int.toNat_natCast, opened_opened]

/-- A write of which as much is taken as there is room for. -/
theorem exec_write (hwrite : f.flags.write = true) (bs : List UInt8) :
    exec (.write fd bs) (d.opened fd f) =
      (((bs.take (d.accepted bs)).length : Int),
        { d.put f.path (splice (d.bytes f.path)
            (if f.flags.append then (d.bytes f.path).length else f.offset)
            (bs.take (d.accepted bs))) with accepts := d.accepts.tail }.opened fd
          { f with offset := (if f.flags.append then (d.bytes f.path).length else f.offset) +
            (bs.take (d.accepted bs)).length }) := by
  simp only [exec, file_opened h, hwrite, if_true, opened_bytes, Int.toNat_natCast,
    opened_accepts, opened_accepted, put_opened]
  simp [opened]

/-- A write that is taken as a whole. -/
theorem exec_write_all (hwrite : f.flags.write = true) (haccepts : d.accepts = [])
    (bs : List UInt8) :
    exec (.write fd bs) (d.opened fd f) =
      ((bs.length : Int),
        (d.put f.path (splice (d.bytes f.path)
            (if f.flags.append then (d.bytes f.path).length else f.offset) bs)).opened fd
          { f with offset := (if f.flags.append then (d.bytes f.path).length else f.offset) +
            bs.length }) := by
  have htaken : bs.take (d.accepted bs) = bs := by rw [accepted, haccepts, List.take_length]
  have hput (b : List UInt8) :
      { d.put f.path b with accepts := d.accepts.tail } = d.put f.path b := by
    rw [haccepts, List.tail_nil, ← haccepts]
    rfl
  rw [exec_write h hwrite, htaken, hput]

end Calls

/-! ## opening -/

section Opening

variable {d : Disk π} {fd : Nat} {path : π} {flags : OpenFlags} {bs : List UInt8}

/-- A file that is there is opened at its beginning. -/
theorem exec_open (h : d.freeFd = some fd) (hpath : d.content path = some bs)
    (htrunc : flags.trunc = false) :
    exec (.open path flags) d = ((fd : Int), d.opened fd ⟨path, flags, 0⟩) := by
  have hput : d.put path (d.bytes path) = d := put_bytes (by rw [hpath]; rfl)
  simp only [exec, h, hpath, Option.isSome_some, Bool.true_or, if_true, htrunc,
    Bool.false_eq_true, if_false, hput]

/-- One that is not there is not opened without `O_CREAT`. -/
theorem exec_open_missing (hpath : d.content path = none) (hcreat : flags.creat = false) :
    exec (.open path flags) d = (-1, d) := by
  simp only [exec, hpath, hcreat, Option.isSome_none, Bool.or_self, Bool.false_eq_true, if_false]
  split <;> rfl

/-- With `O_CREAT` it is made. -/
theorem exec_open_create (h : d.freeFd = some fd) (hcreat : flags.creat = true)
    (htrunc : flags.trunc = false) : exec (.open path flags) d =
      ((fd : Int), (d.put path (d.bytes path)).opened fd ⟨path, flags, 0⟩) := by
  simp only [exec, h, hcreat, Bool.or_true, if_true, htrunc, Bool.false_eq_true, if_false]

/-- A file is opened with a free descriptor, or not at all. -/
theorem exec_open_cases (path : π) (flags : OpenFlags) (d : Disk π) :
    exec (.open path flags) d = (-1, d) ∨ ∃ (fd : Nat) (d' : Disk π), d'.table[fd]? = some none ∧
      exec (.open path flags) d = ((fd : Int), d'.opened fd ⟨path, flags, 0⟩) := by
  cases h : d.freeFd with
  | none => exact .inl (by simp [exec, h])
  | some fd =>
      by_cases hpath : ((d.content path).isSome || flags.creat) = true
      · exact .inr ⟨fd, d.put path (if flags.trunc then [] else d.bytes path), freeFd_spec h,
          by simp only [exec, h, hpath, if_true]⟩
      · exact .inl (by simp only [exec, h, hpath]; rfl)

end Opening

end Disk

/-! ## splices -/

section Splice

variable {bytes bs tail : List UInt8} {i : Nat}

/-- A write inside of a file. -/
theorem splice_of_le (h : i ≤ bytes.length) :
    splice bytes i bs = bytes.take i ++ bs ++ bytes.drop (i + bs.length) := by
  rw [splice, Nat.sub_eq_zero_of_le h, List.replicate_zero, List.append_nil]

/-- A write at the end of a file. -/
theorem splice_length : splice bytes bytes.length bs = bytes ++ bs := by
  rw [splice_of_le (Nat.le_refl _), List.take_length, List.drop_eq_nil_of_le (by omega),
    List.append_nil]

/-- A write past the end of a file. -/
theorem splice_of_length_le (h : bytes.length ≤ i) :
    splice bytes i bs = bytes ++ List.replicate (i - bytes.length) 0 ++ bs := by
  rw [splice, List.take_of_length_le h, List.drop_eq_nil_of_le (by omega), List.append_nil]

/-- What precedes the place of a write stays. -/
theorem splice_append_left (pre : List UInt8) :
    splice (pre ++ bytes) (pre.length + i) bs = pre ++ splice bytes i bs := by
  have htake : (pre ++ bytes).take (pre.length + i) = pre ++ bytes.take i := by
    rw [List.take_append, List.take_of_length_le (by omega), Nat.add_sub_cancel_left]
  have hdrop : (pre ++ bytes).drop (pre.length + i + bs.length) = bytes.drop (i + bs.length) := by
    rw [Nat.add_assoc, ← List.drop_drop, List.drop_left]
  have hgap : pre.length + i - (pre ++ bytes).length = i - bytes.length := by
    rw [List.length_append]
    omega
  rw [splice, splice, htake, hdrop, hgap]
  simp only [List.append_assoc]

/-- A write over a piece of its own length. -/
theorem splice_append_right (h : i + bs.length ≤ bytes.length) :
    splice (bytes ++ tail) i bs = splice bytes i bs ++ tail := by
  rw [splice_of_le (by rw [List.length_append]; omega), splice_of_le (by omega),
    List.take_append_of_le_length (by omega), List.drop_append_of_le_length h]
  simp only [List.append_assoc]

end Splice

end OnlineAuction.Posix
