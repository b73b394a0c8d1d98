import OnlineAuction.Lib.Memory
import OnlineAuction.Lib.PosixFile
import OnlineAuction.Lib.RecordFile
import Mathlib.Algebra.Group.Nat.Defs

/-!
# OnlineAuction.Lib.RecordIO

Records of a fixed size in files of bytes.

A file of records is the records one after another (`pack`), perhaps with a piece of one more at
its end.  A write at a multiple of the size is a write of the list (`splice_pack`).  `readLoop`
is the loop that reads record after record, as long as a whole one is read, and may write what it
has read back; `run_readLoop` says that it is a pass over the list (`sweep`).
-/

namespace OnlineAuction.Posix

variable {π σ : Type} {size : Nat}

/-! ## lists of records as bytes -/

/-- The bytes of records. -/
def pack (l : List (CharArray size)) : List UInt8 := l.flatMap (·.val)

section Pack

variable {l l' : List (CharArray size)} {x : CharArray size} {i : Nat}

@[simp] theorem pack_nil : pack ([] : List (CharArray size)) = [] := rfl

@[simp] theorem pack_cons : pack (x :: l) = x.val ++ pack l := rfl

@[simp] theorem pack_append : pack (l ++ l') = pack l ++ pack l' := by
  simp [pack]

@[simp] theorem length_pack : (pack l).length = l.length * size := by
  induction l with
  | nil => simp
  | cons x l ih =>
      rw [pack_cons, List.length_append, x.length_val, ih, List.length_cons, Nat.succ_mul,
        Nat.add_comm]

theorem pack_replicate_zero (n : Nat) :
    pack (List.replicate n (.zero size)) = List.replicate (n * size) 0 := by
  induction n with
  | zero => simp
  | succ n ih =>
      rw [List.replicate_succ, pack_cons, ih, CharArray.val_zero, List.replicate_append_replicate,
        Nat.succ_mul, Nat.add_comm]

/-- Records as bytes are these records. -/
theorem pack_inj (hsize : 0 < size) (h : pack l = pack l') : l = l' := by
  induction l generalizing l' with
  | nil =>
      have hlength := congrArg List.length h
      rw [length_pack, length_pack, List.length_nil, Nat.zero_mul] at hlength
      exact (List.length_eq_zero_iff.mp
        ((Nat.mul_eq_zero.mp hlength.symm).resolve_right (by omega))).symm
  | cons x l ih =>
      cases l' with
      | nil =>
          have hlength := congrArg List.length h
          rw [length_pack, length_pack, List.length_cons, List.length_nil, Nat.zero_mul,
            Nat.succ_mul] at hlength
          omega
      | cons y l' =>
          obtain ⟨hxy, hl⟩ := List.append_inj h (by rw [x.length_val, y.length_val])
          rw [Subtype.ext hxy, ih hl]

/-- The bytes from record `i` on. -/
theorem drop_pack (hi : i ≤ l.length) (tail : List UInt8) : (pack l ++ tail).drop (i * size) =
    pack (l.drop i) ++ tail := by
  have hsplit : pack l ++ tail = pack (l.take i) ++ (pack (l.drop i) ++ tail) := by
    rw [← List.append_assoc, ← pack_append, List.take_append_drop]
  rw [hsplit]
  exact List.drop_left' (by rw [length_pack, List.length_take, Nat.min_eq_left hi])

/-- Bytes are the records that they hold, and the rest. -/
theorem pack_chunks {n : Nat} {bytes : List UInt8} (h : n * size ≤ bytes.length) :
    pack ((List.range n).map fun j => CharArray.ofBytes size ((bytes.drop (j * size)).take size)) ++
      bytes.drop (n * size) = bytes := by
  induction n with
  | zero => simp
  | succ n ih =>
      rw [Nat.succ_mul] at h
      have hchunk : ((bytes.drop (n * size)).take size).length = size := by
        rw [List.length_take, List.length_drop]
        omega
      rw [List.range_succ, List.map_append, pack_append, List.map_singleton, pack_cons, pack_nil,
        CharArray.val_ofBytes hchunk, List.append_nil, List.append_assoc, Nat.succ_mul,
        ← List.drop_drop, List.take_append_drop]
      exact ih (by omega)

/-- A write of a record at a multiple of the size. -/
theorem splice_pack (l : List (CharArray size)) (i : Nat) (x : CharArray size) :
    splice (pack l) (i * size) x.val = pack (writeAt (.zero size) l i x) := by
  rcases Nat.lt_or_ge i l.length with hi | hi
  · have hsplit : l = l.take i ++ l[i] :: l.drop (i + 1) := by
      rw [List.getElem_cons_drop, List.take_append_drop]
    have hfits : i * size + size ≤ l.length * size := by
      rw [← Nat.succ_mul]
      exact Nat.mul_le_mul_right size hi
    have htake : (pack l).take (i * size) = pack (l.take i) := by
      conv_lhs => rw [hsplit, pack_append]
      exact List.take_left' (by rw [length_pack, List.length_take, Nat.min_eq_left hi.le])
    have hdrop : (pack l).drop (i * size + size) = pack (l.drop (i + 1)) := by
      have hnext := drop_pack (Nat.succ_le_of_lt hi) []
      rwa [List.append_nil, List.append_nil, Nat.succ_mul] at hnext
    rw [writeAt_of_lt hi, splice_of_le (by rw [length_pack]; omega), x.length_val, htake, hdrop,
      List.set_eq_take_append_cons_drop, if_pos hi, pack_append, pack_cons, List.append_assoc]
  · have hgap : i * size - (pack l).length = (i - l.length) * size := by
      rw [length_pack, Nat.sub_mul]
    rw [writeAt, if_neg (by omega), splice_of_length_le (by
      rw [length_pack]; exact Nat.mul_le_mul_right size hi), hgap, pack_append, pack_append,
      pack_replicate_zero, pack_cons, pack_nil, List.append_nil]

end Pack

/-! ## one record -/

/-- The record that a `read` has given, if it is a whole one. -/
def whole (size : Nat) (got : Option (List UInt8)) : Option (CharArray size) :=
  match got with
  | none => none
  | some bs => if h : bs.length = size then some ⟨bs, h⟩ else none

section Whole

variable {l : List (CharArray size)} {x : CharArray size} {tail : List UInt8}

theorem whole_val (x : CharArray size) : whole size (some x.val) = some x := by
  rw [whole, dif_pos x.length_val]
  rfl

theorem whole_short {bs : List UInt8} (h : bs.length < size) : whole size (some bs) = none := by
  rw [whole, dif_neg (by omega)]

/-- What is read of a file of records from record `i` on. -/
theorem whole_take_drop (l : List (CharArray size)) (htail : tail.length < size) (i : Nat) :
    whole size (some (((pack l ++ tail).drop (i * size)).take size)) = l[i]? := by
  rcases Nat.lt_or_ge i l.length with hi | hi
  · rw [drop_pack hi.le, List.drop_eq_getElem_cons hi, pack_cons, List.append_assoc,
      List.take_left' l[i].length_val, whole_val, List.getElem?_eq_getElem hi]
  · have hshort : ((pack l ++ tail).drop (i * size)).length < size := by
      have hle : l.length * size ≤ i * size := Nat.mul_le_mul_right size hi
      rw [List.length_drop, List.length_append, length_pack]
      omega
    rw [List.take_of_length_le hshort.le, whole_short hshort, List.getElem?_eq_none hi]

end Whole

/-! ## loops over records -/

/-- `while (guard && read(fd, &x, sizeof(x)) == sizeof(x)) body`: `body` answers whether the loop
goes on.  None if the fuel has run out. -/
def readLoop (fd : Int) (guard : σ → Bool)
    (body : σ → CharArray size → Prog (PosixSig π) (Bool × σ)) :
    Nat → σ → Prog (PosixSig π) (Option σ)
  | 0, _ => pure none
  | fuel + 1, s =>
      if guard s then
        .call (.read fd size) fun got =>
          match whole size got with
          | none => pure (some s)
          | some x => do
              let (more, s) ← body s x
              if more then readLoop fd guard body fuel s else pure (some s)
      else pure (some s)

/-- The pass of such a loop over a list: `step` gives the record that is left in its place,
whether the loop goes on, and the next state. -/
def sweep (guard : σ → Bool) (step : σ → CharArray size → CharArray size × Bool × σ) :
    σ → List (CharArray size) → σ × List (CharArray size)
  | s, [] => (s, [])
  | s, x :: l =>
      if guard s then
        let (y, more, s') := step s x
        if more then
          let (s'', l') := sweep guard step s' l
          (s'', y :: l')
        else (s', y :: l)
      else (s, x :: l)

section Loop

variable [DecidableEq π] {d : Disk π} {path : π} {flags : OpenFlags} {fd : Nat} {guard : σ → Bool}
  {body : σ → CharArray size → Prog (PosixSig π) (Bool × σ)}
  {step : σ → CharArray size → CharArray size × Bool × σ} {tail : List UInt8}

/-- The disk inside of a loop: a file of records, and a descriptor at record `i`. -/
def inLoop (d : Disk π) (path : π) (flags : OpenFlags) (fd : Nat) (l : List (CharArray size))
    (tail : List UInt8) (i : Nat) : Disk π :=
  (d.put path (pack l ++ tail)).opened fd ⟨path, flags, i * size⟩

/-- What is read of the next record. -/
theorem read_inLoop_cons (h : d.table[fd]? = some none) (hread : flags.read = true)
    (before after : List (CharArray size)) (x : CharArray size) :
    Disk.exec (.read fd size) (inLoop d path flags fd (before ++ x :: after) tail before.length) =
      (some x.val, inLoop d path flags fd (before ++ x :: after) tail (before.length + 1)) := by
  have hgot : ((pack (before ++ x :: after) ++ tail).drop (before.length * size)).take size =
      x.val := by
    rw [drop_pack (by simp), List.drop_left, pack_cons, List.append_assoc,
      List.take_left' x.length_val]
  have hexec := Disk.exec_read (d := d.put path (pack (before ++ x :: after) ++ tail))
    (f := ⟨path, flags, before.length * size⟩) h hread size
  simp only [Disk.put_bytes_self, hgot, x.length_val] at hexec
  rw [inLoop, inLoop, hexec, Nat.succ_mul]

/-- What is read at the end of the records. -/
theorem read_inLoop_end (h : d.table[fd]? = some none) (path : π) (hread : flags.read = true)
    (htail : tail.length < size) (l : List (CharArray size)) :
    ∃ offset, Disk.exec (.read fd size) (inLoop d path flags fd l tail l.length) =
      (some tail, (d.put path (pack l ++ tail)).opened fd ⟨path, flags, offset⟩) := by
  have hgot : ((pack l ++ tail).drop (l.length * size)).take size = tail := by
    rw [drop_pack (Nat.le_refl _), List.drop_length, pack_nil, List.nil_append,
      List.take_of_length_le htail.le]
  have hexec := Disk.exec_read (d := d.put path (pack l ++ tail))
    (f := ⟨path, flags, l.length * size⟩) h hread size
  simp only [Disk.put_bytes_self, hgot] at hexec
  exact ⟨_, by rw [inLoop, hexec]⟩

/-- The body of a loop does what `step` says with the record that was read. -/
structure BodyIs (d : Disk π) (path : π) (flags : OpenFlags) (fd : Nat) (tail : List UInt8)
    (body : σ → CharArray size → Prog (PosixSig π) (Bool × σ))
    (step : σ → CharArray size → CharArray size × Bool × σ) (ok : Nat → σ → Prop) : Prop where
  run : ∀ s x before after, ok before.length s →
    Prog.run Disk.exec (body s x)
        (inLoop d path flags fd (before ++ x :: after) tail (before.length + 1)) =
      ((step s x).2,
        inLoop d path flags fd (before ++ (step s x).1 :: after) tail (before.length + 1))
  ok : ∀ s x i, ok i s → ok (i + 1) (step s x).2.2

/-- **The loop** is a pass over the records that follow; where the descriptor is then does not
matter, as it is closed. -/
theorem run_readLoop (h : d.table[fd]? = some none) (hread : flags.read = true)
    (htail : tail.length < size) {ok : Nat → σ → Prop}
    (hbody : BodyIs d path flags fd tail body step ok) (guard : σ → Bool) {fuel : Nat} {s : σ}
    (before after : List (CharArray size)) (hok : ok before.length s)
    (hfuel : after.length < fuel) :
    ∃ offset, Prog.run Disk.exec (readLoop fd guard body fuel s)
        (inLoop d path flags fd (before ++ after) tail before.length) =
      (some (sweep guard step s after).1,
        (d.put path (pack (before ++ (sweep guard step s after).2) ++ tail)).opened fd
          ⟨path, flags, offset⟩) := by
  induction after generalizing fuel s before with
  | nil =>
      obtain ⟨fuel, rfl⟩ : ∃ n, fuel = n + 1 := ⟨fuel - 1, by omega⟩
      rw [List.append_nil, readLoop, sweep]
      by_cases hg : guard s = true
      · obtain ⟨offset, hexec⟩ := read_inLoop_end h path hread htail before
        refine ⟨offset, ?_⟩
        rw [if_pos hg, Prog.run_call, hexec, whole_short htail, List.append_nil]
        rfl
      · exact ⟨_, by rw [if_neg hg, List.append_nil]; rfl⟩
  | cons x after ih =>
      obtain ⟨fuel, rfl⟩ : ∃ n, fuel = n + 1 := ⟨fuel - 1, by omega⟩
      rw [readLoop, sweep]
      by_cases hg : guard s = true
      · rw [if_pos hg, if_pos hg, Prog.run_call, read_inLoop_cons h hread, whole_val]
        simp only [Prog.run_bind, hbody.run s x before after hok]
        by_cases hmore : (step s x).2.1 = true
        · have hnext : before ++ (step s x).1 :: after = (before ++ [(step s x).1]) ++ after := by
            rw [List.append_assoc, List.singleton_append]
          have hlength : before.length + 1 = (before ++ [(step s x).1]).length := by simp
          obtain ⟨offset, hrun⟩ := ih (before ++ [(step s x).1])
            (hlength ▸ hbody.ok s x before.length hok)
            (show after.length < fuel by rw [List.length_cons] at hfuel; omega)
          refine ⟨offset, ?_⟩
          rw [if_pos hmore, if_pos hmore, hnext, hlength, hrun, List.append_assoc,
            List.singleton_append]
        · exact ⟨_, by rw [if_neg hmore, if_neg hmore]; rfl⟩
      · exact ⟨_, by rw [if_neg hg, if_neg hg]; rfl⟩

/-- A body that makes no call leaves the records as they are. -/
theorem bodyIs_pure (next : σ → CharArray size → Bool × σ) :
    BodyIs d path flags fd tail (fun s x => .pure (next s x)) (fun s x => (x, next s x))
      fun _ _ => True where
  run _ _ _ _ _ := rfl
  ok _ _ _ _ := trivial

/-- The pass of a loop that only reads. -/
theorem sweep_snd_of_read (next : σ → CharArray size → Bool × σ) (s : σ)
    (l : List (CharArray size)) : (sweep guard (fun s x => (x, next s x)) s l).2 = l := by
  induction l generalizing s with
  | nil => rfl
  | cons x l ih =>
      rw [sweep]
      by_cases hg : guard s = true
      · by_cases hmore : (next s x).1 = true
        · simp [hg, hmore, ih]
        · simp [hg, hmore]
      · simp [hg]

end Loop

end OnlineAuction.Posix
