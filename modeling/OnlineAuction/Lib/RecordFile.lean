import Mathlib.Tactic.Abel
import Mathlib.Algebra.BigOperators.Group.List.Basic
import Mathlib.Data.List.Forall2

/-!
# OnlineAuction.Lib.RecordFile

Files of fixed-size records that are addressed by a 32-bit identifier.

The record with identifier `id` is at position `id - 1`, where the difference
is a 32-bit one: identifier `0` addresses position `2 ^ 32 - 1`.  A write past
the end leaves zero-filled records in between, as `lseek` followed by `write`
does.  `Numbered` says that the record at each position carries the identifier
that addresses it; under it, reading and writing by identifier are a lookup
and an update (`readRec_eq_some`, `writeRec_eq_set`).
-/

namespace OnlineAuction

variable {α β : Type}

/-- The position that an identifier addresses. -/
def recPos (id : UInt32) : Nat := (id - 1).toNat

/-- Read the record with identifier `id`; `none` past the end of the file. -/
def readRec (l : List α) (id : UInt32) : Option α := l[recPos id]?

/-- Write a record at position `i`; the hole before it is filled with `zero`. -/
def writeAt (zero : α) (l : List α) (i : Nat) (x : α) : List α :=
  if i < l.length then l.set i x else l ++ List.replicate (i - l.length) zero ++ [x]

/-- Write the record with identifier `id`. -/
def writeRec (zero : α) (l : List α) (id : UInt32) (x : α) : List α :=
  writeAt zero l (recPos id) x

/-- The identifier that follows the last record: the file size in records,
truncated to 32 bits, plus one. -/
def nextRecId (l : List α) : UInt32 := UInt32.ofNat l.length + 1

/-! ## positions -/

/-- Identifier `0` addresses the last position that 32 bits can address. -/
theorem recPos_zero : recPos 0 = 2 ^ 32 - 1 := by decide

/-- Identifier `i + 1` is at position `i`. -/
theorem recPos_eq_iff {id : UInt32} {i : Nat} (hi : i < 2 ^ 32 - 1) :
    recPos id = i ↔ id.toNat = i + 1 := by
  have hlt := id.toNat_lt
  simp only [recPos, UInt32.toNat_sub, UInt32.toNat_one]
  omega

theorem recPos_of_pos {id : UInt32} (h : 0 < id.toNat) : recPos id = id.toNat - 1 := by
  have hlt := id.toNat_lt
  rw [recPos_eq_iff (by omega)]
  omega

/-- Different identifiers address different positions. -/
theorem recPos_inj {a b : UInt32} : recPos a = recPos b ↔ a = b := by
  constructor
  · intro h
    have ha := a.toNat_lt
    have hb := b.toNat_lt
    simp only [recPos, UInt32.toNat_sub, UInt32.toNat_one] at h
    exact UInt32.toNat_inj.mp (by omega)
  · rintro rfl; rfl

/-- The next identifier does not wrap while there is room. -/
theorem nextRecId_toNat {l : List α} (h : l.length < 2 ^ 32 - 1) :
    (nextRecId l).toNat = l.length + 1 := by
  simp only [nextRecId, UInt32.toNat_add, UInt32.toNat_ofNat', UInt32.toNat_one]
  omega

/-- The next record goes to the end. -/
theorem recPos_nextRecId {l : List α} (h : l.length < 2 ^ 32 - 1) :
    recPos (nextRecId l) = l.length := by
  rw [recPos_eq_iff h, nextRecId_toNat h]

/-! ## writing -/

/-- Inside the list a record is replaced. -/
theorem writeAt_of_lt {zero : α} {l : List α} {i : Nat} {x : α} (h : i < l.length) :
    writeAt zero l i x = l.set i x := if_pos h

/-- At its end one is appended. -/
theorem writeAt_length {zero : α} {l : List α} {x : α} :
    writeAt zero l l.length x = l ++ [x] := by
  simp [writeAt]

/-- A record with the next identifier is appended. -/
theorem writeRec_nextRecId {zero : α} {l : List α} {x : α} (h : l.length < 2 ^ 32 - 1) :
    writeRec zero l (nextRecId l) x = l ++ [x] := by
  rw [writeRec, recPos_nextRecId h, writeAt_length]

/-- Reading a mapped list. -/
theorem readRec_map (f : α → β) (l : List α) (id : UInt32) :
    (readRec l id).map f = readRec (l.map f) id := (List.getElem?_map ..).symm

/-- What is read of a file is read when it has grown. -/
theorem readRec_of_prefix {l l' : List α} {id : UInt32} {x : α} (h : l <+: l')
    (hx : readRec l id = some x) : readRec l' id = some x := by
  obtain ⟨s, rfl⟩ := h
  rw [readRec, List.getElem?_append_left (List.getElem?_eq_some_iff.mp hx).1]
  exact hx

/-- A record of an appended file is an old one or the new one. -/
theorem getElem?_concat_eq_some {l : List α} {x y : α} {i : Nat} (h : (l ++ [x])[i]? = some y) :
    l[i]? = some y ∨ i = l.length ∧ y = x := by
  rw [List.getElem?_append] at h
  split at h
  · exact .inl h
  · rw [List.getElem?_singleton] at h
    split at h
    · exact .inr ⟨by omega, (Option.some.inj h).symm⟩
    · cases h

/-- No record has the next identifier yet. -/
theorem readRec_nextRecId {l : List α} (h : l.length < 2 ^ 32 - 1) :
    readRec l (nextRecId l) = none := by
  rw [readRec, recPos_nextRecId h, List.getElem?_eq_none le_rfl]

/-- What is read after a record with the next identifier is appended. -/
theorem readRec_append {l : List α} {x : α} (h : l.length < 2 ^ 32 - 1) (id : UInt32) :
    readRec (l ++ [x]) id = if id = nextRecId l then some x else readRec l id := by
  have hpos := recPos_nextRecId h
  split
  · next hid => rw [hid, readRec, hpos, List.getElem?_concat_length]
  · next hid =>
      have hne : recPos id ≠ l.length := fun he => hid (recPos_inj.mp (he.trans hpos.symm))
      rcases Nat.lt_or_gt_of_ne hne with hlt | hgt
      · rw [readRec, List.getElem?_append_left hlt, readRec]
      · rw [readRec, readRec, List.getElem?_eq_none (by simp; omega),
          List.getElem?_eq_none (by omega)]

/-- Whatever is in the file after a write was there before, was written, or is
a zero-filled record. -/
theorem mem_writeAt {zero : α} {l : List α} {i : Nat} {x y : α} (h : y ∈ writeAt zero l i x) :
    y ∈ l ∨ y = zero ∨ y = x := by
  unfold writeAt at h
  split at h
  · exact (List.mem_or_eq_of_mem_set h).imp id .inr
  · simp only [List.mem_append, List.mem_replicate, List.mem_singleton] at h
    tauto

/-- Writing drops nothing. -/
theorem length_le_length_writeAt (zero : α) (l : List α) (i : Nat) (x : α) :
    l.length ≤ (writeAt zero l i x).length := by
  unfold writeAt
  split <;> simp

/-- What was written is read. -/
theorem getElem?_writeAt_self (zero : α) (l : List α) (i : Nat) (x : α) :
    (writeAt zero l i x)[i]? = some x := by
  unfold writeAt
  split
  · next h => simp [h]
  · next h =>
      rw [List.getElem?_append_right (by simp; omega)]
      simp only [List.length_append, List.length_replicate]
      rw [show i - (l.length + (i - l.length)) = 0 by omega]
      rfl

/-- The other records stay. -/
theorem getElem?_writeAt_ne {zero : α} {l : List α} {i j : Nat} {x : α} (hj : j < l.length)
    (h : i ≠ j) : (writeAt zero l i x)[j]? = l[j]? := by
  unfold writeAt
  split
  · exact List.getElem?_set_ne h
  · rw [List.append_assoc, List.getElem?_append_left hj]

/-- What was written is what is read back. -/
theorem readRec_writeRec_self (zero : α) (l : List α) (id : UInt32) (x : α) :
    readRec (writeRec zero l id x) id = some x :=
  getElem?_writeAt_self zero l (recPos id) x

/-- A write leaves the other records of the file as they were. -/
theorem readRec_writeRec_ne {zero : α} {l : List α} {a b : UInt32} {x : α}
    (hb : (readRec l b).isSome) (h : a ≠ b) :
    readRec (writeRec zero l a x) b = readRec l b :=
  getElem?_writeAt_ne (by simpa [readRec] using hb) fun he => h (recPos_inj.mp he)

/-- Overwriting a record that can be read changes what reads at its identifier
and nothing else. -/
theorem readRec_writeRec {zero : α} {l : List α} {a b : UInt32} {x : α}
    (ha : (readRec l a).isSome) :
    readRec (writeRec zero l a x) b = if a = b then some x else readRec l b := by
  have hlt : recPos a < l.length := by simpa [readRec] using ha
  by_cases hab : a = b
  · subst hab
    rw [if_pos rfl, readRec_writeRec_self]
  · rw [if_neg hab, writeRec, writeAt_of_lt hlt, readRec, readRec,
      List.getElem?_set_ne fun he => hab (recPos_inj.mp he)]

/-! ## two files whose records are related -/

section Related

variable {R : α → β → Prop} {l : List α} {l' : List β} {x zero : α} {y zero' : β}

/-- Replacing related elements keeps lists related. -/
theorem forall₂_set (h : List.Forall₂ R l l') (hxy : R x y) (i : Nat) :
    List.Forall₂ R (l.set i x) (l'.set i y) := by
  induction h generalizing i with
  | nil => exact .nil
  | cons hab h ih =>
      cases i with
      | zero => exact .cons hxy h
      | succ i => exact .cons hab (ih i)

theorem forall₂_replicate (hxy : R x y) (n : Nat) :
    List.Forall₂ R (List.replicate n x) (List.replicate n y) := by
  induction n with
  | zero => exact .nil
  | succ n ih => exact .cons hxy ih

/-- Related lists agree on what some element satisfies. -/
theorem forall₂_any {p : α → Bool} {q : β → Bool} (h : List.Forall₂ R l l')
    (hpq : ∀ {a b}, R a b → p a = q b) : l.any p = l'.any q := by
  induction h with
  | nil => rfl
  | cons hab _ ih => rw [List.any_cons, List.any_cons, hpq hab, ih]

/-- Related lists have related elements. -/
theorem forall₂_getElem? (h : List.Forall₂ R l l') (i : Nat) : Option.Rel R l[i]? l'[i]? := by
  induction h generalizing i with
  | nil => simpa only [List.getElem?_nil] using Option.Rel.none
  | cons hab _ ih =>
      cases i with
      | zero => exact .some hab
      | succ i => simpa using ih i

/-- What is found first is related. -/
theorem forall₂_find? {p : α → Bool} {q : β → Bool} (h : List.Forall₂ R l l')
    (hpq : ∀ {a b}, R a b → p a = q b) : Option.Rel R (l.find? p) (l'.find? q) := by
  induction h with
  | nil => exact .none
  | @cons a b _ _ hab _ ih =>
      rw [List.find?_cons, List.find?_cons, hpq hab]
      cases q b with
      | true => exact .some hab
      | false => exact ih

/-- It is found at the same place. -/
theorem forall₂_findIdx? {p : α → Bool} {q : β → Bool} (h : List.Forall₂ R l l')
    (hpq : ∀ {a b}, R a b → p a = q b) : l.findIdx? p = l'.findIdx? q := by
  induction h with
  | nil => rfl
  | cons hab _ ih => rw [List.findIdx?_cons, List.findIdx?_cons, hpq hab, ih]

/-- A write keeps the records related. -/
theorem forall₂_writeAt (h : List.Forall₂ R l l') (hzero : R zero zero') (hxy : R x y)
    (i : Nat) : List.Forall₂ R (writeAt zero l i x) (writeAt zero' l' i y) := by
  rw [writeAt, writeAt, h.length_eq]
  split
  · exact forall₂_set h hxy _
  · exact List.rel_append (List.rel_append h (forall₂_replicate hzero _)) (.cons hxy .nil)

/-- Writing related records keeps lists related. -/
theorem forall₂_writeRec (h : List.Forall₂ R l l') (hzero : R zero zero') (hxy : R x y)
    (id : UInt32) : List.Forall₂ R (writeRec zero l id x) (writeRec zero' l' id y) :=
  forall₂_writeAt h hzero hxy (recPos id)

end Related

/-! ## overwriting by identifier -/

/-- Replace every record that carries the identifier of `x` by `x`. -/
def overwrite (idOf : α → UInt32) (x : α) (l : List α) : List α :=
  l.map fun z => if idOf z = idOf x then x else z

section Overwrite

variable {idOf : α → UInt32} {l : List α} {x y : α}

/-- Overwriting keeps the number of records. -/
@[simp] theorem length_overwrite : (overwrite idOf x l).length = l.length := by
  simp [overwrite]

/-- What is there after overwriting is the new record, or one with another identifier. -/
theorem mem_overwrite (h : y ∈ overwrite idOf x l) : y = x ∨ y ∈ l ∧ idOf y ≠ idOf x := by
  obtain ⟨z, hz, rfl⟩ := List.mem_map.mp h
  split
  · exact .inl rfl
  · next hne => exact .inr ⟨hz, hne⟩

/-- The new record is there if one with its identifier was. -/
theorem mem_overwrite_self (hy : y ∈ l) (hid : idOf x = idOf y) : x ∈ overwrite idOf x l :=
  List.mem_map.mpr ⟨y, hy, by simp [hid]⟩

/-- The others are there still. -/
theorem mem_overwrite_of_ne (hy : y ∈ l) (hid : idOf y ≠ idOf x) : y ∈ overwrite idOf x l :=
  List.mem_map.mpr ⟨y, hy, by simp [hid]⟩

/-- A write leaves alone what it does not change of the records it replaces. -/
theorem map_overwrite {f : α → β} (hf : ∀ z ∈ l, idOf z = idOf x → f x = f z) :
    (overwrite idOf x l).map f = l.map f := by
  rw [overwrite, List.map_map]
  refine List.map_congr_left fun z hz => ?_
  simp only [Function.comp]
  split
  · next hid => exact hf z hz hid
  · rfl

/-- A sum over the records changes by what the overwritten record counts for. -/
theorem sum_map_overwrite {M : Type} [AddCommMonoid M] (f : α → M)
    (hnd : (l.map idOf).Nodup) (hy : y ∈ l) (hid : idOf x = idOf y) :
    ((overwrite idOf x l).map f).sum + f y = (l.map f).sum + f x := by
  induction l with
  | nil => simp at hy
  | cons z l ih =>
      rw [List.map_cons, List.nodup_cons] at hnd
      simp only [overwrite, List.map_cons, List.sum_cons] at ih ⊢
      by_cases hz : idOf z = idOf x
      · have hzy : y = z := by
          rcases List.mem_cons.mp hy with h | h
          · exact h
          · exact absurd (List.mem_map_of_mem (f := idOf) h) (by rw [← hid, ← hz]; exact hnd.1)
        have hrest : (l.map fun w => if idOf w = idOf x then x else w) = l := by
          refine (List.map_congr_left fun w hw => ?_).trans (List.map_id l)
          have hne : idOf w ≠ idOf x := fun he =>
            hnd.1 (hz ▸ he ▸ List.mem_map_of_mem (f := idOf) hw)
          simp [hne]
        rw [hrest, if_pos hz, hzy]
        abel
      · have hy' : y ∈ l := by
          rcases List.mem_cons.mp hy with h | h
          · exact absurd (h ▸ hid.symm) hz
          · exact h
        rw [if_neg hz, add_assoc, ih hnd.2 hy', add_assoc]

/-- Records with different identifiers are written in either order. -/
theorem overwrite_comm (h : idOf x ≠ idOf y) :
    overwrite idOf x (overwrite idOf y l) = overwrite idOf y (overwrite idOf x l) := by
  simp only [overwrite, List.map_map]
  refine List.map_congr_left fun z _ => ?_
  simp only [Function.comp]
  by_cases hx : idOf z = idOf x
  · simp [hx, h]
  · by_cases hy : idOf z = idOf y
    · simp [hy, h.symm]
    · simp [hx, hy]

end Overwrite

/-! ## numbered files -/

/-- The record at position `i` carries the identifier `i + 1`. -/
def Numbered (idOf : α → UInt32) (l : List α) : Prop :=
  ∀ i x, l[i]? = some x → (idOf x).toNat = i + 1

section Numbered

variable {idOf : α → UInt32} {l : List α}

instance : Decidable (Numbered idOf l) :=
  decidable_of_iff (∀ i : Fin l.length, (idOf l[i]).toNat = i + 1)
    ⟨fun h i x hx => by
      obtain ⟨hi, rfl⟩ := List.getElem?_eq_some_iff.mp hx
      exact h ⟨i, hi⟩, fun h i => h i l[i] (List.getElem?_eq_getElem i.isLt)⟩

theorem numbered_nil : Numbered idOf ([] : List α) := by
  intro i x h
  simp at h

/-- A numbered file has no more records than 32 bits can number. -/
theorem Numbered.length_lt (h : Numbered idOf l) : l.length < 2 ^ 32 := by
  rcases Nat.eq_zero_or_pos l.length with h0 | hpos
  · omega
  · have hx := h (l.length - 1) l[l.length - 1] (List.getElem?_eq_getElem (by omega))
    have hlt := (idOf l[l.length - 1]).toNat_lt
    omega

/-- No record of a numbered file carries the identifier `0`. -/
theorem Numbered.ne_zero (h : Numbered idOf l) {x : α} (hx : x ∈ l) : idOf x ≠ 0 := by
  obtain ⟨i, hi, rfl⟩ := List.getElem_of_mem hx
  have hid := h i _ (List.getElem?_eq_getElem hi)
  intro he
  rw [he] at hid
  simp at hid

/-- In a numbered file an identifier reads the record that carries it. -/
theorem Numbered.readRec_eq_some (h : Numbered idOf l) {id : UInt32} {x : α} :
    readRec l id = some x ↔ x ∈ l ∧ idOf x = id := by
  have hlen := h.length_lt
  constructor
  · intro hr
    have hmem : x ∈ l := List.mem_of_getElem? hr
    have hpos : recPos id < l.length := (List.getElem?_eq_some_iff.mp hr).1
    have hid := h _ _ hr
    refine ⟨hmem, UInt32.toNat_inj.mp ?_⟩
    have hpos' : id.toNat = recPos id + 1 := (recPos_eq_iff (by omega)).mp rfl
    omega
  · rintro ⟨hmem, rfl⟩
    obtain ⟨i, hi, rfl⟩ := List.getElem_of_mem hmem
    have hid := h i _ (List.getElem?_eq_getElem hi)
    have hpos : recPos (idOf l[i]) = i := (recPos_eq_iff (by omega)).mpr hid
    rw [readRec, hpos]
    exact List.getElem?_eq_getElem hi

/-- Records of a numbered file that carry one identifier are one record. -/
theorem Numbered.eq_of_id (h : Numbered idOf l) {x y : α} (hx : x ∈ l) (hy : y ∈ l)
    (hid : idOf x = idOf y) : x = y := by
  have hrx := h.readRec_eq_some.mpr ⟨hx, hid⟩
  have hry := h.readRec_eq_some.mpr ⟨hy, rfl⟩
  exact Option.some.inj (hrx.symm.trans hry)

/-- Overwriting a record of a numbered file replaces the record that carries
its identifier. -/
theorem Numbered.writeRec_eq_overwrite (h : Numbered idOf l) {zero x y : α} (hy : y ∈ l)
    (hid : idOf x = idOf y) : writeRec zero l (idOf x) x = overwrite idOf x l := by
  have hlen := h.length_lt
  obtain ⟨i, hi, rfl⟩ := List.getElem_of_mem hy
  have hidi := h i _ (List.getElem?_eq_getElem hi)
  have hpos : recPos (idOf x) = i := (recPos_eq_iff (by omega)).mpr (by rw [hid]; exact hidi)
  rw [writeRec, hpos, writeAt_of_lt hi]
  refine List.ext_getElem? fun j => ?_
  rw [overwrite, List.getElem?_map, List.getElem?_set]
  by_cases hij : i = j
  · subst hij
    simp [hi, ← hid]
  · rw [if_neg hij]
    cases hz : l[j]? with
    | none => rfl
    | some z =>
        have hidj := h j z hz
        have hne : idOf z ≠ idOf x := by
          intro he
          rw [he, hid] at hidj
          omega
        simp [hne]

/-- What is read after a record of a numbered file is replaced. -/
theorem Numbered.readRec_overwrite (h : Numbered idOf l) {x y : α} (hy : y ∈ l)
    (hid : idOf x = idOf y) (id : UInt32) :
    readRec (OnlineAuction.overwrite idOf x l) id =
      if id = idOf x then some x else readRec l id := by
  have hread : readRec l (idOf x) = some y := h.readRec_eq_some.mpr ⟨hy, hid.symm⟩
  have hwrite : writeRec x l (idOf x) x = OnlineAuction.overwrite idOf x l :=
    h.writeRec_eq_overwrite hy hid
  rw [← hwrite, readRec_writeRec (by rw [hread]; rfl)]
  exact if_congr eq_comm rfl rfl

/-- Overwriting a record keeps the file numbered. -/
theorem Numbered.overwrite (h : Numbered idOf l) (x : α) :
    Numbered idOf (overwrite idOf x l) := by
  intro i z hz
  rw [OnlineAuction.overwrite, List.getElem?_map] at hz
  obtain ⟨w, hw, rfl⟩ := Option.map_eq_some_iff.mp hz
  have hidw := h i w hw
  split
  · next he => rw [← he]; exact hidw
  · exact hidw

/-- The identifiers of a numbered file are pairwise different. -/
theorem Numbered.nodup (h : Numbered idOf l) : (l.map idOf).Nodup := by
  rw [List.Nodup, List.pairwise_map, List.pairwise_iff_getElem]
  intro i j hi hj hij heq
  have hidi := h i _ (List.getElem?_eq_getElem hi)
  have hidj := h j _ (List.getElem?_eq_getElem hj)
  rw [heq] at hidi
  omega

end Numbered

end OnlineAuction
