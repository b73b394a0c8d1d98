import OnlineAuction.Lib.RecordFile

/-!
# OnlineAuction.Lib.Growth

Files of records that are created at their end.

The identifier of a new record is computed from the size of the file, and the record is
written later.  `Grown` says that the file consists of what was there and of the records
made since, each under its own identifier; then a record that was made is read back
(`Grown.readRec`), and no identifier was given to two makers (`Grown.maker_eq`).
-/

namespace OnlineAuction

section Growth

variable {α ι : Type}

/-- The records from position `n` on are those that were made, with their makers. -/
structure Grown (idOf : α → UInt32) (n : Nat) (made : List (ι × α)) (l : List α) : Prop where
  base : n ≤ l.length
  made : l.drop n = made.map Prod.snd
  placed : ∀ i x, n ≤ i → l[i]? = some x → recPos (idOf x) = i

variable {idOf : α → UInt32} {n i : Nat} {made : List (ι × α)} {l : List α} {x y : α} {t t' : ι}

/-- At first nothing has been made. -/
theorem grown_start : Grown idOf l.length ([] : List (ι × α)) l where
  base := le_rfl
  made := by simp
  placed i x hi hx := by
    rw [List.getElem?_eq_none hi] at hx
    cases hx

/-- What was made is at its place. -/
theorem Grown.getElem? (h : Grown idOf n made l) {k : Nat} (hk : made[k]? = some (t, x)) :
    l[n + k]? = some x := by
  rw [← List.getElem?_drop, h.made, List.getElem?_map, hk, Option.map_some]

theorem Grown.recPos (h : Grown idOf n made l) {k : Nat} (hk : made[k]? = some (t, x)) :
    recPos (idOf x) = n + k := h.placed _ _ (Nat.le_add_right n k) (h.getElem? hk)

/-- What is new was made by someone. -/
theorem Grown.exists_maker (h : Grown idOf n made l) (hi : n ≤ i) (hx : l[i]? = some x) :
    ∃ t, (t, x) ∈ made := by
  have hdrop : (l.drop n)[i - n]? = some x := by
    rw [List.getElem?_drop, Nat.add_sub_cancel' hi, hx]
  rw [h.made] at hdrop
  obtain ⟨⟨t, y⟩, hy, rfl⟩ := List.mem_map.mp (List.mem_of_getElem? hdrop)
  exact ⟨t, hy⟩

/-- What was made is read back. -/
theorem Grown.readRec (h : Grown idOf n made l) (hx : (t, x) ∈ made) :
    readRec l (idOf x) = some x := by
  obtain ⟨k, hk⟩ := List.mem_iff_getElem?.mp hx
  rw [OnlineAuction.readRec, h.recPos hk, h.getElem? hk]

/-- An identifier is given to one maker. -/
theorem Grown.maker_eq (h : Grown idOf n made l) (hx : (t, x) ∈ made) (hy : (t', y) ∈ made)
    (hid : idOf x = idOf y) : t = t' := by
  obtain ⟨k, hk⟩ := List.mem_iff_getElem?.mp hx
  obtain ⟨k', hk'⟩ := List.mem_iff_getElem?.mp hy
  have hpos := h.recPos hk
  rw [hid, h.recPos hk'] at hpos
  obtain rfl : k' = k := by omega
  rw [hk] at hk'
  exact (Prod.mk.inj (Option.some.inj hk')).1

/-- A record is made where the file ends. -/
theorem Grown.append (h : Grown idOf n made l) (hx : OnlineAuction.recPos (idOf x) = l.length) :
    Grown idOf n (made ++ [(t, x)]) (l ++ [x]) where
  base := by
    have hbase := h.base
    simp
    omega
  made := by rw [List.drop_append_of_le_length h.base, h.made, List.map_append]; rfl
  placed i y hi hy := by
    rcases getElem?_concat_eq_some hy with hy | ⟨rfl, rfl⟩
    · exact h.placed i y hi hy
    · exact hx

/-- An old record is written. -/
theorem Grown.set (h : Grown idOf n made l) (hi : i < n) : Grown idOf n made (l.set i x) where
  base := by simpa using h.base
  made := by rw [List.drop_set_of_lt hi, h.made]
  placed j y hj hy := by
    rw [List.getElem?_set_ne (by omega)] at hy
    exact h.placed j y hj hy

/-- Reading is not disturbed by what is appended. -/
theorem readRec_append_of_lt {id : UInt32} (h : OnlineAuction.recPos id < l.length) :
    readRec (l ++ [x]) id = readRec l id := by
  rw [readRec, readRec, List.getElem?_append_left h]

end Growth

end OnlineAuction
