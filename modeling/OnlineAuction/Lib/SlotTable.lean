import OnlineAuction.Lib.RecordFile

/-!
# OnlineAuction.Lib.SlotTable

Tables whose records are slots: in use by an owner, or vacant.

`Occupied l i k` says that slot `i` is in use by `k`.  A slot is claimed or given up by
writing it (`occupied_writeAt`); `OnePerOwner` says that nobody has two.
-/

namespace OnlineAuction

section SlotTable

variable {α κ : Type} (active : α → Bool) (owner : α → κ)

/-- Slot `i` is in use by `k`. -/
def Occupied (l : List α) (i : Nat) (k : κ) : Prop :=
  ∃ x, l[i]? = some x ∧ active x = true ∧ owner x = k

/-- Some slot is in use by `k`. -/
def InUse (l : List α) (k : κ) : Prop := ∃ i, Occupied active owner l i k

/-- Nobody has two slots. -/
def OnePerOwner (l : List α) : Prop :=
  ∀ i j k, Occupied active owner l i k → Occupied active owner l j k → i = j

/-- Slot `i` is not in use; this is so past the end. -/
def Vacant (l : List α) (i : Nat) : Prop := ∀ x, l[i]? = some x → active x = false

variable {active owner} {l : List α} {zero x : α} {i j : Nat} {k k' : κ}

/-- A slot has one owner. -/
theorem Occupied.owner_eq (h : Occupied active owner l i k) (h' : Occupied active owner l i k') :
    k = k' := by
  obtain ⟨x, hx, -, rfl⟩ := h
  obtain ⟨y, hy, -, rfl⟩ := h'
  rw [hx] at hy
  rw [Option.some.inj hy]

/-- And is not free then. -/
theorem Occupied.not_vacant (h : Occupied active owner l i k) : ¬ Vacant active l i := by
  obtain ⟨x, hx, hactive, -⟩ := h
  intro hvacant
  rw [hvacant x hx] at hactive
  cases hactive

/-- It is a slot of the table. -/
theorem Occupied.lt (h : Occupied active owner l i k) : i < l.length := by
  obtain ⟨x, hx, -⟩ := h
  exact (List.getElem?_eq_some_iff.mp hx).1

/-! ## searching -/

/-- A slot that is found by its owner is occupied. -/
theorem occupied_of_findIdx? [DecidableEq κ]
    (h : l.findIdx? (fun x => active x && owner x == k) = some i) :
      Occupied active owner l i k := by
  obtain ⟨hi, hp, -⟩ := List.findIdx?_eq_some_iff_getElem.mp h
  simp only [Bool.and_eq_true, beq_iff_eq] at hp
  exact ⟨l[i], List.getElem?_eq_getElem hi, hp⟩

/-- None is found when the owner has none. -/
theorem findIdx?_eq_none_iff_inUse [DecidableEq κ] :
    l.findIdx? (fun x => active x && owner x == k) = none ↔ ¬ InUse active owner l k := by
  rw [List.findIdx?_eq_none_iff]
  constructor
  · rintro h ⟨i, x, hx, hactive, rfl⟩
    simpa [hactive] using h x (List.mem_of_getElem? hx)
  · intro h x hx
    obtain ⟨i, hi, rfl⟩ := List.getElem_of_mem hx
    by_contra hne
    simp only [Bool.and_eq_false_iff, not_or, Bool.not_eq_false, beq_iff_eq] at hne
    exact h ⟨i, l[i], List.getElem?_eq_getElem hi, hne⟩

/-- The free slot that is found is free. -/
theorem vacant_of_findIdx? (h : l.findIdx? (fun x => !active x) = some i) :
    Vacant active l i ∧ i < l.length := by
  obtain ⟨hi, hp, -⟩ := List.findIdx?_eq_some_iff_getElem.mp h
  refine ⟨fun x hx => ?_, hi⟩
  rw [List.getElem?_eq_getElem hi] at hx
  rw [← Option.some.inj hx]
  simpa using hp

/-! ## writing a slot -/

/-- A slot is written in the table or at its end. -/
theorem getElem?_writeAt (hi : i ≤ l.length) :
    (writeAt zero l i x)[j]? = if j = i then some x else l[j]? := by
  split
  · next hji => rw [hji, getElem?_writeAt_self]
  · next hji =>
      rcases Nat.lt_or_ge j l.length with hlt | hge
      · exact getElem?_writeAt_ne hlt (Ne.symm hji)
      · rw [List.getElem?_eq_none hge, List.getElem?_eq_none_iff]
        unfold writeAt
        split
        · rwa [List.length_set]
        · simp only [List.length_append, List.length_replicate, List.length_singleton]
          omega

/-- The table does not grow beyond where its slots are written. -/
theorem length_writeAt_le {n : Nat} (hi : i ≤ l.length) (hn : i < n) :
    (writeAt zero l i x).length ≤ max l.length n := by
  rcases Nat.lt_or_eq_of_le hi with hlt | rfl
  · rw [writeAt_of_lt hlt, List.length_set]
    omega
  · rw [writeAt_length, List.length_append, List.length_singleton]
    omega

/-- Who is where after a slot is written. -/
theorem occupied_writeAt (hi : i ≤ l.length) : Occupied active owner (writeAt zero l i x) j k ↔
    if j = i then active x = true ∧ owner x = k else Occupied active owner l j k := by
  unfold Occupied
  rw [getElem?_writeAt hi]
  split <;> simp

/-- A vacant slot is claimed. -/
theorem inUse_claim (hi : i ≤ l.length) (hvacant : Vacant active l i) (hx : active x = true) :
    InUse active owner (writeAt zero l i x) k ↔ owner x = k ∨ InUse active owner l k := by
  constructor
  · rintro ⟨j, hj⟩
    rw [occupied_writeAt hi] at hj
    split at hj
    · exact .inl hj.2
    · exact .inr ⟨j, hj⟩
  · rintro (rfl | ⟨j, hj⟩)
    · exact ⟨i, (occupied_writeAt hi).mpr (by simp [hx])⟩
    · have hne : j ≠ i := by
        rintro rfl
        exact hj.not_vacant hvacant
      exact ⟨j, (occupied_writeAt hi).mpr (by simpa [hne] using hj)⟩

/-- Claiming a slot for a new owner leaves each at most one. -/
theorem OnePerOwner.claim (h : OnePerOwner active owner l) (hi : i ≤ l.length)
    (hnew : ¬ InUse active owner l (owner x)) : OnePerOwner active owner (writeAt zero l i x) := by
  intro j j' k hj hj'
  rw [occupied_writeAt hi] at hj hj'
  split at hj <;> split at hj'
  · next hji hji' => rw [hji, hji']
  · exact absurd ⟨j', hj.2 ▸ hj'⟩ hnew
  · exact absurd ⟨j, hj'.2 ▸ hj⟩ hnew
  · exact h j j' k hj hj'

/-- So does taking over one that is there. -/
theorem OnePerOwner.set (h : OnePerOwner active owner l) (hi : i < l.length)
    (hnew : ¬ InUse active owner l (owner x)) : OnePerOwner active owner (l.set i x) := by
  have hclaim : OnePerOwner active owner (writeAt x l i x) := h.claim hi.le hnew
  rwa [writeAt_of_lt hi] at hclaim

/-! ## giving up a slot -/

/-- The table after `k` has given up a slot, if there was one. -/
inductive Released (active : α → Bool) (owner : α → κ) (l : List α) (k : κ) : List α → Prop
  | none (h : ¬ InUse active owner l k) : Released active owner l k l
  | some {zero x : α} {i : Nat} (hi : Occupied active owner l i k) (hx : active x = false) :
      Released active owner l k (writeAt zero l i x)

variable {l' : List α}

/-- Writing an inactive entry over the owner's releases it. -/
theorem Released.set (hi : Occupied active owner l i k) (hx : active x = false) :
    Released active owner l k (l.set i x) := by
  have hsome : Released active owner l k (writeAt x l i x) := .some hi hx
  rwa [writeAt_of_lt hi.lt] at hsome

/-- What is in use after a release was so before. -/
theorem Released.occupied (h : Released active owner l k l') (hj : Occupied active owner l' j k') :
    Occupied active owner l j k' := by
  cases h with
  | none => exact hj
  | some hi hx =>
      rw [occupied_writeAt (Nat.le_of_lt hi.lt)] at hj
      split at hj
      · simp [hx] at hj
      · exact hj

/-- Releasing leaves each at most one. -/
theorem Released.onePerOwner (h : Released active owner l k l') (hl : OnePerOwner active owner l) :
    OnePerOwner active owner l' :=
  fun i j k' hi hj => hl i j k' (h.occupied hi) (h.occupied hj)

/-- The owner then has none. -/
theorem Released.not_inUse (h : Released active owner l k l') (hl : OnePerOwner active owner l) :
    ¬ InUse active owner l' k := by
  rintro ⟨j, hj⟩
  have hold := h.occupied hj
  cases h with
  | none hnone => exact hnone ⟨j, hold⟩
  | some hi hx =>
      obtain rfl := hl _ _ _ hold hi
      rw [occupied_writeAt (Nat.le_of_lt hi.lt)] at hj
      simp [hx] at hj

/-- The others keep their slots. -/
theorem Released.inUse_of_ne (h : Released active owner l k l') (hne : k' ≠ k)
    (hk' : InUse active owner l k') : InUse active owner l' k' := by
  cases h with
  | none => exact hk'
  | @some _ _ i hi hx =>
      obtain ⟨j, hj⟩ := hk'
      have hji : j ≠ i := by
        rintro rfl
        exact hne (hj.owner_eq hi)
      exact ⟨j, (occupied_writeAt (Nat.le_of_lt hi.lt)).mpr (by rwa [if_neg hji])⟩

/-- A record that is in use after a release was there before. -/
theorem Released.mem (h : Released active owner l k l') (hx : x ∈ l') (hactive : active x = true) :
    x ∈ l := by
  cases h with
  | none => exact hx
  | some hi hzero =>
      obtain ⟨j, hj⟩ := List.mem_iff_getElem?.mp hx
      rw [getElem?_writeAt (Nat.le_of_lt hi.lt)] at hj
      split at hj
      · rw [← Option.some.inj hj, hzero] at hactive
        cases hactive
      · exact List.mem_of_getElem? hj

end SlotTable

end OnlineAuction
