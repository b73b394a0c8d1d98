import Mathlib.Tactic.Common

/-!
# OnlineAuction.Lib.CString

Fixed-size character arrays and the C string functions on them.

A `char a[n]` is a list of exactly `n` bytes (`CharArray n`), so an array of
the wrong size cannot be built.  A C string is what precedes the first NUL
byte; `strncmp` and `strncpy` look at no more than a given number of bytes.
-/

namespace OnlineAuction

/-- A character array of `n` bytes. -/
def CharArray (n : Nat) : Type := { bs : List UInt8 // bs.length = n }

namespace CharArray

variable {n : Nat}

instance : DecidableEq (CharArray n) := inferInstanceAs (DecidableEq (Subtype _))

/-- The array that starts with `bs`, cut or filled with NUL bytes to size `n`. -/
def ofBytes (n : Nat) (bs : List UInt8) : CharArray n :=
  ⟨(bs ++ List.replicate n 0).take n, by simp⟩

/-- The array after `memset(a, 0, n)`. -/
def zero (n : Nat) : CharArray n := ofBytes n []

instance : Inhabited (CharArray n) := ⟨zero n⟩

/-- A character array has its length. -/
@[simp] theorem length_val (a : CharArray n) : a.val.length = n := a.property

end CharArray

/-- The bytes of a text. -/
def ascii (s : String) : List UInt8 := s.toList.map fun c => .ofNat c.toNat

/-- The C string at the start of `bs`: the bytes before the first NUL. -/
def cString (bs : List UInt8) : List UInt8 := bs.takeWhile (· ≠ 0)

/-- `strncmp(a, b, n) == 0`. -/
def strncmpEq (n : Nat) (a b : List UInt8) : Bool :=
  cString (a.take n) == cString (b.take n)

/-- `strncpy(dst, src, n)`: the string of `src`, cut to `n` bytes or filled
with NUL bytes up to `n`; the bytes of `dst` from `n` on stay. -/
def strncpy {m : Nat} (dst : CharArray m) (src : List UInt8) (n : Nat) : CharArray m :=
  let s := cString (src.take n)
  .ofBytes m (s ++ List.replicate (n - s.length) 0 ++ dst.val.drop n)

/-! ## lemmas -/

section Strings

variable {a b : List UInt8}

/-- What follows the NUL is no part of the string. -/
theorem cString_append_of_mem (h : 0 ∈ a) : cString (a ++ b) = cString a := by
  induction a with
  | nil => cases h
  | cons x a ih =>
      by_cases hx : x = 0
      · simp [cString, hx]
      · have ha : 0 ∈ a := by simpa [Ne.symm hx] using h
        have hx' : decide (x ≠ 0) = true := by simpa using hx
        simp only [cString, List.cons_append, List.takeWhile_cons, hx', if_true]
        exact congrArg (x :: ·) (ih ha)

/-- Without a NUL the string goes on. -/
theorem cString_append (h : 0 ∉ a) : cString (a ++ b) = a ++ cString b :=
  List.takeWhile_append_of_pos fun x hx => by
    have hne : x ≠ 0 := fun h0 => h (h0 ▸ hx)
    simpa using hne

/-- Or takes all there is. -/
theorem cString_of_not_mem (h : 0 ∉ a) : cString a = a := by
  simpa [cString] using cString_append (b := []) h

/-- A NUL ends the string. -/
theorem cString_append_zero (a b : List UInt8) : cString (a ++ 0 :: b) = cString a := by
  by_cases h : 0 ∈ a
  · exact cString_append_of_mem h
  · rw [cString_append h, cString_of_not_mem h]
    simp [cString]

/-- What follows an array matters to the string in it if the array has no NUL. -/
theorem cString_append_eq_iff (a : List UInt8) {b c : List UInt8} :
    cString (a ++ b) = cString (a ++ c) ↔ 0 ∈ a ∨ cString b = cString c := by
  by_cases h : 0 ∈ a
  · simp [cString_append_of_mem h, h]
  · simp [cString_append h, h]

/-- A string is empty when its first byte is NUL, or there is none. -/
theorem cString_eq_nil_iff : cString a = [] ↔ ∀ x ∈ a.head?, x = 0 := by
  cases a with
  | nil => simp [cString]
  | cons x a => simp [cString, List.takeWhile_cons]

/-- The first byte decides that. -/
theorem cString_take_eq_nil {n : Nat} (hn : 0 < n) : cString (a.take n) = [] ↔ cString a = [] := by
  rw [cString_eq_nil_iff, cString_eq_nil_iff, List.head?_take, if_neg (Nat.ne_of_gt hn)]

/-- What follows an empty string does not matter. -/
theorem cString_append_of_eq_nil (hb : b ≠ []) (h : cString b = []) :
    cString (a ++ b) = cString a := by
  cases b with
  | nil => exact absurd rfl hb
  | cons x b =>
      obtain rfl : x = 0 := cString_eq_nil_iff.mp h x rfl
      exact cString_append_zero a b

/-- A string is a beginning of its array. -/
theorem cString_prefix_self (a : List UInt8) : cString a <+: a := List.takeWhile_prefix _

/-- There is no NUL in a string. -/
theorem zero_not_mem_cString (a : List UInt8) : 0 ∉ cString a := by
  intro h
  induction a with
  | nil => cases h
  | cons x a ih =>
      by_cases hx : x = 0
      · simp [cString, hx] at h
      · have hx' : decide (x ≠ 0) = true := by simpa using hx
        simp only [cString, List.takeWhile_cons, hx', if_true, List.mem_cons] at h
        rcases h with h | h
        · exact hx h.symm
        · exact ih h

/-- A string without its NUL is shorter than the array. -/
theorem length_cString_lt (h : 0 ∈ a) : (cString a).length < a.length := by
  have hprefix := cString_prefix_self a
  refine Nat.lt_of_le_of_ne hprefix.length_le fun hlength => ?_
  have hall : cString a = a := hprefix.eq_of_length hlength
  exact zero_not_mem_cString a (hall.symm ▸ h)

/-- Padding with NULs adds nothing. -/
theorem cString_pad {n : Nat} (h : 0 ∉ a) : cString (a ++ List.replicate n 0) = a := by
  rw [cString_append h]
  cases n <;> simp [cString, List.replicate_succ]

/-- Whether the last byte is cut off does not matter to a string that ends in the array. -/
theorem cString_take_of_mem {n : Nat} (hlength : a.length = n + 1) (h : 0 ∈ a) :
    cString (a.take n) = cString a := by
  by_cases hmem : 0 ∈ a.take n
  · conv_rhs => rw [← List.take_append_drop n a, cString_append_of_mem hmem]
  · have hlast : cString (a.drop n) = [] := by
      have hone : (a.drop n).length = 1 := by simp [hlength]
      obtain ⟨x, hx⟩ := List.length_eq_one_iff.mp hone
      rw [← List.take_append_drop n a, List.mem_append, hx] at h
      have hzero : x = 0 := by
        rcases h with h | h
        · exact absurd h hmem
        · exact (List.mem_singleton.mp h).symm
      rw [hx, hzero]
      rfl
    conv_rhs => rw [← List.take_append_drop n a, cString_append hmem, hlast, List.append_nil]
    exact cString_of_not_mem hmem

end Strings

section Arrays

variable {m n : Nat}

/-- `strncmp` over the whole arrays compares the strings. -/
theorem strncmpEq_iff {a b : CharArray m} :
    strncmpEq m a.val b.val = true ↔ cString a.val = cString b.val := by
  rw [strncmpEq, List.take_of_length_le (Nat.le_of_eq a.length_val),
    List.take_of_length_le (Nat.le_of_eq b.length_val), beq_iff_eq]

/-- Bytes that are too few are padded. -/
theorem CharArray.ofBytes_val {bs : List UInt8} (h : bs.length ≤ n) :
    (CharArray.ofBytes n bs).val = bs ++ List.replicate (n - bs.length) 0 := by
  rw [CharArray.ofBytes]
  simp [List.take_append, List.take_of_length_le h, List.take_replicate]

/-- Bytes that fill the array are in it. -/
theorem CharArray.val_ofBytes {bs : List UInt8} (h : bs.length = n) :
    (CharArray.ofBytes n bs).val = bs := by
  rw [ofBytes_val (Nat.le_of_eq h), h, Nat.sub_self, List.replicate_zero, List.append_nil]

/-- `strncpy` copies the string, pads it and leaves the rest of the array. -/
theorem strncpy_val (dst : CharArray m) (src : List UInt8) (h : n ≤ m) :
    (strncpy dst src n).val = cString (src.take n) ++
      List.replicate (n - (cString (src.take n)).length) 0 ++ dst.val.drop n := by
  have hstring : (cString (src.take n)).length ≤ n :=
    Nat.le_trans (cString_prefix_self _).length_le (List.length_take_le n src)
  have hlength : (cString (src.take n) ++ List.replicate (n - (cString (src.take n)).length) 0 ++
      dst.val.drop n).length = m := by
    simp only [List.length_append, List.length_replicate, List.length_drop, CharArray.length_val]
    omega
  rw [strncpy, CharArray.ofBytes_val (Nat.le_of_eq hlength), hlength, Nat.sub_self,
    List.replicate_zero, List.append_nil]

/-- Copied into zeros it is the string, cut to its length. -/
theorem cString_strncpy_zero (src : List UInt8) (h : n ≤ m) :
    cString (strncpy (.zero m) src n).val = cString (src.take n) := by
  have hzero : (CharArray.zero m).val = List.replicate m 0 := by
    rw [CharArray.zero, CharArray.ofBytes_val (Nat.zero_le m)]
    simp
  rw [strncpy_val _ src h, hzero, List.drop_replicate, List.append_assoc,
    List.replicate_append_replicate, cString_pad (zero_not_mem_cString _)]

/-- Over the whole of an array nothing of what it held is left. -/
theorem cString_strncpy_self (dst : CharArray m) (src : List UInt8) :
    cString (strncpy dst src m).val = cString (src.take m) := by
  have hdrop : dst.val.drop m = [] := List.drop_eq_nil_of_le (Nat.le_of_eq dst.length_val)
  rw [strncpy_val dst src (Nat.le_refl m), hdrop, List.append_nil,
    cString_pad (zero_not_mem_cString _)]

end Arrays
end OnlineAuction
