import Mathlib.Algebra.Order.Round
import Mathlib.Data.Rat.Floor
import Mathlib.Tactic.Linarith
import OnlineAuction.Lib.CString
import OnlineAuction.Lib.Decimal

/-!
# OnlineAuction.Lib.Printf

The formats of `printf` that print words, integers, strings and amounts with two decimals, and
texts of lines.

`fixed2` is what `%.2f` prints: the nearest number of hundredths, of two the even one.  Read back,
an amount is `hundredths` of what was printed, which is at most half a hundredth away.  A text is
read line by line; what follows its last newline is no line, so that of a text that was cut short
the first lines are read (`splitLines_prefix`).
-/

namespace OnlineAuction.Printf

/-! ## amounts -/

/-- The nearest integer; of two the even one. -/
def nearestEven (x : ℚ) : Int :=
  if x - ⌊x⌋ < 1 / 2 then ⌊x⌋
  else if 1 / 2 < x - ⌊x⌋ then ⌊x⌋ + 1
  else if ⌊x⌋ % 2 = 0 then ⌊x⌋ else ⌊x⌋ + 1

/-- The number of hundredths that is printed. -/
def cents (x : ℚ) : Nat := (nearestEven (|x| * 100)).toNat

/-- The last two digits of a number. -/
def twoDigits (n : Nat) : List UInt8 := [digitChar (n / 10 % 10), digitChar (n % 10)]

/-- What `%.2f` prints. -/
def fixed2 (x : ℚ) : List UInt8 :=
  (if x < 0 then [45] else []) ++ unsigned (cents x / 100) ++ 46 :: twoDigits (cents x)

/-- The amount that was printed. -/
def hundredths (x : ℚ) : ℚ := if x < 0 then -(cents x / 100) else cents x / 100

/-- Digits, a point and two digits at the end of a line. -/
def readUnsigned2 (bs : List UInt8) : Option Nat :=
  match bs.dropWhile isDigit with
  | [point, a, b] =>
      if point = 46 ∧ isDigit a ∧ isDigit b then
        some (readDigits 0 bs * 100 + (a.toNat - 48) * 10 + (b.toNat - 48))
      else none
  | _ => none

/-- An amount at the end of a line. -/
def readFixed2 (bs : List UInt8) : Option ℚ :=
  if bs.head? = some 45 then (readUnsigned2 bs.tail).map fun (n : Nat) => -((n : ℚ) / 100)
  else (readUnsigned2 bs).map fun (n : Nat) => (n : ℚ) / 100

section Amounts

/-- Rounding moves by a half at most. -/
theorem abs_nearestEven_sub_le (x : ℚ) : |(nearestEven x : ℚ) - x| ≤ 1 / 2 := by
  have hle := Int.floor_le x
  have hlt := Int.lt_floor_add_one x
  rw [abs_le, nearestEven]
  split
  · constructor <;> linarith
  · split
    · push_cast
      constructor <;> linarith
    · split
      · constructor <;> linarith
      · push_cast
        constructor <;> linarith

/-- It keeps the sign. -/
theorem nearestEven_nonneg {x : ℚ} (h : 0 ≤ x) : 0 ≤ nearestEven x := by
  have hfloor : 0 ≤ ⌊x⌋ := Int.floor_nonneg.mpr h
  rw [nearestEven]
  split_ifs <;> omega

theorem cast_cents (x : ℚ) : (cents x : ℚ) = (nearestEven (|x| * 100) : ℚ) := by
  have hnonneg : 0 ≤ nearestEven (|x| * 100) := nearestEven_nonneg (by positivity)
  rw [cents, ← Int.cast_natCast, Int.toNat_of_nonneg hnonneg]

/-- What is printed is at most half a hundredth away. -/
theorem abs_hundredths_sub_le (x : ℚ) : |hundredths x - x| ≤ 1 / 200 := by
  have hnear := abs_le.mp (abs_nearestEven_sub_le (|x| * 100))
  rw [← cast_cents] at hnear
  rw [hundredths, abs_le]
  split
  · next hneg =>
      rw [abs_of_neg hneg] at hnear
      constructor <;> linarith
  · next hpos =>
      rw [abs_of_nonneg (not_lt.mp hpos)] at hnear
      constructor <;> linarith

/-- The part before the point has a digit more at most. -/
theorem cents_div_le {x : ℚ} {k : Nat} (h : |x| < 10 ^ k) : cents x / 100 < 10 ^ (k + 1) := by
  have hnear := abs_le.mp (abs_nearestEven_sub_le (|x| * 100))
  rw [← cast_cents] at hnear
  have hcast : (cents x : ℚ) < 100 * 10 ^ k + 1 := by linarith
  have hnat : cents x < 100 * 10 ^ k + 1 := by exact_mod_cast hcast
  have hpow : 0 < 10 ^ k := by positivity
  rw [pow_succ]
  omega

/-- So much room a number takes. -/
theorem length_fixed2_le {x : ℚ} {k : Nat} (h : |x| < 10 ^ k) : (fixed2 x).length ≤ k + 5 := by
  have hdigits : (unsigned (cents x / 100)).length ≤ k + 1 :=
    length_unsigned_le (cents_div_le h) (Nat.succ_pos k)
  have hsign : (if x < 0 then [(45 : UInt8)] else []).length ≤ 1 := by
    split
    · exact Nat.le_refl 1
    · exact Nat.zero_le 1
  rw [fixed2, List.length_append, List.length_append, List.length_cons, twoDigits,
    List.length_cons, List.length_singleton]
  omega

/-- An identifier takes ten digits at most. -/
theorem length_unsigned_toNat_le (n : UInt32) : (unsigned n.toNat).length ≤ 10 := by
  have hlt := n.toNat_lt
  exact length_unsigned_le (by omega) (by omega)

/-- The digits of a number are passed over. -/
theorem dropWhile_unsigned (n : Nat) {rest : List UInt8} (h : NoDigit rest) :
    (unsigned n ++ rest).dropWhile isDigit = rest := by
  rw [List.dropWhile_append_of_pos fun c hc => isDigit_of_mem_unsigned hc]
  cases rest with
  | nil => rfl
  | cons c cs => rw [List.dropWhile_cons_of_neg (by rw [h c rfl]; exact Bool.false_ne_true)]

/-- The digits around the point are read back. -/
theorem readUnsigned2_append (n : Nat) :
    readUnsigned2 (unsigned (n / 100) ++ 46 :: twoDigits n) = some n := by
  have hpoint : NoDigit (46 :: twoDigits n) := fun c hc => by
    obtain rfl := Option.some.inj hc
    rfl
  have hten : n / 10 % 10 < 10 := Nat.mod_lt _ (by omega)
  have hone : n % 10 < 10 := Nat.mod_lt _ (by omega)
  rw [readUnsigned2, dropWhile_unsigned _ hpoint, readDigits_unsigned _ hpoint, twoDigits]
  show (if (46 : UInt8) = 46 ∧ _ then _ else _) = _
  rw [if_pos ⟨rfl, isDigit_digitChar hten, isDigit_digitChar hone⟩, toNat_digitChar hten,
    toNat_digitChar hone]
  congr 1
  omega

/-- **Round trip** of an amount. -/
theorem readFixed2_fixed2 (x : ℚ) : readFixed2 (fixed2 x) = some (hundredths x) := by
  rw [fixed2, hundredths]
  split
  · have hread : readFixed2 (45 :: (unsigned (cents x / 100) ++ 46 :: twoDigits (cents x))) =
        (readUnsigned2 (unsigned (cents x / 100) ++ 46 :: twoDigits (cents x))).map
          fun (n : Nat) => -((n : ℚ) / 100) := if_pos rfl
    rw [List.append_assoc, List.singleton_append, hread, readUnsigned2_append]
    rfl
  · obtain ⟨c, cs, heq, hc⟩ := unsigned_eq_cons (cents x / 100)
    rw [readFixed2, List.nil_append, if_neg, readUnsigned2_append]
    · rfl
    · rw [heq]
      rintro ⟨⟩
      cases hc

end Amounts

/-! ## formats -/

/-- A piece of a format, with the argument that it prints. -/
inductive Piece
  | lit (text : List UInt8)
  | u (n : UInt32)
  | d (i : Int)
  | d2 (n : Nat)
  | s (string : List UInt8)
  | f (x : ℚ)

namespace Piece

/-- What is printed of a piece: `%u`, `%d` or `%ld`, `%02d`, `%s` and `%.2f`. -/
def print : Piece → List UInt8
  | .lit text => text
  | .u n => unsigned n.toNat
  | .d i => decimal i
  | .d2 n => twoDigits n
  | .s string => cString string
  | .f x => fixed2 x

/-- The characters that are given satisfy a condition. -/
def given (P : UInt8 → Bool) : Piece → Bool
  | .lit text => text.all P
  | .s string => (cString string).all P
  | _ => true

end Piece

/-- What `snprintf` leaves in a buffer. -/
def snprintf (size : Nat) (format : List Piece) : List UInt8 :=
  (format.flatMap Piece.print).take (size - 1)

section Formats

variable {P : UInt8 → Bool}

/-- What is printed of numbers are digits, signs and points. -/
theorem Piece.all_print (hdigit : ∀ c, isDigit c = true → P c = true) (hminus : P 45 = true)
    (hpoint : P 46 = true) (p : Piece) (hp : p.given P = true) : p.print.all P = true := by
  have hunsigned (n : Nat) : ∀ c ∈ unsigned n, P c = true := fun c hc =>
    hdigit c (isDigit_of_mem_unsigned hc)
  have htwo (n : Nat) : ∀ c ∈ twoDigits n, P c = true := by
    intro c hc
    rw [twoDigits, List.mem_cons, List.mem_singleton] at hc
    rcases hc with rfl | rfl
    · exact hdigit _ (isDigit_digitChar (Nat.mod_lt _ (by omega)))
    · exact hdigit _ (isDigit_digitChar (Nat.mod_lt _ (by omega)))
  cases p with
  | lit text => exact hp
  | s string => exact hp
  | u n => exact List.all_eq_true.mpr (hunsigned _)
  | d2 n => exact List.all_eq_true.mpr (htwo n)
  | d i =>
      rw [print, decimal, List.all_eq_true]
      split
      · exact List.forall_mem_cons.mpr ⟨hminus, hunsigned _⟩
      · exact hunsigned _
  | f x =>
      have hsign : ∀ c ∈ (if x < 0 then [(45 : UInt8)] else []), P c = true := by
        intro c hc
        split at hc
        · obtain rfl := List.mem_singleton.mp hc
          exact hminus
        · cases hc
      rw [print, fixed2, List.all_eq_true]
      exact List.forall_mem_append.mpr ⟨List.forall_mem_append.mpr ⟨hsign, hunsigned _⟩,
        List.forall_mem_cons.mpr ⟨hpoint, htwo _⟩⟩

/-- What a format prints is what its pieces may. -/
theorem all_flatMap_print (hdigit : ∀ c, isDigit c = true → P c = true) (hminus : P 45 = true)
    (hpoint : P 46 = true) {format : List Piece} (h : format.all (Piece.given P) = true) :
    ∀ c ∈ format.flatMap Piece.print, P c = true := by
  intro c hc
  obtain ⟨p, hp, hc⟩ := List.mem_flatMap.mp hc
  exact List.all_eq_true.mp
    (p.all_print hdigit hminus hpoint (List.all_eq_true.mp h p hp)) c hc

/-- `snprintf` leaves room for the NUL. -/
theorem length_snprintf_le (size : Nat) (format : List Piece) :
    (snprintf size format).length ≤ size - 1 := List.length_take_le _ _

/-- A text that fits is not cut. -/
theorem snprintf_of_length_lt {size : Nat} {format : List Piece}
    (h : (format.flatMap Piece.print).length < size) :
    snprintf size format = format.flatMap Piece.print :=
  List.take_of_length_le (by omega)

end Formats

/-! ## lines -/

/-- The lines of a text that end, where `current` has been read of the first, in reverse. -/
def splitLines : List UInt8 → List UInt8 → List (List UInt8)
  | _, [] => []
  | current, c :: cs =>
      if c = 10 then current.reverse :: splitLines [] cs else splitLines (c :: current) cs

section Lines

/-- A line ends at its newline. -/
theorem splitLines_append {line : List UInt8} (h : 10 ∉ line) (current rest : List UInt8) :
    splitLines current (line ++ 10 :: rest) = (current.reverse ++ line) :: splitLines [] rest := by
  induction line generalizing current with
  | nil => simp [splitLines]
  | cons c line ih =>
      have hc : c ≠ 10 := fun hc => h (hc ▸ List.mem_cons_self)
      have hline : 10 ∉ line := fun hmem => h (List.mem_cons_of_mem _ hmem)
      rw [List.cons_append, splitLines, if_neg hc, ih hline]
      simp

/-- A text that ends with a newline, and what follows it. -/
theorem splitLines_newline (text current rest : List UInt8) :
    splitLines current (text ++ 10 :: rest) =
      splitLines current (text ++ [10]) ++ splitLines [] rest := by
  induction text generalizing current with
  | nil => rfl
  | cons c text ih =>
      simp only [List.cons_append, splitLines]
      split
      · rw [ih, List.cons_append]
      · exact ih (c :: current)

/-- The lines of a text that was cut short are the first ones. -/
theorem splitLines_prefix (current text rest : List UInt8) :
    splitLines current text <+: splitLines current (text ++ rest) := by
  induction text generalizing current with
  | nil => exact List.nil_prefix
  | cons c text ih =>
      rw [List.cons_append, splitLines, splitLines]
      split
      · exact (List.prefix_cons_inj _).mpr (ih [])
      · exact ih (c :: current)

end Lines

end OnlineAuction.Printf
