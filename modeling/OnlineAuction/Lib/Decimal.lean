import Mathlib.Data.Nat.Digits.Lemmas
import Mathlib.Tactic.Ring

/-!
# OnlineAuction.Lib.Decimal

Decimal numerals, as C prints and reads them.

`decimal` is what `%d` prints of an `int`, and `atoi` reads a numeral from the beginning of a
string: blanks, a sign, and the digits up to the first other character.  What was printed is read
back, whatever follows it that is not a digit (`atoi_decimal`).
-/

namespace OnlineAuction

/-! ## printing -/

/-- The character of a digit. -/
def digitChar (d : Nat) : UInt8 := .ofNat (48 + d)

/-- What `%u` prints. -/
def unsigned (n : Nat) : List UInt8 :=
  if n = 0 then [digitChar 0] else (Nat.digits 10 n).reverse.map digitChar

/-- What `%d` prints. -/
def decimal (i : Int) : List UInt8 :=
  if i < 0 then 45 :: unsigned i.natAbs else unsigned i.natAbs

/-! ## reading -/

/-- `isdigit` -/
def isDigit (c : UInt8) : Bool := 48 ≤ c.toNat && c.toNat ≤ 57

/-- `isspace` -/
def isSpace (c : UInt8) : Bool := c == 32 || (9 ≤ c.toNat && c.toNat ≤ 13)

/-- The digits at the beginning of a string, after those that make `acc`. -/
def readDigits : Nat → List UInt8 → Nat
  | acc, [] => acc
  | acc, c :: cs => if isDigit c then readDigits (10 * acc + (c.toNat - 48)) cs else acc

/-- A sign and digits. -/
def readSigned : List UInt8 → Int
  | [] => 0
  | c :: cs =>
      if c = 45 then -(readDigits 0 cs)
      else if c = 43 then readDigits 0 cs
      else readDigits 0 (c :: cs)

/-- `strtol(s, NULL, 10)`, which stops at the limits of a `long`. -/
def strtol (s : List UInt8) : Int :=
  max (-2 ^ 63) (min (2 ^ 63 - 1) (readSigned (s.dropWhile isSpace)))

/-- `atoi`: `(int) strtol(s, NULL, 10)`. -/
def atoi (s : List UInt8) : Int := (strtol s).bmod (2 ^ 32)

/-! ## what was printed is read back -/

section Digits

variable {d n : Nat} {i : Int} {rest : List UInt8}

theorem toNat_digitChar (h : d < 10) : (digitChar d).toNat = 48 + d := by
  rw [digitChar, UInt8.toNat_ofNat']
  omega

theorem isDigit_digitChar (h : d < 10) : isDigit (digitChar d) = true := by
  simp [isDigit, toNat_digitChar h]
  omega

/-- No digit comes next. -/
def NoDigit (s : List UInt8) : Prop := ∀ c ∈ s.head?, isDigit c = false

/-- Reading stops where no digit is. -/
theorem readDigits_of_noDigit (acc : Nat) (h : NoDigit rest) : readDigits acc rest = acc := by
  cases rest with
  | nil => rfl
  | cons c cs => rw [readDigits, h c rfl, if_neg Bool.false_ne_true]

/-- Digits are read one after another. -/
theorem readDigits_digits (l : List Nat) (hl : ∀ d ∈ l, d < 10) (acc : Nat) (rest : List UInt8) :
    readDigits acc (l.reverse.map digitChar ++ rest) =
      readDigits (acc * 10 ^ l.length + Nat.ofDigits 10 l) rest := by
  induction l generalizing rest with
  | nil => simp
  | cons d l ih =>
      have hd : d < 10 := hl d (List.mem_cons_self ..)
      have hrest := ih (fun x hx => hl x (List.mem_cons_of_mem _ hx)) (digitChar d :: rest)
      rw [List.reverse_cons, List.map_append, List.append_assoc, List.map_singleton,
        List.singleton_append, hrest, readDigits, isDigit_digitChar hd, if_pos rfl,
        toNat_digitChar hd, Nat.ofDigits_cons, List.length_cons, Nat.pow_succ]
      congr 1
      have hsub : 48 + d - 48 = d := by omega
      rw [hsub]
      ring

/-- Digits are read back with whatever follows that is none. -/
theorem readDigits_unsigned (n : Nat) (h : NoDigit rest) :
    readDigits 0 (unsigned n ++ rest) = n := by
  rw [unsigned]
  split
  · next hn =>
      have hzero : readDigits 0 ([digitChar 0] ++ rest) = readDigits 0 rest := rfl
      rw [hzero, readDigits_of_noDigit 0 h, hn]
  · rw [readDigits_digits _ fun d hd => Nat.digits_lt_base (by omega) hd,
      readDigits_of_noDigit _ h, Nat.ofDigits_digits]
    omega

/-- A numeral begins with a digit. -/
theorem unsigned_eq_cons (n : Nat) : ∃ c cs, unsigned n = c :: cs ∧ isDigit c = true := by
  rw [unsigned]
  split
  · exact ⟨digitChar 0, [], rfl, rfl⟩
  · next hn =>
      have hne : (Nat.digits 10 n).reverse ≠ [] := by
        simpa [Nat.digits_eq_nil_iff_eq_zero] using hn
      obtain ⟨d, l, heq⟩ := List.exists_cons_of_ne_nil hne
      have hd : d ∈ Nat.digits 10 n := by
        rw [← List.mem_reverse, heq]
        exact List.mem_cons_self ..
      exact ⟨digitChar d, l.map digitChar, by rw [heq, List.map_cons],
        isDigit_digitChar (Nat.digits_lt_base (by omega) hd)⟩

theorem isDigit_of_mem_unsigned {c : UInt8} (h : c ∈ unsigned n) : isDigit c = true := by
  rw [unsigned] at h
  split at h
  · obtain rfl := List.mem_singleton.mp h
    rfl
  · obtain ⟨d, hd, rfl⟩ := List.mem_map.mp h
    exact isDigit_digitChar (Nat.digits_lt_base (by omega) (List.mem_reverse.mp hd))

/-- A numeral has no more characters than this. -/
theorem length_unsigned_le {k : Nat} (h : n < 10 ^ k) (hk : 0 < k) : (unsigned n).length ≤ k := by
  rw [unsigned]
  split
  · exact hk
  · rw [List.length_map, List.length_reverse]
    exact (Nat.digits_length_le_iff (by omega) n).mpr h

/-- So is a number with its sign. -/
theorem readSigned_decimal (i : Int) (h : NoDigit rest) : readSigned (decimal i ++ rest) = i := by
  rw [decimal]
  split
  · rw [List.cons_append, readSigned, if_pos rfl, readDigits_unsigned _ h]
    omega
  · obtain ⟨c, cs, heq, hc⟩ := unsigned_eq_cons i.natAbs
    have hread := readDigits_unsigned i.natAbs h
    have hminus : c ≠ 45 := by
      rintro rfl
      cases hc
    have hplus : c ≠ 43 := by
      rintro rfl
      cases hc
    rw [heq, List.cons_append] at hread ⊢
    rw [readSigned, if_neg hminus, if_neg hplus, hread]
    omega

/-- **What was printed is read back.** -/
theorem atoi_decimal (hlow : -2 ^ 31 ≤ i) (hhigh : i < 2 ^ 31) (h : NoDigit rest) :
    atoi (decimal i ++ rest) = i := by
  have hspace : (decimal i ++ rest).dropWhile isSpace = decimal i ++ rest := by
    obtain ⟨c, cs, heq, hc⟩ := unsigned_eq_cons i.natAbs
    have hblank : isSpace c = false := by
      simp only [isDigit, Bool.and_eq_true, decide_eq_true_eq] at hc
      have h32 : c ≠ 32 := by
        rintro rfl
        simp at hc
      simp [isSpace, h32]
      omega
    rw [decimal]
    split
    · rfl
    · rw [heq, List.cons_append, List.dropWhile_cons_of_neg (by simp [hblank])]
  rw [atoi, strtol, hspace, readSigned_decimal i h, Int.bmod_eq_of_le] <;> omega

end Digits

end OnlineAuction
