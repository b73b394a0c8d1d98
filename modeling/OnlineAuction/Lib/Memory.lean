import OnlineAuction.Lib.CString
import Mathlib.Algebra.Group.Nat.Defs

/-!
# OnlineAuction.Lib.Memory

Objects in memory, byte by byte.

An object is the array of its bytes; `load` and `store` are about the bytes from a position on.
A load gives back what was stored there (`load_store_self`, `load_store_inside`) and, next to a
store, what was there before (`load_store_of_disjoint`).  Numbers are little-endian.  A `Field`
is a range inside of an object of a given size.
-/

namespace OnlineAuction

/-! ## loads and stores -/

namespace CharArray

variable {size : Nat}

/-- The `n` bytes from `i` on. -/
def load (b : CharArray size) (i n : Nat) : List UInt8 := (b.val.drop i).take n

/-- The object with `bs` written from `i` on. -/
def store (b : CharArray size) (i : Nat) (bs : List UInt8) : CharArray size :=
  .ofBytes size (b.val.take i ++ bs ++ b.val.drop (i + bs.length))

section LoadStore

variable {b : CharArray size} {bs : List UInt8} {i j k n : Nat}

/-- A store leaves what is before and behind it. -/
theorem val_store (h : i + bs.length ≤ size) :
    (b.store i bs).val = b.val.take i ++ bs ++ b.val.drop (i + bs.length) := by
  have hlength : (b.val.take i ++ bs ++ b.val.drop (i + bs.length)).length = size := by
    simp only [List.length_append, List.length_take, List.length_drop, length_val]
    omega
  rw [store, ofBytes_val (Nat.le_of_eq hlength), hlength, Nat.sub_self, List.replicate_zero,
    List.append_nil]

/-- A byte after a store. -/
theorem getElem?_store (h : i + bs.length ≤ size) : (b.store i bs).val[j]? =
    if i ≤ j ∧ j < i + bs.length then bs[j - i]? else b.val[j]? := by
  have htake : (b.val.take i).length = i := by
    rw [List.length_take, length_val]
    omega
  rw [val_store h]
  split
  · next hin =>
      rw [List.getElem?_append_left (by rw [List.length_append, htake]; exact hin.2),
        List.getElem?_append_right (by rw [htake]; exact hin.1), htake]
  · next hout =>
      rcases Nat.lt_or_ge j i with hbefore | hafter
      · rw [List.append_assoc, List.getElem?_append_left (by rwa [htake]),
          List.getElem?_take_of_lt hbefore]
      · rw [List.getElem?_append_right (by rw [List.length_append, htake]; omega),
          List.getElem?_drop, List.length_append, htake]
        congr 1
        omega

/-- The bytes that a load reads. -/
theorem getElem?_load : (b.load i n)[k]? = if k < n then b.val[i + k]? else none := by
  rw [load]
  split
  · next h => rw [List.getElem?_take_of_lt h, List.getElem?_drop]
  · next h => rw [List.getElem?_take, if_neg h]

/-- It reads as many as it is asked for. -/
theorem length_load (h : i + n ≤ size) : (b.load i n).length = n := by
  rw [load, List.length_take, List.length_drop, length_val]
  omega

/-- Inside of a store a load gives what was stored. -/
theorem load_store_inside (h : i + bs.length ≤ size) (hin : k + n ≤ bs.length) :
    (b.store i bs).load (i + k) n = (bs.drop k).take n := by
  refine List.ext_getElem? fun m => ?_
  rw [getElem?_load, getElem?_store h]
  split
  · next hm =>
      rw [if_pos (by omega), List.getElem?_take_of_lt hm, List.getElem?_drop]
      congr 1
      omega
  · next hm => rw [List.getElem?_take, if_neg hm]

/-- What was stored is loaded. -/
theorem load_store_self (h : i + bs.length ≤ size) (hn : bs.length = n) :
    (b.store i bs).load i n = bs := by
  have hload := load_store_inside (b := b) (k := 0) (n := n) h (by omega)
  rwa [Nat.add_zero, List.drop_zero, List.take_of_length_le (Nat.le_of_eq hn)] at hload

/-- Next to a store a load gives what was there. -/
theorem load_store_of_disjoint (h : i + bs.length ≤ size) (hn : j + n ≤ i ∨ i + bs.length ≤ j) :
    (b.store i bs).load j n = b.load j n := by
  refine List.ext_getElem? fun m => ?_
  rw [getElem?_load, getElem?_load, getElem?_store h]
  split
  · rw [if_neg (by omega)]
  · rfl

/-- From its place on, the store comes first. -/
theorem drop_store (h : i + bs.length ≤ size) :
    (b.store i bs).val.drop i = bs ++ b.val.drop (i + bs.length) := by
  have htake : (b.val.take i).length = i := by
    rw [List.length_take, length_val]
    omega
  rw [val_store h, List.append_assoc]
  exact List.drop_left' htake

/-- To store what is there changes nothing. -/
theorem store_eq_self (h : i + bs.length ≤ size) (hbs : b.load i bs.length = bs) :
    b.store i bs = b := by
  refine Subtype.ext (List.ext_getElem? fun j => ?_)
  rw [getElem?_store h]
  split
  · next hj =>
      rw [← hbs, getElem?_load, if_pos (by omega)]
      congr 1
      omega
  · rfl

/-- Storing nothing changes nothing. -/
@[simp] theorem store_nil (b : CharArray size) (i : Nat) : b.store i [] = b := by
  rw [store, List.length_nil, Nat.add_zero, List.append_nil, List.take_append_drop]
  exact Subtype.ext (val_ofBytes b.length_val)

/-- A store of two pieces is one of each. -/
theorem store_append {cs : List UInt8} (h : i + bs.length + cs.length ≤ size) :
    b.store i (bs ++ cs) = (b.store i bs).store (i + bs.length) cs := by
  have hboth : i + (bs ++ cs).length ≤ size := by rw [List.length_append]; omega
  refine Subtype.ext (List.ext_getElem? fun j => ?_)
  rw [getElem?_store hboth, getElem?_store h, getElem?_store (by omega), List.length_append,
    List.getElem?_append]
  grind

/-- A load in two pieces. -/
theorem load_append : b.load i (n + k) = b.load i n ++ b.load (i + n) k := by
  rw [load, load, load, List.take_add, List.drop_drop]

/-- `memset` with zero. -/
theorem val_zero (size : Nat) : (CharArray.zero size).val = List.replicate size 0 := by
  rw [zero, ofBytes_val (Nat.zero_le size)]
  simp

/-- Of it zeros are loaded. -/
theorem load_zero (h : i + n ≤ size) : (CharArray.zero size).load i n = List.replicate n 0 := by
  rw [load, val_zero, List.drop_replicate, List.take_replicate, Nat.min_eq_left (by omega)]

end LoadStore
end CharArray

/-! ## fields -/

/-- A field of an object of `size` bytes. -/
structure Field (size : Nat) where
  offset : Nat
  width : Nat
  fits : offset + width ≤ size

namespace Field

variable {size : Nat} {b : CharArray size} {bs : List UInt8} {i : Nat}

/-- The bytes of the field. -/
def get (f : Field size) (b : CharArray size) : CharArray f.width :=
  ⟨b.load f.offset f.width, CharArray.length_load f.fits⟩

/-- The object with `bs` written from the beginning of the field on. -/
def set (f : Field size) (b : CharArray size) (bs : List UInt8) : CharArray size :=
  b.store f.offset bs

/-- Two fields that share no byte. -/
def Apart (f g : Field size) : Prop :=
  f.offset + f.width ≤ g.offset ∨ g.offset + g.width ≤ f.offset

instance (f g : Field size) : Decidable (f.Apart g) := inferInstanceAs (Decidable (_ ∨ _))

variable {f g : Field size}

/-- A member that was set is read. -/
theorem get_set_self (h : bs.length = f.width) : (f.get (f.set b bs)).val = bs :=
  CharArray.load_store_self (by rw [h]; exact f.fits) h

/-- To write the same twice is to write it once. -/
theorem set_set_self (h : bs.length = f.width) : f.set (f.set b bs) bs = f.set b bs := by
  have hfits := f.fits
  exact CharArray.store_eq_self (by omega) (h ▸ CharArray.load_store_self (by omega) h)

/-- The rest of a field that is not written up to its end. -/
theorem get_set_short (h : bs.length ≤ f.width) :
    (f.get (f.set b bs)).val = bs ++ (f.get b).val.drop bs.length := by
  have hfits := f.fits
  have hsplit : f.width = bs.length + (f.width - bs.length) := by omega
  have hget (b : CharArray size) : (f.get b).val =
      b.load f.offset bs.length ++ b.load (f.offset + bs.length) (f.width - bs.length) := by
    rw [← CharArray.load_append, ← hsplit]
    rfl
  have hlength : (b.load f.offset bs.length).length = bs.length :=
    CharArray.length_load (by omega)
  rw [hget, hget b, set, CharArray.load_store_self (by omega) rfl,
    CharArray.load_store_of_disjoint (by omega) (.inr (Nat.le_refl _)),
    List.drop_left' hlength]

/-- The members of a structure of zeros are zero. -/
theorem get_zero (f : Field size) : f.get (.zero size) = .zero f.width :=
  Subtype.ext ((CharArray.load_zero f.fits).trans (CharArray.val_zero _).symm)

/-- A store that stays in a field leaves the fields apart from it alone. -/
theorem get_set_of_apart (hfg : f.Apart g) (h : bs.length ≤ g.width) :
    f.get (g.set b bs) = f.get b := by
  have hfits := g.fits
  refine Subtype.ext (CharArray.load_store_of_disjoint (by omega) ?_)
  rcases hfg with hfg | hfg
  · exact .inl hfg
  · exact .inr (by omega)

end Field

/-! ## objects from the values of their fields -/

/-- A field and what it holds. -/
abbrev Part (size : Nat) : Type := (f : Field size) × CharArray f.width

/-- The object with these parts, and zeros in between. -/
def layOut {size : Nat} : List (Part size) → CharArray size
  | [] => .zero size
  | ⟨f, a⟩ :: parts => f.set (layOut parts) a.val

/-- Where the fields are apart, each holds its part. -/
theorem get_layOut {size : Nat} {parts : List (Part size)} {f : Field size} {a : CharArray f.width}
    (hapart : (parts.map Sigma.fst).Pairwise Field.Apart) (h : ⟨f, a⟩ ∈ parts) :
    f.get (layOut parts) = a := by
  induction parts with
  | nil => cases h
  | cons p parts ih =>
      obtain ⟨hp, hparts⟩ := List.pairwise_cons.mp hapart
      rcases List.mem_cons.mp h with rfl | h
      · exact Subtype.ext (Field.get_set_self a.length_val)
      · have hfp : f.Apart p.1 := (hp f (List.mem_map_of_mem h)).symm
        rw [layOut, Field.get_set_of_apart hfp (Nat.le_of_eq p.2.length_val)]
        exact ih hparts h

/-! ## numbers -/

/-- The number that bytes stand for, least significant first. -/
def ofLe : List UInt8 → Nat
  | [] => 0
  | b :: bs => b.toNat + 256 * ofLe bs

/-- The `n` bytes of a number. -/
def toLe : Nat → Nat → List UInt8
  | 0, _ => []
  | n + 1, x => .ofNat x :: toLe n (x / 256)

/-- A number of `n` bytes. -/
@[simp] theorem length_toLe (n x : Nat) : (toLe n x).length = n := by
  induction n generalizing x with
  | zero => rfl
  | succ n ih => rw [toLe, List.length_cons, ih]

/-- The number read back is cut to its width. -/
theorem ofLe_toLe (n x : Nat) : ofLe (toLe n x) = x % 256 ^ n := by
  induction n generalizing x with
  | zero => rw [Nat.pow_zero, Nat.mod_one]; rfl
  | succ n ih =>
      have hlow : (UInt8.ofNat x).toNat = x % 256 := UInt8.toNat_ofNat'
      rw [toLe, ofLe, ih, hlow, Nat.pow_succ', Nat.mod_mul]

/-- Zeros are the number zero. -/
theorem ofLe_zeros (n : Nat) : ofLe (List.replicate n 0) = 0 := by
  induction n with
  | zero => rfl
  | succ n ih => rw [List.replicate_succ, ofLe, ih]; rfl

/-- And zero is written as zeros. -/
theorem toLe_zero (n : Nat) : toLe n 0 = List.replicate n 0 := by
  induction n with
  | zero => rfl
  | succ n ih => rw [toLe, ih, List.replicate_succ]; rfl

/-! ## strings -/

/-- What `strncpy(dst, src, n)` writes. -/
def strncpyBytes (src : List UInt8) (n : Nat) : List UInt8 :=
  cString (src.take n) ++ List.replicate (n - (cString (src.take n)).length) 0

/-- What `fgets(dst, n + 1, stream)` takes of a stream: up to the end of the line. -/
def fgets : Nat → List UInt8 → List UInt8
  | 0, _ | _, [] => []
  | n + 1, c :: cs => if c = 10 then [c] else c :: fgets n cs

/-- `strcspn(s, "\n")`. -/
def strcspnNewline (s : List UInt8) : Nat := (s.takeWhile fun c => c ≠ 0 ∧ c ≠ 10).length

section Strings

variable {src line rest : List UInt8} {n : Nat}

/-- `strncpy` fills the array. -/
@[simp] theorem length_strncpyBytes : (strncpyBytes src n).length = n := by
  have hstring : (cString (src.take n)).length ≤ n :=
    Nat.le_trans (cString_prefix_self _).length_le (List.length_take_le n src)
  rw [strncpyBytes, List.length_append, List.length_replicate]
  omega

/-- `strncpy` to the beginning of an array. -/
theorem strncpy_val_eq {m : Nat} (dst : CharArray m) (h : n ≤ m) :
    (strncpy dst src n).val = strncpyBytes src n ++ dst.val.drop n :=
  strncpy_val dst src h

/-- `strncpy` to a field. -/
theorem Field.get_set_strncpy {size : Nat} {b : CharArray size} {f : Field size}
    (h : n ≤ f.width) : f.get (f.set b (strncpyBytes src n)) = strncpy (f.get b) src n := by
  refine Subtype.ext ?_
  rw [Field.get_set_short (by rwa [length_strncpyBytes]), strncpy_val_eq _ h, length_strncpyBytes]

/-- `fgets` takes as many bytes as fit when no newline comes. -/
theorem fgets_of_not_mem (h : 10 ∉ line) (hlength : line.length = n) :
    fgets n (line ++ rest) = line := by
  induction line generalizing n with
  | nil => subst hlength; cases rest <;> rfl
  | cons c cs ih =>
      obtain ⟨hc, hcs⟩ := List.ne_and_not_mem_of_not_mem_cons h
      subst hlength
      rw [List.cons_append, List.length_cons, fgets, if_neg hc.symm, ih hcs rfl]

/-- Without a newline the whole string is skipped. -/
theorem strcspnNewline_of_not_mem (h0 : 0 ∉ line) (h10 : 10 ∉ line) :
    strcspnNewline (line ++ 0 :: rest) = line.length := by
  have hline : ∀ c ∈ line, decide (c ≠ 0 ∧ c ≠ 10) = true := fun c hc => by
    rw [decide_eq_true_iff]
    exact ⟨fun h => h0 (h ▸ hc), fun h => h10 (h ▸ hc)⟩
  rw [strcspnNewline, List.takeWhile_append_of_pos hline, List.takeWhile_cons_of_neg (by decide),
    List.append_nil]

end Strings

end OnlineAuction
