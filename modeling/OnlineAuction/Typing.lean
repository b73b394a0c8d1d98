import OnlineAuction.Lib.Decimal
import OnlineAuction.Lib.Memory

/-!
# OnlineAuction.Typing

What the client reads from its user.

`read_line` takes a line of `stdin` into an array: what does not fit stays for the next call.
`read_int` and `read_double` convert a line of at most 30 or 62 characters.  A line that fits its
array is a `Line`, which is read as a whole, with its newline.
-/

namespace OnlineAuction

/-! ## the input helpers -/

/-- `read_line`; the array stays as it is at the end of the input. -/
def readLine {n : Nat} (buf : CharArray n) (stdin : List UInt8) : CharArray n × List UInt8 :=
  if stdin = [] then (buf, stdin)
  else
    let line := fgets (n - 1) stdin
    let buf := buf.store 0 (line ++ [0])
    (buf.store (strcspnNewline buf.val) [0], stdin.drop line.length)

section Numbers

-- what an array holds that is not initialized, and `atof` with the bytes of its `double`
variable (stack : (n : Nat) → CharArray n) (atof : List UInt8 → CharArray 8)

/-- `read_int` -/
def readInt (stdin : List UInt8) : Int32 × List UInt8 :=
  let (b, stdin) := readLine (stack 32) stdin
  (.ofInt (atoi (cString b.val)), stdin)

/-- `read_double` -/
def readDouble (stdin : List UInt8) : CharArray 8 × List UInt8 :=
  let (b, stdin) := readLine (stack 64) stdin
  (atof (cString b.val), stdin)

/-- `read_line` into a member of a structure. -/
def readField {size : Nat} (f : Field size) (p : CharArray size) (stdin : List UInt8) :
    CharArray size × List UInt8 :=
  let (b, stdin) := readLine (f.get p) stdin
  (f.set p b.val, stdin)

end Numbers

/-! ## lines that fit -/

/-- A line for an array of `n` bytes, with room for the newline and the NUL. -/
structure Line (n : Nat) where
  text : List UInt8
  clean : ∀ c ∈ text, c ≠ 0 ∧ c ≠ 10
  short : text.length + 1 < n

/-- The line as it is typed. -/
def Line.typed {n : Nat} (l : Line n) : List UInt8 := l.text ++ [10]

/-- The array that holds the line. -/
def Line.array {n : Nat} (l : Line n) : CharArray n := .ofBytes n l.text

/-- A number as it is typed. -/
def typedInt (i : Int32) : List UInt8 := decimal i.toInt ++ [10]

section Reading

variable {n : Nat} {buf : CharArray n} {line more : List UInt8}

/-- `fgets` takes a line with its newline. -/
theorem fgets_newline (h : 10 ∉ line) (hlength : line.length < n) :
    fgets n (line ++ 10 :: more) = line ++ [10] := by
  induction line generalizing n with
  | nil =>
      obtain ⟨n, rfl⟩ := Nat.exists_eq_succ_of_ne_zero (Nat.ne_of_gt hlength)
      rfl
  | cons c cs ih =>
      obtain ⟨hc, hcs⟩ := List.ne_and_not_mem_of_not_mem_cons h
      obtain ⟨n, rfl⟩ := Nat.exists_eq_succ_of_ne_zero (Nat.ne_of_gt (Nat.zero_lt_of_lt hlength))
      rw [List.cons_append, fgets, if_neg hc.symm, ih hcs (Nat.lt_of_succ_lt_succ hlength)]
      rfl

/-- `read_line` on a line that fits. -/
theorem readLine_text (h0 : 0 ∉ line) (h10 : 10 ∉ line) (hlength : line.length + 1 < n) :
    readLine buf (line ++ 10 :: more) = (buf.store 0 (line ++ [0, 0]), more) := by
  have hne : line ++ 10 :: more ≠ [] := by simp
  have hfgets : fgets (n - 1) (line ++ 10 :: more) = line ++ [10] := fgets_newline h10 (by omega)
  have hval : (buf.store 0 (line ++ [10] ++ [0])).val =
      line ++ 10 :: 0 :: buf.val.drop (line.length + 2) := by
    rw [CharArray.val_store (by simp; omega)]
    simp
  have hcspn : strcspnNewline (line ++ 10 :: 0 :: buf.val.drop (line.length + 2)) =
      line.length := by
    have hline : ∀ c ∈ line, decide (c ≠ 0 ∧ c ≠ 10) = true := fun c hc => by
      rw [decide_eq_true_iff]
      exact ⟨fun h => h0 (h ▸ hc), fun h => h10 (h ▸ hc)⟩
    rw [strcspnNewline, List.takeWhile_append_of_pos hline, List.takeWhile_cons_of_neg (by decide),
      List.append_nil]
  have hstore : (buf.store 0 (line ++ [10] ++ [0])).store line.length [0] =
      buf.store 0 (line ++ [0, 0]) := by
    refine Subtype.ext ?_
    rw [CharArray.val_store (by simp; omega), hval, CharArray.val_store (by simp; omega)]
    simp
  simp only [readLine, if_neg hne, hfgets, hval, hcspn, hstore]
  simp

/-- The string in the buffer is the line. -/
theorem cString_line {line : List UInt8} (h0 : 0 ∉ line) (hlength : line.length + 1 < n) :
    cString (buf.store 0 (line ++ [0, 0])).val = line := by
  rw [CharArray.val_store (by simp; omega)]
  simp only [List.take_zero, List.nil_append, List.append_assoc, List.cons_append]
  rw [cString_append h0]
  simp [cString]

variable {stack : (n : Nat) → CharArray n} {atof : List UInt8 → CharArray 8}

theorem Line.not_mem (l : Line n) : 0 ∉ l.text ∧ 10 ∉ l.text :=
  ⟨fun h => (l.clean 0 h).1 rfl, fun h => (l.clean 10 h).2 rfl⟩

/-- `read_line` stores the line without its newline. -/
theorem readLine_line (l : Line n) :
    readLine buf (l.typed ++ more) = (buf.store 0 (l.text ++ [0, 0]), more) := by
  rw [Line.typed, List.append_assoc, List.singleton_append,
    readLine_text l.not_mem.1 l.not_mem.2 l.short]

/-- The array holds the line. -/
theorem cString_array (l : Line n) : cString l.array.val = l.text := by
  have hshort := l.short
  rw [Line.array, CharArray.ofBytes_val (by omega), cString_pad l.not_mem.1]

/-- `read_double` gives what `atof` makes of the line. -/
theorem readDouble_line (l : Line 64) :
    readDouble stack atof (l.typed ++ more) = (atof l.text, more) := by
  rw [readDouble, readLine_line]
  simp only [cString_line l.not_mem.1 l.short]

/-- A character of a numeral. -/
theorem not_mem_decimal (i : Int) : 0 ∉ decimal i ∧ 10 ∉ decimal i := by
  have hdigits (c : UInt8) (hc : isDigit c = false) : c ∉ unsigned i.natAbs := fun h => by
    rw [isDigit_of_mem_unsigned h] at hc
    cases hc
  rw [decimal]
  split <;> simp [hdigits 0 rfl, hdigits 10 rfl]

theorem length_decimal_le {i : Int} (hlow : -2 ^ 31 ≤ i) (hhigh : i < 2 ^ 31) :
    (decimal i).length ≤ 11 := by
  have hdigits : (unsigned i.natAbs).length ≤ 10 := length_unsigned_le (by omega) (by omega)
  rw [decimal]
  split
  · rw [List.length_cons]
    omega
  · omega

/-- **A number is read as it is typed.** -/
theorem readInt_typedInt (i : Int32) : readInt stack (typedInt i ++ more) = (i, more) := by
  have hlow := i.le_toInt
  have hhigh := i.toInt_lt
  have hlength := length_decimal_le hlow hhigh
  obtain ⟨h0, h10⟩ := not_mem_decimal i.toInt
  have hread : atoi (decimal i.toInt ++ []) = i.toInt :=
    atoi_decimal hlow hhigh (by simp [NoDigit])
  rw [List.append_nil] at hread
  rw [readInt, typedInt, List.append_assoc, List.singleton_append,
    readLine_text h0 h10 (by omega)]
  simp only [cString_line h0 (show (decimal i.toInt).length + 1 < 32 by omega), hread,
    Int32.ofInt_toInt]

/-- A line is read into a member that is filled with NUL bytes. -/
theorem readField_line {size : Nat} {f : Field size} {p : CharArray size} (l : Line f.width)
    (hzero : f.get p = .zero f.width) :
    readField f p (l.typed ++ more) = (f.set p l.array.val, more) := by
  rw [readField, readLine_line, hzero]
  have hval : (CharArray.zero f.width).store 0 (l.text ++ [0, 0]) = l.array := by
    have hshort := l.short
    refine Subtype.ext ?_
    rw [CharArray.val_store (by simp; omega), CharArray.val_zero, Line.array,
      CharArray.ofBytes_val (by omega)]
    have hpad : f.width - l.text.length = 2 + (f.width - (l.text.length + 2)) := by omega
    simp [hpad, List.replicate_add]
  simp only [hval]

end Reading

end OnlineAuction
