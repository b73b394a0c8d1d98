import Mathlib.Algebra.BigOperators.Group.List.Basic
import Mathlib.Algebra.GroupWithZero.Nat
import OnlineAuction.Lib.CString

/-!
# OnlineAuction.Lib.Shell

Token recognition of the POSIX shell.

`step` reads one byte: outside of quotes blanks and operators end a word and `#` begins a
comment; a single quote makes everything literal up to the next one; a double quote leaves
backslashes and expansions alive.  A word is kept as its characters after quote removal, each
with whether it was quoted.  The text does not say what an expansion puts in its place, so there
is no result for one (`$` and the backquote), nor for a quote that is not closed.

A byte adds at most one character to what has been read (`weight_step`).
-/

namespace OnlineAuction.Shell

abbrev newline : UInt8 := 10
abbrev doubleQuote : UInt8 := 34
abbrev hash : UInt8 := 35
abbrev dollar : UInt8 := 36
abbrev singleQuote : UInt8 := 39
abbrev backslash : UInt8 := 92
abbrev backquote : UInt8 := 96

/-- `<blank>`: a space or a tab. -/
def isBlank (c : UInt8) : Bool := c == 32 || c == 9

/-- The control and the redirection operators; a newline counts as one. -/
def operators : List (List UInt8) :=
  [[newline], ascii "&", ascii "&&", ascii "(", ascii ")", ascii ";", ascii ";;", ascii "|",
    ascii "||", ascii "<", ascii ">", ascii "<<", ascii ">>", ascii "<&", ascii ">&", ascii "<>",
    ascii "<<-", ascii ">|"]

/-- Characters, each with whether it was quoted. -/
abbrev Word : Type := List (UInt8 × Bool)

/-- A text without quotes. -/
def unquoted (text : List UInt8) : Word := text.map fun c => (c, false)

/-- A text inside of quotes. -/
def quoted (text : List UInt8) : Word := text.map fun c => (c, true)

inductive Token
  | word (w : Word)
  | op (text : List UInt8)
  deriving DecidableEq

/-- Where a scan is; `escape m` is after a backslash, where it was at `m` before. -/
inductive Mode
  | between
  | plain (w : Word)
  | single (w : Word)
  | double (w : Word)
  | doubleEscape (w : Word)
  | escape (m : Mode)
  | operator (text : List UInt8)
  | comment
  deriving DecidableEq

/-- The tokens that are complete, and where the scan is. -/
structure State where
  tokens : List Token
  mode : Mode
  deriving DecidableEq

/-! ## reading -/

/-- The token that is complete when the next one begins. -/
def Mode.ended : Mode → List Token
  | .plain w => [.word w]
  | .operator text => [.op text]
  | _ => []

/-- The characters of the word that goes on. -/
def Mode.begun : Mode → Word
  | .plain w => w
  | _ => []

/-- A word has begun, if only with quotes around nothing. -/
def Mode.inWord : Mode → Bool
  | .plain _ => true
  | _ => false

/-- The tokens before the word that goes on. -/
def State.before (s : State) : List Token :=
  match s.mode with
  | .operator text => s.tokens ++ [.op text]
  | _ => s.tokens

/-- The same place with more tokens in front. -/
def State.after (pre : List Token) (s : State) : State := { s with tokens := pre ++ s.tokens }

/-- The operator that this byte makes of the one before it. -/
def Mode.extended (m : Mode) (c : UInt8) : Option (List UInt8) :=
  match m with
  | .operator text => if text ++ [c] ∈ operators then some (text ++ [c]) else none
  | _ => none

/-- A byte outside of quotes. -/
def stepPlain (s : State) (c : UInt8) : Option State :=
  if c = singleQuote then some ⟨s.before, .single s.mode.begun⟩
  else if c = doubleQuote then some ⟨s.before, .double s.mode.begun⟩
  else if c = backslash then some ⟨s.tokens, .escape s.mode⟩
  else if c = dollar ∨ c = backquote then none
  else match s.mode.extended c with
    | some text => some ⟨s.tokens, .operator text⟩
    | none =>
        if [c] ∈ operators then some ⟨s.tokens ++ s.mode.ended, .operator [c]⟩
        else if isBlank c then some ⟨s.tokens ++ s.mode.ended, .between⟩
        else if c = hash ∧ s.mode.inWord = false then some ⟨s.tokens ++ s.mode.ended, .comment⟩
        else some ⟨s.before, .plain (s.mode.begun ++ [(c, false)])⟩

/-- The next byte. -/
def step (s : State) (c : UInt8) : Option State :=
  match s.mode with
  | .single w =>
      some ⟨s.tokens, if c = singleQuote then .plain w else .single (w ++ [(c, true)])⟩
  | .double w =>
      if c = doubleQuote then some ⟨s.tokens, .plain w⟩
      else if c = backslash then some ⟨s.tokens, .doubleEscape w⟩
      else if c = dollar ∨ c = backquote then none
      else some ⟨s.tokens, .double (w ++ [(c, true)])⟩
  | .doubleEscape w =>
      if c = newline then some ⟨s.tokens, .double w⟩
      else if c = dollar ∨ c = backquote ∨ c = doubleQuote ∨ c = backslash then
        some ⟨s.tokens, .double (w ++ [(c, true)])⟩
      else some ⟨s.tokens, .double (w ++ [(backslash, true), (c, true)])⟩
  | .escape m =>
      -- the two are taken out before tokens are recognised
      if c = newline then some ⟨s.tokens, m⟩
      else some ⟨State.before ⟨s.tokens, m⟩, .plain (m.begun ++ [(c, true)])⟩
  | .comment => some ⟨s.tokens, if c = newline then .operator [newline] else .comment⟩
  | .between | .plain _ | .operator _ => stepPlain s c

/-- A text from a given state on. -/
def scan : State → List UInt8 → Option State
  | s, [] => some s
  | s, c :: cs => (step s c).bind fun s' => scan s' cs

/-- The tokens at the end of the text. -/
def finish (s : State) : Option (List Token) :=
  match s.mode with
  | .single _ | .double _ | .doubleEscape _ | .escape _ => none
  | .between | .plain _ | .operator _ | .comment => some (s.tokens ++ s.mode.ended)

/-- The tokens of a text, where they are a matter of the text alone. -/
def tokens (text : List UInt8) : Option (List Token) := (scan ⟨[], .between⟩ text).bind finish

/-! ## lemmas -/

section Scan

variable {s s' : State} {ts : List Token} {w : Word} {c : UInt8} {cs cs' : List UInt8}

/-- A text is read piece by piece. -/
theorem scan_append : scan s (cs ++ cs') = (scan s cs).bind fun s' => scan s' cs' := by
  induction cs generalizing s with
  | nil => rfl
  | cons c cs ih =>
      rw [List.cons_append, scan, scan, Option.bind_assoc]
      exact Option.bind_congr fun s' _ => ih

/-- In single quotes everything is literal. -/
theorem scan_single (h : singleQuote ∉ cs) :
    scan ⟨ts, .single w⟩ cs = some ⟨ts, .single (w ++ quoted cs)⟩ := by
  induction cs generalizing w with
  | nil => simp [scan, quoted]
  | cons c cs ih =>
      obtain ⟨hc, hcs⟩ := List.ne_and_not_mem_of_not_mem_cons h
      rw [scan, step]
      simp only [hc.symm, if_false, Option.bind_some]
      rw [ih hcs]
      simp [quoted]

/-- The tokens before come first. -/
theorem before_after (pre : List Token) : (s.after pre).before = pre ++ s.before := by
  cases s with
  | mk ts m => cases m <;> simp [State.before, State.after]

/-- Reading outside quotes does not depend on the tokens before. -/
theorem stepPlain_after (pre : List Token) :
    stepPlain (s.after pre) c = (stepPlain s c).map (State.after pre) := by
  have hmode : (s.after pre).mode = s.mode := rfl
  have htokens : (s.after pre).tokens = pre ++ s.tokens := rfl
  unfold stepPlain
  rw [before_after, hmode, htokens]
  cases s.mode.extended c <;>
    simp only [apply_ite (Option.map _), Option.map_some, Option.map_none, State.after,
      List.append_assoc]

/-- Nor does reading at all. -/
theorem step_after (pre : List Token) :
    step (s.after pre) c = (step s c).map (State.after pre) := by
  cases s with
  | mk ts m =>
      cases m with
      | between => exact stepPlain_after pre
      | plain w => exact stepPlain_after pre
      | operator text => exact stepPlain_after pre
      | escape m =>
          have hbefore := before_after (s := ⟨ts, m⟩) pre
          simp only [State.after] at hbefore
          simp only [step, State.after, apply_ite (Option.map _), Option.map_some, hbefore]
      | _ =>
          simp only [step, State.after, apply_ite (Option.map _), Option.map_some,
            Option.map_none]

/-- What is complete stays as it is. -/
theorem scan_after (pre : List Token) :
    scan (s.after pre) cs = (scan s cs).map (State.after pre) := by
  induction cs generalizing s with
  | nil => rfl
  | cons c cs ih =>
      rw [scan, scan, step_after, Option.bind_map, Option.map_bind]
      exact Option.bind_congr fun s' _ => ih

end Scan

/-! ## how much has been read -/

def Token.weight : Token → Nat
  | .word w => w.length
  | .op text => text.length

/-- The number of characters in tokens. -/
def weight (ts : List Token) : Nat := (ts.map Token.weight).sum

/-- The number of characters that are not in complete tokens yet. -/
def Mode.weight : Mode → Nat
  | .between | .comment => 0
  | .plain w | .single w | .double w => w.length
  | .doubleEscape w => w.length + 1
  | .escape m => m.weight + 1
  | .operator text => text.length

def State.weight (s : State) : Nat := Shell.weight s.tokens + s.mode.weight

section Weight

variable {s s' : State} {ts ts' : List Token} {m : Mode} {c : UInt8} {cs : List UInt8}

@[simp] theorem weight_nil : weight [] = 0 := rfl

/-- Weights add up. -/
@[simp] theorem weight_append : weight (ts ++ ts') = weight ts + weight ts' := by
  simp [weight]

@[simp] theorem weight_word (w : Word) : weight [.word w] = w.length := by
  simp [weight, Token.weight]

@[simp] theorem weight_op (text : List UInt8) : weight [.op text] = text.length := by
  simp [weight, Token.weight]

/-- The last token weighs what was read of it. -/
theorem weight_ended (s : State) : weight (s.tokens ++ s.mode.ended) ≤ s.weight := by
  rw [weight_append, State.weight]
  cases s.mode <;> simp [Mode.ended, Mode.weight]

/-- So do the tokens that are complete. -/
theorem weight_before (s : State) : weight s.before + s.mode.begun.length ≤ s.weight := by
  rw [State.before, State.weight]
  cases s.mode <;> simp [Mode.begun, Mode.weight]

/-- A character adds one at most. -/
theorem weight_stepPlain (h : stepPlain s c = some s') : s'.weight ≤ s.weight + 1 := by
  have hended := weight_ended s
  have hbefore := weight_before s
  unfold stepPlain at h
  split at h
  · cases h
    exact Nat.le_succ_of_le hbefore
  split at h
  · cases h
    exact Nat.le_succ_of_le hbefore
  split at h
  · cases h
    exact Nat.le_refl _
  split at h
  · cases h
  split at h
  · next text htext =>
      cases h
      cases hm : s.mode with
      | operator text' =>
          rw [hm, Mode.extended] at htext
          split at htext
          · cases htext
            simp [State.weight, hm, Mode.weight, Nat.add_assoc]
          · cases htext
      | _ => rw [hm] at htext; cases htext
  split at h
  · cases h
    exact Nat.succ_le_succ hended
  split at h
  · cases h
    exact Nat.le_succ_of_le hended
  split at h
  · cases h
    exact Nat.le_succ_of_le hended
  · cases h
    simpa [State.weight, Mode.weight, ← Nat.add_assoc] using hbefore

/-- **Step**: a byte adds at most one character. -/
theorem weight_step (h : step s c = some s') : s'.weight ≤ s.weight + 1 := by
  unfold step at h
  split at h
  · next w hm =>
      cases h
      split <;> simp [State.weight, hm, Mode.weight, Nat.add_assoc]
  · next w hm =>
      repeat' split at h
      all_goals cases h
      all_goals simp [State.weight, hm, Mode.weight, Nat.add_assoc]
  · next w hm =>
      repeat' split at h
      all_goals cases h
      all_goals simp [State.weight, hm, Mode.weight, Nat.add_assoc]
  · next m hm =>
      split at h
      · cases h
        simp only [State.weight, hm, Mode.weight]
        omega
      · cases h
        have hbefore := weight_before ⟨s.tokens, m⟩
        simp only [State.weight, hm, Mode.weight, List.length_append,
          List.length_singleton] at hbefore ⊢
        omega
  · next hm =>
      cases h
      split <;> simp [State.weight, hm, Mode.weight]
  all_goals exact weight_stepPlain h

/-- **Scan**: a text adds at most its length. -/
theorem weight_scan (h : scan s cs = some s') : s'.weight ≤ s.weight + cs.length := by
  induction cs generalizing s with
  | nil => cases h; exact Nat.le_refl _
  | cons c cs ih =>
      obtain ⟨x, hstep, hscan⟩ := Option.bind_eq_some_iff.mp h
      have hx := weight_step hstep
      have hrest := ih hscan
      rw [List.length_cons]
      omega

end Weight

end OnlineAuction.Shell
