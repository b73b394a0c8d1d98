import OnlineAuction.Admin
import OnlineAuction.Lib.Shell

/-!
# OnlineAuction.PasswordCommand

The command that `sha256_hex` gives to the shell.

The password stands between single quotes, as it is: the shell takes it for one word as long as
it holds no single quote (`lexesAsIntended_iff`).  With one the text after it is outside of the
quotes, and is read as more words, operators and commands.
-/

namespace OnlineAuction

open Shell

/-- The format of the command before the password. -/
def commandStart : List UInt8 := ascii "echo -n \x27"

/-- The format after the closing quote. -/
def commandRest : List UInt8 := ascii " | openssl dgst -sha256 | awk \x27\x7bprint $2\x7d\x27"

/-- The format after the password. -/
def commandEnd : List UInt8 := ascii "\x27" ++ commandRest

/-- `snprintf(cmd, sizeof(cmd), …, input)`: at most 255 bytes and a NUL. -/
def command (input : List UInt8) : List UInt8 :=
  (commandStart ++ cString input ++ commandEnd).take 255

/-- What follows the password in the pipeline. -/
def hashing : List Token :=
  [.op (ascii "|"), .word (unquoted (ascii "openssl")), .word (unquoted (ascii "dgst")),
    .word (unquoted (ascii "-sha256")), .op (ascii "|"), .word (unquoted (ascii "awk")),
    .word (quoted (ascii "\x7bprint $2\x7d"))]

/-- The pipeline that is meant: `echo` with two words, and what reads its output. -/
def pipeline (password : List UInt8) : List Token :=
  [.word (unquoted (ascii "echo")), .word (unquoted (ascii "-n")), .word (quoted password)] ++
    hashing

/-- The shell reads the command for a password as the pipeline that is meant. -/
def LexesAsIntended (password : List UInt8) : Prop :=
  tokens (command password) = some (pipeline password)

instance (password : List UInt8) : Decidable (LexesAsIntended password) :=
  inferInstanceAs (Decidable (_ = _))

/-- A password that ends inside its field of a login, a change of password or the creation of a
user. -/
inductive Requested : List UInt8 → Prop
  | login (req : LoginPayload) (h : 0 ∈ req.password.val) : Requested req.passwordString
  | oldPassword (req : ChangePassPayload) (h : 0 ∈ req.oldPassword.val) : Requested req.oldString
  | newPassword (req : ChangePassPayload) (h : 0 ∈ req.newPassword.val) : Requested req.newString
  | addUser (req : AddUserPayload) (h : 0 ∈ req.password.val) : Requested req.passwordString

section Requests

variable {p : List UInt8}

/-- A password in a field is short, and has no NUL. -/
theorem Requested.fits (h : Requested p) : 0 ∉ p ∧ p.length < maxPassword := by
  have hfield {a : CharArray maxPassword} (ha : 0 ∈ a.val) (rest : List UInt8) :
      0 ∉ cString (a.val ++ rest) ∧ (cString (a.val ++ rest)).length < maxPassword := by
    have hlength := length_cString_lt ha
    rw [a.length_val] at hlength
    rw [cString_append_of_mem ha]
    exact ⟨zero_not_mem_cString _, hlength⟩
  cases h with
  | login req h => exact hfield h _
  | oldPassword req h =>
      rw [ChangePassPayload.oldString, List.append_assoc]
      exact hfield h _
  | newPassword req h => exact hfield h _
  | addUser req h =>
      rw [AddUserPayload.passwordString, List.append_assoc]
      exact hfield h _

/-- Every text that is short enough and has no NUL can be sent as one. -/
theorem requested_iff : Requested p ↔ 0 ∉ p ∧ p.length < maxPassword := by
  refine ⟨Requested.fits, fun ⟨h0, hlength⟩ => ?_⟩
  have hval : (CharArray.ofBytes maxPassword p).val =
      p ++ List.replicate (maxPassword - p.length) 0 :=
    CharArray.ofBytes_val (Nat.le_of_lt hlength)
  have hend : 0 ∈ (CharArray.ofBytes maxPassword p).val := by
    rw [hval, List.mem_append, List.mem_replicate]
    exact .inr ⟨by omega, rfl⟩
  have hstring : cString ((CharArray.ofBytes maxPassword p).val ++ []) = p := by
    rw [List.append_nil, hval, cString_pad h0]
  have hlogin := Requested.login ⟨.zero maxUsername, .ofBytes maxPassword p, []⟩ hend
  rwa [LoginPayload.passwordString, hstring] at hlogin

/-- The command is not cut. -/
theorem command_eq (h0 : 0 ∉ p) (hlength : p.length < maxPassword) :
    command p = commandStart ++ p ++ commandEnd := by
  have hstart : commandStart.length = 9 := rfl
  have hend : commandEnd.length = 43 := rfl
  dsimp only [maxPassword] at hlength
  rw [command, cString_of_not_mem h0, List.take_of_length_le]
  simp only [List.length_append, hstart, hend]
  omega

end Requests

section Command

variable {ts : List Token} {w : Word} {s : State}

theorem scan_commandStart : scan ⟨[], .between⟩ commandStart =
    some ⟨[.word (unquoted (ascii "echo")), .word (unquoted (ascii "-n"))], .single []⟩ := rfl

/-- After a word the rest is what is meant. -/
theorem scan_commandRest :
    (scan ⟨ts, .plain w⟩ commandRest).bind finish = some (ts ++ [Token.word w] ++ hashing) := by
  have hscan : scan ⟨[], .plain w⟩ commandRest =
      some ⟨[Token.word w] ++ hashing.dropLast, .plain (quoted (ascii "\x7bprint $2\x7d"))⟩ := rfl
  have hafter : (⟨ts, .plain w⟩ : State) = State.after ts ⟨[], .plain w⟩ := by simp [State.after]
  rw [hafter, scan_after, hscan]
  simp [finish, State.after, Mode.ended, hashing]

/-- From inside of single quotes the rest of the command is what is meant. -/
theorem scan_commandEnd_single :
    (scan ⟨ts, .single w⟩ commandEnd).bind finish = some (ts ++ [Token.word w] ++ hashing) := by
  have hquote : scan ⟨ts, .single w⟩ (ascii "\x27") = some ⟨ts, .plain w⟩ := rfl
  rw [commandEnd, scan_append, hquote, Option.bind_some, scan_commandRest]

/-- From anywhere else the quote of the rest begins a word, is literal or is in a comment: with
what comes after it no more is read than is there. -/
theorem weight_commandEnd {ts : List Token} (h : (scan s commandEnd).bind finish = some ts) :
    weight ts ≤ s.weight + weight hashing := by
  obtain ⟨ts', m⟩ := s
  cases m with
  | between => cases h
  | plain w => cases h
  | operator text => cases h
  | double w => cases h
  | doubleEscape w => cases h
  | single w =>
      rw [scan_commandEnd_single] at h
      cases h
      simp only [weight_append, weight_word, State.weight, Mode.weight]
      exact Nat.le_refl _
  | escape m =>
      have hquote : scan ⟨ts', .escape m⟩ (ascii "\x27") =
          some ⟨State.before ⟨ts', m⟩, .plain (m.begun ++ [(singleQuote, true)])⟩ := rfl
      rw [commandEnd, scan_append, hquote, Option.bind_some, scan_commandRest] at h
      cases h
      have hbefore := weight_before ⟨ts', m⟩
      simp only [weight_append, weight_word, State.weight, Mode.weight, List.length_append,
        List.length_singleton] at hbefore ⊢
      omega
  | comment =>
      have hscan : (scan ⟨ts', .comment⟩ commandEnd).bind finish = some (ts' ++ []) := rfl
      rw [hscan, List.append_nil] at h
      cases h
      simp only [State.weight]
      omega

end Command

/-! ## passwords -/

section Passwords

variable {p : List UInt8}

theorem weight_echo :
    weight [.word (unquoted (ascii "echo")), .word (unquoted (ascii "-n"))] = 6 := rfl

theorem weight_pipeline (p : List UInt8) : weight (pipeline p) = 6 + p.length + weight hashing := by
  have hsplit : pipeline p =
      [Token.word (unquoted (ascii "echo")), Token.word (unquoted (ascii "-n"))] ++
        [Token.word (quoted p)] ++ hashing := rfl
  rw [hsplit, weight_append, weight_append, weight_echo, weight_word, quoted, List.length_map]

/-- Without a single quote the password is one word. -/
theorem lexesAsIntended_of_not_mem (h : Requested p) (hquote : singleQuote ∉ p) :
    LexesAsIntended p := by
  obtain ⟨h0, hlength⟩ := h.fits
  have hscan : scan ⟨[], .between⟩ (commandStart ++ p) =
      some ⟨[.word (unquoted (ascii "echo")), .word (unquoted (ascii "-n"))],
        .single ([] ++ quoted p)⟩ := by
    rw [scan_append, scan_commandStart, Option.bind_some, scan_single hquote]
  rw [LexesAsIntended, command_eq h0 hlength, tokens, scan_append, hscan, Option.bind_some,
    scan_commandEnd_single]
  rfl

/-- With one some character of the command is lost: the quotes are not part of any word. -/
theorem not_lexesAsIntended_of_mem (h : Requested p) (hquote : singleQuote ∈ p) :
    ¬ LexesAsIntended p := by
  obtain ⟨h0, hlength⟩ := h.fits
  obtain ⟨a, b, rfl, ha⟩ := List.eq_append_cons_of_mem hquote
  intro hlexes
  have hopen : scan ⟨[], .between⟩ (commandStart ++ (a ++ [singleQuote])) =
      some ⟨[.word (unquoted (ascii "echo")), .word (unquoted (ascii "-n"))],
        .plain (quoted a)⟩ := by
    rw [scan_append, scan_commandStart, Option.bind_some, scan_append, scan_single ha]
    rfl
  have hcommand : commandStart ++ (a ++ singleQuote :: b) ++ commandEnd =
      commandStart ++ (a ++ [singleQuote]) ++ (b ++ commandEnd) := by simp
  rw [LexesAsIntended, command_eq h0 hlength, hcommand, tokens, scan_append, hopen,
    Option.bind_some, scan_append] at hlexes
  cases hb : scan ⟨[.word (unquoted (ascii "echo")), .word (unquoted (ascii "-n"))],
      .plain (quoted a)⟩ b with
  | none => rw [hb] at hlexes; cases hlexes
  | some s =>
      rw [hb, Option.bind_some] at hlexes
      have hread := weight_scan hb
      have htotal := weight_commandEnd hlexes
      simp only [weight_pipeline, State.weight, Mode.weight, weight_echo, quoted,
        List.length_map, List.length_append, List.length_cons] at hread htotal
      omega

/-- **Quoting**: the shell reads the command as it is meant exactly for the passwords without a
single quote. -/
theorem lexesAsIntended_iff (h : Requested p) : LexesAsIntended p ↔ singleQuote ∉ p :=
  ⟨fun hlexes hquote => not_lexesAsIntended_of_mem h hquote hlexes, lexesAsIntended_of_not_mem h⟩

theorem lexesAsIntended_iff_admin :
    Requested (ascii "admin123") ∧
      (LexesAsIntended (ascii "admin123") ↔ singleQuote ∉ ascii "admin123") := by
  have h : Requested (ascii "admin123") := requested_iff.mpr (by decide)
  exact ⟨h, lexesAsIntended_iff h⟩

/-- A password that ends the quotes has its own command run, and the rest of the line is a
comment. -/
theorem not_lexesAsIntended :
    Requested (ascii "\x27; id #") ∧
      tokens (command (ascii "\x27; id #")) =
        some [.word (unquoted (ascii "echo")), .word (unquoted (ascii "-n")), .word [],
          .op (ascii ";"), .word (unquoted (ascii "id"))] ∧
      ¬ LexesAsIntended (ascii "\x27; id #") :=
  ⟨requested_iff.mpr (by decide), by decide, by decide⟩

end Passwords

end OnlineAuction
