import OnlineAuction.Lib.Printf
import OnlineAuction.Lib.Shell
import OnlineAuction.LogReplay

/-!
# OnlineAuction.LogText

The text of `data/txn.log`, and what can be read off it.

`log_txn` writes a line with the time and a message in one `write`.  `readLog` reads the statements
about the wallets from the text.  They are those of the log, with their amounts printed to the
hundredth, if no name in it contains a newline; and of a text that was cut short the first ones
(`logText_roundTrip`).  So the wallets can be computed from the text, up to what is rounded
(`wallets_of_logText`).  But a name may contain a newline, and then the line reads as whatever
statement its writer likes (`forged_of_createAuction`).
-/

namespace OnlineAuction

open Printf Shell

/-! ## what is written -/

/-- `struct tm`, with the year and the month as they are printed. -/
structure Tm where
  year : Int
  mon : Fin 13
  mday : Fin 32
  hour : Fin 24
  min : Fin 60
  sec : Fin 61
  fits : year.natAbs < 10 ^ 10

/-- `strftime(…, "%Y-%m-%d %H:%M:%S", …)` -/
def Tm.format (tm : Tm) : List Piece :=
  [.d tm.year, .lit [45], .d2 tm.mon, .lit [45], .d2 tm.mday, .lit [32], .d2 tm.hour, .lit [58],
    .d2 tm.min, .lit [58], .d2 tm.sec]

/-- `ts` -/
def Tm.stamp (tm : Tm) : List UInt8 := tm.format.flatMap Piece.print

namespace LogLine

/-- The format of the message, with its arguments. -/
def format : LogLine → List Piece
  | hold user amount => [.lit (ascii "HOLD user="), .u user, .lit (ascii " amount=+"), .f amount]
  | release user amount =>
      [.lit (ascii "RELEASE user="), .u user, .lit (ascii " amount="), .f amount]
  | settle user amount => [.lit (ascii "SETTLE user="), .u user, .lit (ascii " amount="), .f amount]
  | credit user amount =>
      [.lit (ascii "CREDIT user="), .u user, .lit (ascii " amount=+"), .f amount]
  | bid auctionId bidderId amount =>
      [.lit (ascii "BID auction_id="), .u auctionId, .lit (ascii " bidder_id="), .u bidderId,
        .lit (ascii " amount="), .f amount]
  | createAuction id seller item endTime =>
      [.lit (ascii "CREATE_AUCTION id="), .u id, .lit (ascii " seller="), .u seller,
        .lit (ascii " item=\x27"), .s item, .lit (ascii "\x27 end="), .d endTime]
  | closeAuction id byUser =>
      [.lit (ascii "CLOSE_AUCTION id="), .u id, .lit (ascii " by user="), .u byUser]
  | timerClose auctionId => [.lit (ascii "TIMER_CLOSE auction_id="), .u auctionId]
  | walSettle auction winner seller amount =>
      [.lit (ascii "WAL_SETTLE auction="), .u auction, .lit (ascii " winner="), .u winner,
        .lit (ascii " seller="), .u seller, .lit (ascii " amount="), .f amount]
  | walRefund dispute auction winner seller amount =>
      [.lit (ascii "WAL_REFUND dispute="), .u dispute, .lit (ascii " auction="), .u auction,
        .lit (ascii " winner="), .u winner, .lit (ascii " seller="), .u seller,
        .lit (ascii " amount="), .f amount]
  | refundAnomaly => [.lit (ascii "REFUND_ANOMALY seller has insufficient balance")]
  | fileDispute disputeId auction byUser =>
      [.lit (ascii "FILE_DISPUTE dispute_id="), .u disputeId, .lit (ascii " auction="), .u auction,
        .lit (ascii " by_user="), .u byUser]
  | resolveDispute id status byMod =>
      [.lit (ascii "RESOLVE_DISPUTE id="), .u id, .lit (ascii " status="), .d status.ctorIdx,
        .lit (ascii " by_mod="), .u byMod]
  | login userId username =>
      [.lit (ascii "LOGIN user_id="), .u userId, .lit (ascii " username="), .s username]
  | logout userId => [.lit (ascii "LOGOUT user_id="), .u userId]
  | changePass userId => [.lit (ascii "CHANGE_PASS user_id="), .u userId]
  | addUser id username role =>
      [.lit (ascii "ADD_USER id="), .u id, .lit (ascii " username="), .s username,
        .lit (ascii " role="), .d role.toInt32.toInt]
  | changeRole user old new =>
      [.lit (ascii "CHANGE_ROLE user="), .u user, .lit (ascii " old="), .d old.toInt32.toInt,
        .lit (ascii " new="), .d new.toInt32.toInt]
  | toggleAccount target newStatus byMod =>
      [.lit (ascii "TOGGLE_ACCOUNT target="), .u target, .lit (ascii " new_status="),
        .d newStatus.toInt32.toInt, .lit (ascii " by_mod="), .u byMod]

/-- The size of the buffer that the message is printed to; one is not printed to any. -/
def bufSize : LogLine → Nat
  | bid _ _ _ | createAuction _ _ _ _ | fileDispute _ _ _ | walSettle _ _ _ _
  | walRefund _ _ _ _ _ | refundAnomaly => 256
  | timerClose _ => 64
  | _ => 128

/-- The message. -/
def message (line : LogLine) : List UInt8 := snprintf line.bufSize line.format

end LogLine

/-- What `log_txn` writes. -/
def logTxnBytes (tm : Tm) (msg : List UInt8) : List UInt8 :=
  snprintf 512 [.lit [91], .s tm.stamp, .lit (ascii "] "), .s msg, .lit [newline]]

/-- The file, where each line was written at a time. -/
def logText (log : List (Tm × LogLine)) : List UInt8 :=
  log.flatMap fun x => logTxnBytes x.1 x.2.message

/-! ## what is read -/

/-- A message that states a change of a wallet. -/
structure StatementForm where
  start : List UInt8
  middle : List UInt8
  line : UInt32 → ℚ → LogLine

def StatementForm.read (form : StatementForm) (msg : List UInt8) : Option LogLine :=
  (form.start.isPrefixOf? msg).bind fun rest =>
    (form.middle.isPrefixOf? (rest.dropWhile isDigit)).bind fun amount =>
      (readFixed2 amount).map (form.line (.ofNat (readDigits 0 rest)))

def holdForm : StatementForm := ⟨ascii "HOLD user=", ascii " amount=+", .hold⟩
def releaseForm : StatementForm := ⟨ascii "RELEASE user=", ascii " amount=", .release⟩
def settleForm : StatementForm := ⟨ascii "SETTLE user=", ascii " amount=", .settle⟩
def creditForm : StatementForm := ⟨ascii "CREDIT user=", ascii " amount=+", .credit⟩

def statementForms : List StatementForm := [holdForm, releaseForm, settleForm, creditForm]

/-- The statement that a message makes, if it makes one. -/
def readStatement (msg : List UInt8) : Option LogLine :=
  statementForms.findSome? fun form => form.read msg

/-- The message of a line. -/
def unstamp : List UInt8 → Option (List UInt8)
  | [] => none
  | c :: rest =>
      if c = 91 then (ascii "] ").isPrefixOf? (rest.dropWhile fun c => c != 93) else none

/-- The statements of a text. -/
def readLog (text : List UInt8) : List LogLine :=
  (splitLines [] text).filterMap fun line => (unstamp line).bind readStatement

/-! ## messages -/

/-- The amounts as they are printed. -/
def LogLine.rounded : LogLine → LogLine
  | .hold user amount => .hold user (hundredths amount)
  | .release user amount => .release user (hundredths amount)
  | .settle user amount => .settle user (hundredths amount)
  | .credit user amount => .credit user (hundredths amount)
  | line => line

/-- The line can be read: its names have no newline, and its statement fits the buffer. -/
def LogLine.Legible : LogLine → Prop
  | .hold _ amount | .release _ amount | .settle _ amount | .credit _ amount => |amount| < 10 ^ 80
  | .createAuction _ _ name _ | .login _ name | .addUser _ name _ =>
      (cString name).all (fun c => c != newline) = true
  | _ => True

section Messages

variable {form : StatementForm} {line : LogLine}

/-- A form reads what it prints. -/
theorem StatementForm.read_print (hmiddle : NoDigit (form.middle ++ fixed2 x)) (user : UInt32) :
    form.read (form.start ++ (unsigned user.toNat ++ (form.middle ++ fixed2 x))) =
      some (form.line user (hundredths x)) := by
  have hstart : form.start.isPrefixOf?
      (form.start ++ (unsigned user.toNat ++ (form.middle ++ fixed2 x))) =
        some (unsigned user.toNat ++ (form.middle ++ fixed2 x)) :=
    List.isPrefixOf?_eq_some_iff_append_eq.mpr rfl
  have hrest : form.middle.isPrefixOf? (form.middle ++ fixed2 x) = some (fixed2 x) :=
    List.isPrefixOf?_eq_some_iff_append_eq.mpr rfl
  rw [StatementForm.read, hstart, Option.bind_some, dropWhile_unsigned _ hmiddle, hrest,
    Option.bind_some, readFixed2_fixed2, readDigits_unsigned _ hmiddle, UInt32.ofNat_toNat]
  rfl

/-- A statement is printed as a whole. -/
theorem StatementForm.snprintf_eq {x : ℚ} (hlength : form.start.length + form.middle.length ≤ 30)
    (user : UInt32) (h : |x| < 10 ^ 80) :
    snprintf 128 [.lit form.start, .u user, .lit form.middle, .f x] =
      form.start ++ (unsigned user.toNat ++ (form.middle ++ fixed2 x)) := by
  have huser := length_unsigned_toNat_le user
  have hamount := length_fixed2_le h
  have hprint : ([.lit form.start, .u user, .lit form.middle, .f x] : List Piece).flatMap
      Piece.print = form.start ++ (unsigned user.toNat ++ (form.middle ++ fixed2 x)) := by
    simp [Piece.print]
  rw [snprintf_of_length_lt, hprint]
  rw [hprint]
  simp only [List.length_append]
  omega

/-- Before a blank a number ends. -/
theorem noDigit_blank {cs rest : List UInt8} (h : cs.head? = some 32) : NoDigit (cs ++ rest) := by
  intro c hc
  rw [List.head?_append, h] at hc
  obtain rfl := Option.some.inj hc
  rfl

/-- A statement is read back by its form, if no form before reads it. -/
theorem StatementForm.readStatement_snprintf {x : ℚ} {before after : List StatementForm}
    (hblank : form.middle.head? = some 32)
    (hlength : form.start.length + form.middle.length ≤ 30) (user : UInt32) (h : |x| < 10 ^ 80)
    (hforms : statementForms = before ++ form :: after)
    (hbefore : ∀ other ∈ before,
      other.read (snprintf 128 [.lit form.start, .u user, .lit form.middle, .f x]) = none) :
    readStatement (snprintf 128 [.lit form.start, .u user, .lit form.middle, .f x]) =
      some (form.line user (hundredths x)) := by
  refine List.findSome?_eq_some_iff.mpr ⟨before, form, after, hforms, ?_, hbefore⟩
  rw [form.snprintf_eq hlength user h]
  exact form.read_print (noDigit_blank hblank) user

/-- A statement is read off its message with its amounts as printed. -/
theorem readStatement_message (h : line.Legible) (hline : line.isStatement = true) :
    readStatement line.message = some line.rounded := by
  cases line with
  | hold user amount =>
      exact holdForm.readStatement_snprintf rfl (by decide) user h rfl (List.forall_mem_nil _)
  | release user amount =>
      exact releaseForm.readStatement_snprintf rfl (by decide) user h rfl
        (List.forall_mem_singleton.mpr rfl)
  | settle user amount =>
      exact settleForm.readStatement_snprintf rfl (by decide) user h rfl
        (List.forall_mem_cons.mpr ⟨rfl, List.forall_mem_singleton.mpr rfl⟩)
  | credit user amount =>
      exact creditForm.readStatement_snprintf rfl (by decide) user h rfl
        (List.forall_mem_cons.mpr ⟨rfl, List.forall_mem_cons.mpr
          ⟨rfl, List.forall_mem_singleton.mpr rfl⟩⟩)
  | _ => cases hline

/-- Other messages make no statement. -/
theorem readStatement_message_of_not (h : line.isStatement = false) :
    readStatement line.message = none := by
  cases line <;> first | rfl | cases h

instance (line : LogLine) : Decidable line.Legible :=
  match line with
  | .hold _ x | .release _ x | .settle _ x | .credit _ x =>
      inferInstanceAs (Decidable (|x| < 10 ^ 80))
  | .createAuction _ _ name _ | .login _ name | .addUser _ name _ =>
      inferInstanceAs (Decidable ((cString name).all (fun c => c != newline) = true))
  | .bid _ _ _ | .closeAuction _ _ | .timerClose _ | .walSettle _ _ _ _ | .walRefund _ _ _ _ _
  | .refundAnomaly | .fileDispute _ _ _ | .resolveDispute _ _ _ | .logout _ | .changePass _
  | .changeRole _ _ _ | .toggleAccount _ _ _ => isTrue trivial

end Messages

/-! ## the text -/

/-- The characters of a message that is legible. -/
def inMessage (c : UInt8) : Bool := c != 0 && c != newline

/-- The characters of a time stamp. -/
def inStamp (c : UInt8) : Bool := inMessage c && c != 93

section Text

variable {line : LogLine} {tm : Tm} {msg : List UInt8}

/-- Digits may stand in a time. -/
theorem inStamp_of_isDigit (c : UInt8) (h : isDigit c = true) : inStamp c = true := by
  have hne (d : UInt8) (hd : isDigit d = false) : c ≠ d := fun hcd => by
    rw [hcd, hd] at h
    cases h
  simp [inStamp, inMessage, hne 0 rfl, hne newline rfl, hne 93 rfl]

/-- And in a message. -/
theorem inMessage_of_isDigit (c : UInt8) (h : isDigit c = true) : inMessage c = true :=
  (Bool.and_eq_true_iff.mp (inStamp_of_isDigit c h)).1

/-- What a time is made of. -/
theorem inStamp_stamp (tm : Tm) : ∀ c ∈ tm.stamp, inStamp c = true :=
  all_flatMap_print inStamp_of_isDigit rfl rfl rfl

/-- A time takes at most 26 bytes. -/
theorem length_stamp_le (tm : Tm) : tm.stamp.length ≤ 26 := by
  have hdigits : (unsigned tm.year.natAbs).length ≤ 10 := length_unsigned_le tm.fits (by omega)
  have hyear : (decimal tm.year).length ≤ 11 := by
    rw [decimal]
    split
    · rw [List.length_cons]
      omega
    · omega
  simp only [Tm.stamp, Tm.format, Piece.print, twoDigits, List.flatMap_cons, List.flatMap_nil,
    List.length_append, List.length_cons, List.length_nil]
  omega

/-- The names are the only strings that are printed. -/
theorem inMessage_name {name : List UInt8}
    (h : (cString name).all (fun c => c != newline) = true) :
    (cString name).all inMessage = true := by
  refine List.all_eq_true.mpr fun c hc => ?_
  have hzero : c ≠ 0 := fun hc0 => zero_not_mem_cString name (hc0 ▸ hc)
  simp only [inMessage, bne_iff_ne.mpr hzero, Bool.true_and]
  exact List.all_eq_true.mp h c hc

/-- What a legible message is made of. -/
theorem inMessage_message (h : line.Legible) : ∀ c ∈ line.message, inMessage c = true := by
  have hgiven : line.format.all (Piece.given inMessage) = true := by
    cases line with
    | createAuction id seller name endTime | login id name | addUser id name role =>
        have hname := inMessage_name h
        simp only [LogLine.format, List.all_cons, Piece.given, hname]
        rfl
    | _ => rfl
  exact fun c hc =>
    all_flatMap_print inMessage_of_isDigit rfl rfl hgiven c (List.mem_of_mem_take hc)

/-- Strings end before a zero, and nothing else prints one. -/
theorem zero_not_mem_message (line : LogLine) : 0 ∉ line.message := by
  have hname (name : List UInt8) : (cString name).all (fun c => c != 0) = true :=
    List.all_eq_true.mpr fun c hc => bne_iff_ne.mpr fun hc0 => zero_not_mem_cString name (hc0 ▸ hc)
  have hdigit (c : UInt8) (hc : isDigit c = true) : (c != 0) = true :=
    bne_iff_ne.mpr fun hc0 => by
      rw [hc0] at hc
      cases hc
  have hgiven : line.format.all (Piece.given fun c => c != 0) = true := by
    cases line with
    | createAuction id seller name endTime | login id name | addUser id name role =>
        simp only [LogLine.format, List.all_cons, Piece.given, hname]
        rfl
    | _ => rfl
  exact fun hmem =>
    bne_iff_ne.mp (all_flatMap_print hdigit rfl rfl hgiven 0 (List.mem_of_mem_take hmem)) rfl

/-- The buffer cuts a message. -/
theorem length_message_le (line : LogLine) : line.message.length ≤ 255 := by
  have hle := length_snprintf_le line.bufSize line.format
  have hsize : line.bufSize ≤ 256 := by
    cases line <;> exact Nat.le_of_ble_eq_true rfl
  exact Nat.le_trans hle (Nat.sub_le_sub_right hsize 1)

/-- What is not allowed does not stand in a message. -/
theorem not_mem_of_all {P : UInt8 → Bool} {c : UInt8} (h : ∀ c ∈ msg, P c = true)
    (hc : P c = false) : c ∉ msg := fun hmem => by
  rw [h c hmem] at hc
  cases hc

/-- The line is not cut. -/
theorem logTxnBytes_eq (tm : Tm) (hzero : 0 ∉ msg) (hlength : msg.length ≤ 255) :
    logTxnBytes tm msg = (91 :: (tm.stamp ++ (ascii "] " ++ msg))) ++ [newline] := by
  have hstamp := length_stamp_le tm
  have hclosing : (ascii "] ").length = 2 := rfl
  have hprint : ([.lit [91], .s tm.stamp, .lit (ascii "] "), .s msg, .lit [newline]] :
      List Piece).flatMap Piece.print =
        (91 :: (tm.stamp ++ (ascii "] " ++ msg))) ++ [newline] := by
    simp only [List.flatMap_cons, List.flatMap_nil, Piece.print, cString_of_not_mem hzero,
      cString_of_not_mem (not_mem_of_all (inStamp_stamp tm) rfl), List.append_assoc,
      List.append_nil, List.nil_append, List.cons_append]
  rw [logTxnBytes, snprintf_of_length_lt, hprint]
  rw [hprint]
  simp only [List.length_append, List.length_cons, List.length_nil, hclosing]
  omega

/-- The message is what follows the time. -/
theorem unstamp_stamp (tm : Tm) (msg : List UInt8) :
    unstamp (91 :: (tm.stamp ++ (ascii "] " ++ msg))) = some msg := by
  have hstamp : ∀ c ∈ tm.stamp, (c != 93) = true := fun c hc =>
    (Bool.and_eq_true_iff.mp (inStamp_stamp tm c hc)).2
  have hdrop : (tm.stamp ++ (ascii "] " ++ msg)).dropWhile (fun c => c != 93) =
      ascii "] " ++ msg := by
    rw [List.dropWhile_append_of_pos hstamp]
    rfl
  rw [unstamp, if_pos rfl, hdrop]
  exact List.isPrefixOf?_eq_some_iff_append_eq.mpr rfl

/-- The time and such a message are one line. -/
theorem newline_not_mem_stamp (tm : Tm) (hchars : ∀ c ∈ msg, inMessage c = true) :
    10 ∉ 91 :: (tm.stamp ++ (ascii "] " ++ msg)) := by
  have hopen : (10 : UInt8) ≠ 91 := by decide
  have hclosing : 10 ∉ ascii "] " := by decide
  simp only [List.mem_cons, List.mem_append, not_or]
  exact ⟨hopen, not_mem_of_all (inStamp_stamp tm) rfl, hclosing, not_mem_of_all hchars rfl⟩

/-- A line and what follows. -/
theorem readLog_append (tm : Tm) (hchars : ∀ c ∈ msg, inMessage c = true)
    (hlength : msg.length ≤ 255) (rest : List UInt8) :
    readLog (logTxnBytes tm msg ++ rest) = (readStatement msg).toList ++ readLog rest := by
  have hline := newline_not_mem_stamp tm hchars
  rw [logTxnBytes_eq tm (not_mem_of_all hchars rfl) hlength, List.append_assoc,
    List.singleton_append, readLog, splitLines_append hline]
  simp only [List.reverse_nil, List.nil_append, List.filterMap_cons, unstamp_stamp,
    Option.bind_some]
  cases readStatement msg <;> rfl

/-- Whatever the names in it, a line of the log ends with a newline. -/
theorem readLog_logText_append (log : List (Tm × LogLine)) (rest : List UInt8) :
    readLog (logText log ++ rest) = readLog (logText log) ++ readLog rest := by
  induction log with
  | nil => rfl
  | cons x log ih =>
      have hline (more : List UInt8) : readLog (logTxnBytes x.1 x.2.message ++ more) =
          readLog (logTxnBytes x.1 x.2.message) ++ readLog more := by
        rw [logTxnBytes_eq x.1 (zero_not_mem_message x.2) (length_message_le x.2),
          List.append_assoc, List.singleton_append, readLog, splitLines_newline,
          List.filterMap_append]
        rfl
      rw [logText, List.flatMap_cons, ← logText, List.append_assoc, hline, ih, hline,
        List.append_assoc]

/-- **Round trip**: the statements of the log are read off its text, the amounts as printed. -/
theorem readLog_logText (log : List (Tm × LogLine)) (h : ∀ x ∈ log, x.2.Legible) :
    readLog (logText log) =
      ((log.map Prod.snd).filter LogLine.isStatement).map LogLine.rounded := by
  induction log with
  | nil => rfl
  | cons x log ih =>
      obtain ⟨hx, hlog⟩ := List.forall_mem_cons.mp h
      rw [logText, List.flatMap_cons, ← logText,
        readLog_append x.1 (inMessage_message hx) (length_message_le x.2), ih hlog, List.map_cons]
      cases hline : x.2.isStatement with
      | true => rw [readStatement_message hx hline, List.filter_cons_of_pos hline]; rfl
      | false =>
          rw [readStatement_message_of_not hline, List.filter_cons_of_neg (by simp [hline])]
          rfl

/-- Of a text that was cut short the first statements are read. -/
theorem readLog_take (text : List UInt8) (n : Nat) : readLog (text.take n) <+: readLog text := by
  have hprefix := splitLines_prefix [] (text.take n) (text.drop n)
  rw [List.take_append_drop] at hprefix
  exact hprefix.filterMap _

/-- **The text of the log**: what is read off it are the statements of the log, with the amounts as
they are printed; off a text that was cut short at any byte, the first ones. -/
theorem logText_roundTrip (log : List (Tm × LogLine)) (h : ∀ x ∈ log, x.2.Legible) :
    let statements := ((log.map Prod.snd).filter LogLine.isStatement).map LogLine.rounded
    readLog (logText log) = statements ∧
      ∀ n, readLog ((logText log).take n) <+: statements := by
  have hread := readLog_logText log h
  exact ⟨hread, fun n => hread ▸ readLog_take (logText log) n⟩

/-- The first second of a year. -/
def newYear : Tm := ⟨2025, 1, 1, 0, 0, 0, by decide⟩

/-- A login of a user with a name, and a credit, read back. -/
theorem logText_roundTrip_two :
    readLog (logText [(newYear, .login 5 [98]), (newYear, .credit 5 100)]) =
      [.credit 5 (hundredths 100)] :=
  (logText_roundTrip [(newYear, .login 5 [98]), (newYear, .credit 5 100)] (by decide +kernel)).1

end Text

/-! ## wallets -/

/-- Two wallets that are `n` half cents apart at most. -/
def Near (n : Nat) (w w' : ℚ × ℚ) : Prop := |w.1 - w'.1| ≤ n / 200 ∧ |w.2 - w'.2| ≤ n / 200

section Wallets

/-- A wallet is near itself. -/
theorem Near.refl (w : ℚ × ℚ) : Near 1 w w := by
  refine ⟨?_, ?_⟩ <;> rw [sub_self, abs_zero] <;> norm_num

/-- Statements about other users add nothing. -/
theorem Near.ite {c : Prop} [Decidable c] {w w' : ℚ × ℚ} (h : Near 1 w w') :
    Near 1 (if c then w else 0) (if c then w' else 0) := by
  split
  · exact h
  · exact .refl 0

/-- Printing a statement moves its delta by half a cent at most. -/
theorem near_delta_rounded (line : LogLine) (id : UInt32) :
    Near 1 (line.rounded.delta id) (line.delta id) := by
  have hzero : |(0 : ℚ) - 0| ≤ (1 : Nat) / 200 := (Near.refl (0, 0)).1
  have hamount (x : ℚ) : |hundredths x - x| ≤ (1 : Nat) / 200 := by
    rw [Nat.cast_one]
    exact abs_hundredths_sub_le x
  have hneg (x : ℚ) : |-hundredths x - -x| ≤ (1 : Nat) / 200 := by
    rw [neg_sub_neg, abs_sub_comm]
    exact hamount x
  cases line with
  | hold user x => exact Near.ite ⟨hzero, hamount x⟩
  | release user x => exact Near.ite ⟨hzero, hneg x⟩
  | settle user x => exact Near.ite ⟨hneg x, hneg x⟩
  | credit user x => exact Near.ite ⟨hamount x, hzero⟩
  | _ => exact .refl 0

/-- Each statement adds what was printed of it too much or too little. -/
theorem near_replayed_rounded (log : List LogLine) (id : UInt32) :
    Near log.length (replayed (log.map LogLine.rounded) id) (replayed log id) := by
  have habs {a b c d : ℚ} {n : Nat} (h : |a - b| ≤ (1 : Nat) / 200) (h' : |c - d| ≤ n / 200) :
      |a + c - (b + d)| ≤ ((n + 1 : Nat) : ℚ) / 200 := by
    rw [abs_le] at h h' ⊢
    push_cast at h h' ⊢
    constructor <;> linarith
  induction log with
  | nil => exact ⟨by simp [replayed], by simp [replayed]⟩
  | cons line log ih =>
      have hline := near_delta_rounded line id
      rw [replayed_eq_sum, replayed_eq_sum] at ih ⊢
      simp only [List.map_cons, List.sum_cons]
      exact ⟨habs hline.1 ih.1, habs hline.2 ih.2⟩

variable {sha256Hex : List UInt8 → List UInt8} {calls : List (Event ApiSig)} {s : Server}

/-- **Audit text**: along every run without changes of passwords in which no refund is refused,
and in which the log is legible, replaying the text of `txn.log` gives every wallet, up to half a
cent for each statement. -/
theorem wallets_of_logText (createdAt now : Int)
    (h : Serves sha256Hex (fun s i => NoChangePass s i ∧ RefundsPay s i)
      (.seeded sha256Hex createdAt now) calls s)
    (log : List (Tm × LogLine)) (hlog : log.map Prod.snd = s.store.txnLog)
    (hlegible : ∀ line ∈ s.store.txnLog, line.Legible) :
    ∀ u ∈ s.store.users, Near (s.store.txnLog.filter LogLine.isStatement).length
      (replayed (readLog (logText log)) u.userId) (u.walletBalance, u.walletHold) := by
  intro u hu
  have hlines : ∀ x ∈ log, x.2.Legible := fun x hx =>
    hlegible x.2 (hlog ▸ List.mem_map_of_mem hx)
  have hfilter : replayed (s.store.txnLog.filter LogLine.isStatement) u.userId =
      replayed s.store.txnLog u.userId := replayed_filter
  rw [readLog_logText log hlines, hlog, ← (replays_of_serves createdAt now h).wallets u hu,
    ← hfilter]
  exact near_replayed_rounded _ u.userId

end Wallets

/-- The buyer of `saleScript` files another dispute and gets the money back. -/
theorem wallets_of_logText_sale :
    let s := (played (saleScript ++ [.message 6 (.fileDispute ⟨1, .zero _⟩),
      .message 5 (.resolveDispute ⟨2, 1, .zero _⟩)])).store
    ∀ u ∈ s.users, Near (s.txnLog.filter LogLine.isStatement).length
      (replayed (readLog (logText (s.txnLog.map fun line => (newYear, line)))) u.userId)
      (u.walletBalance, u.walletHold) := by
  have hscript : Playable (fun s i => NoChangePass s i ∧ RefundsPay s i)
      (saleScript ++ [.message 6 (.fileDispute ⟨1, .zero _⟩),
        .message 5 (.resolveDispute ⟨2, 1, .zero _⟩)]) := by
    decide +kernel
  obtain ⟨calls, h⟩ := Serves.of_scripted hscript
  exact wallets_of_logText 0 1000 h _ (by rw [List.map_map]; exact List.map_id _)
    (by decide +kernel)

/-! ## what an auctioneer can write -/

section Forgery

/-- A name that ends the line and goes on with a statement. -/
def forgedName (user : UInt32) (x : ℚ) : List UInt8 :=
  newline :: (ascii "[] " ++ (LogLine.credit user x).message) ++ [newline]

variable {user : UInt32} {x : ℚ}

/-- A credit of such an amount is legible. -/
theorem legible_credit (user : UInt32) (h : |x| < 10 ^ 20) : (LogLine.credit user x).Legible :=
  h.trans_le (by norm_num)

/-- The name is a string. -/
theorem zero_not_mem_forgedName (h : |x| < 10 ^ 20) : 0 ∉ forgedName user x := by
  have hmessage : 0 ∉ (LogLine.credit user x).message :=
    not_mem_of_all (inMessage_message (legible_credit user h)) rfl
  have hfirst : 0 ∉ newline :: ascii "[] " := by decide
  have hlast : 0 ∉ [newline] := by decide
  rw [forgedName, ← List.cons_append, List.mem_append, List.mem_append]
  exact not_or.mpr ⟨not_or.mpr ⟨hfirst, hmessage⟩, hlast⟩

/-- It fits the field. -/
theorem length_forgedName_lt (h : |x| < 10 ^ 20) : (forgedName user x).length < maxItemName := by
  have huser := length_unsigned_toNat_le user
  have hamount := length_fixed2_le h
  have hmessage : (LogLine.credit user x).message.length ≤
      (([.lit creditForm.start, .u user, .lit creditForm.middle, .f x] : List Piece).flatMap
        Piece.print).length := List.length_take_le' _ _
  have hstart : creditForm.start.length = 12 := rfl
  have hmiddle : creditForm.middle.length = 9 := rfl
  have hopen : (ascii "[] ").length = 3 := rfl
  simp only [List.flatMap_cons, List.flatMap_nil, Piece.print, List.length_append,
    List.length_nil, hstart, hmiddle] at hmessage
  show (forgedName user x).length < 64
  simp only [forgedName, List.length_append, List.length_cons, List.length_nil, hopen]
  omega

/-- What is printed before the name. -/
def beforeName (id seller : UInt32) : List UInt8 :=
  [.lit (ascii "CREATE_AUCTION id="), .u id, .lit (ascii " seller="), .u seller,
    .lit (ascii " item=\x27")].flatMap Piece.print

/-- What is printed after it. -/
def afterName (endTime : Int) : List UInt8 :=
  [.lit (ascii "\x27 end="), .d endTime].flatMap Piece.print

/-- The first piece of the line is harmless. -/
theorem inMessage_beforeName (id seller : UInt32) :
    ∀ c ∈ beforeName id seller, inMessage c = true :=
  all_flatMap_print inMessage_of_isDigit rfl rfl rfl

/-- And so is the last. -/
theorem inMessage_afterName (endTime : Int) : ∀ c ∈ afterName endTime, inMessage c = true :=
  all_flatMap_print inMessage_of_isDigit rfl rfl rfl

/-- The first piece leaves room for the name. -/
theorem length_beforeName_le (id seller : UInt32) : (beforeName id seller).length ≤ 53 := by
  have hid := length_unsigned_toNat_le id
  have hseller := length_unsigned_toNat_le seller
  have hstart : (ascii "CREATE_AUCTION id=").length = 18 := rfl
  have hmiddle : (ascii " seller=").length = 8 := rfl
  have hend : (ascii " item=\x27").length = 7 := rfl
  simp only [beforeName, List.flatMap_cons, List.flatMap_nil, Piece.print, List.length_append,
    List.length_nil, hstart, hmiddle, hend]
  omega

/-- The buffer has room for the name and something of what follows. -/
theorem message_forged (user : UInt32) (h : |x| < 10 ^ 20) (id seller : UInt32)
    (endTime : Int) : ∃ k, (LogLine.createAuction id seller (forgedName user x) endTime).message =
      beforeName id seller ++ (forgedName user x ++ (afterName endTime).take (k + 1)) := by
  have hbefore := length_beforeName_le id seller
  have hname : (forgedName user x).length < 64 := length_forgedName_lt h
  have htake (l r : List UInt8) (n : Nat) (hl : l.length ≤ n) :
      (l ++ r).take n = l ++ r.take (n - l.length) := by
    rw [List.take_append, List.take_of_length_le hl]
  have hprint : (LogLine.createAuction id seller (forgedName user x) endTime).format.flatMap
      Piece.print = beforeName id seller ++ (forgedName user x ++ afterName endTime) := by
    simp only [LogLine.format, beforeName, afterName, List.flatMap_cons, List.flatMap_nil,
      Piece.print, cString_of_not_mem (zero_not_mem_forgedName h), List.append_assoc,
      List.append_nil]
  refine ⟨255 - (beforeName id seller).length - (forgedName user x).length - 1, ?_⟩
  rw [LogLine.message, snprintf, hprint]
  show List.take 255 _ = _
  rw [htake _ _ _ (by omega), htake _ _ _ (by omega)]
  congr 4
  omega

/-- **Forgery**: the line of an auction with such a name reads as the statement. -/
theorem readLog_forged (tm : Tm) (user : UInt32) (h : |x| < 10 ^ 20) (id seller : UInt32)
    (endTime : Int) : readLog (logTxnBytes tm
      (LogLine.createAuction id seller (forgedName user x) endTime).message) =
        [.credit user (hundredths x)] := by
  obtain ⟨k, hk⟩ := message_forged user h id seller endTime
  have hlength := length_message_le (.createAuction id seller (forgedName user x) endTime)
  have hbefore := inMessage_beforeName id seller
  have hafter : ∀ c ∈ (afterName endTime).take (k + 1), inMessage c = true := fun c hc =>
    inMessage_afterName endTime c (List.mem_of_mem_take hc)
  have hlegible := legible_credit user h
  have hcredit := inMessage_message hlegible
  have hzero : 0 ∉ (LogLine.createAuction id seller (forgedName user x) endTime).message := by
    rw [hk, List.mem_append, List.mem_append]
    exact not_or.mpr ⟨not_mem_of_all hbefore rfl,
      not_or.mpr ⟨zero_not_mem_forgedName h, not_mem_of_all hafter rfl⟩⟩
  have hlines : logTxnBytes tm
      (LogLine.createAuction id seller (forgedName user x) endTime).message =
        (91 :: (tm.stamp ++ (ascii "] " ++ beforeName id seller))) ++ 10 ::
          ((ascii "[] " ++ (LogLine.credit user x).message) ++ 10 ::
            ((afterName endTime).take (k + 1) ++ [10])) := by
    rw [logTxnBytes_eq tm hzero hlength, hk, forgedName]
    simp only [List.append_assoc, List.cons_append, List.nil_append]
  have hfirst := newline_not_mem_stamp tm hbefore
  have hsecond : 10 ∉ ascii "[] " ++ (LogLine.credit user x).message := by
    have hopen : 10 ∉ ascii "[] " := by decide
    exact List.mem_append.not.mpr (not_or.mpr ⟨hopen, not_mem_of_all hcredit rfl⟩)
  have hthird : unstamp ((afterName endTime).take (k + 1)) = none := rfl
  have hauction : readStatement (beforeName id seller) = none := rfl
  have hforged : unstamp (ascii "[] " ++ (LogLine.credit user x).message) =
      some (LogLine.credit user x).message := rfl
  rw [hlines, readLog, splitLines_append hfirst, splitLines_append hsecond,
    splitLines_append (not_mem_of_all hafter rfl)]
  simp only [List.reverse_nil, List.nil_append, List.filterMap_cons, unstamp_stamp,
    Option.bind_some, hauction, hforged, hthird, Option.bind_none, splitLines,
    List.filterMap_nil]
  rw [readStatement_message hlegible rfl]
  rfl

/-- What `handle_create_auction` logs. -/
theorem txnLog_handleCreateAuction (clientFd : Int) (req : CreateAuctionPayload) (seller : User)
    (s : Store) (hprice : 0 < req.startPrice) (hduration : ¬ req.durationSeconds < 10) :
    ∃ id endTime, (Prog.run Api.exec (handleCreateAuction clientFd req seller) s).2.txnLog =
      s.txnLog ++
        [.createAuction id seller.userId (cString (req.itemName.val.take 63)) endTime] := by
  have hname := cString_strncpy_zero req.itemName.val (show 63 ≤ maxItemName by decide)
  have hok : ¬ (req.startPrice ≤ 0 ∨ req.durationSeconds < 10) :=
    not_or.mpr ⟨not_le.mpr hprice, hduration⟩
  rw [← hname, handleCreateAuction, if_neg hok]
  exact ⟨_, _, rfl⟩

/-- **An auctioneer can write the log**: there is a name of an auction with which a request to
create one logs no statement, but after any log before, forged or not, makes the text say that a
user was paid an amount. -/
theorem forged_of_createAuction (clientFd : Int) (req : CreateAuctionPayload) (seller : User)
    (s : Store) (user : UInt32) (x : ℚ) (hx : |x| < 10 ^ 20) (hprice : 0 < req.startPrice)
    (hduration : ¬ req.durationSeconds < 10) :
    ∃ (name : CharArray maxItemName) (line : LogLine),
      let s' := (Prog.run Api.exec
        (handleCreateAuction clientFd { req with itemName := name } seller) s).2
      s'.txnLog = s.txnLog ++ [line] ∧ line.isStatement = false ∧
      ∀ (log : List (Tm × LogLine)) (tm : Tm), readLog (logText (log ++ [(tm, line)])) =
        readLog (logText log) ++ [.credit user (hundredths x)] := by
  have hlength : (forgedName user x).length < 64 := length_forgedName_lt hx
  obtain ⟨id, endTime, htxn⟩ := txnLog_handleCreateAuction clientFd
    { req with itemName := .ofBytes maxItemName (forgedName user x) } seller s hprice hduration
  have hname : cString ((CharArray.ofBytes maxItemName (forgedName user x)).val.take 63) =
      forgedName user x := by
    rw [CharArray.ofBytes_val hlength.le, List.take_append, List.take_of_length_le (by omega),
      List.take_replicate, cString_pad (zero_not_mem_forgedName hx)]
  refine ⟨_, _, htxn, rfl, fun log tm => ?_⟩
  show readLog (logText (log ++ [(tm, _)])) = _
  rw [hname, logText, List.flatMap_append, ← logText, readLog_logText_append]
  congr 1
  simpa using readLog_forged tm user hx id seller.userId endTime

/-- A log that was forged before is forged again. -/
theorem forged_of_createAuction_again :
    let s := { Store.seeded adminSha256Hex 0 1000 with
      txnLog := [.createAuction 1 2 (forgedName 7 1000) 1060] }
    ∃ (name : CharArray maxItemName) (line : LogLine),
      let s' := (Prog.run Api.exec (handleCreateAuction 5 ⟨name, .zero _, 100, 0, 60⟩ .zero) s).2
      s'.txnLog = s.txnLog ++ [line] ∧ line.isStatement = false ∧
      readLog (logText ((s.txnLog.map fun line => (newYear, line)) ++ [(newYear, line)])) =
        [.credit 7 (hundredths 1000), .credit 8 (hundredths (5 / 2))] := by
  obtain ⟨name, line, htxn, hline, hread⟩ := forged_of_createAuction 5
    ⟨.zero _, .zero _, 100, 0, 60⟩ .zero { Store.seeded adminSha256Hex 0 1000 with
      txnLog := [.createAuction 1 2 (forgedName 7 1000) 1060] } 8 (5 / 2)
    (by decide +kernel) (by decide +kernel) (by decide)
  refine ⟨name, line, htxn, hline, ?_⟩
  have hbefore : |(1000 : ℚ)| < 10 ^ 20 := by decide +kernel
  rw [hread, List.map_cons, List.map_nil, logText, List.flatMap_cons, List.flatMap_nil,
    List.append_nil, readLog_forged newYear 7 hbefore]
  rfl

end Forgery

end OnlineAuction
