import OnlineAuction.Credentials
import OnlineAuction.PasswordCommand
import OnlineAuction.RecordLayout

/-!
# OnlineAuction.UserCreation

The record that `handle_add_user` makes, byte by byte.

`sha256_hex` writes 64 digits and a NUL, and `password` has 64 bytes: the NUL is the first byte
of `full_name`, where the name has been copied before (`newUserBytes_eq`).  So a new user is
stored as asked for exactly if there is no name (`addedAsAsked_iff`).  The bytes are those of the
record `newUser`, and the handler does with them what it does with records
(`handleAddUser_of_bytes`).
-/

namespace OnlineAuction

open Shell

abbrev UserBytes : Type := CharArray userSize

variable (popen : List UInt8 → Option (List UInt8))

/-- `sha256_hex(input, out)` with `out` at position `i` of a record; `popen` is what a command
prints, if it can be run. -/
def sha256HexAt (input : List UInt8) (i : Nat) (u : UserBytes) : UserBytes :=
  match popen (command input) with
  | none => u.store i (strncpyBytes (List.replicate 64 48) 64)
  | some text =>
      let line := fgets 64 text
      -- `fgets` leaves `out` as it is at the end of the stream
      let u := if line = [] then u else u.store i (line ++ [0])
      u.store (i + strcspnNewline (u.val.drop i)) [0]

/-- The record before the password is hashed. -/
def filledUser (req : AddUserPayload) (userId : UInt32) (createdAt : Int) : UserBytes :=
  let u := CharArray.zero userSize
  let u := UserField.userId.set u (toLe 4 userId.toNat)
  let u := UserField.role.set u (toLe 4 req.role.toNat)
  let u := UserField.status.set u (toLe 4 accountActive.toNat)
  let u := UserField.walletBalance.set u (toLe 8 0)
  let u := UserField.walletHold.set u (toLe 8 0)
  let u := UserField.createdAt.set u (toLe 8 (BitVec.ofInt 64 createdAt).toNat)
  let u := UserField.lastLogin.set u (toLe 8 0)
  let u := UserField.isDeleted.set u (toLe 4 0)
  let u := UserField.username.set u (strncpyBytes req.username.val (maxUsername - 1))
  UserField.fullName.set u (strncpyBytes req.fullName.val (maxName - 1))

/-- The record of a new user. -/
def newUserBytes (req : AddUserPayload) (userId : UInt32) (createdAt : Int) : UserBytes :=
  sha256HexAt popen req.passwordString UserField.password.offset (filledUser req userId createdAt)

/-- `handle_add_user` on the bytes of `users.dat`, if there is such a file; `writable` is whether
`write_user` succeeds.  What it answers, and the file after it. -/
def handleAddUserBytes (writable : Bool) (createdAt : Int) (req : AddUserPayload)
    (users : Option (List UserBytes)) : (ErrCode × Option UserBytes) × Option (List UserBytes) :=
  let taken := (users.getD []).any fun tmp =>
    uint32 (UserField.isDeleted.get tmp) == 0 &&
      strncmpEq maxUsername (UserField.username.get tmp).val req.username.val
  if taken then ((.errInternal, none), users)
  else
    let u := newUserBytes popen req (nextRecId (users.getD [])) createdAt
    if !writable then ((.errInternal, none), users)
    else
      ((.errOk, some (blankPassword u)),
        some (writeRec (.zero _) (users.getD []) (uint32 (UserField.userId.get u)) u))

/-- The command for a password prints 64 hexadecimal digits and a newline. -/
structure Prints (input digits : List UInt8) : Prop where
  output : popen (command input) = some (digits ++ [newline])
  length : digits.length = 64
  hex : ∀ c ∈ digits, c ∈ ascii "0123456789abcdef"

/-- The line that the command for a password prints. -/
def opensslLine (input : List UInt8) : List UInt8 :=
  ((popen (command input)).getD []).takeWhile (· ≠ newline)

/-- The record that is stored, and the response, are what was asked for. -/
structure HoldsRequest (req : AddUserPayload) (stored response : UserBytes) : Prop where
  username : cString (UserField.username.get stored).val =
    cString (req.username.val.take (maxUsername - 1))
  fullName : cString (UserField.fullName.get stored).val =
    cString (req.fullName.val.take (maxName - 1))
  role : uint32 (UserField.role.get stored) = req.role
  password : (UserField.password.get stored).val = opensslLine popen (cString req.password.val)
  walletBalance : double (UserField.walletBalance.get stored) = some 0
  walletHold : double (UserField.walletHold.get stored) = some 0
  response : response = blankPassword stored

/-- The response and the file hold what was asked for. -/
def AddedAsAsked (req : AddUserPayload) (response : Option UserBytes)
    (users : Option (List UserBytes)) : Prop :=
  ∃ r stored, response = some r ∧
    readRec (users.getD []) (uint32 (UserField.userId.get r)) = some stored ∧
    HoldsRequest popen req stored r

/-! ## the hash -/

section Hash

variable {popen} {input digits : List UInt8} {u : UserBytes} {i : Nat}

theorem Prints.opensslLine_eq (h : Prints popen input digits) :
    opensslLine popen input = digits := by
  have hnewline : ∀ c ∈ digits, decide (c ≠ newline) = true := fun c hc => by
    rw [decide_eq_true_iff]
    rintro rfl
    exact absurd (h.hex _ hc) (by decide)
  rw [opensslLine, h.output, Option.getD_some, List.takeWhile_append_of_pos hnewline,
    List.takeWhile_cons_of_neg (by decide), List.append_nil]

theorem Prints.not_mem (h : Prints popen input digits) {c : UInt8}
    (hc : c ∉ ascii "0123456789abcdef") : c ∉ digits := fun hmem => hc (h.hex c hmem)

/-- **The hash**: 64 digits and a NUL are written. -/
theorem sha256HexAt_of_prints (h : Prints popen input digits) (hi : i + 65 ≤ userSize) :
    sha256HexAt popen input i u = u.store i (digits ++ [0]) := by
  have hlength : (digits ++ [(0 : UInt8)]).length = 65 := by rw [List.length_append, h.length]; rfl
  have hline : fgets 64 (digits ++ [newline]) = digits :=
    fgets_of_not_mem (h.not_mem (by decide)) h.length
  have hne : digits ≠ [] := fun hnil => by
    have hzero := h.length
    rw [hnil] at hzero
    cases hzero
  have hdrop : (u.store i (digits ++ [0])).val.drop i = digits ++ 0 :: u.val.drop (i + 65) := by
    rw [CharArray.drop_store (by rw [hlength]; exact hi), hlength, List.append_assoc]
    rfl
  have hend : strcspnNewline (digits ++ 0 :: u.val.drop (i + 65)) = 64 := by
    rw [strcspnNewline_of_not_mem (h.not_mem (by decide)) (h.not_mem (by decide)), h.length]
  simp only [sha256HexAt, h.output, hline, if_neg hne, hdrop, hend]
  refine CharArray.store_eq_self (by simp only [List.length_singleton]; omega) ?_
  rw [List.length_singleton, CharArray.load_store_inside (by rw [hlength]; exact hi)
    (by rw [hlength]), List.drop_left' h.length]
  rfl

end Hash

/-! ## the fields of a new record -/

section Fields

variable {popen} {req : AddUserPayload} {userId : UInt32} {createdAt : Int} {digits : List UInt8}

/-- The NUL of the hash is the first byte of the name. -/
theorem newUserBytes_eq (h : Prints popen req.passwordString digits) :
    newUserBytes popen req userId createdAt =
      UserField.fullName.set (UserField.password.set (filledUser req userId createdAt) digits)
        [0] := by
  have hnext : UserField.fullName.offset = UserField.password.offset + digits.length := by
    rw [h.length]
  rw [newUserBytes, sha256HexAt_of_prints h (by decide),
    CharArray.store_append (by rw [h.length]; decide), ← hnext]
  rfl

theorem password_newUserBytes (h : Prints popen req.passwordString digits) :
    (UserField.password.get (newUserBytes popen req userId createdAt)).val = digits := by
  rw [newUserBytes_eq h, Field.get_set_of_apart (by decide) (by decide),
    Field.get_set_self h.length]

/-- Nothing is left of the name that was copied but what follows its first byte. -/
theorem fullName_newUserBytes (h : Prints popen req.passwordString digits) :
    (UserField.fullName.get (newUserBytes popen req userId createdAt)).val =
      0 :: (UserField.fullName.get (filledUser req userId createdAt)).val.drop 1 := by
  rw [newUserBytes_eq h, Field.get_set_short (by decide),
    Field.get_set_of_apart (by decide) (Nat.le_of_eq h.length), List.length_singleton,
    List.singleton_append]

/-- The hash stays in the two fields. -/
theorem get_newUserBytes (h : Prints popen req.passwordString digits) (f : Field userSize)
    (hf : f.Apart UserField.password ∧ f.Apart UserField.fullName) :
    f.get (newUserBytes popen req userId createdAt) = f.get (filledUser req userId createdAt) := by
  rw [newUserBytes_eq h, Field.get_set_of_apart hf.2 (by decide),
    Field.get_set_of_apart hf.1 (Nat.le_of_eq h.length)]

/-- What the fields hold before the password is hashed. -/
theorem get_filledUser (req : AddUserPayload) (userId : UInt32) (createdAt : Int) :
    let u := filledUser req userId createdAt
    (UserField.userId.get u).val = toLe 4 userId.toNat ∧
      (UserField.role.get u).val = toLe 4 req.role.toNat ∧
      (UserField.status.get u).val = toLe 4 accountActive.toNat ∧
      (UserField.walletBalance.get u).val = toLe 8 0 ∧
      (UserField.walletHold.get u).val = toLe 8 0 ∧
      (UserField.createdAt.get u).val = toLe 8 (BitVec.ofInt 64 createdAt).toNat ∧
      (UserField.lastLogin.get u).val = toLe 8 0 ∧
      (UserField.isDeleted.get u).val = toLe 4 0 := by
  refine ⟨?_, ?_, ?_, ?_, ?_, ?_, ?_, ?_⟩ <;>
    simp (disch := first | decide | (simp only [length_strncpyBytes, length_toLe] <;> decide)) only
      [filledUser, Field.get_set_of_apart, Field.get_set_self]

/-- The names are copied up to the last byte of their fields, which stays zero. -/
theorem names_filledUser (req : AddUserPayload) (userId : UInt32) (createdAt : Int) :
    let u := filledUser req userId createdAt
    UserField.username.get u = strncpy (.zero _) req.username.val (maxUsername - 1) ∧
      UserField.fullName.get u = strncpy (.zero _) req.fullName.val (maxName - 1) := by
  constructor <;>
    simp (disch := first | decide | (simp only [length_strncpyBytes, length_toLe] <;> decide)) only
      [filledUser, Field.get_set_of_apart, Field.get_set_strncpy, Field.get_zero]

/-- What `sha256_hex` does to the record of a new user, in its two fields. -/
theorem val_writeHash {u : User} (h : digits.length = maxPassword) :
    (u.writeHash digits).password.val = digits ∧
      (u.writeHash digits).fullName.val = 0 :: u.fullName.val.drop 1 := by
  have hlength : (digits ++ [(0 : UInt8)]).length = maxPassword + 1 := by
    rw [List.length_append, h]
    rfl
  have hboth : digits ++ [0] ++ (u.password.val ++ u.fullName.val).drop (digits ++ [0]).length =
      digits ++ 0 :: u.fullName.val.drop 1 := by
    rw [hlength, ← List.drop_drop, List.drop_left' u.password.length_val, List.append_assoc]
    rfl
  have hname : (0 :: u.fullName.val.drop 1).length = maxName := by
    rw [List.length_cons, List.length_drop, CharArray.length_val]
    rfl
  constructor
  · change (CharArray.ofBytes maxPassword (List.take maxPassword _)).val = digits
    rw [hboth, List.take_left' h, CharArray.ofBytes_val (Nat.le_of_eq h), h, Nat.sub_self,
      List.replicate_zero, List.append_nil]
  · change (CharArray.ofBytes maxName (List.drop maxPassword _)).val = _
    rw [hboth, List.drop_left' h, CharArray.ofBytes_val (Nat.le_of_eq hname), hname, Nat.sub_self,
      List.replicate_zero, List.append_nil]

/-- **Layout**: the record is the new user. -/
theorem ofBytes_newUserBytes (h : Prints popen req.passwordString digits)
    {sha256Hex : List UInt8 → List UInt8} (hsha : sha256Hex req.passwordString = digits) :
    User.ofBytes (newUserBytes popen req userId createdAt) =
      some (newUser sha256Hex req userId (createdAt.bmod (2 ^ 64))) := by
  have hhash : hashString sha256Hex req.passwordString = digits := by
    rw [hashString, hsha, List.take_of_length_le (Nat.le_of_eq h.length)]
  obtain ⟨huserId, hrole, hstatus, hbalance, hhold, hcreated, hlast, hdeleted⟩ :=
    get_filledUser req userId createdAt
  obtain ⟨husername, hfullName⟩ := names_filledUser req userId createdAt
  have hpassword : UserField.password.get (newUserBytes popen req userId createdAt) =
      (newUser sha256Hex req userId (createdAt.bmod (2 ^ 64))).password :=
    Subtype.ext (by rw [password_newUserBytes h, newUser, hhash, (val_writeHash h.length).1])
  have hname : UserField.fullName.get (newUserBytes popen req userId createdAt) =
      (newUser sha256Hex req userId (createdAt.bmod (2 ^ 64))).fullName :=
    Subtype.ext (by
      rw [fullName_newUserBytes h, hfullName, newUser, hhash, (val_writeHash h.length).2])
  rw [User.ofBytes, hpassword, hname, get_newUserBytes h UserField.walletBalance (by decide),
    get_newUserBytes h UserField.walletHold (by decide),
    get_newUserBytes h UserField.userId (by decide),
    get_newUserBytes h UserField.username (by decide),
    get_newUserBytes h UserField.role (by decide),
    get_newUserBytes h UserField.status (by decide),
    get_newUserBytes h UserField.createdAt (by decide),
    get_newUserBytes h UserField.lastLogin (by decide),
    get_newUserBytes h UserField.isDeleted (by decide),
    double_of_zeros (hbalance.trans (toLe_zero 8)), double_of_zeros (hhold.trans (toLe_zero 8)),
    uint32_of_val huserId, uint32_of_val hrole, uint32_of_val hstatus, int_of_val rfl hcreated,
    int_of_zeros (hlast.trans (toLe_zero 8)), uint32_of_zeros (hdeleted.trans (toLe_zero 4)),
    husername]
  rfl

end Fields

/-! ## the request -/

section Request

variable {popen} {req : AddUserPayload} {writable : Bool} {createdAt : Int}
  {users : Option (List UserBytes)} {digits : List UInt8}

/-- A record holds the request exactly if there is no name to lose. -/
theorem holdsRequest_iff (userId : UInt32) (createdAt : Int)
    (h : Prints popen req.passwordString digits) :
    let u := newUserBytes popen req userId createdAt
    HoldsRequest popen req u (blankPassword u) ↔ cString req.fullName.val = [] := by
  intro u
  have hget (f : Field userSize) (hf : f.Apart UserField.password ∧ f.Apart UserField.fullName) :
      f.get u = f.get (filledUser req userId createdAt) := get_newUserBytes h f hf
  have hname : cString (UserField.fullName.get u).val = [] := by
    rw [fullName_newUserBytes h]
    rfl
  constructor
  · intro hholds
    have hcut := hholds.fullName
    rw [hname] at hcut
    exact (cString_take_eq_nil (by decide)).mp hcut.symm
  · intro hempty
    obtain ⟨-, hrole, -, hbalance, hhold, -⟩ := get_filledUser req userId createdAt
    obtain ⟨husername, -⟩ := names_filledUser req userId createdAt
    have hpassword : req.passwordString = cString req.password.val := by
      have hnul : 0 ∈ req.fullName.val := by
        by_contra hnot
        have hlength := req.fullName.length_val
        rw [cString_of_not_mem hnot] at hempty
        rw [hempty] at hlength
        exact absurd hlength (by decide)
      rw [AddUserPayload.passwordString, List.append_assoc,
        cString_append_of_eq_nil (List.append_ne_nil_of_left_ne_nil (List.ne_nil_of_mem hnul) _)
          (by rw [cString_append_of_mem hnul, hempty])]
    exact {
      username := by
        rw [hget UserField.username (by decide), husername, cString_strncpy_zero _ (by decide)]
      fullName := by rw [hname, (cString_take_eq_nil (by decide)).mpr hempty]
      role := by rw [hget UserField.role (by decide), uint32_of_val hrole]
      password := by rw [password_newUserBytes h, ← hpassword, h.opensslLine_eq]
      walletBalance := by
        rw [hget UserField.walletBalance (by decide),
          double_of_zeros (hbalance.trans (toLe_zero 8))]
      walletHold := by
        rw [hget UserField.walletHold (by decide), double_of_zeros (hhold.trans (toLe_zero 8))]
      response := rfl }

/-- What `ERR_OK` means. -/
theorem handleAddUserBytes_ok
    (hok : (handleAddUserBytes popen writable createdAt req users).1.1 = .errOk) :
    let u := newUserBytes popen req (nextRecId (users.getD [])) createdAt
    handleAddUserBytes popen writable createdAt req users =
      ((.errOk, some (blankPassword u)),
        some (writeRec (.zero _) (users.getD []) (uint32 (UserField.userId.get u)) u)) := by
  revert hok
  rw [handleAddUserBytes]
  split
  · nofun
  · cases writable with
    | false => nofun
    | true => exact fun _ => rfl

/-- What is answered and stored is the record of the new user. -/
theorem addedAsAsked_iff_holdsRequest
    (hok : (handleAddUserBytes popen writable createdAt req users).1.1 = .errOk) :
    let u := newUserBytes popen req (nextRecId (users.getD [])) createdAt
    AddedAsAsked popen req (handleAddUserBytes popen writable createdAt req users).1.2
      (handleAddUserBytes popen writable createdAt req users).2 ↔
        HoldsRequest popen req u (blankPassword u) := by
  intro u
  have hid : UserField.userId.get (blankPassword u) = UserField.userId.get u :=
    Field.get_set_of_apart (by decide) (by decide)
  rw [handleAddUserBytes_ok hok]
  constructor
  · rintro ⟨r, stored, hr, hstored, hholds⟩
    cases hr
    rw [hid, Option.getD_some, readRec_writeRec_self] at hstored
    cases hstored
    exact hholds
  · intro hholds
    refine ⟨_, u, rfl, ?_, hholds⟩
    rw [hid, Option.getD_some, readRec_writeRec_self]

/-- **What is stored**: a new user is stored and answered as asked for exactly if the full name
is empty. -/
theorem addedAsAsked_iff (h : Prints popen req.passwordString digits)
    (hok : (handleAddUserBytes popen writable createdAt req users).1.1 = .errOk) :
    AddedAsAsked popen req (handleAddUserBytes popen writable createdAt req users).1.2
      (handleAddUserBytes popen writable createdAt req users).2 ↔ cString req.fullName.val = [] :=
  (addedAsAsked_iff_holdsRequest hok).trans (holdsRequest_iff _ _ h)

end Request

/-! ## the handler on records -/

/-- The payload of the answer. -/
def userPayload (response : Option UserBytes) : Payload :=
  match response.bind User.ofBytes with
  | none => .empty
  | some u => .user u

section Records

variable {popen} {sha256Hex : List UInt8 → List UInt8} {req : AddUserPayload} {s : Store}
  {users : Option (List UserBytes)}

/-- **Refinement**: on the bytes of `users.dat` the handler answers and writes what it does on
the records. -/
theorem handleAddUser_of_bytes (fd : Int) (hfile : s.users ≠ [] → s.present .users = true)
    (hclock : s.clock.bmod (2 ^ 64) = s.clock)
    (hprints : Prints popen req.passwordString (sha256Hex req.passwordString))
    (hdecodes : Decodes User.ofBytes users (s.scan .users s.users)) :
    let result := handleAddUserBytes popen true s.clock req users
    let t := (Prog.run Api.exec (handleAddUser sha256Hex fd req) s).2
    Decodes User.ofBytes result.2 (t.scan .users t.users) ∧
      t.sent = s.sent ++ [(fd, ⟨.msgAddUserResp, result.1.1, userPayload result.1.2⟩)] := by
  have hrecords : List.Forall₂ (fun b u => User.ofBytes b = some u) (users.getD []) s.users := by
    rw [← scanned_users hfile]
    generalize s.scan .users s.users = l at hdecodes
    cases hdecodes with
    | none => exact .nil
    | some h => exact h
  have htaken := forall₂_any hrecords (p := fun tmp => uint32 (UserField.isDeleted.get tmp) == 0 &&
      strncmpEq maxUsername (UserField.username.get tmp).val req.username.val)
    (q := fun u => !u.isDeleted && strncmpEq maxUsername u.username.val req.username.val)
    fun {b u} hu => by
      obtain ⟨-, hname, hdeleted⟩ := User.ofBytes_eq_some hu
      rw [hname, hdeleted, bne, Bool.not_not]
  have hnext : nextRecId (users.getD []) = nextRecId s.users := by
    rw [nextRecId, nextRecId, hrecords.length_eq]
  cases htest : s.users.any fun u =>
      !u.isDeleted && strncmpEq maxUsername u.username.val req.username.val with
  | true =>
      rw [htest] at htaken
      simp only [handleAddUserBytes, htaken, if_true, handleAddUser, scanUsers, Prog.bind_call,
        Prog.bind_pure, Prog.run_call, Api.exec_sys, Store.exec, scanned_users hfile, htest]
      exact ⟨hdecodes, rfl⟩
  | false =>
      rw [htest] at htaken
      have hnew : User.ofBytes (newUserBytes popen req (nextRecId s.users) s.clock) =
          some (newUser sha256Hex req (nextRecId s.users) s.clock) := by
        rw [ofBytes_newUserBytes hprints rfl, hclock]
      simp only [handleAddUserBytes, htaken, handleAddUser, scanUsers, Prog.bind_call,
        Prog.bind_pure, Prog.run_call, Api.exec_sys, Store.exec, scanned_users hfile, htest, hnext,
        Bool.false_eq_true, if_false]
      simp only [Bool.not_true, Bool.false_eq_true, if_false, Store.scan]
      refine ⟨.some ?_, ?_⟩
      · rw [← (User.ofBytes_eq_some hnew).1]
        exact forall₂_writeRec hrecords User.ofBytes_zero hnew _
      · rw [userPayload, Option.bind_some, User.ofBytes_blankPassword, hnew]
        rfl

end Records

/-- `popen` for the first password only. -/
def adminPopen (cmd : List UInt8) : Option (List UInt8) :=
  if cmd = command adminPassword then some (adminDigest ++ [newline]) else none

/-- A request for a bidder with this full name. -/
def namedRequest (fullName : List UInt8) : AddUserPayload where
  username := .ofBytes _ (ascii "ann")
  password := .ofBytes _ adminPassword
  fullName := .ofBytes _ fullName
  role := roleBidder
  rest := []

theorem prints_namedRequest (fullName : List UInt8) :
    Prints adminPopen (namedRequest fullName).passwordString adminDigest := by
  have hpassword : (namedRequest fullName).passwordString = adminPassword := by
    have hend : 0 ∈ (CharArray.ofBytes maxPassword adminPassword).val := by decide
    rw [AddUserPayload.passwordString, List.append_assoc, namedRequest, cString_append_of_mem hend]
    decide
  rw [hpassword]
  exact ⟨rfl, rfl, by decide +kernel⟩

/-- `users.dat` of a new installation. -/
def seededUsers : Option (List UserBytes) :=
  some ((Store.seeded adminSha256Hex 0 1000).users.map User.bytes)

/-- A user without a name is added behind the administrator as asked for. -/
theorem addedAsAsked_iff_unnamed :
    let result := handleAddUserBytes adminPopen true 1000 (namedRequest []) seededUsers
    AddedAsAsked adminPopen (namedRequest []) result.1.2 result.2 ↔
      cString (namedRequest []).fullName.val = [] :=
  addedAsAsked_iff (prints_namedRequest []) (by decide +kernel)

/-- The name of a user who has one is lost. -/
theorem not_addedAsAsked :
    let req := namedRequest (ascii "Ann")
    Decodes User.ofBytes seededUsers (some (Store.seeded adminSha256Hex 0 1000).users) ∧
      (handleAddUserBytes adminPopen true 1000 req seededUsers).1.1 = .errOk ∧
      Prints adminPopen req.passwordString adminDigest ∧
      ¬ AddedAsAsked adminPopen req (handleAddUserBytes adminPopen true 1000 req seededUsers).1.2
        (handleAddUserBytes adminPopen true 1000 req seededUsers).2 := by
  intro req
  have hprints : Prints adminPopen req.passwordString adminDigest :=
    prints_namedRequest (ascii "Ann")
  have hok : (handleAddUserBytes adminPopen true 1000 req seededUsers).1.1 = .errOk := by
    decide +kernel
  have hnamed : cString req.fullName.val ≠ [] := by decide +kernel
  have hfits : ∀ u ∈ (Store.seeded adminSha256Hex 0 1000).users, u.Fits := by decide +kernel
  have hdecodes : Decodes User.ofBytes seededUsers
      (some (Store.seeded adminSha256Hex 0 1000).users) := by
    refine .some ?_
    rw [List.forall₂_map_left_iff, List.forall₂_same]
    exact fun u hu => User.ofBytes_bytes (hfits u hu)
  refine ⟨hdecodes, hok, hprints, fun hadded => hnamed ?_⟩
  have hholds := (addedAsAsked_iff_holdsRequest hok).mp hadded
  exact (holdsRequest_iff _ _ hprints).mp hholds

end OnlineAuction
