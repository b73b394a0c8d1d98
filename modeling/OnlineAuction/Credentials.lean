import OnlineAuction.Usernames

/-!
# OnlineAuction.Credentials

Whether the credentials of an account open it.

`handle_login` looks for the bytes of the name field in the file and hashes the string at the
password field.  The name in the file is the field of `add_user`, unless it had to be cut, and
the hash is the one of the same string, unless that ran on into the bytes that follow the field:
`credentials_iff` says for which requests a user who was added, or who has a new password, gets
in.
-/

namespace OnlineAuction

section Logins

variable (sha256Hex : List UInt8 → List UInt8)

/-- What `strncmp` compares of a hash. -/
def digest (input : List UInt8) : List UInt8 := cString (hashString sha256Hex input)

/-- The login succeeds and is for this user. -/
def LogsInAs (t : Store) (fd : Int) (login : LoginPayload) (out : User) (userId : UInt32) : Prop :=
  ∃ u, (Prog.run Api.exec (handleLogin sha256Hex fd login out) t).1 = (true, u) ∧
    u.userId = userId

/-- A user is added, `handle_add_user` answers with the record `w`, and some time later, with the
same users, `login` has the same name and password.  The user has no session, there is a slot, and
the two strings that are hashed do not collide. -/
structure FirstLogin (s t : Store) (fd : Int) (req : AddUserPayload) (login : LoginPayload)
    (w : User) : Prop where
  file : s.users ≠ [] → s.present .users = true
  room : s.users.length < 2 ^ 32 - 1
  answered : (⟨.sys (.send fd ⟨.msgAddUserResp, .errOk, .user w⟩), ()⟩ : Event ApiSig) ∈
    Prog.trace Api.exec (handleAddUser sha256Hex fd req) s
  users : t.users = (Prog.run Api.exec (handleAddUser sha256Hex fd req) s).2.users
  loggedOut : sessionSlot t.sessions w.userId = none
  slot : (freeSlot t.sessions).isSome = true
  username : login.username = req.username
  password : login.password = req.password
  collision : digest sha256Hex login.passwordString = digest sha256Hex req.passwordString →
    login.passwordString = req.passwordString

/-- The password of `u` is changed, and some time later, with the same users, `login` has the new
one and a name that found the user before.  The user has no session, there is a slot, and the two
strings that are hashed do not collide. -/
structure NextLogin (s t : Store) (fd : Int) (req : ChangePassPayload) (login : LoginPayload)
    (u : User) : Prop where
  numbered : Numbered User.userId s.users
  copied : u.account ∈ s.users.map User.account
  answered : Answered fd .msgChangePassResp .errOk
    (Prog.trace Api.exec (handleChangePassword sha256Hex fd req u) s)
  users : t.users = (Prog.run Api.exec (handleChangePassword sha256Hex fd req u) s).2.users
  loggedOut : sessionSlot t.sessions u.userId = none
  slot : (freeSlot t.sessions).isSome = true
  username : (findByUsername s.users login.username.val).map User.userId = some u.userId
  password : login.password = req.newPassword
  collision : digest sha256Hex login.passwordString = digest sha256Hex req.newString →
    login.passwordString = req.newString

variable {sha256Hex} {s t : Store} {fd fd' : Int} {login : LoginPayload} {out u w : User}

/-- A login succeeds for the user whom the name finds. -/
theorem logsInAs_iff {userId : UInt32} : LogsInAs sha256Hex t fd login out userId ↔
    ∃ u, findByUsername t.users login.username.val = some u ∧ u.userId = userId ∧
      (u.status ≠ accountBanned ∧ u.status ≠ accountInactive) ∧
      passwordMatches sha256Hex login.passwordString u = true ∧
      sessionSlot t.sessions userId = none ∧ (freeSlot t.sessions).isSome = true := by
  unfold LogsInAs
  cases hu : findByUsername t.users login.username.val with
  | none => simp [handleLogin, Store.exec, hu]
  | some u =>
      by_cases hstatus : u.status = accountBanned ∨ u.status = accountInactive
      · have hrefused : ¬ (u.status ≠ accountBanned ∧ u.status ≠ accountInactive) :=
          fun h => hstatus.elim h.1 h.2
        simp [handleLogin, Store.exec, hu, hstatus]
        grind
      have hallowed : u.status ≠ accountBanned ∧ u.status ≠ accountInactive := not_or.mp hstatus
      cases hpass : passwordMatches sha256Hex login.passwordString u with
      | false => simp [handleLogin, Store.exec, hu, hstatus, hpass]
      | true =>
          cases hslot : sessionSlot t.sessions u.userId with
          | some slot =>
              simp [handleLogin, createSession, Store.exec, hu, hstatus, hpass, hslot]
              grind
          | none =>
              cases hfree : freeSlot t.sessions with
              | none =>
                  simp [handleLogin, createSession, Store.exec, hu, hstatus, hpass, hslot, hfree]
              | some slot =>
                  simp [handleLogin, createSession, notifyRegister, Store.exec, hu, hstatus, hpass,
                    hslot, hfree]
                  grind

theorem length_hashString (input : List UInt8) :
    (hashString sha256Hex input).length ≤ maxPassword := List.length_take_le ..

/-- What is compared of the hash that `handle_add_user` writes into a record. -/
theorem cString_writeHash {hash : List UInt8} (h : hash.length ≤ maxPassword) :
    cString (u.writeHash hash).password.val = cString hash := by
  have hbytes : ((hash ++ [(0 : UInt8)] ++ (u.password.val ++ u.fullName.val).drop
      (hash ++ [0]).length).take maxPassword).length ≤ maxPassword := List.length_take_le ..
  show cString (CharArray.ofBytes maxPassword _).val = _
  rw [CharArray.ofBytes_val hbytes, List.append_assoc]
  by_cases hfull : hash.length = maxPassword
  · rw [List.take_left' hfull, hfull]
    simp
  · have hcut : maxPassword - hash.length = (maxPassword - hash.length - 1) + 1 := by omega
    rw [List.take_append, List.take_of_length_le h, hcut, List.singleton_append,
      List.take_succ_cons, List.append_assoc, List.cons_append, cString_append_zero]

theorem passwordMatches_iff {input : List UInt8} : passwordMatches sha256Hex input u = true ↔
    digest sha256Hex input = cString u.password.val := by
  rw [passwordMatches, strncmpEq, List.take_of_length_le (length_hashString _),
    List.take_of_length_le (Nat.le_of_eq u.password.length_val), beq_iff_eq]
  rfl

/-! ## the first login -/

/-- `ERR_OK` is answered when the name is new to the check, with the record less its password. -/
theorem answered_addUser {req : AddUserPayload} (hfile : s.users ≠ [] → s.present .users = true) :
    (⟨.sys (.send fd ⟨.msgAddUserResp, .errOk, .user w⟩), ()⟩ : Event ApiSig) ∈
        Prog.trace Api.exec (handleAddUser sha256Hex fd req) s ↔
      (∀ w ∈ s.users, w.isDeleted = true ∨ cString w.username.val ≠ cString req.username.val) ∧
        w = { newUser sha256Hex req (nextRecId s.users) s.clock with password := .zero _ } := by
  cases htaken : s.users.any fun w => !w.isDeleted &&
      strncmpEq maxUsername w.username.val req.username.val with
  | true =>
      have hold : ¬ ∀ w ∈ s.users, w.isDeleted = true ∨
          cString w.username.val ≠ cString req.username.val := by
        rw [← not_taken_iff, htaken]
        decide
      simp only [handleAddUser, scanUsers, Prog.bind_call, Prog.bind_pure, Prog.trace_call,
        Api.exec_sys, Store.exec, scanned_users hfile, htaken, if_true, hold, false_and]
      simp [Store.exec]
  | false =>
      rw [and_iff_right (not_taken_iff.mp htaken)]
      simp only [handleAddUser, scanUsers, Prog.bind_call, Prog.bind_pure, Prog.trace_call,
        Api.exec_sys, Store.exec, scanned_users hfile, htaken, Bool.false_eq_true, if_false]
      simp [Store.exec]

/-- The name of a new user finds the record, unless it was cut. -/
theorem findByUsername_newUser {users : List User} {req : AddUserPayload} {userId : UInt32}
    {createdAt : Int} (hnew : ∀ w ∈ users, w.isDeleted = true ∨
      cString w.username.val ≠ cString req.username.val) :
    findByUsername (users ++ [newUser sha256Hex req userId createdAt]) req.username.val =
      if 0 ∈ req.username.val then some (newUser sha256Hex req userId createdAt) else none := by
  have hnone : users.find? (fun u => !u.isDeleted &&
      strncmpEq maxUsername u.username.val req.username.val) = none := by
    rw [List.find?_eq_none]
    exact List.any_eq_false.mp (not_taken_iff.mpr hnew)
  rw [findByUsername, List.find?_append, hnone, Option.none_or, List.find?_singleton]
  refine if_congr ?_ rfl rfl
  have hused : (newUser sha256Hex req userId createdAt).isDeleted = false := rfl
  rw [hused, Bool.not_false, Bool.true_and, strncmpEq_iff]
  by_cases hnul : 0 ∈ req.username.val
  · exact iff_of_true (newUser_name hnul) hnul
  · refine iff_of_false (fun hname => ?_) hnul
    have hlength := congrArg List.length hname
    rw [newUser_name_cut hnul, cString_of_not_mem hnul, List.length_take, CharArray.length_val]
      at hlength
    exact absurd hlength (by decide)

/-- **First login**: a user who was added gets in exactly if the name ends in its field, and the
string at the password field is the same as it was. -/
theorem FirstLogin.logsInAs_iff {req : AddUserPayload}
    (h : FirstLogin sha256Hex s t fd req login w) :
    LogsInAs sha256Hex t fd' login out w.userId ↔
      0 ∈ req.username.val ∧
        (0 ∈ req.password.val ∨ cString (req.fullName.val ++ req.rest) = cString login.rest) := by
  obtain ⟨hnew, hw⟩ := (answered_addUser h.file).mp h.answered
  have hid : w.userId = nextRecId s.users := congrArg User.userId hw
  have husers : t.users = s.users ++ [newUser sha256Hex req (nextRecId s.users) s.clock] :=
    h.users.trans (users_handleAddUser fd h.file h.room hnew)
  have hstring : login.passwordString = req.passwordString ↔
      0 ∈ req.password.val ∨ cString (req.fullName.val ++ req.rest) = cString login.rest := by
    rw [LoginPayload.passwordString, AddUserPayload.passwordString, h.password, List.append_assoc,
      cString_append_eq_iff]
    exact or_congr Iff.rfl eq_comm
  have hpass : passwordMatches sha256Hex login.passwordString
      (newUser sha256Hex req (nextRecId s.users) s.clock) = true ↔
        login.passwordString = req.passwordString := by
    have hstored : cString (newUser sha256Hex req (nextRecId s.users) s.clock).password.val =
        digest sha256Hex req.passwordString := cString_writeHash (length_hashString _)
    rw [passwordMatches_iff, hstored]
    exact ⟨h.collision, fun heq => congrArg (digest sha256Hex) heq⟩
  rw [OnlineAuction.logsInAs_iff, h.username, husers, findByUsername_newUser hnew]
  constructor
  · rintro ⟨u, hu, -, -, hmatch, -⟩
    split at hu
    · next hnul =>
        obtain rfl := Option.some.inj hu
        exact ⟨hnul, hstring.mp (hpass.mp hmatch)⟩
    · cases hu
  · rintro ⟨hnul, hsame⟩
    exact ⟨_, if_pos hnul, hid.symm,
      (by decide : accountActive ≠ accountBanned ∧ accountActive ≠ accountInactive),
      hpass.mpr (hstring.mpr hsame), h.loggedOut, h.slot⟩

/-! ## the new password -/

/-- The file after `ERR_OK`: the session's copy is written with the new hash. -/
theorem users_handleChangePassword {req : ChangePassPayload}
    (h : Answered fd .msgChangePassResp .errOk
      (Prog.trace Api.exec (handleChangePassword sha256Hex fd req u) s)) :
    (Prog.run Api.exec (handleChangePassword sha256Hex fd req u) s).2.users =
      writeRec .zero s.users u.userId (req.record sha256Hex u) := by
  cases hpass : passwordMatches sha256Hex req.oldString u with
  | false => simp [handleChangePassword, hpass, Answered] at h
  | true => simp [handleChangePassword, hpass, Store.exec, ChangePassPayload.record]

/-- **Next login**: a user with a new password gets in exactly if the account is one that may log
in, and the string at the password field is the same as it was. -/
theorem NextLogin.logsInAs_iff {req : ChangePassPayload}
    (h : NextLogin sha256Hex s t fd req login u) :
    LogsInAs sha256Hex t fd' login out u.userId ↔
      (u.status ≠ accountBanned ∧ u.status ≠ accountInactive) ∧
        (0 ∈ req.newPassword.val ∨ cString req.rest = cString login.rest) := by
  obtain ⟨w, hw, hcopy⟩ := List.mem_map.mp h.copied
  have hid : w.userId = u.userId := congrArg Prod.fst hcopy
  have husers : t.users = overwrite User.userId (req.record sha256Hex u) s.users :=
    h.users.trans ((users_handleChangePassword h.answered).trans
      (h.numbered.writeRec_eq_overwrite (x := req.record sha256Hex u) hw hid.symm))
  have hfound : findByUsername t.users login.username.val = some (req.record sha256Hex u) := by
    have haccounts : t.users.map User.account = s.users.map User.account :=
      husers ▸ h.numbered.map_overwrite (x := req.record sha256Hex u) hw hid.symm hcopy.symm
    have hids := userId_findByUsername haccounts login.username.val
    rw [h.username] at hids
    obtain ⟨z, hz, hzid⟩ := Option.map_eq_some_iff.mp hids
    have hnum : Numbered User.userId t.users := husers ▸ h.numbered.overwrite _
    have hmem : req.record sha256Hex u ∈ t.users := husers ▸ mem_overwrite_self hw hid.symm
    rw [hz, hnum.eq_of_id (mem_of_findByUsername hz) hmem hzid]
  have hstring : login.passwordString = req.newString ↔
      0 ∈ req.newPassword.val ∨ cString req.rest = cString login.rest := by
    rw [LoginPayload.passwordString, ChangePassPayload.newString, h.password,
      cString_append_eq_iff]
    exact or_congr Iff.rfl eq_comm
  have hpass : passwordMatches sha256Hex login.passwordString (req.record sha256Hex u) = true ↔
      login.passwordString = req.newString := by
    have hstored : cString (req.record sha256Hex u).password.val =
        digest sha256Hex req.newString := by
      rw [ChangePassPayload.record, cString_strncpy_self,
        List.take_of_length_le (length_hashString _)]
      rfl
    rw [passwordMatches_iff, hstored]
    exact ⟨h.collision, fun heq => congrArg (digest sha256Hex) heq⟩
  rw [OnlineAuction.logsInAs_iff, hfound]
  constructor
  · rintro ⟨z, hz, -, hstatus, hmatch, -⟩
    obtain rfl := Option.some.inj hz
    exact ⟨hstatus, hstring.mp (hpass.mp hmatch)⟩
  · rintro ⟨hstatus, hsame⟩
    exact ⟨_, rfl, rfl, hstatus,
      hpass.mpr (hstring.mpr hsame), h.loggedOut, h.slot⟩

/-- **Credentials**: when a user who was added gets in, and one who has a new password. -/
theorem credentials_iff :
    (∀ (s t : Store) (fd fd' : Int) (req : AddUserPayload) (login : LoginPayload) (w out : User),
      FirstLogin sha256Hex s t fd req login w →
        (LogsInAs sha256Hex t fd' login out w.userId ↔
          0 ∈ req.username.val ∧
            (0 ∈ req.password.val ∨
              cString (req.fullName.val ++ req.rest) = cString login.rest))) ∧
    (∀ (s t : Store) (fd fd' : Int) (req : ChangePassPayload) (login : LoginPayload)
      (u out : User), NextLogin sha256Hex s t fd req login u →
        (LogsInAs sha256Hex t fd' login out u.userId ↔
          (u.status ≠ accountBanned ∧ u.status ≠ accountInactive) ∧
            (0 ∈ req.newPassword.val ∨ cString req.rest = cString login.rest))) :=
  ⟨fun _ _ _ _ _ _ _ _ h => h.logsInAs_iff, fun _ _ _ _ _ _ _ _ h => h.logsInAs_iff⟩

end Logins

/-! ## names of 32 bytes -/

/-- A bidder with the first password, under this name. -/
def bidderRequest (name : List UInt8) : AddUserPayload :=
  ⟨.ofBytes _ name, .ofBytes _ adminPassword, .zero _, roleBidder, []⟩

/-- A login with the first password, under this name. -/
def loginRequest (name : List UInt8) : LoginPayload :=
  ⟨.ofBytes _ name, .ofBytes _ adminPassword, []⟩

/-- A store after a request to add a bidder. -/
def Store.withBidder (s : Store) (name : List UInt8) : Store :=
  (Prog.run Api.exec (handleAddUser adminSha256Hex 5 (bidderRequest name)) s).2

theorem firstLogin_bidder (s : Store) (name : List UInt8) (hfile : s.present .users = true)
    (hroom : s.users.length < 2 ^ 32 - 1)
    (hnew : ∀ w ∈ s.users, w.isDeleted = true ∨
      cString w.username.val ≠ cString (bidderRequest name).username.val)
    (hloggedOut : sessionSlot (s.withBidder name).sessions (nextRecId s.users) = none)
    (hslot : (freeSlot (s.withBidder name).sessions).isSome = true) :
    FirstLogin adminSha256Hex s (s.withBidder name) 5 (bidderRequest name) (loginRequest name)
      { newUser adminSha256Hex (bidderRequest name) (nextRecId s.users) s.clock with
        password := .zero _ } where
  file := fun _ => hfile
  room := hroom
  answered := (answered_addUser fun _ => hfile).mpr ⟨hnew, rfl⟩
  users := rfl
  loggedOut := hloggedOut
  slot := hslot
  username := rfl
  password := rfl
  collision := by
    have hsame : cString ((CharArray.ofBytes maxPassword adminPassword).val ++ []) =
        cString ((CharArray.ofBytes maxPassword adminPassword).val ++
          (CharArray.zero maxName).val ++ []) := by
      decide +kernel
    exact fun _ => hsame

/-- In a market a bidder who is added gets in, and so does one who has changed the password. -/
theorem credentials_iff_market :
    let s := (played (marketScript ++ [.disconnect 6])).store
    let ann := (readRec s.users 2).getD .zero
    let req : ChangePassPayload := ⟨.ofBytes _ adminPassword, .ofBytes _ otherPassword, []⟩
    LogsInAs adminSha256Hex (s.withBidder (ascii "dan")) 6 (loginRequest (ascii "dan")) .zero 5 ∧
      LogsInAs adminSha256Hex
        (Prog.run Api.exec (handleChangePassword adminSha256Hex 5 req ann) s).2 6
        ⟨.ofBytes _ (ascii "ann"), .ofBytes _ otherPassword, []⟩ .zero 2 := by
  intro s ann req
  constructor
  · have hid : nextRecId s.users = 5 := by decide +kernel
    have hfirst := firstLogin_bidder s (ascii "dan") (by decide +kernel) (by decide +kernel)
      (by decide +kernel) (by decide +kernel) (by decide +kernel)
    rw [← hid]
    exact (credentials_iff.1 s _ 5 6 _ _ _ .zero hfirst).mpr
      ⟨by decide +kernel, .inl (by decide +kernel)⟩
  · have hid : ann.userId = 2 := by decide +kernel
    rw [← hid]
    refine (credentials_iff.2 s _ 5 6 req _ ann .zero ?_).mpr
      ⟨by decide +kernel, .inl (by decide +kernel)⟩
    exact {
      numbered := by decide +kernel
      copied := by decide +kernel
      answered := by decide +kernel
      users := rfl
      loggedOut := by decide +kernel
      slot := by decide +kernel
      username := by decide +kernel
      password := rfl
      collision := fun _ => by decide +kernel }

/-- A bidder with a name of 32 letters does not. -/
theorem not_credentials : ¬ ∀ (s t : Store) (fd fd' : Int) (req : AddUserPayload)
    (login : LoginPayload) (w out : User), FirstLogin adminSha256Hex s t fd req login w →
      LogsInAs adminSha256Hex t fd' login out w.userId := by
  intro h
  obtain ⟨u, hu, -⟩ := h _ _ _ 6 _ _ _ .zero
    (firstLogin_bidder (.seeded adminSha256Hex 0 1000) (List.replicate 32 97) rfl
      (by decide +kernel) (by decide +kernel) (by decide +kernel) (by decide +kernel))
  have hfails : (Prog.run Api.exec (handleLogin adminSha256Hex 6
      (loginRequest (List.replicate 32 97)) .zero)
      (Store.withBidder (.seeded adminSha256Hex 0 1000) (List.replicate 32 97))).1.1 = false := by
    decide +kernel
  rw [hu] at hfails
  cases hfails

end OnlineAuction
