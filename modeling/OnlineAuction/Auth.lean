import OnlineAuction.Notify

/-!
# OnlineAuction.Auth

`server/auth.c`: login, logout and the change of a password.

`sha256Hex` stands for what the pipeline that `sha256_hex` opens prints for a
string: the lines of this module hold for any function.
-/

namespace OnlineAuction

variable (sha256Hex : List UInt8 → List UInt8)

/-- What `sha256_hex` leaves in `out`: at most 64 bytes of the line, then NUL. -/
def hashString (input : List UInt8) : List UInt8 := (sha256Hex input).take 64

/-- The string that starts at the password field: it runs on into what follows
when the field holds no NUL. -/
def LoginPayload.passwordString (req : LoginPayload) : List UInt8 :=
  cString (req.password.val ++ req.rest)

def ChangePassPayload.oldString (req : ChangePassPayload) : List UInt8 :=
  cString (req.oldPassword.val ++ req.newPassword.val ++ req.rest)

def ChangePassPayload.newString (req : ChangePassPayload) : List UInt8 :=
  cString (req.newPassword.val ++ req.rest)

/-- `strncmp(hashed, u.password, 64) == 0` for the hash of `input`. -/
def passwordMatches (input : List UInt8) (u : User) : Bool :=
  strncmpEq maxPassword (hashString sha256Hex input) u.password.val

/-- Steps 4 and 5 of `handle_login`, under `auth_lock`: a slot for the user,
or the error to answer. -/
def createSession (clientFd : Int) (u : User) : Prog ApiSig (Except ErrCode Unit) := do
  lock .auth
  match ← findSessionSlot u.userId with
  | some _ => do
      unlock .auth
      pure (.error .errAlreadyLogged)
  | none => do
      match ← findFreeSlot with
      | none => do
          unlock .auth
          pure (.error .errInternal)
      | some slot => do
          let loginTime ← time
          let _ ← writeSession slot ⟨u.userId, clientFd, loginTime, true⟩
          unlock .auth
          pure (.ok ())

/-- Returns whether the login succeeded, and the session's copy of the user. -/
def handleLogin (clientFd : Int) (req : LoginPayload) (outUser : User) :
    Prog ApiSig (Bool × User) := do
  match ← findUserByUsername req.username.val with
  | none => do
      sendMsg clientFd .msgLoginResp .errAuthFail .empty
      pure (false, outUser)
  | some u =>
      if u.status = accountBanned ∨ u.status = accountInactive then do
        sendMsg clientFd .msgLoginResp .errAccountBanned .empty
        pure (false, outUser)
      else if !passwordMatches sha256Hex req.passwordString u then do
        sendMsg clientFd .msgLoginResp .errAuthFail .empty
        pure (false, outUser)
      else do
        match ← createSession clientFd u with
        | .error status => do
            sendMsg clientFd .msgLoginResp status .empty
            pure (false, outUser)
        | .ok () => do
            notifyRegister u.userId clientFd
            let lastLogin ← time
            let u := { u with lastLogin := lastLogin }
            let _ ← writeUser u
            sendMsg clientFd .msgLoginResp .errOk (.user u)
            logTxn (.login u.userId (cString u.username.val))
            pure (true, u)

/-- Free the slot of a user, if there is one. -/
def clearSession (userId : UInt32) : Prog ApiSig Unit := do
  match ← findSessionSlot userId with
  | none => pure ()
  | some slot => do
      let _ ← writeSession slot .zero
      pure ()

def handleLogout (clientFd : Int) (u : User) : Prog ApiSig Unit := do
  lock .auth
  clearSession u.userId
  unlock .auth
  notifyUnregister u.userId
  sendMsg clientFd .msgLogoutResp .errOk .empty
  logTxn (.logout u.userId)

/-- The session's copy of the user is written back with the new password. -/
def handleChangePassword (clientFd : Int) (req : ChangePassPayload) (u : User) :
    Prog ApiSig User := do
  if !passwordMatches sha256Hex req.oldString u then do
    sendMsg clientFd .msgChangePassResp .errAuthFail .empty
    pure u
  else do
    let hashedNew := hashString sha256Hex req.newString
    let u := { u with password := strncpy u.password hashedNew maxPassword }
    let _ ← writeUser u
    sendMsg clientFd .msgChangePassResp .errOk .empty
    logTxn (.changePass u.userId)
    pure u

end OnlineAuction
