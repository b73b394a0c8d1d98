import OnlineAuction.Auth

/-!
# OnlineAuction.Admin

`server/admin.c`: the administrator's requests that the server dispatches.
`handle_delete_user` and `handle_modify_user` are never dispatched and are not
modelled.
-/

namespace OnlineAuction

variable (sha256Hex : List UInt8 → List UInt8)

/-- The string that starts at the password field; `rest` starts with the bytes
of `role`. -/
def AddUserPayload.passwordString (req : AddUserPayload) : List UInt8 :=
  cString (req.password.val ++ req.fullName.val ++ req.rest)

/-- `sha256_hex(…, u.password)`: the hash and its NUL are written from the
start of `password` on, and `full_name` follows `password` in the record. -/
def User.writeHash (u : User) (hash : List UInt8) : User :=
  let bytes := hash ++ [0]
  let both := bytes ++ (u.password.val ++ u.fullName.val).drop bytes.length
  { u with
    password := .ofBytes _ (both.take maxPassword)
    fullName := .ofBytes _ (both.drop maxPassword) }

/-- The record of a new user. -/
def newUser (req : AddUserPayload) (userId : UInt32) (createdAt : Int) : User :=
  ({ userId := userId
     username := strncpy (.zero _) req.username.val (maxUsername - 1)
     password := .zero _
     fullName := strncpy (.zero _) req.fullName.val (maxName - 1)
     role := req.role
     status := accountActive
     walletBalance := 0
     walletHold := 0
     createdAt := createdAt
     lastLogin := 0
     isDeleted := false } : User).writeHash (hashString sha256Hex req.passwordString)

def handleAddUser (clientFd : Int) (req : AddUserPayload) : Prog ApiSig Unit := do
  let taken := ((← scanUsers).getD []).any fun u =>
    !u.isDeleted && strncmpEq maxUsername u.username.val req.username.val
  if taken then sendMsg clientFd .msgAddUserResp .errInternal .empty
  else do
    let userId ← nextUserId
    let createdAt ← time
    let u := newUser sha256Hex req userId createdAt
    if (← writeUser u) < 0 then sendMsg clientFd .msgAddUserResp .errInternal .empty
    else do
      sendMsg clientFd .msgAddUserResp .errOk (.user { u with password := .zero _ })
      logTxn (.addUser u.userId (cString u.username.val) u.role)

def handleListUsers (clientFd : Int) : Prog ApiSig Unit := do
  match ← scanUsers with
  | none => sendMsg clientFd .msgListUsersResp .errOk .empty
  | some l =>
      let list := ((l.filter fun u => !u.isDeleted).take 512).map fun u =>
        { u with password := .zero _ }
      sendMsg clientFd .msgListUsersResp .errOk (.users list)

/-- The number of administrators in use. -/
def adminCount (users : List User) : Nat :=
  users.countP fun u => !u.isDeleted && u.status == accountActive && u.role == roleAdmin

/-- Would this change of role take away the last administrator?  The file is
only scanned when an administrator is demoted. -/
def demotesLastAdmin (u : User) (newRole : Role) : Prog ApiSig Bool :=
  if u.role = roleAdmin ∧ newRole ≠ roleAdmin then do
    let l ← scanUsers
    pure (adminCount (l.getD []) ≤ 1)
  else pure false

def handleChangeRole (clientFd : Int) (req : ChangeRolePayload) : Prog ApiSig Unit := do
  match ← readUser req.targetUserId with
  | none => sendMsg clientFd .msgChangeRoleResp .errNotFound .empty
  | some u => do
      let refuse ← demotesLastAdmin u req.newRole
      if refuse then sendMsg clientFd .msgChangeRoleResp .errPermission .empty
      else do
        let changed := { u with role := req.newRole }
        let _ ← writeUser changed
        sendMsg clientFd .msgChangeRoleResp .errOk
          (.user { changed with password := .zero _ })
        logTxn (.changeRole changed.userId u.role changed.role)

end OnlineAuction
