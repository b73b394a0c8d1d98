import OnlineAuction.Admin

/-!
# OnlineAuction.SeedAdmin

`seed_admin.c`: the state that a new installation starts from.
-/

namespace OnlineAuction

/-- The bytes of `admin`. -/
def adminName : List UInt8 := [97, 100, 109, 105, 110]

/-- The bytes of `System Admin`. -/
def adminFullName : List UInt8 := [83, 121, 115, 116, 101, 109, 32, 65, 100, 109, 105, 110]

/-- The bytes of `admin123`. -/
def adminPassword : List UInt8 := [97, 100, 109, 105, 110, 49, 50, 51]

/-- The hexadecimal SHA-256 digest of `admin123`. -/
def adminDigest : List UInt8 :=
  [50, 52, 48, 98, 101, 53, 49, 56, 102, 97, 98, 100, 50, 55, 50, 52, 100, 100, 98, 54, 102,
    48, 52, 101, 101, 98, 49, 100, 97, 53, 57, 54, 55, 52, 52, 56, 100, 55, 101, 56, 51, 49,
    99, 48, 56, 99, 56, 102, 97, 56, 50, 50, 56, 48, 57, 102, 55, 52, 99, 55, 50, 48, 97, 57]

/-- Another password. -/
def otherPassword : List UInt8 := ascii "open sesame"

/-- The hexadecimal SHA-256 digest of it. -/
def otherDigest : List UInt8 :=
  ascii "41ef4bb0b23661e66301aac36066912dac037827b4ae63a7b1165a5aa93ed4eb"

/-- What the pipeline prints for the two passwords, and nothing for other strings: a stand-in for
`sha256Hex` in runs where only these are used. -/
def adminSha256Hex (input : List UInt8) : List UInt8 :=
  if input = adminPassword then adminDigest
  else if input = otherPassword then otherDigest
  else []

variable (sha256Hex : List UInt8 → List UInt8)

/-- The first account. -/
def seedAdmin (createdAt : Int) : User :=
  ({ userId := 1
     username := strncpy (.zero _) adminName (maxUsername - 1)
     password := .zero _
     fullName := strncpy (.zero _) adminFullName (maxName - 1)
     role := roleAdmin
     status := accountActive
     walletBalance := 0
     walletHold := 0
     createdAt := createdAt
     lastLogin := 0
     isDeleted := false } : User).writeHash (hashString sha256Hex adminPassword)

/-- The store when only the first account exists and no client is connected. -/
def Store.seeded (createdAt now : Int) : Store where
  users := [seedAdmin sha256Hex createdAt]
  auctions := []
  bids := []
  sessions := []
  feedback := []
  disputes := []
  txnLog := []
  present f := f == .users
  registry := List.replicate maxRegistry ⟨0, 0, false⟩
  clock := now
  sent := []

/-- The file of a new installation is numbered. -/
theorem numbered_seeded (createdAt now : Int) :
    Numbered User.userId (Store.seeded sha256Hex createdAt now).users := by
  intro i x hx
  obtain ⟨rfl, rfl⟩ : i = 0 ∧ x = seedAdmin sha256Hex createdAt := by
    cases i with
    | zero => exact ⟨rfl, (Option.some.inj hx).symm⟩
    | succ i => simp [Store.seeded] at hx
  rfl

end OnlineAuction
