import OnlineAuction.Footprint
import OnlineAuction.SeedAdmin

/-!
# OnlineAuction.WalletSafety

No interleaving of the server's threads stores a wallet whose hold is negative
or above its balance.

The reason is a contract between the programs and the store: what is read
satisfies it (`walletPost`), and what is written is a copy of what was read,
with wallet fields that the guards of `apply_wallet_delta` have let through
(`walletPre`).  It does not matter how old a copy is.
-/

namespace OnlineAuction

/-- The wallet of a record is sound. -/
def User.WalletOk (u : User) : Prop := 0 ≤ u.walletHold ∧ u.walletHold ≤ u.walletBalance

/-- The empty record is in order. -/
theorem User.walletOk_zero : User.zero.WalletOk := by
  simp [User.WalletOk, User.zero]

/-! The other fields do not matter. -/

section Fields

variable (u : User)

/-- The wallet does not depend on the password. -/
@[simp] theorem User.walletOk_password (password : CharArray maxPassword) :
    ({ u with password := password } : User).WalletOk ↔ u.WalletOk := Iff.rfl

/-- Nor on the role. -/
@[simp] theorem User.walletOk_role (role : Role) :
    ({ u with role := role } : User).WalletOk ↔ u.WalletOk := Iff.rfl

/-- Nor on the status. -/
@[simp] theorem User.walletOk_status (status : AccountStatus) :
    ({ u with status := status } : User).WalletOk ↔ u.WalletOk := Iff.rfl

/-- Nor on the time of login. -/
@[simp] theorem User.walletOk_lastLogin (lastLogin : Int) :
    ({ u with lastLogin := lastLogin } : User).WalletOk ↔ u.WalletOk := Iff.rfl

end Fields

/-! ## the contract -/

/-- Only sound wallets are written. -/
def walletPre : SysOp → Prop
  | .writeUser u => u.WalletOk
  | _ => True

/-- Only sound wallets are read. -/
def walletPost : (op : SysOp) → op.Res → Prop
  | .readUser _, r | .findUserByUsername _, r => ∀ u ∈ r, u.WalletOk
  | _, _ => True

/-- The contract of the handlers' calls; wallet functions have none. -/
def walletApiPre : ApiOp → Prop
  | .sys op => walletPre op
  | .wallet _ _ => True

def walletApiPost : (op : ApiOp) → op.Res → Prop
  | .sys op, r => walletPost op r
  | .wallet _ _, _ => True

/-- A program in system calls keeps to the contract. -/
abbrev SysSafe {α : Type} (p : Prog SysSig α) (Q : α → Prop) : Prop :=
  p.Respects walletPre walletPost Q

/-- A program in the calls of the handlers keeps to the contract. -/
abbrev ApiSafe {α : Type} (p : Prog ApiSig α) (Q : α → Prop) : Prop :=
  p.Respects walletApiPre walletApiPost Q

/-- The store keeps its side of the contract. -/
theorem exec_walletOk {op : SysOp} {s : Store} (hs : ∀ u ∈ s.users, u.WalletOk)
    (hpre : walletPre op) :
    (∀ u ∈ (Store.exec op s).2.users, u.WalletOk) ∧ walletPost op (Store.exec op s).1 := by
  cases op with
  | readUser id =>
      exact ⟨hs, fun u hu => hs u (List.mem_of_getElem? hu)⟩
  | findUserByUsername name =>
      exact ⟨hs, fun u hu => hs u (mem_of_findByUsername hu)⟩
  | writeUser v =>
      refine ⟨fun u hu => ?_, trivial⟩
      rcases mem_writeAt hu with h | rfl | rfl
      · exact hs u h
      · exact User.walletOk_zero
      · exact hpre
  | _ => exact ⟨hs, trivial⟩

/-! ## the wallet functions -/

/-- The guards of the body keep the wallet in order. -/
theorem sysSafe_applyWalletDelta (id : UInt32) (bd hd : ℚ) :
    SysSafe (applyWalletDelta id bd hd) fun _ => True := by
  simp only [SysSafe, applyWalletDelta, Sys.readUser, Prog.bind_call, Prog.bind_pure]
  refine ⟨trivial, fun r _ => ?_⟩
  cases r with
  | none => trivial
  | some u =>
      cases h : walletDelta u bd hd with
      | none => simp [h]
      | some v => simpa [h, walletPre, User.WalletOk] using (walletDelta_eq_some h).2

/-- So each wallet function writes only such wallets. -/
theorem sysSafe_lockedDelta (id : UInt32) (bd hd : ℚ) (line : LogLine) :
    SysSafe (lockedDelta id bd hd line) fun _ => True := by
  simpa [SysSafe, lockedDelta, walletPre, walletPost] using sysSafe_applyWalletDelta id bd hd

/-- `place_hold` as well. -/
theorem sysSafe_placeHold (id : UInt32) (amount : ℚ) :
    SysSafe (placeHold id amount) fun _ => True := by
  simpa [SysSafe, placeHold, walletPre, walletPost, Option.forall] using
    fun _ _ _ => sysSafe_applyWalletDelta id 0 amount

/-- The programs of the wallet functions keep to the contract. -/
theorem sysSafe_impl (op : ApiOp) (h : walletApiPre op) :
    SysSafe (Api.impl op) (walletApiPost op) := by
  cases op with
  | sys op => exact ⟨h, fun _ hr => hr⟩
  | wallet site c =>
      cases c with
      | placeHold id amount => exact sysSafe_placeHold id amount
      | releaseHold id amount => exact sysSafe_lockedDelta id 0 (-amount) _
      | settlePayment id amount => exact sysSafe_lockedDelta id (-amount) (-amount) _
      | creditWallet id amount => exact sysSafe_lockedDelta id amount 0 _

/-! ## the handlers -/

section Handlers

variable (sha256Hex : List UInt8 → List UInt8) (clientFd : Int) {u : User}

/-- A program that writes no whole user record keeps to the contract. -/
theorem Within.apiSafe {areas : List Area} {α : Type} {p : Prog ApiSig α}
    (h : Within areas p) (hu : .users ∉ areas) : ApiSafe p fun _ => True := by
  refine h.weaken (fun op hop => ?_) fun _ _ _ => trivial
  cases op with
  | sys op =>
      cases op with
      | writeUser u => simp [ApiOp.In, ApiOp.area, SysOp.area, hu] at hop
      | _ => trivial
  | wallet site c => trivial

/-- A new user has an empty wallet. -/
theorem walletOk_newUser (req : AddUserPayload) (userId : UInt32) (createdAt : Int) :
    (newUser sha256Hex req userId createdAt).WalletOk := by
  simp [newUser, User.writeHash, User.WalletOk]

/-- A login writes back the record that it read. -/
theorem apiSafe_handleLogin (req : LoginPayload) (hu : u.WalletOk) :
    ApiSafe (handleLogin sha256Hex clientFd req u) fun r => r.2.WalletOk := by
  simpa [ApiSafe, handleLogin, createSession, notifyRegister, walletApiPre, walletPre,
    walletApiPost, walletPost, Option.forall, hu] using fun v hv _ _ _ => hv

/-- A change of password writes back the copy of the connection, which is in order. -/
theorem apiSafe_handleChangePassword (req : ChangePassPayload) (hu : u.WalletOk) :
    ApiSafe (handleChangePassword sha256Hex clientFd req u) User.WalletOk := by
  simp [ApiSafe, handleChangePassword, walletApiPre, walletPre, hu]

/-- A deposit leaves the connection with a copy in order. -/
theorem apiSafe_handleDeposit (req : DepositPayload) (hu : u.WalletOk) :
    ApiSafe (handleDeposit clientFd req u) User.WalletOk := by
  simpa [ApiSafe, handleDeposit, walletApiPre, walletPre, walletApiPost, walletPost,
    Option.forall, hu] using fun _ _ _ => User.walletOk_zero

/-- A new user is in order. -/
theorem apiSafe_handleAddUser (req : AddUserPayload) :
    ApiSafe (handleAddUser sha256Hex clientFd req) fun _ => True := by
  simp [ApiSafe, handleAddUser, walletApiPre, walletPre, walletApiPost, walletPost,
    walletOk_newUser]

/-- A change of role writes back the record that it read. -/
theorem apiSafe_handleChangeRole (req : ChangeRolePayload) :
    ApiSafe (handleChangeRole clientFd req) fun _ => True := by
  simpa [ApiSafe, handleChangeRole, demotesLastAdmin, walletApiPre, walletPre, walletApiPost,
    walletPost, Option.forall] using
    fun v hv => ⟨fun _ _ => ⟨fun _ => hv, fun _ _ => hv⟩, fun _ => hv⟩

/-- So does switching an account. -/
theorem apiSafe_handleToggleAccount (req : ToggleAccountPayload) :
    ApiSafe (handleToggleAccount clientFd req u) fun _ => True := by
  simpa [ApiSafe, handleToggleAccount, walletApiPre, walletPre, walletApiPost, walletPost,
    Option.forall] using fun v hv _ => hv

/-- A refusal writes nothing. -/
theorem apiSafe_whenAllowed (allowed : Bool) {p : Prog ApiSig Unit}
    (h : ApiSafe p fun _ => True) : ApiSafe (whenAllowed allowed clientFd p) fun _ => True := by
  unfold whenAllowed
  split
  · exact h
  · exact ⟨trivial, fun _ _ => trivial⟩

/-- Every request writes only wallets in order. -/
theorem apiSafe_dispatch (m : Request) :
    ApiSafe (dispatch sha256Hex clientFd u m) fun _ => True := by
  cases m with
  | fileDispute req =>
      exact apiSafe_whenAllowed _ _ ((within_handleFileDispute _ _ req).apiSafe (by decide))
  | viewAuctions => exact (within_handleViewAuctions _).apiSafe (by decide)
  | placeBid req =>
      exact apiSafe_whenAllowed _ _ ((within_handlePlaceBid _ _ req).apiSafe (by decide))
  | viewBalance => exact (within_handleViewBalance _ _).apiSafe (by decide)
  | viewMyBids => exact (within_handleViewMyBids _ _).apiSafe (by decide)
  | submitFeedback req => exact (within_handleSubmitFeedback _ _ req).apiSafe (by decide)
  | createAuction req =>
      exact apiSafe_whenAllowed _ _ ((within_handleCreateAuction _ _ req).apiSafe (by decide))
  | closeAuction req =>
      exact apiSafe_whenAllowed _ _ ((within_handleCloseAuction _ _ req).apiSafe (by decide))
  | viewDisputes =>
      exact apiSafe_whenAllowed _ _ ((within_handleViewDisputes _).apiSafe (by decide))
  | resolveDispute req =>
      exact apiSafe_whenAllowed _ _ ((within_handleResolveDispute _ _ req).apiSafe (by decide))
  | viewFeedback =>
      exact apiSafe_whenAllowed _ _ ((within_handleViewFeedback _).apiSafe (by decide))
  | toggleAccount req => exact apiSafe_whenAllowed _ _ (apiSafe_handleToggleAccount _ req)
  | addUser req => exact apiSafe_whenAllowed _ _ (apiSafe_handleAddUser _ _ req)
  | listUsers => exact apiSafe_whenAllowed _ _ ((within_handleListUsers _).apiSafe (by decide))
  | changeRole req => exact apiSafe_whenAllowed _ _ (apiSafe_handleChangeRole _ req)
  | _ => exact ⟨trivial, fun _ _ => trivial⟩

/-- One message keeps the connection's copy of the user sound. -/
theorem apiSafe_serve (c : Conn) (m : Request) (hc : c.currentUser.WalletOk) :
    ApiSafe (serve sha256Hex clientFd c m) fun r => r.1.currentUser.WalletOk := by
  have hdispatch := apiSafe_dispatch sha256Hex clientFd (u := c.currentUser) m
  have hlogout := (within_handleLogout clientFd c.currentUser).apiSafe (by decide)
  cases m with
  | login req => simpa [serve] using apiSafe_handleLogin sha256Hex clientFd req hc
  | logout =>
      simpa [serve, walletApiPre, walletPre, hc] using fun _ => hlogout
  | changePass req =>
      simpa [serve, walletApiPre, walletPre, hc] using
        fun _ => apiSafe_handleChangePassword sha256Hex clientFd req hc
  | deposit req =>
      simpa [serve, walletApiPre, walletPre, hc] using
        fun _ => apiSafe_handleDeposit clientFd req hc
  | _ => simpa [serve, walletApiPre, walletPre, hc] using fun _ => hdispatch

/-- So does a whole connection whose copy is in order. -/
theorem apiSafe_clientLoop (c : Conn) (messages : List Request)
    (hc : c.currentUser.WalletOk) :
    ApiSafe (clientLoop sha256Hex clientFd c messages) fun _ => True := by
  induction messages generalizing c with
  | nil => exact (within_cleanUp c).apiSafe (by decide)
  | cons m ms ih =>
      refine (apiSafe_serve sha256Hex clientFd c m hc).bind fun r hr => ?_
      obtain ⟨c', running⟩ := r
      cases running with
      | true => exact ih c' hr
      | false => exact (within_cleanUp c').apiSafe (by decide)

/-- Every unit of work of the server keeps to the contract, also in system
calls. -/
theorem sysSafe_task (task : Task) : SysSafe (task.sysProg sha256Hex) fun _ => True := by
  refine Prog.Respects.subst sysSafe_impl ?_
  cases task with
  | client clientFd messages =>
      simp only [Task.prog, handleClient]
      split
      · trivial
      · exact apiSafe_clientLoop sha256Hex clientFd .fresh messages User.walletOk_zero
  | timer => exact within_timerPass.apiSafe (by decide)

end Handlers

/-! ## every interleaving -/

section Runs

variable {ι : Type} [DecidableEq ι]

/-- **Wallet safety**: however the system calls of any number of threads are
interleaved, every stored wallet has `0 ≤ hold ≤ balance` at every step. -/
theorem walletOk_of_reach (sha256Hex : List UInt8 → List UInt8) (s : Store)
    (hs : ∀ u ∈ s.users, u.WalletOk) (work : ι → List Task) {d : Config SysSig ι (Shared ι)}
    (h : Reach sysMachine
      (.start (.idle s) fun t => (work t).map (Task.sysProg sha256Hex)) d) :
    ∀ u ∈ d.shared.store.users, u.WalletOk := by
  have hcall (t : ι) (op : SysOp) (x : Shared ι) (r : op.Res) (x' : Shared ι)
      (hx : ∀ u ∈ x.store.users, u.WalletOk) (hpre : walletPre op)
      (hstep : sysMachine.step t op x = some (r, x')) :
      (∀ u ∈ x'.store.users, u.WalletOk) ∧ walletPost op r := by
    obtain ⟨held, -, rfl, rfl⟩ := sysMachine_step.mp hstep
    exact exec_walletOk hx hpre
  have henv (x x' : Shared ι) (hx : ∀ u ∈ x.store.users, u.WalletOk)
      (hclock : sysMachine.env x x') : ∀ u ∈ x'.store.users, u.WalletOk := by
    obtain ⟨now, rfl⟩ := hclock
    exact hx
  refine (Run.respects hcall henv h hs fun t => ⟨trivial, fun p hp => ?_⟩).1
  obtain ⟨task, -, rfl⟩ := List.mem_map.mp hp
  exact sysSafe_task sha256Hex task

end Runs

/-- The users of a new installation are in order. -/
theorem walletOk_seeded (sha256Hex : List UInt8 → List UInt8) (createdAt now : Int) :
    ∀ u ∈ (Store.seeded sha256Hex createdAt now).users, u.WalletOk := by
  simp [Store.seeded, seedAdmin, User.writeHash, User.WalletOk]

/-- The administrator logs in and deposits on one connection while a second
client fails to log in and the timer makes a pass. -/
theorem walletOk_of_reach_seeded :
    let login (password : List UInt8) : Request :=
      .login ⟨.ofBytes _ adminName, .ofBytes _ password, []⟩
    let work : Fin 3 → List Task
      | 0 => [.client 4 [login adminPassword, .deposit ⟨100⟩]]
      | 1 => [.client 5 [login adminName]]
      | 2 => [.timer]
    let c : Config SysSig (Fin 3) (Shared (Fin 3)) :=
      .start (.idle (.seeded id 0 1000)) fun t => (work t).map (Task.sysProg id)
    ∀ u ∈ (c.after sysMachine anyStep (List.replicate 20 [0, 1, 2] |>.flatten)).shared.store.users,
      u.WalletOk :=
  walletOk_of_reach id (.seeded id 0 1000) (walletOk_seeded id 0 1000) _ (Run.after _)

end OnlineAuction
