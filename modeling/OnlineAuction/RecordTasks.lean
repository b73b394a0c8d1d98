import OnlineAuction.Threads
import OnlineAuction.WalletEffect
import Mathlib.Data.List.Induction

/-!
# OnlineAuction.RecordTasks

The operations that rewrite a user's record, side by side.

A wallet function reads a user's record and writes it back with new wallet
fields, under the mutex of the user's bucket.  A login, a change of role and
the switching of an account do the same with one other field each, under no
mutex (`RecordTask`).  `replay` is what the writes of these operations make of
a record one after the other, each changing its own fields only.
-/

namespace OnlineAuction

variable (sha256Hex : List UInt8 → List UInt8)

/-- An operation that rewrites a user's record. -/
inductive RecordTask
  | wallet (c : WalletCall)
  | login (clientFd : Int) (req : LoginPayload)
  | changeRole (clientFd : Int) (req : ChangeRolePayload)
  | toggleAccount (clientFd : Int) (req : ToggleAccountPayload) (moderator : User)

namespace RecordTask

/-- The program of an operation, in system calls. -/
def prog : RecordTask → Prog SysSig Unit
  | .wallet c => do
      let _ ← c.prog
      pure ()
  | .login clientFd req =>
      (do
        let _ ← handleLogin sha256Hex clientFd req .zero
        pure () : Prog ApiSig Unit).subst Api.impl
  | .changeRole clientFd req => (handleChangeRole clientFd req).subst Api.impl
  | .toggleAccount clientFd req moderator =>
      (handleToggleAccount clientFd req moderator).subst Api.impl

/-- The record `u` with the fields that the operation sets taken from `seen`. -/
def restore (seen u : User) : RecordTask → User
  | .wallet _ => u.withWallet seen.walletBalance seen.walletHold
  | .login _ _ => { u with lastLogin := seen.lastLogin }
  | .changeRole _ _ => { u with role := seen.role }
  | .toggleAccount _ _ _ => { u with status := seen.status }

/-- What the write of `v` by the operation is meant to make of the record. -/
def apply (v u : User) : RecordTask → Option User
  | .wallet c => c.apply u
  | .login _ _ => some { u with lastLogin := v.lastLogin }
  | .changeRole _ req => some { u with role := req.newRole }
  | .toggleAccount _ req _ => some { u with status := req.newStatus }

/-- The wallet function of the operation, if it is one. -/
def walletCall? : RecordTask → Option WalletCall
  | .wallet c => some c
  | _ => none

/-- The role that the operation sets. -/
def role? : RecordTask → Option Role
  | .changeRole _ req => some req.newRole
  | _ => none

/-- The status that the operation sets. -/
def status? : RecordTask → Option AccountStatus
  | .toggleAccount _ req _ => some req.newStatus
  | _ => none

/-- The time of login that the operation sets by writing `v`. -/
def lastLogin? (v : User) : RecordTask → Option Int
  | .login _ _ => some v.lastLogin
  | _ => none

end RecordTask

/-! ## the log of the writes -/

section Log

variable {ι : Type}

/-- The record that a call read. -/
def readOf : Event SysSig → Option User
  | ⟨.readUser _, r⟩ => r
  | ⟨.findUserByUsername _, r⟩ => r
  | _ => none

/-- The record that a call writes. -/
def SysOp.userWritten : SysOp → Option User
  | .writeUser v => some v
  | _ => none

/-- The record that thread `t` read last. -/
def lastRead [DecidableEq ι] (t : ι) (log : List (ι × Event SysSig)) : Option User :=
  log.reverse.findSome? fun e => if e.1 = t then readOf e.2 else none

/-- The writes of the record with this identifier, with who made them. -/
def writesOf (id : UInt32) (log : List (ι × Event SysSig)) : List (ι × User) :=
  log.filterMap fun e => (e.2.1.userWritten.filter fun v => v.userId = id).map fun v => (e.1, v)

/-- The writes of a thread, whichever the record. -/
theorem exists_mem_writesOf {t : ι} {log : List (ι × Event SysSig)} :
    (∃ v, (t, v) ∈ writesOf v.userId log) ↔
      ∃ e, (t, e) ∈ log ∧ e.1.userWritten.isSome = true := by
  simp only [writesOf, List.mem_filterMap, Option.map_eq_some_iff, Option.filter_eq_some_iff,
    Option.isSome_iff_exists]
  constructor
  · rintro ⟨v, ⟨u, e⟩, hmem, x, ⟨hx, -⟩, hux⟩
    obtain ⟨rfl, rfl⟩ := Prod.mk.inj hux
    exact ⟨e, hmem, x, hx⟩
  · rintro ⟨e, hmem, v, hv⟩
    exact ⟨v, (t, e), hmem, v, ⟨hv, decide_eq_true rfl⟩, rfl⟩

section Append

variable {t u : ι} {log : List (ι × Event SysSig)} {e : Event SysSig}

/-- A call that writes no record is no write of one. -/
@[simp] theorem writesOf_append_other (id : UInt32) (h : e.1.userWritten = none) :
    writesOf id (log ++ [(t, e)]) = writesOf id log := by
  simp [writesOf, h]

/-- A write is one of its record. -/
theorem writesOf_append_write (id : UInt32) (v : User) (r : Int) :
    writesOf id (log ++ [(t, ⟨.writeUser v, r⟩)]) =
      if v.userId = id then writesOf id log ++ [(t, v)] else writesOf id log := by
  split <;> simp [writesOf, SysOp.userWritten, *]

variable [DecidableEq ι]

/-- What a thread reads last is its last read. -/
@[simp] theorem lastRead_append_self :
    lastRead t (log ++ [(t, e)]) = (readOf e).or (lastRead t log) := by
  simp only [lastRead, List.reverse_append, List.reverse_singleton, List.singleton_append,
    List.findSome?_cons, if_true]
  cases readOf e <;> rfl

/-- The reads of others do not count. -/
@[simp] theorem lastRead_append_of_ne (h : t ≠ u) :
    lastRead u (log ++ [(t, e)]) = lastRead u log := by
  simp [lastRead, h]

end Append

variable (task : ι → RecordTask)

/-- What the writes are meant to make of the record, one after the other. -/
def replay (writes : List (ι × User)) (u : User) : Option User :=
  writes.foldlM (fun u w => (task w.1).apply w.2 u) u

/-- A further write is replayed last. -/
@[simp] theorem replay_append (writes : List (ι × User)) (w : ι × User) (u : User) :
    replay task (writes ++ [w]) u = (replay task writes u).bind ((task w.1).apply w.2) := by
  simp [replay, List.foldlM_append]

end Log

/-! ## success -/

/-- The writing of a record succeeds. -/
def Succeeds : Event SysSig → Prop
  | ⟨.writeUser _, r⟩ => r = 0
  | _ => True

/-- Whatever is read, the program answers `0` if it has written a record, and
`-1` otherwise. -/
def Tells : Bool → Prog SysSig Int → Prop
  | written, .pure a => a = if written then 0 else -1
  | written, .call o k =>
      ∀ r, Succeeds ⟨o, r⟩ → Tells (written || o.userWritten.isSome) (k r)

@[simp] theorem tells_pure (written : Bool) (a : Int) :
    Tells written (.pure a) ↔ a = if written then 0 else -1 := Iff.rfl

/-- A call that writes makes the difference. -/
@[simp] theorem tells_call (written : Bool) (o : SysOp) (k : o.Res → Prog SysSig Int) :
    Tells written (.call o k) ↔
      ∀ r, Succeeds ⟨o, r⟩ → Tells (written || o.userWritten.isSome) (k r) := Iff.rfl

/-- What a program has answered that has made these calls. -/
theorem Tells.answer {written : Bool} {p : Prog SysSig Int} {es : List (Event SysSig)} {a : Int}
    (h : Tells written p) (hes : ∀ e ∈ es, Succeeds e) (ha : p.Returns es a) :
    a = if written || es.any fun e => e.1.userWritten.isSome then 0 else -1 := by
  induction ha generalizing written with
  | pure => simpa using h
  | @call o k r es a _ ih =>
      obtain ⟨ho, hes⟩ := List.forall_mem_cons.mp hes
      rw [List.any_cons, ← Bool.or_assoc]
      exact ih (h r ho) hes

/-- The body of the wallet functions answers 0 when it has written, and -1 otherwise. -/
theorem tells_applyWalletDelta (id : UInt32) (bd hd : ℚ) {f : Int → Prog SysSig Int}
    (h0 : Tells true (f 0)) (h1 : Tells false (f (-1))) :
    Tells false (applyWalletDelta id bd hd >>= f) := by
  simp only [applyWalletDelta, Sys.readUser, Prog.bind_call, Prog.bind_pure, tells_call]
  intro r _
  cases r with
  | none => exact h1
  | some u =>
      cases hv : walletDelta u bd hd with
      | none => simpa [hv, SysOp.userWritten] using h1
      | some v => simpa [hv, SysOp.userWritten, Succeeds] using h0

/-- So do the functions that only lock and log around it. -/
theorem tells_lockedDelta (id : UInt32) (bd hd : ℚ) (line : LogLine) :
    Tells false (lockedDelta id bd hd line) := fun _ _ =>
  tells_applyWalletDelta id bd hd (by simp) (by simp [SysOp.userWritten])

/-- A wallet function is successful, as its caller sees it, exactly if it
writes. -/
theorem tells_wallet (c : WalletCall) : Tells false c.prog := by
  cases c with
  | placeHold id amount =>
      simp only [WalletCall.prog, placeHold, Sys.lock, Sys.readUser, Sys.unlock, Prog.pure_eq,
        Prog.bind_call, Prog.bind_pure, tells_call]
      intro _ _ r _
      cases r with
      | none => simp [SysOp.userWritten]
      | some u =>
          simp only
          split
          · simp [SysOp.userWritten]
          · exact tells_applyWalletDelta id 0 amount (by simp) (by simp [SysOp.userWritten])
  | releaseHold id amount => exact tells_lockedDelta id 0 (-amount) _
  | settlePayment id amount => exact tells_lockedDelta id (-amount) (-amount) _
  | creditWallet id amount => exact tells_lockedDelta id amount 0 _

/-! ## wallets apart from records -/

/-- What a wallet call makes of a balance and a hold. -/
def WalletCall.onWallet (c : WalletCall) (x : ℚ × ℚ) : Option (ℚ × ℚ) :=
  (c.apply (User.zero.withWallet x.1 x.2)).map fun v => (v.walletBalance, v.walletHold)

/-- The wallet fields of a record. -/
def User.wallet (u : User) : ℚ × ℚ := (u.walletBalance, u.walletHold)

/-- A wallet call looks at the wallet fields only. -/
theorem WalletCall.apply_wallet (c : WalletCall) (u : User) :
    (c.apply u).map User.wallet = c.onWallet u.wallet := by
  have key (bd hd : ℚ) : (walletDelta u bd hd).map User.wallet =
      (walletDelta (User.zero.withWallet u.walletBalance u.walletHold) bd hd).map User.wallet := by
    simp only [walletDelta_eq, User.withWallet_walletBalance, User.withWallet_walletHold]
    by_cases h1 : u.walletBalance + bd < 0
    · simp only [h1, if_true, Option.map_none]
    · by_cases h2 : u.walletBalance + bd < max (u.walletHold + hd) 0
      · simp only [h1, h2, if_true, if_false, Option.map_none]
      · simp only [h1, h2, if_false, Option.map_some]
        rfl
  cases c with
  | placeHold id amount =>
      by_cases h : amount > u.walletBalance - u.walletHold
      · simp [WalletCall.onWallet, WalletCall.apply, User.wallet, h]
      · simp only [WalletCall.onWallet, WalletCall.apply, User.wallet,
          User.withWallet_walletBalance, User.withWallet_walletHold, h, if_false]
        exact key 0 amount
  | releaseHold id amount => exact key 0 (-amount)
  | settlePayment id amount => exact key (-amount) (-amount)
  | creditWallet id amount => exact key amount 0

/-- What the operations leave of a record: the wallet that the wallet functions
alone make of the old one, and the fields that the last operations of each
other kind have set; everything else is as it was. -/
structure Updated {ι : Type} (task : ι → RecordTask) (writes : List (ι × User)) (u v : User) :
    Prop where
  wallet : (writes.filterMap fun w => (task w.1).walletCall?).foldlM
    (fun x c => c.onWallet x) u.wallet = some v.wallet
  role : v.role = ((writes.filterMap fun w => (task w.1).role?).getLast?).getD u.role
  status : v.status = ((writes.filterMap fun w => (task w.1).status?).getLast?).getD u.status
  lastLogin : v.lastLogin =
    ((writes.filterMap fun w => (task w.1).lastLogin? w.2).getLast?).getD u.lastLogin
  rest : v = { u with
    walletBalance := v.walletBalance, walletHold := v.walletHold, role := v.role,
    status := v.status, lastLogin := v.lastLogin }

/-- A further write updates the record. -/
theorem Updated.append {ι : Type} {task : ι → RecordTask} {writes : List (ι × User)}
    {u x v : User} (h : Updated task writes u x) (w : ι × User)
    (hv : (task w.1).apply w.2 x = some v) : Updated task (writes ++ [w]) u v := by
  cases ht : task w.1 with
  | wallet c =>
      rw [ht] at hv
      have hw := c.apply_wallet x
      rw [show c.apply x = some v from hv] at hw
      obtain ⟨⟨b, hd, rfl⟩, -⟩ := c.apply_eq_some hv
      constructor
      · rw [List.filterMap_append, List.foldlM_append, h.wallet]
        simpa [ht, RecordTask.walletCall?] using hw.symm
      · simpa [ht, RecordTask.role?, User.withWallet] using h.role
      · simpa [ht, RecordTask.status?, User.withWallet] using h.status
      · simpa [ht, RecordTask.lastLogin?, User.withWallet] using h.lastLogin
      · rw [h.rest]; rfl
  | login clientFd req =>
      rw [ht] at hv
      obtain rfl := Option.some.inj hv
      constructor
      · simpa [ht, RecordTask.walletCall?, User.wallet] using h.wallet
      · simpa [ht, RecordTask.role?] using h.role
      · simpa [ht, RecordTask.status?] using h.status
      · simp [ht, RecordTask.lastLogin?]
      · rw [h.rest]
  | changeRole clientFd req =>
      rw [ht] at hv
      obtain rfl := Option.some.inj hv
      constructor
      · simpa [ht, RecordTask.walletCall?, User.wallet] using h.wallet
      · simp [ht, RecordTask.role?]
      · simpa [ht, RecordTask.status?] using h.status
      · simpa [ht, RecordTask.lastLogin?] using h.lastLogin
      · rw [h.rest]
  | toggleAccount clientFd req moderator =>
      rw [ht] at hv
      obtain rfl := Option.some.inj hv
      constructor
      · simpa [ht, RecordTask.walletCall?, User.wallet] using h.wallet
      · simpa [ht, RecordTask.role?] using h.role
      · simp [ht, RecordTask.status?]
      · simpa [ht, RecordTask.lastLogin?] using h.lastLogin
      · rw [h.rest]

/-- Replaying the writes leaves exactly that. -/
theorem updated_of_replay {ι : Type} {task : ι → RecordTask} {writes : List (ι × User)}
    {u v : User} (h : replay task writes u = some v) : Updated task writes u v := by
  induction writes using List.reverseRecOn generalizing v with
  | nil =>
      obtain rfl := Option.some.inj h
      exact ⟨rfl, rfl, rfl, rfl, rfl⟩
  | append_singleton writes w ih =>
      rw [replay_append] at h
      obtain ⟨x, hx, happly⟩ := Option.bind_eq_some_iff.mp h
      exact (ih hx).append w happly

end OnlineAuction
