import OnlineAuction.RecordTasks
import OnlineAuction.Lib.Conduct
import OnlineAuction.Lib.RelyGuarantee
import OnlineAuction.SeedAdmin

/-!
# OnlineAuction.RecordUpdates

When no update of a user's record is lost.

Each thread runs one operation of `OnlineAuction.RecordTasks`.  An update is
lost when an operation writes a record back whose other fields have changed
since it read them; `UpToDate` excludes exactly that of a step.  In a run of
steps that are up to date the stored records are what the writes, one after
the other, make of the first ones (`Replayed`).  For the wallet fields no
condition is needed: the mutex of the bucket keeps the other wallet functions
out, and the other operations leave these fields alone.
-/

namespace OnlineAuction

variable {ι : Type} (sha256Hex : List UInt8 → List UInt8) (task : ι → RecordTask) (s₀ : Store)

/-- The shared state and the log of the calls so far. -/
abbrev Logged (ι : Type) : Type := Shared ι × List (ι × Event SysSig)

/-- The stored records are what the writes so far make of the first ones. -/
structure Replayed (w : Logged ι) : Prop where
  numbered : Numbered User.userId w.1.store.users
  replay : ∀ id, Option.Rel (fun u v => replay task (writesOf id w.2) u = some v)
    (readRec s₀.users id) (readRec w.1.store.users id)

/-- A relation between optional records may be weakened. -/
theorem optionRel_mono {α β : Type} {R R' : α → β → Prop} (h : ∀ a b, R a b → R' a b)
    {x : Option α} {y : Option β} (hxy : Option.Rel R x y) : Option.Rel R' x y := by
  cases hxy with
  | some hab => exact .some (h _ _ hab)
  | none => exact .none

/-- The wallet of an updated record is what the wallet calls make of the first one. -/
theorem wallet_of_updated {writes : List (ι × User)} {x y : Option User}
    (h : Option.Rel (Updated task writes) x y) :
    (x.bind fun u => (writes.filterMap fun w => (task w.1).walletCall?).foldlM
      (fun x c => c.onWallet x) u.wallet) = y.map User.wallet := by
  cases h with
  | some hu => exact hu.wallet
  | none => rfl

/-! ## calls that write no record -/

/-- The call neither writes a record nor takes or frees a wallet mutex. -/
def SysOp.Quiet : SysOp → Prop
  | .writeUser _ | .lock (.wallet _) | .unlock (.wallet _) => False
  | _ => True

/-- A call that writes no record changes no user. -/
theorem exec_users_of_not_written {op : SysOp} (h : op.userWritten = none) (s : Store) :
    (Store.exec op s).2.users = s.users := by
  cases op with
  | writeUser v => simp [SysOp.userWritten] at h
  | _ => rfl

/-- A quiet call writes no record. -/
theorem SysOp.Quiet.userWritten {op : SysOp} (h : op.Quiet) : op.userWritten = none := by
  cases op <;> first | rfl | exact h.elim

/-- Only `write_user` writes a record. -/
theorem SysOp.eq_writeUser {op : SysOp} {v : User} (h : op.userWritten = some v) :
    op = .writeUser v := by
  cases op with
  | writeUser u => rw [Option.some.inj h]
  | _ => contradiction

/-- A quiet call leaves the mutexes of the wallets. -/
theorem SysOp.Quiet.locks {op : SysOp} (h : op.Quiet) {t : ι} {held held' : Lock → Option ι}
    (hl : op.locks t held = some held') (id : UInt32) :
    held' (getWalletLock id) = held (getWalletLock id) := by
  cases op with
  | lock l =>
      simp only [SysOp.locks] at hl
      split at hl
      · contradiction
      · obtain rfl := Option.some.inj hl
        cases l <;> first | rfl | exact h.elim
  | unlock l =>
      obtain rfl := Option.some.inj hl
      cases l <;> first | rfl | exact h.elim
  | _ => obtain rfl := Option.some.inj hl; rfl

variable {task s₀} in
/-- A call that writes no record keeps the invariant. -/
theorem Replayed.of_not_written {t : ι} {op : SysOp} {w w' : Logged ι} {r : op.Res}
    (h : Replayed task s₀ w) (hop : op.userWritten = none)
    (hs : sysMachine.logged.step t op w = some (r, w')) : Replayed task s₀ w' := by
  obtain ⟨-, -, hstore, hlog⟩ := sysMachine_logged_step.mp hs
  have husers : w'.1.store.users = w.1.store.users := by
    rw [hstore]
    exact exec_users_of_not_written hop _
  refine ⟨husers ▸ h.numbered, fun id => ?_⟩
  rw [husers, hlog, writesOf_append_other id hop]
  exact h.replay id

/-! ## the condition -/

section Condition

variable [DecidableEq ι]

/-- A record is written back only when the stored one still agrees with the
copy that the thread has read, in all fields but those that it sets. -/
def UpToDate (t : ι) (op : SysOp) (w : Logged ι) : Prop :=
  ∀ v ∈ op.userWritten, ∃ seen ∈ lastRead t w.2, ∃ u ∈ readRec w.1.store.users v.userId,
    (task t).restore seen u = seen

instance (t : ι) (op : SysOp) (w : Logged ι) : Decidable (UpToDate task t op w) :=
  inferInstanceAs (Decidable (∀ v ∈ op.userWritten, ∃ seen ∈ lastRead t w.2,
    ∃ u ∈ readRec w.1.store.users v.userId, (task t).restore seen u = seen))

/-- What a thread relies on: the others do not touch its last copy, its mutex,
or the wallets that its mutex guards. -/
structure RecordRely (t : ι) (w w' : Logged ι) : Prop where
  lastRead : lastRead t w'.2 = lastRead t w.2
  wallet : ∀ id, w.1.held (getWalletLock id) = some t →
    w'.1.held (getWalletLock id) = some t ∧
      (readRec w'.1.store.users id).map User.wallet =
        (readRec w.1.store.users id).map User.wallet

/-- The agreement of the threads. -/
def recordLogic : Logic SysSig ι (Logged ι) Unit where
  sys := sysMachine.logged
  inv w := Replayed task s₀ w.1
  rely t w w' := RecordRely t w.1 w'.1
  guar _ _ := True
  adm t op w := UpToDate task t op w.1
  node _ _ _ := True
  rely_refl _ _ := ⟨rfl, fun _ h => ⟨h, rfl⟩⟩
  rely_trans h h' := ⟨h'.lastRead.trans h.lastRead, fun id hid =>
    ⟨(h'.wallet id (h.wallet id hid).1).1,
      (h'.wallet id (h.wallet id hid).1).2.trans (h.wallet id hid).2⟩⟩
  guar_refl _ := trivial
  guar_trans _ _ := trivial

/-! ## the steps -/

section Steps

variable {task s₀} {t : ι} {op : SysOp} {w w' : Logged ι} {r : op.Res}

/-- The others do not notice a call that writes no record and leaves alone the
mutexes that they hold. -/
theorem RecordRely.of_not_written {u : ι} (hu : u ≠ t) (hop : op.userWritten = none)
    (hs : sysMachine.logged.step t op w = some (r, w'))
    (hlocks : ∀ id held, op.locks t w.1.held = some held →
      w.1.held (getWalletLock id) = some u → held (getWalletLock id) = some u) :
    RecordRely u w w' := by
  obtain ⟨hl, -, hstore, hlog⟩ := sysMachine_logged_step.mp hs
  refine ⟨by rw [hlog, lastRead_append_of_ne hu.symm], fun id hid => ?_⟩
  exact ⟨hlocks id _ hl hid, by rw [hstore, exec_users_of_not_written hop]⟩

/-- A quiet call is accepted by the others, and the thread itself keeps its
mutexes. -/
theorem moves_of_quiet (h : Replayed task s₀ w)
    (hs : sysMachine.logged.step t op w = some (r, w')) (hop : op.Quiet) :
    (recordLogic task s₀).Moves t (w, ()) (w', ()) where
  inv := h.of_not_written hop.userWritten hs
  guar := trivial
  rely _ hu := .of_not_written hu hop.userWritten hs fun id _ hl hid => (hop.locks hl id).trans hid

/-- Writing what the operation makes of the stored record: the wallet stays as
it is unless the thread has the mutex. -/
theorem moves_writeUser {v u : User} {r : Int} (h : Replayed task s₀ w)
    (hread : readRec w.1.store.users v.userId = some u) (happly : (task t).apply v u = some v)
    (hwallet : v.wallet = u.wallet ∨ w.1.held (getWalletLock v.userId) = some t)
    (hs : sysMachine.logged.step t (.writeUser v) w = some (r, w')) :
    (recordLogic task s₀).Moves t (w, ()) (w', ()) := by
  obtain ⟨hl, -, hstore, hlog⟩ := sysMachine_logged_step.mp hs
  obtain ⟨hmem, hid⟩ := h.numbered.readRec_eq_some.mp hread
  have husers : w'.1.store.users = writeRec .zero w.1.store.users v.userId v := by rw [hstore]; rfl
  have hread' (id : UInt32) : readRec w'.1.store.users id =
      if v.userId = id then some v else readRec w.1.store.users id := by
    rw [husers]
    exact readRec_writeRec (by rw [hread]; rfl)
  refine ⟨⟨?_, fun id => ?_⟩, trivial, fun x hx => ⟨?_, fun id hheld => ?_⟩⟩
  · rw [husers, h.numbered.writeRec_eq_overwrite hmem hid.symm]
    exact h.numbered.overwrite v
  · rw [hread', hlog, writesOf_append_write]
    have hrel := h.replay id
    split
    · next he =>
        subst he
        rw [hread] at hrel
        cases hold : readRec s₀.users v.userId with
        | none => rw [hold] at hrel; cases hrel
        | some u₀ =>
            rw [hold] at hrel
            cases hrel with
            | some hrep => exact .some (by rw [replay_append, hrep, Option.bind_some, happly])
    · exact hrel
  · rw [hlog, lastRead_append_of_ne hx.symm]
  · obtain hheld' := Option.some.inj hl
    refine ⟨by rw [← hheld']; exact hheld, ?_⟩
    rw [hread']
    split
    · next he =>
        subst he
        rcases hwallet with hw | hw
        · rw [hread, Option.map_some, Option.map_some, hw]
        · exact absurd (Option.some.inj (hheld.symm.trans hw)) hx
    · rfl

end Steps

/-! ## the operations without a mutex -/

/-- What an operation may write, having read `seen`. -/
def RecordTask.Edits (op : RecordTask) (seen v : User) : Prop :=
  ∀ x, op.restore seen x = seen → op.apply v x = some v ∧ v.wallet = x.wallet

/-- The program makes only quiet calls, except that it writes records which the
operation may make of the one it has read last. -/
def EditsOnly (op : RecordTask) {α : Type} : Option User → Prog ApiSig α → Prop
  | _, .pure _ => True
  | seen, .call (.sys o) k =>
      ((∀ v ∈ o.userWritten, ∃ u ∈ seen, op.Edits u v) ∧ (o.userWritten = none → o.Quiet)) ∧
        ∀ r, EditsOnly op ((readOf ⟨o, r⟩).or seen) (k r)
  | _, .call (.wallet _ _) _ => False

section Edits

variable {op : RecordTask} {α β : Type} {seen : Option User}

@[simp] theorem editsOnly_pure (a : α) : EditsOnly op seen (.pure a : Prog ApiSig α) := trivial

/-- A call is quiet or writes an edit of what was read last, and so goes on. -/
@[simp] theorem editsOnly_sys (o : SysOp) (k : o.Res → Prog ApiSig α) :
    EditsOnly op seen (.call (.sys o) k) ↔
      ((∀ v ∈ o.userWritten, ∃ u ∈ seen, op.Edits u v) ∧ (o.userWritten = none → o.Quiet)) ∧
        ∀ r, EditsOnly op ((readOf ⟨o, r⟩).or seen) (k r) := Iff.rfl

/-- Both branches are needed, each under its condition. -/
@[simp] theorem editsOnly_ite {c : Prop} [Decidable c] (p q : Prog ApiSig α) :
    EditsOnly op seen (if c then p else q) ↔
      (c → EditsOnly op seen p) ∧ (¬ c → EditsOnly op seen q) := by
  by_cases hc : c <;> simp [hc]

end Edits

section Handlers

variable (clientFd : Int)

/-- A login writes its time of login into the record that it has read. -/
theorem edits_login (req : LoginPayload) (u : User) (lastLogin : Int) :
    (RecordTask.login clientFd req).Edits u { u with lastLogin := lastLogin } := by
  intro x hx
  change { x with lastLogin := u.lastLogin } = u at hx
  generalize u.lastLogin = old at hx
  subst hx
  exact ⟨rfl, rfl⟩

/-- A change of role writes the role. -/
theorem edits_changeRole (req : ChangeRolePayload) (u : User) :
    (RecordTask.changeRole clientFd req).Edits u { u with role := req.newRole } := by
  intro x hx
  change { x with role := u.role } = u at hx
  generalize u.role = old at hx
  subst hx
  exact ⟨rfl, rfl⟩

/-- Switching an account writes the status. -/
theorem edits_toggleAccount (req : ToggleAccountPayload) (moderator u : User) :
    (RecordTask.toggleAccount clientFd req moderator).Edits u
      { u with status := req.newStatus } := by
  intro x hx
  change { x with status := u.status } = u at hx
  generalize u.status = old at hx
  subst hx
  exact ⟨rfl, rfl⟩

/-- `handle_login` only edits what `find_user_by_username` has read. -/
theorem editsOnly_handleLogin (req : LoginPayload) :
    EditsOnly (.login clientFd req) none (do
      let _ ← handleLogin sha256Hex clientFd req .zero
      pure ()) := by
  simpa [handleLogin, createSession, notifyRegister, Prog.ite_bind, SysOp.userWritten, SysOp.Quiet,
    readOf, Option.forall] using fun u _ _ _ lastLogin => edits_login clientFd req u lastLogin

/-- `handle_change_role` only edits what it has read. -/
theorem editsOnly_handleChangeRole (req : ChangeRolePayload) :
    EditsOnly (.changeRole clientFd req) none (handleChangeRole clientFd req) := by
  simpa [handleChangeRole, demotesLastAdmin, Prog.ite_bind, SysOp.userWritten, SysOp.Quiet,
    readOf, Option.forall] using
    fun u => ⟨fun _ _ => ⟨fun _ => edits_changeRole clientFd req u,
      fun _ _ => edits_changeRole clientFd req u⟩, fun _ => edits_changeRole clientFd req u⟩

/-- So does `handle_toggle_account`. -/
theorem editsOnly_handleToggleAccount (req : ToggleAccountPayload) (moderator : User) :
    EditsOnly (.toggleAccount clientFd req moderator) none
      (handleToggleAccount clientFd req moderator) := by
  simpa [handleToggleAccount, SysOp.userWritten, SysOp.Quiet, readOf, Option.forall] using
    fun u _ => edits_toggleAccount clientFd req moderator u

end Handlers

/-! ## the programs of the operations -/

section Programs

variable {task s₀} {t : ι} {Q : Logged ι × Unit → Prop} {w : Logged ι × Unit}

/-- What was read last is in the log. -/
theorem readOf_or {o : SysOp} {r : o.Res} {seen : Option User} {w w' : Logged ι}
    (hseen : ∀ u ∈ seen, lastRead t w.2 = some u) (hlog : w'.2 = w.2 ++ [(t, ⟨o, r⟩)]) :
    ∀ u ∈ (readOf ⟨o, r⟩).or seen, lastRead t w'.2 = some u := by
  intro u hu
  rw [hlog, lastRead_append_self]
  cases h : readOf ⟨o, r⟩ with
  | none => rw [h] at hu; exact hseen u hu
  | some x => rw [h] at hu; exact hu

/-- A program that only edits what it has read runs in any company. -/
theorem wp_editsOnly {op : RecordTask} {p : Prog ApiSig Unit} {seen : Option User}
    (hQ : ∀ w, Q w) (ht : task t = op) (hp : EditsOnly op seen p) (hinv : Replayed task s₀ w.1)
    (hseen : ∀ u ∈ seen, lastRead t w.1.2 = some u) :
    (recordLogic task s₀).wp t Q (p.subst Api.impl) w := by
  induction p generalizing seen w with
  | pure a => exact fun w' _ _ => ⟨trivial, hQ w'⟩
  | call o k ih =>
      cases o with
      | wallet site c => exact hp.elim
      | sys o =>
          refine Logic.wp_call (P := fun w => ∀ u ∈ seen, lastRead t w.1.2 = some u)
            (fun w w' _ _ hrely h u hu => hrely.lastRead.trans (h u hu)) hinv hseen
            (fun _ _ _ => trivial) ?_
          intro w r s hinv hseen hadm hs
          have hlog := (sysMachine_logged_step.mp hs).2.2.2
          have hmove : (recordLogic task s₀).Moves t w (s, ()) := by
            cases ho : o.userWritten with
            | none => exact moves_of_quiet hinv hs (hp.1.2 ho)
            | some v =>
                obtain rfl := SysOp.eq_writeUser ho
                obtain ⟨u, hu, hedit⟩ := hp.1.1 v rfl
                obtain ⟨u', hu', x, hx, hrestore⟩ := hadm v rfl
                obtain rfl : u' = u := Option.some.inj (hu'.symm.trans (hseen u hu))
                obtain ⟨happly, hwallet⟩ := hedit x (ht ▸ hrestore)
                exact moves_writeUser hinv hx (ht ▸ happly) (.inl hwallet) hs
          exact ⟨(), hmove, ih r (hp.2 r) hmove.inv (readOf_or hseen hlog)⟩

/-! A wallet function holds the mutex from its first call to the writing of the
record; `InLock` is what it knows there. -/

/-- Thread `t` has the user's mutex, and the user's wallet is as `G` says. -/
structure InLock (t : ι) (id : UInt32) (G : ℚ × ℚ → Prop) (w : Logged ι) : Prop where
  held : w.1.held (getWalletLock id) = some t
  wallet : ∀ u ∈ readRec w.1.store.users id, G u.wallet

/-- What is known under the mutex stays true while others move. -/
theorem InLock.later {id : UInt32} {G : ℚ × ℚ → Prop} {w w' : Logged ι}
    (h : InLock t id G w) (hrely : RecordRely t w w') : InLock t id G w' := by
  obtain ⟨hheld, hwallet⟩ := hrely.wallet id h.held
  refine ⟨hheld, fun u hu => ?_⟩
  rw [Option.mem_def.mp hu, Option.map_some] at hwallet
  obtain ⟨x, hx, hxu⟩ := Option.map_eq_some_iff.mp hwallet.symm
  exact hxu ▸ h.wallet x hx

/-- At the end nothing is left to show. -/
theorem wp_done (hQ : ∀ w, Q w) : (recordLogic task s₀).wp t Q (.pure ()) w :=
  fun w' _ _ => ⟨trivial, hQ w'⟩

/-- A line in the log, and the end. -/
theorem wp_logTxn (hQ : ∀ w, Q w) (line : LogLine) (hinv : Replayed task s₀ w.1) :
    (recordLogic task s₀).wp t Q (.call (.logTxn line) fun _ => .pure ()) w :=
  Logic.wp_call (P := fun _ => True) (fun _ _ _ _ _ _ => trivial) hinv trivial
    (fun _ _ _ => trivial)
    fun _ _ _ hinv _ _ hs => ⟨(), moves_of_quiet hinv hs trivial, wp_done hQ⟩

/-- Taking the mutex of a user. -/
theorem wp_lock {id : UInt32} {k : Prog SysSig Unit} (hinv : Replayed task s₀ w.1)
    (hk : ∀ w, Replayed task s₀ w.1 → InLock t id (fun _ => True) w.1 →
      (recordLogic task s₀).wp t Q k w) :
    (recordLogic task s₀).wp t Q (.call (.lock (getWalletLock id)) fun _ => k) w := by
  refine Logic.wp_call (P := fun _ => True) (fun _ _ _ _ _ _ => trivial) hinv trivial
    (fun _ _ _ => trivial) ?_
  intro w r s hinv _ _ hs
  obtain ⟨hl, -⟩ := sysMachine_logged_step.mp hs
  simp only [SysOp.locks] at hl
  split at hl
  · contradiction
  · next hfree =>
      have hheld := Option.some.inj hl
      have hmove : (recordLogic task s₀).Moves t w (s, ()) := by
        refine ⟨hinv.of_not_written rfl hs, trivial, fun u hu => .of_not_written hu rfl hs ?_⟩
        intro id' held hl' hid
        simp only [SysOp.locks, if_neg hfree] at hl'
        obtain rfl := Option.some.inj hl'
        have hne : getWalletLock id' ≠ getWalletLock id := fun he => hfree (by rw [← he, hid]; rfl)
        rw [Function.update_of_ne hne]
        exact hid
      exact ⟨(), hmove, hk _ hmove.inv ⟨by rw [← hheld, Function.update_self], fun _ _ => trivial⟩⟩

/-- Freeing it. -/
theorem wp_unlock {id : UInt32} {k : Prog SysSig Unit} {G : ℚ × ℚ → Prop}
    (hinv : Replayed task s₀ w.1) (hP : InLock t id G w.1)
    (hk : ∀ w, Replayed task s₀ w.1 → (recordLogic task s₀).wp t Q k w) :
    (recordLogic task s₀).wp t Q (.call (.unlock (getWalletLock id)) fun _ => k) w := by
  refine Logic.wp_call (P := fun w => InLock t id G w.1)
    (fun _ _ _ _ hrely h => h.later hrely) hinv hP (fun _ _ _ => trivial) ?_
  intro w r s hinv hP _ hs
  have hmove : (recordLogic task s₀).Moves t w (s, ()) := by
    refine ⟨hinv.of_not_written rfl hs, trivial, fun u hu => .of_not_written hu rfl hs ?_⟩
    intro id' held hl' hid
    obtain rfl := Option.some.inj hl'
    have hne : getWalletLock id' ≠ getWalletLock id := fun he =>
      hu (Option.some.inj (hid.symm.trans (he ▸ hP.held)))
    rw [Function.update_of_ne hne]
    exact hid
  exact ⟨(), hmove, hk _ hmove.inv⟩

/-- Reading the user's record under the mutex. -/
theorem wp_readUser {id : UInt32} {k : Option User → Prog SysSig Unit} {G : ℚ × ℚ → Prop}
    (hinv : Replayed task s₀ w.1) (hP : InLock t id G w.1)
    (hnone : ∀ w, Replayed task s₀ w.1 → InLock t id G w.1 →
      (recordLogic task s₀).wp t Q (k none) w)
    (hsome : ∀ u w, G u.wallet → u.userId = id → Replayed task s₀ w.1 →
      InLock t id (fun x => x = u.wallet) w.1 → lastRead t w.1.2 = some u →
      (recordLogic task s₀).wp t Q (k (some u)) w) :
    (recordLogic task s₀).wp t Q (.call (.readUser id) k) w := by
  refine Logic.wp_call (P := fun w => InLock t id G w.1)
    (fun _ _ _ _ hrely h => h.later hrely) hinv hP (fun _ _ _ => trivial) ?_
  intro w r s hinv hP _ hs
  obtain ⟨hl, hr, hstore, hlog⟩ := sysMachine_logged_step.mp hs
  have hheld : s.1.held (getWalletLock id) = some t := (Option.some.inj hl) ▸ hP.held
  have husers : s.1.store.users = w.1.1.store.users := by rw [hstore]; rfl
  have hread : readRec s.1.store.users id = r := by rw [husers]; exact hr
  have hmove : (recordLogic task s₀).Moves t w (s, ()) := moves_of_quiet hinv hs trivial
  refine ⟨(), hmove, ?_⟩
  cases r with
  | none => exact hnone _ hmove.inv ⟨hheld, fun u hu => by rw [hread] at hu; cases hu⟩
  | some u =>
      refine hsome u _ (hP.wallet u hr) (hmove.inv.numbered.readRec_eq_some.mp hread).2 hmove.inv
        ⟨hheld, fun x hx => ?_⟩ (by rw [hlog, lastRead_append_self]; rfl)
      rw [hread] at hx
      rw [Option.some.inj hx]

variable {c : WalletCall}

/-- The body that the wallet functions share, under the mutex. -/
theorem wp_applyWalletDelta {id : UInt32} {bd hd : ℚ} {f : Int → Prog SysSig Unit}
    {G : ℚ × ℚ → Prop} (hc : task t = .wallet c)
    (hG : ∀ u : User, G u.wallet → c.apply u = walletDelta u bd hd)
    (hinv : Replayed task s₀ w.1) (hP : InLock t id G w.1)
    (hf : ∀ a w, Replayed task s₀ w.1 → InLock t id (fun _ => True) w.1 →
      (recordLogic task s₀).wp t Q (f a) w) :
    (recordLogic task s₀).wp t Q (applyWalletDelta id bd hd >>= f) w := by
  simp only [applyWalletDelta, Sys.readUser, Prog.bind_call, Prog.bind_pure]
  refine wp_readUser hinv hP (fun w hinv hP => hf (-1) w hinv ⟨hP.held, fun _ _ => trivial⟩) ?_
  intro u w hGu hid hinv hP hseen
  cases hv : walletDelta u bd hd with
  | none =>
      simp only [hv, Prog.pure_eq, Prog.bind_pure]
      exact hf (-1) w hinv ⟨hP.held, fun _ _ => trivial⟩
  | some v =>
      have happly : c.apply u = some v := (hG u hGu).trans hv
      obtain ⟨⟨b, h, rfl⟩, -⟩ := c.apply_eq_some happly
      simp only [hv, Sys.writeUser, Prog.bind_call, Prog.bind_pure]
      refine Logic.wp_call
        (P := fun w => InLock t id (fun x => x = u.wallet) w.1 ∧ lastRead t w.1.2 = some u)
        (fun _ _ _ _ hrely h => ⟨h.1.later hrely, hrely.lastRead.trans h.2⟩) hinv ⟨hP, hseen⟩
        (fun _ _ _ => trivial) ?_
      rintro w r s hinv ⟨hP, hseen⟩ hadm hs
      obtain ⟨u', hu', x, hx, hrestore⟩ := hadm _ rfl
      obtain rfl : u' = u := Option.some.inj (hu'.symm.trans hseen)
      have hxw : x.wallet = u'.wallet := hP.wallet x (hid ▸ hx)
      -- the stored record is the copy: the condition gives the other fields
      obtain rfl : x = u' := by
        rw [hc] at hrestore
        rw [← hrestore]
        simp only [User.wallet, Prod.mk.injEq] at hxw
        simp only [RecordTask.restore, User.withWallet, ← hxw.1, ← hxw.2]
      have hmove : (recordLogic task s₀).Moves t w (s, ()) :=
        moves_writeUser hinv hx (by rw [hc]; exact happly) (.inr (hid ▸ hP.held)) hs
      obtain ⟨hl, -⟩ := sysMachine_logged_step.mp hs
      exact ⟨(), hmove, hf _ _ hmove.inv ⟨(Option.some.inj hl) ▸ hP.held, fun _ _ => trivial⟩⟩

/-- The three wallet functions without a check run in any company. -/
theorem wp_lockedDelta {id : UInt32} {bd hd : ℚ} {line : LogLine} (hQ : ∀ w, Q w)
    (hc : task t = .wallet c) (hG : ∀ u : User, c.apply u = walletDelta u bd hd)
    (hinv : Replayed task s₀ w.1) :
    (recordLogic task s₀).wp t Q (lockedDelta id bd hd line >>= fun _ => .pure ()) w := by
  simp only [lockedDelta, Sys.lock, Sys.unlock, Sys.logTxn, Prog.pure_eq, Prog.bind_call,
    Prog.bind_pure, Prog.bind_assoc]
  refine wp_lock hinv fun w hinv hP => ?_
  refine wp_applyWalletDelta hc (fun u _ => hG u) hinv hP fun a w hinv hP => ?_
  exact wp_unlock hinv hP fun w hinv => wp_logTxn hQ line hinv

/-- So does `place_hold`, which reads twice under one mutex. -/
theorem wp_placeHold {id : UInt32} {amount : ℚ} (hQ : ∀ w, Q w)
    (hc : task t = .wallet (.placeHold id amount)) (hinv : Replayed task s₀ w.1) :
    (recordLogic task s₀).wp t Q (placeHold id amount >>= fun _ => .pure ()) w := by
  simp only [placeHold, Sys.lock, Sys.readUser, Sys.unlock, Sys.logTxn, Prog.pure_eq,
    Prog.bind_call, Prog.bind_pure]
  refine wp_lock hinv fun w hinv hP => ?_
  refine wp_readUser hinv hP
    (fun w hinv hP => wp_unlock hinv hP fun w _ => wp_done hQ) ?_
  intro u w _ _ hinv hP _
  simp only [Prog.ite_bind, Prog.bind_call, Prog.bind_pure, Prog.bind_assoc]
  split
  · exact wp_unlock hinv hP fun w _ => wp_done hQ
  · next hfunds =>
      refine wp_applyWalletDelta hc (fun x hx => ?_) hinv hP
        fun a w hinv hP => wp_unlock hinv hP fun w hinv => wp_logTxn hQ _ hinv
      simp only [User.wallet, Prod.mk.injEq] at hx
      rw [WalletCall.apply, hx.1, hx.2, if_neg hfunds]

/-- Every operation runs in any company. -/
theorem wp_recordTask (hQ : ∀ w, Q w) (hinv : Replayed task s₀ w.1) :
    (recordLogic task s₀).wp t Q ((task t).prog sha256Hex) w := by
  cases ht : task t with
  | wallet c =>
      cases c with
      | placeHold id amount => exact wp_placeHold hQ ht hinv
      | releaseHold id amount => exact wp_lockedDelta hQ ht (fun _ => rfl) hinv
      | settlePayment id amount => exact wp_lockedDelta hQ ht (fun _ => rfl) hinv
      | creditWallet id amount => exact wp_lockedDelta hQ ht (fun _ => rfl) hinv
  | login clientFd req =>
      unfold RecordTask.prog
      exact wp_editsOnly hQ ht (editsOnly_handleLogin sha256Hex clientFd req) hinv
        fun u hu => by cases hu
  | changeRole clientFd req =>
      unfold RecordTask.prog
      exact wp_editsOnly hQ ht (editsOnly_handleChangeRole clientFd req) hinv
        fun u hu => by cases hu
  | toggleAccount clientFd req moderator =>
      unfold RecordTask.prog
      exact wp_editsOnly hQ ht (editsOnly_handleToggleAccount clientFd req moderator) hinv
        fun u hu => by cases hu

end Programs

/-! ## every interleaving -/

/-- The threads before they begin. -/
def recordStart : Config SysSig ι (Logged ι) :=
  .start (.idle s₀, []) fun t => [(task t).prog sha256Hex]

/-- A wallet function that is through with its program has answered 0 or -1, and 0 exactly if it
has written a record. -/
def SuccessesWrite (d : Config SysSig ι (Logged ι)) : Prop :=
  ∀ t c, task t = .wallet c → d.prog t = .pure () → d.queue t = [] →
    ∃ a, c.prog.Returns (callsOf t d.shared.2) a ∧ (a = 0 ∨ a = -1) ∧
      (a = 0 ↔ ∃ v, (t, v) ∈ writesOf v.userId d.shared.2)

/-- Every write in the log of a run has succeeded. -/
theorem succeeds_of_run {ok : Config SysSig ι (Logged ι) → ι → SysOp → Prop}
    {d : Config SysSig ι (Logged ι)}
    (h : Run sysMachine.logged ok (recordStart sha256Hex task s₀) d) :
    ∀ e ∈ d.shared.2, Succeeds e.2 := by
  refine h.inv (P := fun d => ∀ e ∈ d.shared.2, Succeeds e.2) (fun c d hc hstep => ?_) (by
    intro e he
    cases he)
  cases hstep with
  | begin => exact hc
  | @call t o k r w hp hok hs =>
      obtain ⟨-, hr, -, hlog⟩ := sysMachine_logged_step.mp hs
      intro e he
      rw [Config.goOn_shared, hlog, List.mem_append, List.mem_singleton] at he
      rcases he with he | rfl
      · exact hc e he
      · cases o with
        | writeUser v => exact hr.symm
        | _ => trivial
  | @env w hs =>
      have hlog : w.2 = c.shared.2 := hs.2
      exact hlog ▸ hc

/-- The wallet functions tell whether they have written. -/
theorem successesWrite_of_run {ok : Config SysSig ι (Logged ι) → ι → SysOp → Prop}
    {d : Config SysSig ι (Logged ι)}
    (h : Run sysMachine.logged ok (recordStart sha256Hex task s₀) d) : SuccessesWrite task d := by
  intro t c ht hrest hqueue
  have hreturns := h.returns hrest hqueue
  rw [ht] at hreturns
  obtain ⟨a, ha⟩ := hreturns.of_bind_pure
  have hsucceeds : ∀ e ∈ callsOf t d.shared.2, Succeeds e := fun e he =>
    succeeds_of_run sha256Hex task s₀ h (t, e) (mem_callsOf.mp he)
  have hanswer := (tells_wallet c).answer hsucceeds ha
  rw [Bool.false_or] at hanswer
  have hwritten : ((callsOf t d.shared.2).any fun e => e.1.userWritten.isSome) = true ↔
      ∃ v, (t, v) ∈ writesOf v.userId d.shared.2 := by
    rw [exists_mem_writesOf, List.any_eq_true]
    exact exists_congr fun e => and_congr_left' mem_callsOf
  refine ⟨a, ha, ?_, ?_⟩
  · rw [hanswer]
    split <;> simp
  · rw [hanswer, ← hwritten]
    split <;> simp [*]

/-- **No lost update**: in a run whose writes are all up to date, every stored
record has the wallet that the writes of the wallet functions alone make of the
first one, and the role, status and time of login that the other operations
have set last; and the wallet functions that have written are the successful ones. -/
theorem updated_of_run (hnum : Numbered User.userId s₀.users) {d : Config SysSig ι (Logged ι)}
    (h : Run sysMachine.logged (fun c t op => UpToDate task t op c.shared)
      (recordStart sha256Hex task s₀) d) (id : UInt32) :
    Option.Rel (Updated task (writesOf id d.shared.2)) (readRec s₀.users id)
      (readRec d.shared.1.store.users id) ∧ SuccessesWrite task d := by
  refine ⟨?_, successesWrite_of_run sha256Hex task s₀ h⟩
  have hfits : (recordLogic task s₀).Fits fun c t op => UpToDate task t op c.shared := {
    adm := fun _ _ _ _ _ _ _ _ hok => hok
    env := by
      rintro w s hinv ⟨⟨now, hclock⟩, hlog⟩
      have husers : s.1.store.users = w.1.1.store.users := by rw [hclock]
      refine ⟨(), ⟨husers ▸ hinv.numbered, fun id => ?_⟩, trivial, fun t => ⟨by rw [hlog], ?_⟩⟩
      · rw [husers, hlog]
        exact hinv.replay id
      · intro id hid
        rw [husers]
        exact ⟨by rw [hclock]; exact hid, rfl⟩ }
  have hstart : (recordLogic task s₀).Holds
      (fun t ps _ => ∀ p ∈ ps, p = (task t).prog sha256Hex) (recordStart sha256Hex task s₀) () := by
    refine .start ⟨hnum, fun id => ?_⟩ (fun _ _ _ _ _ _ h => h) (fun _ _ _ _ => trivial)
      fun t p hp => List.mem_singleton.mp hp
    change Option.Rel _ (readRec s₀.users id) (readRec s₀.users id)
    cases readRec s₀.users id with
    | none => exact .none
    | some u => exact .some rfl
  obtain ⟨g, hd, -⟩ := hstart.run hfits (fun t p ps w hinv hps => by
    obtain rfl := hps p (List.mem_cons_self ..)
    exact ⟨(), .refl hinv,
      wp_recordTask sha256Hex (fun _ q hq => hps q (List.mem_cons_of_mem _ hq)) hinv⟩) h
  exact optionRel_mono (fun _ _ hrep => updated_of_replay hrep) (hd.inv.replay id)

end Condition

/-! ## an interleaving that loses an update -/

/-- The administrator logs in on one thread while 100 is credited to the same
wallet on another. -/
def loginAndCredit : Fin 2 → RecordTask
  | 0 => .login 4 ⟨.ofBytes _ adminName, .ofBytes _ adminPassword, []⟩
  | 1 => .wallet (.creditWallet 1 100)

/-- One after the other both updates are kept. -/
theorem updated_of_run_loginAndCredit :
    let d := (recordStart id loginAndCredit (.seeded id 0 1000)).after sysMachine.logged
      (fun c t op => UpToDate loginAndCredit t op c.shared)
      (List.replicate 15 0 ++ List.replicate 6 1)
    d.Done ∧ ∀ i, Option.Rel (Updated loginAndCredit (writesOf i d.shared.2))
      (readRec (Store.seeded id 0 1000).users i) (readRec d.shared.1.store.users i) ∧
      SuccessesWrite loginAndCredit d :=
  ⟨by decide +kernel,
    fun i => updated_of_run id loginAndCredit (.seeded id 0 1000) (numbered_seeded id 0 1000)
      (Run.after _) i⟩

/-- When the credit falls between the reading and the writing of the login, it
is lost. -/
theorem not_updated :
    ¬ ∀ d, Reach sysMachine.logged (recordStart id loginAndCredit (.seeded id 0 1000)) d →
      d.Done → ∀ i, Option.Rel (Updated loginAndCredit (writesOf i d.shared.2))
        (readRec (Store.seeded id 0 1000).users i) (readRec d.shared.1.store.users i) := by
  intro h
  have hrel := h _ (Run.after ([0, 0] ++ List.replicate 6 1 ++ List.replicate 13 0))
    (by decide +kernel) 1
  have hwallet := wallet_of_updated loginAndCredit hrel
  revert hwallet
  decide +kernel

end OnlineAuction
