import OnlineAuction.Lib.Refinement
import OnlineAuction.Threads
import OnlineAuction.WalletEffect

/-!
# OnlineAuction.WalletRefinement

A wallet function counts as one step.

In the machine of system calls a wallet function takes its mutex, reads the
record, writes it and releases the mutex, while other threads go on.  Seen from
outside it happens at once: when it writes, or, if it refuses, when it releases
the mutex (`implements_wallet`).  What makes it so is that nobody else writes
the record while the mutex is held (`WalletRely`).  Only the lines of
`data/txn.log`, which are written outside the mutex, may come in another order.

`apiMachine_of_sysMachine` is the result: what is proved of the machine in
which wallet functions are steps holds of the one in which system calls are.
-/

namespace OnlineAuction

/-- The store without the lines of the log file. -/
def Store.core (s : Store) : Store := { s with txnLog := [] }

/-- No call looks at the log file. -/
theorem exec_core {s s' : Store} (h : s.core = s'.core) (op : SysOp) :
    (Store.exec op s).1 = (Store.exec op s').1 ∧
      (Store.exec op s).2.core = (Store.exec op s').2.core := by
  obtain ⟨l, rfl⟩ : ∃ l, s' = { s with txnLog := l } := by
    refine ⟨s'.txnLog, ?_⟩
    cases s
    cases s'
    simp only [Store.core, Store.mk.injEq] at h ⊢
    simp [h]
  cases op <;> exact ⟨rfl, rfl⟩

section Refinement

variable {ι : Type}

/-! ## the coupling -/

/-- The two machines agree on everything but the log file and the wallet
mutexes, and the file of users is numbered. -/
structure Matches (s : Shared ι) (x : Shared ι × List (ι × Event ApiSig)) : Prop where
  core : s.store.core = x.1.store.core
  held : ∀ l, (∀ b, l ≠ .wallet b) → s.held l = x.1.held l
  numbered : Numbered User.userId s.store.users

/-- While a thread has a wallet mutex, nobody takes it away or writes a record
that it guards. -/
def WalletRely (t : ι) (s s' : Shared ι) : Prop :=
  ∀ id, s.held (getWalletLock id) = some t → s'.held (getWalletLock id) = some t ∧
    readRec s'.store.users id = readRec s.store.users id

variable (ι) in
/-- The machine of system calls under the machine of the handlers' calls. -/
def walletCoupling : Coupling ApiSig SysSig ι (Shared ι × List (ι × Event ApiSig)) (Shared ι) where
  high := apiMachine.logged
  low := sysMachine
  rel := Matches
  rely := WalletRely
  rely_refl _ _ _ h := ⟨h, rfl⟩
  rely_trans h h' id hid :=
    ⟨(h' id (h id hid).1).1, (h' id (h id hid).1).2.trans (h id hid).2⟩

/-- The calls that leave users and wallet mutexes to the wallet functions. -/
def ApiOp.OutsideWallet : ApiOp → Prop
  | .sys (.writeUser _) => False
  | .sys (.lock l) | .sys (.unlock l) => ∀ b, l ≠ .wallet b
  | _ => True

/-- The users are the same on both sides. -/
theorem Matches.users {s : Shared ι} {x : Shared ι × List (ι × Event ApiSig)} (h : Matches s x) :
    s.store.users = x.1.store.users := congrArg (·.users) h.core

/-- Calls outside the wallets change no user there. -/
theorem exec_users_outside {op : SysOp} (h : (ApiOp.sys op).OutsideWallet) (s : Store) :
    (Store.exec op s).2.users = s.users := by
  cases op <;> first | rfl | exact absurd h id

/-- And take no mutex of a wallet. -/
theorem locks_outside {t : ι} {op : SysOp} (h : (ApiOp.sys op).OutsideWallet)
    {held held' : Lock → Option ι} (hl : op.locks t held = some held') (id : UInt32) :
    held' (getWalletLock id) = held (getWalletLock id) := by
  unfold SysOp.locks at hl
  split at hl
  · next l =>
      split at hl
      · contradiction
      · rw [← Option.some.inj hl]
        exact Function.update_of_ne (fun he => h _ he.symm) _ _
  · next l =>
      rw [← Option.some.inj hl]
      exact Function.update_of_ne (fun he => h _ he.symm) _ _
  · rw [← Option.some.inj hl]

/-- The locks that the two machines have in common stay common. -/
theorem locks_common {t : ι} {op : SysOp} (h : (ApiOp.sys op).OutsideWallet)
    {held held' held₂ : Lock → Option ι} (hcommon : ∀ l, (∀ b, l ≠ .wallet b) → held l = held₂ l)
    (hl : op.locks t held = some held') :
    ∃ held₂', op.locks t held₂ = some held₂' ∧ ∀ l, (∀ b, l ≠ .wallet b) → held' l = held₂' l := by
  unfold SysOp.locks at hl ⊢
  split at hl
  · next l =>
      split at hl
      · contradiction
      · next hfree =>
          obtain rfl := Option.some.inj hl
          rw [hcommon l h] at hfree
          refine ⟨_, if_neg hfree, fun m hm => ?_⟩
          by_cases hml : m = l
          · subst hml
            simp
          · simp [hml, hcommon m hm]
  · next l =>
      obtain rfl := Option.some.inj hl
      refine ⟨_, rfl, fun m hm => ?_⟩
      by_cases hml : m = l
      · subst hml
        simp
      · simp [hml, hcommon m hm]
  · obtain rfl := Option.some.inj hl
    exact ⟨_, rfl, hcommon⟩

variable [DecidableEq ι] {c₀ : Config ApiSig ι (Shared ι × List (ι × Event ApiSig))}

/-- The ghost state of the refinement goes with the shared state. -/
abbrev Coupled (ι : Type) : Type :=
  Shared ι × Config ApiSig ι (Shared ι × List (ι × Event ApiSig))

/-- A system call is one step in both machines. -/
theorem implements_sys {op : SysOp} (h : (ApiOp.sys op).OutsideWallet) :
    (walletCoupling ι).Implements c₀ (.sys op) (.call op .pure) := by
  intro t k ps Q f w hinv hat hf
  refine Logic.wp_call Coupling.stable_at hinv hat (fun _ _ _ => trivial) ?_
  intro w r s hinv hat _ hs
  obtain ⟨held, hl, rfl, rfl⟩ := sysMachine_step.mp hs
  have hm : Matches w.1 w.2.shared := hinv.rel
  obtain ⟨held', hl', hcommon⟩ := locks_common h hm.held hl
  obtain ⟨hr, hcore⟩ := exec_core hm.core op
  have hmatch : Matches ⟨(Store.exec op w.1.store).2, held⟩
      (⟨(Store.exec op w.2.shared.1.store).2, held'⟩,
        w.2.shared.2 ++ [(t, ⟨.sys op, (Store.exec op w.1.store).1⟩)]) :=
    ⟨hcore, hcommon, (exec_users_outside h w.1.store).symm ▸ hm.numbered⟩
  have hstep : apiMachine.logged.step t (.sys op) w.2.shared = some ((Store.exec op w.1.store).1,
      (⟨(Store.exec op w.2.shared.1.store).2, held'⟩,
        w.2.shared.2 ++ [(t, ⟨.sys op, (Store.exec op w.1.store).1⟩)])) :=
    apiMachine_logged_step.mpr ⟨hl', hr.symm, rfl, rfl⟩
  obtain ⟨hmove, hat'⟩ := Coupling.moves_commit (C := walletCoupling ι) hinv hat hstep hmatch
    fun u _ id hid => ⟨(locks_outside h hl id).trans hid, by rw [exec_users_outside h]⟩
  exact ⟨_, hmove, hf _ _ hmove.inv hat'⟩

/-! ## inside a wallet function -/

section Inside

variable {t : ι} {site : Site} {c : WalletCall} {k : Int → Prog ApiSig Unit}
  {ps : List (Prog ApiSig Unit)} {Q : Coupled ι → Prop} {w : Coupled ι} {o : Option User}

/-- The thread has the mutex, the stored record is `o`, and the call has not
yet been made in the high machine. -/
structure Inside (t : ι) (site : Site) (c : WalletCall) (k : Int → Prog ApiSig Unit)
    (ps : List (Prog ApiSig Unit)) (o : Option User) (w : Coupled ι) : Prop where
  at_call : Coupling.At (S := ApiSig) t (.call (.wallet site c) k) ps w
  held : w.1.held (getWalletLock c.userId) = some t
  stored : readRec w.1.store.users c.userId = o

/-- The thread has the mutex, and the result is decided: the record has been
written in both machines, or it will not be. -/
def Decided (t : ι) (site : Site) (c : WalletCall) (k : Int → Prog ApiSig Unit)
    (ps : List (Prog ApiSig Unit)) (r : Int) (w : Coupled ι) : Prop :=
  (r = 0 ∧ w.1.held (getWalletLock c.userId) = some t ∧ Coupling.At t (k r) ps w) ∨
    (r = -1 ∧ ∃ o, c.written o = none ∧ Inside t site c k ps o w)

omit [DecidableEq ι] in
/-- What is known inside a wallet function stays true while others move. -/
theorem Inside.later {w' : Coupled ι} (h : Inside t site c k ps o w)
    (hrely : (walletCoupling ι).Rely t w w') : Inside t site c k ps o w' := by
  obtain ⟨hheld, hread⟩ := hrely.low c.userId h.held
  exact ⟨h.at_call.later hrely, hheld, hread.trans h.stored⟩

omit [DecidableEq ι] in
/-- So does what has been decided. -/
theorem Decided.later {w' : Coupled ι} {r : Int} (h : Decided t site c k ps r w)
    (hrely : (walletCoupling ι).Rely t w w') : Decided t site c k ps r w' := by
  rcases h with ⟨hr, hheld, hat⟩ | ⟨hr, o, ho, hin⟩
  · exact .inl ⟨hr, (hrely.low c.userId hheld).1, hat.later hrely⟩
  · exact .inr ⟨hr, o, ho, hin.later hrely⟩

/-- Taking the mutex. -/
theorem wp_enter {id : UInt32} {f : Unit → Prog SysSig Unit} (hid : c.userId = id)
    (hinv : (walletCoupling ι).Inv c₀ w)
    (hat : Coupling.At (S := ApiSig) t (.call (.wallet site c) k) ps w)
    (hf : ∀ o w, (walletCoupling ι).Inv c₀ w → Inside t site c k ps o w →
      ((walletCoupling ι).logic c₀).wp t Q (f ()) w) :
    ((walletCoupling ι).logic c₀).wp t Q (.call (.lock (getWalletLock id)) f) w := by
  subst hid
  refine Logic.wp_call Coupling.stable_at hinv hat (fun _ _ _ => trivial) ?_
  intro w r s hinv hat _ hs
  obtain ⟨held, hl, -, rfl⟩ := sysMachine_step.mp hs
  simp only [SysOp.locks] at hl
  split at hl
  · contradiction
  · next hfree =>
      obtain rfl := Option.some.inj hl
      have hm : Matches w.1 w.2.shared := hinv.rel
      have hmove := Coupling.moves_stutter (C := walletCoupling ι) (t := t)
        (s := ⟨w.1.store, Function.update w.1.held (getWalletLock c.userId) (some t)⟩) hinv
        ⟨hm.core, fun l hl => (Function.update_of_ne (hl _) _ _).trans (hm.held l hl), hm.numbered⟩
        fun u _ id hid => by
          have hne : getWalletLock id ≠ getWalletLock c.userId := fun he => by
            rw [← he, hid] at hfree
            exact hfree rfl
          exact ⟨(Function.update_of_ne hne _ _).trans hid, rfl⟩
      exact ⟨_, hmove, hf _ _ hmove.inv ⟨⟨hat.prog, hat.queue⟩, Function.update_self .., rfl⟩⟩

/-- Reading the record under the mutex. -/
theorem wp_readInside {id : UInt32} {f : Option User → Prog SysSig Unit} (hid : c.userId = id)
    (hinv : (walletCoupling ι).Inv c₀ w) (hin : Inside t site c k ps o w)
    (hf : ∀ w, (walletCoupling ι).Inv c₀ w → Inside t site c k ps o w →
      ((walletCoupling ι).logic c₀).wp t Q (f o) w) :
    ((walletCoupling ι).logic c₀).wp t Q (.call (.readUser id) f) w := by
  subst hid
  refine Logic.wp_call (fun _ _ _ _ hrely h => Inside.later h hrely) hinv hin
    (fun _ _ _ => trivial) ?_
  intro w r s hinv hin _ hs
  obtain ⟨held, hl, rfl, rfl⟩ := sysMachine_step.mp hs
  obtain rfl := Option.some.inj hl
  have hr : (Store.exec (.readUser c.userId) w.1.store).1 = o := hin.stored
  rw [hr]
  have hmove := Coupling.moves_stutter (C := walletCoupling ι) (t := t) (s := w.1) hinv hinv.rel
    fun u _ => (walletCoupling ι).rely_refl u _
  exact ⟨w.2, hmove, hf _ hmove.inv hin⟩

/-- Writing the record is when the call is made. -/
theorem wp_writeInside {f : Int → Prog SysSig Unit} {v : User}
    (hinv : (walletCoupling ι).Inv c₀ w) (hin : Inside t site c k ps o w)
    (hv : c.written o = some v)
    (hf : ∀ w, (walletCoupling ι).Inv c₀ w → Decided t site c k ps 0 w →
      ((walletCoupling ι).logic c₀).wp t Q (f 0) w) :
    ((walletCoupling ι).logic c₀).wp t Q (.call (.writeUser v) f) w := by
  refine Logic.wp_call (fun _ _ _ _ hrely h => Inside.later h hrely) hinv hin
    (fun _ _ _ => trivial) ?_
  intro w r s hinv hin _ hs
  obtain ⟨held, hl, rfl, rfl⟩ := sysMachine_step.mp hs
  obtain rfl := Option.some.inj hl
  have hm : Matches w.1 w.2.shared := hinv.rel
  obtain ⟨u, rfl, hu⟩ : ∃ u, o = some u ∧ c.apply u = some v := Option.bind_eq_some_iff.mp hv
  obtain ⟨hmem, hid⟩ := hm.numbered.readRec_eq_some.mp hin.stored
  have hvid : v.userId = c.userId := (WalletCall.apply_userId hu).trans hid
  have hexec := exec_wallet w.2.shared.1.store site c
  rw [← hm.users, hin.stored, hv] at hexec
  have hstep : apiMachine.logged.step t (.wallet site c) w.2.shared = some ((0 : Int),
      (⟨(Api.exec (.wallet site c) w.2.shared.1.store).2, w.2.shared.1.held⟩,
        w.2.shared.2 ++ [(t, ⟨.wallet site c, (0 : Int)⟩)])) :=
    apiMachine_logged_step.mpr ⟨rfl, congrArg Prod.fst hexec, rfl, rfl⟩
  have hcore : (w.1.store.putUser v).core =
      (Api.exec (.wallet site c) w.2.shared.1.store).2.core := by
    rw [hexec]
    exact (exec_core hm.core (.writeUser v)).2
  have hnum : Numbered User.userId (writeRec .zero w.1.store.users v.userId v) := by
    rw [hm.numbered.writeRec_eq_overwrite hmem (hvid.trans hid.symm)]
    exact hm.numbered.overwrite v
  have hread {id : UInt32} (hne : id ≠ c.userId) :
      readRec (writeRec .zero w.1.store.users v.userId v) id = readRec w.1.store.users id := by
    refine (readRec_writeRec ?_).trans (if_neg fun (he : v.userId = id) => hne (he.symm.trans hvid))
    rw [hvid, hin.stored]
    rfl
  obtain ⟨hmove, hat⟩ := Coupling.moves_commit (C := walletCoupling ι)
    (s := ⟨w.1.store.putUser v, w.1.held⟩) hinv hin.at_call hstep ⟨hcore, hm.held, hnum⟩
    fun u hu id hid => ⟨hid, hread fun (he : id = c.userId) => by
      rw [he] at hid
      exact hu (Option.some.inj (hid.symm.trans hin.held))⟩
  exact ⟨_, hmove, hf _ hmove.inv (.inl ⟨rfl, hin.held, hat⟩)⟩

/-- Releasing the mutex; a call that refuses is made now. -/
theorem wp_leave {id : UInt32} {f : Unit → Prog SysSig Unit} {r : Int} (hid : c.userId = id)
    (hinv : (walletCoupling ι).Inv c₀ w) (hdec : Decided t site c k ps r w)
    (hf : ∀ w, (walletCoupling ι).Inv c₀ w → Coupling.At t (k r) ps w →
      ((walletCoupling ι).logic c₀).wp t Q (f ()) w) :
    ((walletCoupling ι).logic c₀).wp t Q (.call (.unlock (getWalletLock id)) f) w := by
  subst hid
  refine Logic.wp_call (fun _ _ _ _ hrely h => Decided.later h hrely) hinv hdec
    (fun _ _ _ => trivial) ?_
  intro w _ s hinv hdec _ hs
  obtain ⟨held, hl, -, rfl⟩ := sysMachine_step.mp hs
  obtain rfl := Option.some.inj hl
  have hm : Matches w.1 w.2.shared := hinv.rel
  have hheld (l : Lock) (hl : ∀ b, l ≠ .wallet b) :
      Function.update w.1.held (getWalletLock c.userId) none l = w.2.shared.1.held l :=
    (Function.update_of_ne (hl _) _ _).trans (hm.held l hl)
  have hrely (hmine : w.1.held (getWalletLock c.userId) = some t) (u : ι) (hu : u ≠ t) :
      WalletRely u w.1 ⟨w.1.store, Function.update w.1.held (getWalletLock c.userId) none⟩ := by
    intro id hid
    have hne : getWalletLock id ≠ getWalletLock c.userId := fun he =>
      hu (Option.some.inj (hid.symm.trans (he ▸ hmine)))
    exact ⟨(Function.update_of_ne hne _ _).trans hid, rfl⟩
  rcases hdec with ⟨rfl, hmine, hat⟩ | ⟨rfl, o, ho, hin⟩
  · have hmove := Coupling.moves_stutter (C := walletCoupling ι) (t := t)
      (s := ⟨w.1.store, Function.update w.1.held (getWalletLock c.userId) none⟩) hinv
      ⟨hm.core, hheld, hm.numbered⟩ (hrely hmine)
    exact ⟨_, hmove, hf _ hmove.inv ⟨hat.prog, hat.queue⟩⟩
  · have hexec := exec_wallet w.2.shared.1.store site c
    rw [← hm.users, hin.stored, ho] at hexec
    have hstep : apiMachine.logged.step t (.wallet site c) w.2.shared = some ((-1 : Int),
        (⟨(Api.exec (.wallet site c) w.2.shared.1.store).2, w.2.shared.1.held⟩,
          w.2.shared.2 ++ [(t, ⟨.wallet site c, (-1 : Int)⟩)])) :=
      apiMachine_logged_step.mpr ⟨rfl, congrArg Prod.fst hexec, rfl, rfl⟩
    have hcore : w.1.store.core = (Api.exec (.wallet site c) w.2.shared.1.store).2.core := by
      rw [hexec]
      exact hm.core
    obtain ⟨hmove, hat⟩ := Coupling.moves_commit (C := walletCoupling ι)
      (s := ⟨w.1.store, Function.update w.1.held (getWalletLock c.userId) none⟩) hinv hin.at_call
      hstep ⟨hcore, hheld, hm.numbered⟩ (hrely hin.held)
    exact ⟨_, hmove, hf _ hmove.inv hat⟩

/-- Writing a line to the log file. -/
theorem wp_logLine {p : Prog ApiSig Unit} {line : LogLine} {f : Unit → Prog SysSig Unit}
    (hinv : (walletCoupling ι).Inv c₀ w) (hat : Coupling.At t p ps w)
    (hf : ∀ w, (walletCoupling ι).Inv c₀ w → Coupling.At t p ps w →
      ((walletCoupling ι).logic c₀).wp t Q (f ()) w) :
    ((walletCoupling ι).logic c₀).wp t Q (.call (.logTxn line) f) w := by
  refine Logic.wp_call Coupling.stable_at hinv hat (fun _ _ _ => trivial) ?_
  intro w r s hinv hat _ hs
  obtain ⟨held, hl, -, rfl⟩ := sysMachine_step.mp hs
  obtain rfl := Option.some.inj hl
  have hm : Matches w.1 w.2.shared := hinv.rel
  have hmove := Coupling.moves_stutter (C := walletCoupling ι) (t := t)
    (s := ⟨{ w.1.store with txnLog := w.1.store.txnLog ++ [line] }, w.1.held⟩) hinv
    ⟨hm.core, hm.held, hm.numbered⟩ fun u _ id hid => ⟨hid, rfl⟩
  exact ⟨_, hmove, hf _ hmove.inv ⟨hat.prog, hat.queue⟩⟩

/-! ## the wallet functions -/

/-- The body of the wallet functions, under the mutex. -/
theorem wp_deltaInside {id : UInt32} {bd hd : ℚ} {f : Int → Prog SysSig Unit}
    (hid : c.userId = id) (hinv : (walletCoupling ι).Inv c₀ w) (hin : Inside t site c k ps o w)
    (hc : ∀ u ∈ o, c.apply u = walletDelta u bd hd)
    (hf : ∀ r w, (walletCoupling ι).Inv c₀ w → Decided t site c k ps r w →
      ((walletCoupling ι).logic c₀).wp t Q (f r) w) :
    ((walletCoupling ι).logic c₀).wp t Q (applyWalletDelta id bd hd >>= f) w := by
  subst hid
  simp only [applyWalletDelta, Sys.readUser, Prog.bind_call, Prog.bind_pure]
  refine wp_readInside rfl hinv hin fun w hinv hin => ?_
  cases o with
  | none => exact hf (-1) w hinv (.inr ⟨rfl, none, rfl, hin⟩)
  | some u =>
      have hu := hc u rfl
      cases hv : walletDelta u bd hd with
      | none =>
          simp only [hv, Prog.pure_eq, Prog.bind_pure]
          exact hf (-1) w hinv (.inr ⟨rfl, some u, hu.trans hv, hin⟩)
      | some v =>
          simp only [hv, Sys.writeUser, Prog.bind_call, Prog.bind_pure]
          exact wp_writeInside hinv hin (hu.trans hv) fun w hinv hdec => hf 0 w hinv hdec

/-- The functions without a check implement their calls. -/
theorem implements_lockedDelta {bd hd : ℚ} {line : LogLine}
    (hc : ∀ u : User, c.apply u = walletDelta u bd hd) :
    (walletCoupling ι).Implements c₀ (.wallet site c) (lockedDelta c.userId bd hd line) := by
  intro t k ps Q f w hinv hat hf
  simp only [lockedDelta, Sys.lock, Sys.unlock, Sys.logTxn, Prog.pure_eq, Prog.bind_call,
    Prog.bind_pure, Prog.bind_assoc]
  refine wp_enter rfl hinv hat fun o w hinv hin => ?_
  refine wp_deltaInside rfl hinv hin (fun u _ => hc u) fun r w hinv hdec => ?_
  refine wp_leave rfl hinv hdec fun w hinv hat => ?_
  exact wp_logLine hinv hat fun w hinv hat => hf r w hinv hat

/-- So does `place_hold`. -/
theorem implements_placeHold {id : UInt32} {amount : ℚ} :
    (walletCoupling ι).Implements c₀ (.wallet site (.placeHold id amount))
      (placeHold id amount) := by
  intro t k ps Q f w hinv hat hf
  simp only [placeHold, Sys.lock, Sys.readUser, Sys.unlock, Sys.logTxn, Prog.pure_eq,
    Prog.bind_call, Prog.bind_pure]
  refine wp_enter rfl hinv hat fun o w hinv hin => ?_
  refine wp_readInside rfl hinv hin fun w hinv hin => ?_
  cases o with
  | none =>
      simp only [Prog.bind_call, Prog.bind_pure]
      exact wp_leave rfl hinv (.inr ⟨rfl, none, rfl, hin⟩) fun w hinv hat => hf (-1) w hinv hat
  | some u =>
      simp only [Prog.ite_bind, Prog.bind_call, Prog.bind_pure, Prog.bind_assoc]
      split
      · next hfunds =>
          have hrefuse : (WalletCall.placeHold id amount).written (some u) = none := if_pos hfunds
          exact wp_leave rfl hinv (.inr ⟨rfl, some u, hrefuse, hin⟩)
            fun w hinv hat => hf (-1) w hinv hat
      · next hfunds =>
          refine wp_deltaInside (c := .placeHold id amount) rfl hinv hin (fun x hx => ?_)
            fun r w hinv hdec => ?_
          · obtain rfl := Option.some.inj hx
            exact if_neg hfunds
          · refine wp_leave rfl hinv hdec fun w hinv hat => ?_
            exact wp_logLine hinv hat fun w hinv hat => hf r w hinv hat

/-- **A wallet function is as good as one step.** -/
theorem implements_wallet : (walletCoupling ι).Implements c₀ (.wallet site c) c.prog := by
  cases c with
  | placeHold id amount => exact implements_placeHold
  | releaseHold id amount => exact implements_lockedDelta (c := .releaseHold id amount) fun _ => rfl
  | settlePayment id amount =>
      exact implements_lockedDelta (c := .settlePayment id amount) fun _ => rfl
  | creditWallet id amount =>
      exact implements_lockedDelta (c := .creditWallet id amount) fun _ => rfl

/-- And all that is implemented by system calls. -/
theorem implements_impl (o : ApiOp) (h : o.OutsideWallet) :
    (walletCoupling ι).Implements c₀ o (Api.impl o) := by
  cases o with
  | sys op => exact implements_sys h
  | wallet site c => exact implements_wallet

end Inside

/-! ## runs -/

/-- **Wallet functions as steps**: a run of threads in system calls is matched
by a run in which each wallet function is one step, up to the log file. -/
theorem apiMachine_of_sysMachine {s : Store} (hnum : Numbered User.userId s.users)
    {queue : ι → List (Prog ApiSig Unit)}
    (hqueue : ∀ t, ∀ p ∈ queue t,
      Prog.Respects ApiOp.OutsideWallet (fun _ _ => True) p fun _ => True)
    {d : Config SysSig ι (Shared ι)}
    (h : Reach sysMachine (.start (.idle s) fun t => (queue t).map (Prog.subst Api.impl)) d) :
    ∃ e : Config ApiSig ι (Shared ι × List (ι × Event ApiSig)),
      Reach apiMachine.logged (.start (.idle s, []) queue) e ∧
        d.shared.store.core = e.shared.1.store.core ∧
          ∀ t, d.prog t = .pure () →
            e.prog t = .pure () ∧ d.queue t = (e.queue t).map (Prog.subst Api.impl) := by
  have henv (s : Shared ι) (x : Shared ι × List (ι × Event ApiSig)) (s' : Shared ι)
      (hm : Matches s x) (hclock : clockMoves s s') :
      (∃ x', apiMachine.logged.env x x' ∧ Matches s' x') ∧ ∀ t, WalletRely t s s' := by
    obtain ⟨now, rfl⟩ := hclock
    refine ⟨⟨({ x.1 with store := { x.1.store with clock := now } }, x.2), ⟨⟨now, rfl⟩, rfl⟩, ?_⟩,
      fun t id hid => ⟨hid, rfl⟩⟩
    exact ⟨congrArg (fun s : Store => { s with clock := now }) hm.core, hm.held, hm.numbered⟩
  obtain ⟨e, hreach, hrel, hquiet⟩ := Coupling.run (C := walletCoupling ι)
    (x := (.idle s, [])) implements_impl henv hqueue ⟨rfl, fun _ _ => rfl, hnum⟩ h
  exact ⟨e, hreach, hrel.core, hquiet⟩

end Refinement

end OnlineAuction
