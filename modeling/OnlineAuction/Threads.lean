import OnlineAuction.Lib.Machine
import OnlineAuction.Server

/-!
# OnlineAuction.Threads

The server's threads over the shared store.

`Shared` is the store together with the owner of each lock.  Two machines run
on it: `sysMachine`, where each system call is a step and a wallet function is
the program of `OnlineAuction.Wallet`, and `apiMachine`, where a wallet
function is one step.  In both a thread that asks for a lock in use waits, and
the clock may change at any time.
-/

namespace OnlineAuction

/-- The store and the owner of each lock. -/
structure Shared (ι : Type) where
  store : Store
  held : Lock → Option ι

/-- A store of which no lock is in use. -/
def Shared.idle {ι : Type} (s : Store) : Shared ι := ⟨s, fun _ => none⟩

/-- The shared state with the log of the calls. -/
abbrev SysLogged (ι : Type) : Type := Shared ι × List (ι × Event SysSig)

abbrev ApiLogged (ι : Type) : Type := Shared ι × List (ι × Event ApiSig)

section Machines

variable {ι : Type}

/-- What a call of thread `t` does to the owners of the locks; `none` when it
has to wait. -/
def SysOp.locks (t : ι) (held : Lock → Option ι) : SysOp → Option (Lock → Option ι)
  | .lock l => if (held l).isSome then none else some (Function.update held l (some t))
  | .unlock l => some (Function.update held l none)
  | _ => some held

/-- A wallet function counted as one step leaves the locks alone. -/
def ApiOp.locks (t : ι) (held : Lock → Option ι) : ApiOp → Option (Lock → Option ι)
  | .sys op => op.locks t held
  | .wallet _ _ => some held

/-- The clock may show any time. -/
def clockMoves (s s' : Shared ι) : Prop :=
  ∃ now, s' = { s with store := { s.store with clock := now } }

/-- Threads whose steps are system calls. -/
def sysMachine : System SysSig ι (Shared ι) where
  step t op s := (op.locks t s.held).map fun held =>
    ((Store.exec op s.store).1, ⟨(Store.exec op s.store).2, held⟩)
  env := clockMoves

/-- Threads whose steps are system calls and whole wallet functions. -/
def apiMachine : System ApiSig ι (Shared ι) where
  step t op s := (op.locks t s.held).map fun held =>
    ((Api.exec op s.store).1, ⟨(Api.exec op s.store).2, held⟩)
  env := clockMoves

theorem sysMachine_step {t : ι} {op : SysOp} {s s' : Shared ι} {r : op.Res} :
    sysMachine.step t op s = some (r, s') ↔
      ∃ held, op.locks t s.held = some held ∧ (Store.exec op s.store).1 = r ∧
        s' = ⟨(Store.exec op s.store).2, held⟩ := by
  simp only [sysMachine, Option.map_eq_some_iff, Prod.mk.injEq]
  exact ⟨fun ⟨h, h1, h2, h3⟩ => ⟨h, h1, h2, h3.symm⟩, fun ⟨h, h1, h2, h3⟩ => ⟨h, h1, h2, h3.symm⟩⟩

theorem apiMachine_step {t : ι} {op : ApiOp} {s s' : Shared ι} {r : op.Res} :
    apiMachine.step t op s = some (r, s') ↔
      ∃ held, op.locks t s.held = some held ∧ (Api.exec op s.store).1 = r ∧
        s' = ⟨(Api.exec op s.store).2, held⟩ := by
  simp only [apiMachine, Option.map_eq_some_iff, Prod.mk.injEq]
  exact ⟨fun ⟨h, h1, h2, h3⟩ => ⟨h, h1, h2, h3.symm⟩, fun ⟨h, h1, h2, h3⟩ => ⟨h, h1, h2, h3.symm⟩⟩

/-- A step of the machine of system calls with its log. -/
theorem sysMachine_logged_step {t : ι} {op : SysOp} {r : op.Res}
    {w w' : Shared ι × List (ι × Event SysSig)} :
    sysMachine.logged.step t op w = some (r, w') ↔
      op.locks t w.1.held = some w'.1.held ∧ (Store.exec op w.1.store).1 = r ∧
        w'.1.store = (Store.exec op w.1.store).2 ∧ w'.2 = w.2 ++ [(t, ⟨op, r⟩)] := by
  rw [System.logged_step, sysMachine_step]
  obtain ⟨⟨store, held⟩, log⟩ := w'
  constructor
  · rintro ⟨⟨held, hl, hr, ⟨⟩⟩, hlog⟩
    exact ⟨hl, hr, rfl, hlog⟩
  · rintro ⟨hl, hr, rfl, hlog⟩
    exact ⟨⟨held, hl, hr, rfl⟩, hlog⟩

/-- The same of the machine of the handlers' calls. -/
theorem apiMachine_logged_step {t : ι} {op : ApiOp} {r : op.Res}
    {w w' : Shared ι × List (ι × Event ApiSig)} :
    apiMachine.logged.step t op w = some (r, w') ↔
      op.locks t w.1.held = some w'.1.held ∧ (Api.exec op w.1.store).1 = r ∧
        w'.1.store = (Api.exec op w.1.store).2 ∧ w'.2 = w.2 ++ [(t, ⟨op, r⟩)] := by
  rw [System.logged_step, apiMachine_step]
  obtain ⟨⟨store, held⟩, log⟩ := w'
  constructor
  · rintro ⟨⟨held, hl, hr, ⟨⟩⟩, hlog⟩
    exact ⟨hl, hr, rfl, hlog⟩
  · rintro ⟨hl, hr, rfl, hlog⟩
    exact ⟨⟨held, hl, hr, rfl⟩, hlog⟩

end Machines

/-! ## the work of the server -/

/-- A unit of work of the server: the conversation with one client, or one
pass of the timer. -/
inductive Task
  | client (clientFd : Int) (messages : List Request)
  | timer

/-- The program of a unit of work. -/
def Task.prog (sha256Hex : List UInt8 → List UInt8) : Task → Prog ApiSig Unit
  | .client clientFd messages => handleClient sha256Hex clientFd messages
  | .timer => timerPass

/-- The same in system calls. -/
def Task.sysProg (sha256Hex : List UInt8 → List UInt8) (task : Task) : Prog SysSig Unit :=
  (task.prog sha256Hex).subst Api.impl

end OnlineAuction
