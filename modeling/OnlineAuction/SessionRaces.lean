import OnlineAuction.Lib.EventLoop
import OnlineAuction.Presence
import OnlineAuction.Threads

/-!
# OnlineAuction.SessionRaces

Logins, logouts and clean-ups of many connections side by side.

Logins and logouts hold `auth_lock` while they look for a slot of the session file and
write it; the clean-up of `handle_client` does both without.

The connections are event loops whose locals are those of `handle_client` (`clients`).
The log of the calls tells who has written a slot last (`writer`).  `slotsLogic` is what
the connections agree on, and `proved_slotsLogic` says that they keep to it.
-/

namespace OnlineAuction

/-! ## connections -/

/-- A request to sign in or out. -/
inductive Signing
  | login (req : LoginPayload)
  | logout

def Signing.request : Signing → Request
  | .login req => .login req
  | .logout => .logout

section Clients

variable {ι : Type}

/-- The connections, with their descriptors, as event loops. -/
def clients (sha256Hex : List UInt8 → List UInt8) (fd : ι → Int) :
    EventLoop ApiSig ι Conn Signing where
  serve t c m := serve sha256Hex (fd t) c m.request
  finish _ c := cleanUp c

/-- They are the loops of `handle_client`. -/
theorem clients_prog (sha256Hex : List UInt8 → List UInt8) (fd : ι → Int) (t : ι) (c : Conn)
    (ms : List Signing) : (clients sha256Hex fd).prog t c ms =
      clientLoop sha256Hex (fd t) c (ms.map Signing.request) := by
  induction ms generalizing c with
  | nil => rfl
  | cons m ms ih =>
      simp only [EventLoop.prog, List.map_cons, clientLoop, ih]
      rfl

abbrev ApiLogged.sessions (w : ApiLogged ι) : List Session := w.1.store.sessions

/-- The slot that a call writes. -/
def slotWritten : Event ApiSig → Option Nat
  | ⟨.sys (.writeSession slot _), _⟩ => some slot
  | _ => none

/-- Who has written a slot last. -/
def writer (slot : Nat) (log : List (ι × Event ApiSig)) : Option ι :=
  log.reverse.findSome? fun e => if slotWritten e.2 = some slot then some e.1 else none

/-- The last writer of a slot is who wrote it last. -/
theorem writer_append (slot : Nat) (log : List (ι × Event ApiSig)) (t : ι) (e : Event ApiSig) :
    writer slot (log ++ [(t, e)]) =
      if slotWritten e = some slot then some t else writer slot log := by
  simp only [writer, List.reverse_append, List.reverse_singleton, List.singleton_append,
    List.findSome?_cons]
  split <;> simp_all

/-- The slot is in use for the user. -/
abbrev ApiLogged.InSlot (w : ApiLogged ι) (slot : Nat) (u : UInt32) : Prop :=
  Occupied Session.isActive Session.userId w.sessions slot u

/-- The connection has a session of the user: it has written the slot last. -/
def OwnsSlot (t : ι) (u : UInt32) (w : ApiLogged ι) : Prop :=
  ∃ slot, w.InSlot slot u ∧ writer slot w.2 = some t

/-- If the call clears a slot, it is not that of another connection. -/
def ClearsOwn (t : ι) (op : ApiOp) (w : ApiLogged ι) : Prop :=
  ∀ slot x, op = .sys (.writeSession slot x) → x.isActive = false →
    ∀ u v, w.InSlot slot u → writer slot w.2 = some v → v = t

/-! ## what the connections agree on -/

/-- The slots of a user are one, but for what has been there from the start. -/
structure SlotsKept (first : List Session) (w : ApiLogged ι) : Prop where
  one : ∀ i j u, w.InSlot i u → w.InSlot j u → i = j ∨ writer i w.2 = none ∧ writer j w.2 = none
  old : ∀ i u, w.InSlot i u → writer i w.2 = none →
    Occupied Session.isActive Session.userId first i u
  length : w.sessions.length ≤ max first.length maxSessions

/-- What a connection may expect of the others: no slot goes, and while it holds
`auth_lock` none is claimed; if nobody clears the slot of another connection, its own
sessions stay. -/
structure SlotsRely (own : Prop) (t : ι) (w w' : ApiLogged ι) : Prop where
  length : w.sessions.length ≤ w'.sessions.length
  locked : w.1.held .auth = some t → w'.1.held .auth = some t ∧
    w'.sessions.length = w.sessions.length ∧ ∀ i u, w'.InSlot i u → w.InSlot i u
  owned : own → ∀ i u, w.InSlot i u → writer i w.2 = some t → w'.InSlot i u ∧ writer i w'.2 = some t

/-- A slot is written in the file or at its end; for a login it is not in use. -/
def WritesSlot (op : ApiOp) (w : ApiLogged ι) : Prop :=
  ∀ slot x, op = .sys (.writeSession slot x) →
    slot ≤ w.sessions.length ∧ (x.isActive = true → Vacant Session.isActive w.sessions slot)

/-- An authenticated connection has a session of its user. -/
def Seated (own : Prop) (t : ι) (c : Conn) (w : ApiLogged ι) : Prop :=
  own → c.authenticated = true → OwnsSlot t c.currentUser.userId w

/-- A seat is kept while others move. -/
theorem Seated.later {own : Prop} {t : ι} {c : Conn} {w w' : ApiLogged ι}
    (h : Seated own t c w) (hrely : SlotsRely own t w w') : Seated own t c w' := by
  intro hown hauth
  obtain ⟨slot, hslot, hwriter⟩ := h hown hauth
  exact ⟨slot, hrely.owned hown slot _ hslot hwriter⟩

/-- The agreement: with `own`, no step clears the slot of another connection. -/
def slotsLogic (sha256Hex : List UInt8 → List UInt8) (fd : ι → Int) (own : Prop)
    (first : List Session) : LoopLogic ApiSig ι (ApiLogged ι) Conn Signing where
  sys := apiMachine.logged
  loop := clients sha256Hex fd
  inv := SlotsKept first
  rely := SlotsRely own
  adm t op w := own → ClearsOwn t op w
  point _ := WritesSlot
  idle := Seated own
  during t c m w := match m with
    | .login _ => Seated own t c w
    | .logout => True
  rely_refl t w := ⟨le_rfl, fun h => ⟨h, rfl, fun _ _ h => h⟩, fun _ _ _ h hw => ⟨h, hw⟩⟩
  rely_trans h h' := {
    length := h.length.trans h'.length
    locked := fun hl => by
      obtain ⟨hl', hlen, hslot⟩ := h.locked hl
      obtain ⟨hl'', hlen', hslot'⟩ := h'.locked hl'
      exact ⟨hl'', hlen'.trans hlen, fun i u hi => hslot i u (hslot' i u hi)⟩
    owned := fun hown i u hi hw => by
      obtain ⟨hi', hw'⟩ := h.owned hown i u hi hw
      exact h'.owned hown i u hi' hw' }
  idle_stable hrely h := h.later hrely

/-! ## what a step does -/

variable {sha256Hex : List UInt8 → List UInt8} {fd : ι → Int} {own : Prop} {first : List Session}
  {t : ι} {w w' : ApiLogged ι} {slot : Nat} {x : Session}

/-- Calls that write no session and leave `auth_lock` alone. -/
def ApiOp.Unseen : ApiOp → Prop
  | .sys (.writeSession _ _) | .sys (.lock .auth) | .sys (.unlock .auth) => False
  | _ => True

/-- The same slots, written by the same connections. -/
structure SameSlots (w w' : ApiLogged ι) : Prop where
  sessions : w'.sessions = w.sessions
  writer : ∀ slot, writer slot w'.2 = writer slot w.2

/-- That the slots are the same holds both ways. -/
theorem SameSlots.symm (h : SameSlots w w') : SameSlots w' w :=
  ⟨h.sessions.symm, fun slot => (h.writer slot).symm⟩

/-- The same users are in the same slots. -/
theorem SameSlots.inSlot (h : SameSlots w w') (i : Nat) (u : UInt32) :
    w'.InSlot i u ↔ w.InSlot i u := by
  rw [ApiLogged.InSlot, ApiLogged.InSlot, h.sessions]

/-- The invariant looks at the slots only. -/
theorem SameSlots.kept (h : SameSlots w w') (hkept : SlotsKept first w) : SlotsKept first w' := by
  constructor
  · intro i j u hi hj
    rw [h.writer, h.writer]
    exact hkept.one i j u ((h.inSlot i u).mp hi) ((h.inSlot j u).mp hj)
  · intro i u hi hwriter
    rw [h.writer] at hwriter
    exact hkept.old i u ((h.inSlot i u).mp hi) hwriter
  · rw [h.sessions]
    exact hkept.length

/-- Where the slots stay, every other thread is content. -/
theorem SameSlots.rely (h : SameSlots w w')
    (hheld : w.1.held .auth = some t → w'.1.held .auth = some t) : SlotsRely own t w w' := by
  constructor
  · rw [h.sessions]
  · intro hlock
    exact ⟨hheld hlock, by rw [h.sessions], fun i u hi => (h.inSlot i u).mp hi⟩
  · intro _ i u hi hwriter
    exact ⟨(h.inSlot i u).mpr hi, by rw [h.writer, hwriter]⟩

/-- A step that writes no slot and takes `auth_lock` from nobody. -/
theorem SameSlots.moves (h : SameSlots w w') (hkept : SlotsKept first w)
    (hheld : ∀ u, u ≠ t → w.1.held .auth = some u → w'.1.held .auth = some u) :
    (slotsLogic sha256Hex fd own first).Moves t w w' :=
  ⟨h.kept hkept, fun u hu => h.rely (hheld u hu)⟩

/-- Only a write of a session changes the sessions. -/
theorem exec_sessions {op : ApiOp} {s : Store} (h : ∀ slot x, op ≠ .sys (.writeSession slot x)) :
    (Api.exec op s).2.sessions = s.sessions := by
  cases op with
  | sys op =>
      cases op with
      | writeSession slot x => exact absurd rfl (h slot x)
      | _ => rfl
  | wallet site c => exact exec_wallet_sessions s site c

/-- A call that writes no session leaves the slots. -/
theorem sameSlots_of_step {op : ApiOp} {r : op.Res}
    (hop : ∀ slot x, op ≠ .sys (.writeSession slot x))
    (hs : apiMachine.logged.step t op w = some (r, w')) : SameSlots w w' := by
  obtain ⟨-, -, hstore, hlog⟩ := apiMachine_logged_step.mp hs
  constructor
  · rw [ApiLogged.sessions, hstore, exec_sessions hop]
  · intro slot
    have hnone : slotWritten ⟨op, r⟩ = none := by
      cases op with
      | sys op => cases op <;> simp_all [slotWritten]
      | wallet site c => rfl
    rw [hlog, writer_append, hnone, if_neg (by simp)]

/-- A call on another lock leaves the mutex of the sessions. -/
theorem held_of_unseen {op : ApiOp} {held : Lock → Option ι} (hop : op.Unseen)
    (hs : op.locks t w.1.held = some held) : held .auth = w.1.held .auth := by
  cases op with
  | sys op =>
      cases op with
      | lock l =>
          have hl : l ≠ .auth := by
            rintro rfl
            exact hop
          simp only [ApiOp.locks, SysOp.locks, Option.ite_none_left_eq_some] at hs
          rw [← Option.some.inj hs.2, Function.update_of_ne hl.symm]
      | unlock l =>
          have hl : l ≠ .auth := by
            rintro rfl
            exact hop
          simp only [ApiOp.locks, SysOp.locks, Option.some.injEq] at hs
          rw [← hs, Function.update_of_ne hl.symm]
      | _ => rw [← Option.some.inj hs]
  | wallet site c => rw [← Option.some.inj hs]

/-- A call that writes no slot has nothing to show before it. -/
theorem point_of_ne {op : ApiOp} (hne : ∀ slot x, op ≠ .sys (.writeSession slot x))
    (w : ApiLogged ι) : (slotsLogic sha256Hex fd own first).point t op w :=
  fun slot x hop => absurd hop (hne slot x)

/-- Most calls are silent. -/
theorem silent_of_unseen {op : ApiOp} (hop : op.Unseen) :
    (slotsLogic sha256Hex fd own first).Silent t op := by
  have hne : ∀ slot x, op ≠ .sys (.writeSession slot x) := by
    rintro slot x rfl
    exact hop
  constructor
  · exact point_of_ne hne
  · intro w r w' hkept hs
    have hsame := sameSlots_of_step hne hs
    have hheld := held_of_unseen hop (apiMachine_logged_step.mp hs).1
    exact ⟨hsame.moves hkept fun u _ hu => by rw [hheld, hu],
      hsame.rely fun hlock => by rw [hheld, hlock]⟩

/-- `auth_lock` is taken when nobody has it. -/
theorem moves_authLock {r : Unit} (hkept : SlotsKept first w)
    (hs : apiMachine.logged.step t (.sys (.lock .auth)) w = some (r, w')) :
    (slotsLogic sha256Hex fd own first).Moves t w w' ∧ SlotsRely own t w w' ∧
      w'.1.held .auth = some t := by
  have hsame := sameSlots_of_step (by simp) hs
  have hlocks := (apiMachine_logged_step.mp hs).1
  simp only [ApiOp.locks, SysOp.locks, Option.ite_none_left_eq_some] at hlocks
  obtain ⟨hfree, hheld⟩ := hlocks
  rw [Option.not_isSome_iff_eq_none] at hfree
  have hmine : w'.1.held .auth = some t := by
    rw [← Option.some.inj hheld, Function.update_self]
  exact ⟨hsame.moves hkept fun u _ hu => by simp [hfree] at hu, hsame.rely fun _ => hmine, hmine⟩

/-- And is given up by who has it. -/
theorem moves_authUnlock {r : Unit} (hkept : SlotsKept first w) (hlock : w.1.held .auth = some t)
    (hs : apiMachine.logged.step t (.sys (.unlock .auth)) w = some (r, w')) :
    (slotsLogic sha256Hex fd own first).Moves t w w' ∧ SameSlots w w' := by
  have hsame := sameSlots_of_step (by simp) hs
  refine ⟨hsame.moves hkept fun u hu hheld => ?_, hsame⟩
  rw [hlock] at hheld
  exact absurd (Option.some.inj hheld).symm hu

/-- What writing a slot does. -/
theorem session_written {r : Int}
    (hs : apiMachine.logged.step t (.sys (.writeSession slot x)) w = some (r, w')) :
    w'.sessions = writeAt .zero w.sessions slot x ∧ w'.1.held = w.1.held ∧
      ∀ i, writer i w'.2 = if i = slot then some t else writer i w.2 := by
  obtain ⟨hheld, -, hstore, hlog⟩ := apiMachine_logged_step.mp hs
  refine ⟨by rw [ApiLogged.sessions, hstore]; rfl, (Option.some.inj hheld).symm, fun i => ?_⟩
  rw [hlog, writer_append]
  simp [slotWritten, eq_comm]

/-- **Step lemma**: a slot is cleared. -/
theorem moves_clear {r : Int} (hkept : SlotsKept first w) (hslot : slot < w.sessions.length)
    (hx : x.isActive = false) (hadm : own → ClearsOwn t (.sys (.writeSession slot x)) w)
    (hs : apiMachine.logged.step t (.sys (.writeSession slot x)) w = some (r, w')) :
    (slotsLogic sha256Hex fd own first).Moves t w w' := by
  obtain ⟨hsessions, hheld, hwriter⟩ := session_written hs
  have hlen : w'.sessions.length = w.sessions.length := by
    rw [hsessions, writeAt_of_lt hslot, List.length_set]
  have hin : ∀ i u, w'.InSlot i u ↔ i ≠ slot ∧ w.InSlot i u := by
    intro i u
    rw [ApiLogged.InSlot, hsessions, occupied_writeAt hslot.le, hx]
    grind
  constructor
  · constructor
    · intro i j u hi hj
      obtain ⟨hne, hi⟩ := (hin i u).mp hi
      obtain ⟨hne', hj⟩ := (hin j u).mp hj
      rw [hwriter, hwriter, if_neg hne, if_neg hne']
      exact hkept.one i j u hi hj
    · intro i u hi hnone
      obtain ⟨hne, hi⟩ := (hin i u).mp hi
      rw [hwriter, if_neg hne] at hnone
      exact hkept.old i u hi hnone
    · rw [hlen]
      exact hkept.length
  · intro v hv
    constructor
    · exact hlen.ge
    · intro hlock
      exact ⟨by rw [hheld, hlock], hlen, fun i u hi => ((hin i u).mp hi).2⟩
    · intro hown i u hi hmine
      have hne : i ≠ slot := by
        rintro rfl
        exact hv (hadm hown i x rfl hx u v hi hmine)
      exact ⟨(hin i u).mpr ⟨hne, hi⟩, by rw [hwriter, if_neg hne, hmine]⟩

/-- **Step lemma**: a slot is claimed, by who holds `auth_lock`. -/
theorem moves_claim {r : Int} (hkept : SlotsKept first w) (hlock : w.1.held .auth = some t)
    (hnone : ¬ HasSlot w.sessions x.userId) (hvacant : Vacant Session.isActive w.sessions slot)
    (hslot : slot ≤ w.sessions.length) (hmax : slot < maxSessions) (hx : x.isActive = true)
    (hs : apiMachine.logged.step t (.sys (.writeSession slot x)) w = some (r, w')) :
    (slotsLogic sha256Hex fd own first).Moves t w w' ∧ OwnsSlot t x.userId w' ∧
      ∀ u, OwnsSlot t u w → OwnsSlot t u w' := by
  obtain ⟨hsessions, hheld, hwriter⟩ := session_written hs
  have hin : ∀ i u, w'.InSlot i u ↔ if i = slot then x.userId = u else w.InSlot i u := by
    intro i u
    rw [ApiLogged.InSlot, hsessions, occupied_writeAt hslot, hx]
    simp
  have hold : ∀ i u, w.InSlot i u → i ≠ slot := by
    rintro i u hi rfl
    exact hi.not_vacant hvacant
  have hlen : w.sessions.length ≤ w'.sessions.length ∧
      w'.sessions.length ≤ max w.sessions.length maxSessions := by
    rw [hsessions]
    exact ⟨length_le_length_writeAt .., length_writeAt_le hslot hmax⟩
  have hkeeps : ∀ v i u, w.InSlot i u → writer i w.2 = some v →
      w'.InSlot i u ∧ writer i w'.2 = some v := by
    intro v i u hi hmine
    have hne := hold i u hi
    exact ⟨(hin i u).mpr (by rwa [if_neg hne]), by rw [hwriter, if_neg hne, hmine]⟩
  refine ⟨⟨?_, ?_⟩, ⟨slot, (hin slot x.userId).mpr (by simp), by rw [hwriter, if_pos rfl]⟩,
    fun u ⟨i, hi, hmine⟩ => ⟨i, hkeeps t i u hi hmine⟩⟩
  · constructor
    · intro i j u hi hj
      rw [hin] at hi hj
      rw [hwriter, hwriter]
      by_cases hi' : i = slot <;> by_cases hj' : j = slot
      · exact .inl (hi'.trans hj'.symm)
      · rw [if_pos hi'] at hi
        rw [if_neg hj'] at hj
        exact absurd ⟨j, hi ▸ hj⟩ hnone
      · rw [if_neg hi'] at hi
        rw [if_pos hj'] at hj
        exact absurd ⟨i, hj ▸ hi⟩ hnone
      · rw [if_neg hi'] at hi
        rw [if_neg hj'] at hj
        rw [if_neg hi', if_neg hj']
        exact hkept.one i j u hi hj
    · intro i u hi hnew
      rw [hin] at hi
      rw [hwriter] at hnew
      by_cases hi' : i = slot
      · simp [hi'] at hnew
      · rw [if_neg hi'] at hi hnew
        exact hkept.old i u hi hnew
    · have hkeptLen := hkept.length
      omega
  · intro v hv
    constructor
    · exact hlen.1
    · intro hheld'
      rw [hlock] at hheld'
      exact absurd (Option.some.inj hheld').symm hv
    · exact fun _ => hkeeps v

/-! ## the programs -/

variable {c : Conn} {user : UInt32} {u : User}

/-- Who owns a slot still does. -/
theorem SameSlots.owns (h : SameSlots w w') (howns : OwnsSlot t user w) : OwnsSlot t user w' := by
  obtain ⟨slot, hslot, hwriter⟩ := howns
  exact ⟨slot, (h.inSlot slot user).mpr hslot, by rw [h.writer, hwriter]⟩

/-- Who has a seat still has it. -/
theorem SameSlots.seated (h : SameSlots w w') (hseated : Seated own t c w) : Seated own t c w' :=
  fun hown hauth => h.owns (hseated hown hauth)

/-- An owned slot is kept while others move. -/
theorem OwnsSlot.later (h : OwnsSlot t user w) (hrely : SlotsRely own t w w') (hown : own) :
    OwnsSlot t user w' := by
  obtain ⟨slot, hslot, hwriter⟩ := h
  exact ⟨slot, hrely.owned hown slot _ hslot hwriter⟩

/-- The connection has `auth_lock`, if it takes it. -/
def Locked (takes : Prop) (t : ι) (w : ApiLogged ι) : Prop := takes → w.1.held .auth = some t

/-- A mutex that is held stays held. -/
theorem Locked.later {takes : Prop} (h : Locked takes t w) (hrely : SlotsRely own t w w') :
    Locked takes t w' := fun htakes => (hrely.locked (h htakes)).1

/-- Clearing the slot of a user, with `auth_lock` or without. -/
theorem wp_clearSession {takes : Prop} (hlock : Locked takes t w) :
    (slotsLogic sha256Hex fd own first).wp t (fun _ => True) (fun _ => Locked takes t)
      (clearSession user) w := by
  have hstable : (slotsLogic sha256Hex fd own first).Stable t (Locked takes t) :=
    fun _ _ hrely h => h.later hrely
  simp only [clearSession, findSessionSlot, Prog.bind_call, Prog.bind_pure]
  refine LoopLogic.wp_call hstable hlock (fun _ _ => trivial)
    (fun w _ _ => point_of_ne (by simp) w) ?_
  intro w r w' hkept hlock _ hs
  have hunseen : ApiOp.Unseen (.sys (.findSessionSlot user)) := trivial
  obtain ⟨hmoves, hrely⟩ := (silent_of_unseen hunseen).2 w r w' hkept hs
  refine ⟨hmoves, ?_⟩
  cases r with
  | none => exact LoopLogic.wp_pure hstable (hlock.later hrely) (fun _ _ => trivial) fun _ _ h => h
  | some slot =>
      have hlt : slot < w'.sessions.length := by
        obtain ⟨-, hr, -, -⟩ := apiMachine_logged_step.mp hs
        exact (occupied_of_sessionSlot hr).lt.trans_le hrely.length
      simp only [writeSession, Prog.bind_call, Prog.bind_pure, Prog.pure_eq]
      refine LoopLogic.wp_call (P := fun w => slot < w.sessions.length ∧ Locked takes t w)
        (fun _ _ hrely h => ⟨h.1.trans_le hrely.length, h.2.later hrely⟩)
        ⟨hlt, hlock.later hrely⟩ (fun _ _ => trivial) ?_ ?_
      · intro w _ hP slot' x hop
        obtain ⟨rfl, rfl⟩ := SysOp.writeSession.inj (ApiOp.sys.inj hop)
        exact ⟨hP.1.le, fun hactive => absurd hactive (by decide)⟩
      · intro w r w' hkept hP hadm hs
        have hlock' : Locked takes t w' := by
          intro htakes
          rw [(session_written hs).2.1]
          exact hP.2 htakes
        exact ⟨moves_clear hkept hP.1 rfl hadm hs,
          LoopLogic.wp_pure hstable hlock' (fun _ _ => trivial) fun _ _ h => h⟩

/-- A program of silent calls, at a point that means nothing more. -/
theorem wp_unseen {p : Prog ApiSig Unit}
    (hp : p.Respects ApiOp.Unseen (fun _ _ => True) (fun _ => True)) :
    (slotsLogic sha256Hex fd own first).wp t (fun _ => True) (fun _ _ => True) p w := by
  have hstable : (slotsLogic sha256Hex fd own first).Stable t (fun _ => True) :=
    fun _ _ _ h => h
  exact LoopLogic.wp_mono
    (LoopLogic.wp_silent (fun _ h => silent_of_unseen h) hstable (fun _ h => h) hp trivial)
    (fun _ h => h) fun _ _ _ _ => trivial

/-- A logout clears the slot that the user's connection owns. -/
theorem wp_handleLogout (clientFd : Int) :
    (slotsLogic sha256Hex fd own first).wp t (fun _ => True) (fun _ _ => True)
      (handleLogout clientFd u) w := by
  simp only [handleLogout, lock, unlock, Prog.bind_call, Prog.bind_pure]
  refine LoopLogic.wp_call (P := fun _ => True) (fun _ _ _ h => h) trivial (fun _ h => h)
    (fun w _ _ => point_of_ne (by simp) w) ?_
  intro w r w' hkept _ _ hs
  obtain ⟨hmoves, -, hheld⟩ := moves_authLock hkept hs
  refine ⟨hmoves, LoopLogic.wp_bind hmoves.inv ?_⟩
  have hlock : Locked True t w' := fun _ => hheld
  refine LoopLogic.wp_mono (wp_clearSession hlock) (fun _ h => h) ?_
  intro _ w hkept hlock
  refine LoopLogic.wp_call (P := Locked True t) (fun _ _ hrely h => h.later hrely) hlock
    (fun _ _ => trivial) (fun w _ _ => point_of_ne (by simp) w) ?_
  intro w r w' hkept hlock _ hs
  refine ⟨(moves_authUnlock hkept (hlock trivial) hs).1, wp_unseen ?_⟩
  simp [notifyUnregister, ApiOp.Unseen]

/-- The clean-up clears a slot without the mutex. -/
theorem wp_cleanUp (hkept : SlotsKept first w) :
    (slotsLogic sha256Hex fd own first).wp t (fun _ => True) (fun _ _ => True) (cleanUp c) w := by
  unfold cleanUp
  split
  · have hlock : Locked False t w := nofun
    refine LoopLogic.wp_bind hkept (LoopLogic.wp_mono (wp_clearSession hlock) (fun _ h => h) ?_)
    intro _ w _ _
    apply wp_unseen
    simp [notifyUnregister, ApiOp.Unseen]
  · exact wp_unseen trivial

/-- A login that has found no session of its user, with `auth_lock`. -/
structure SlotChecked (own : Prop) (t : ι) (c : Conn) (user : UInt32) (w : ApiLogged ι) : Prop where
  seated : Seated own t c w
  lock : w.1.held .auth = some t
  nobody : ¬ HasSlot w.sessions user

/-- What was found out under the mutex stays true. -/
theorem SlotChecked.later (h : SlotChecked own t c user w) (hrely : SlotsRely own t w w') :
    SlotChecked own t c user w' := by
  obtain ⟨hlock, -, hslots⟩ := hrely.locked h.lock
  refine ⟨h.seated.later hrely, hlock, ?_⟩
  rintro ⟨i, hi⟩
  exact h.nobody ⟨i, hslots i user hi⟩

/-- And then a slot. -/
structure Claiming (own : Prop) (t : ι) (c : Conn) (user : UInt32) (slot : Nat) (w : ApiLogged ι) :
    Prop extends SlotChecked own t c user w where
  vacant : Vacant Session.isActive w.sessions slot
  slot_le : slot ≤ w.sessions.length
  slot_lt : slot < maxSessions

/-- So does the claim to a free slot. -/
theorem Claiming.later (h : Claiming own t c user slot w) (hrely : SlotsRely own t w w') :
    Claiming own t c user slot w' := by
  obtain ⟨-, hlen, hslots⟩ := hrely.locked h.lock
  refine ⟨h.toSlotChecked.later hrely, ?_, hlen ▸ h.slot_le, h.slot_lt⟩
  intro x hx
  by_contra hactive
  have hin : w'.InSlot slot x.userId := ⟨x, hx, by simpa using hactive, rfl⟩
  exact (hslots slot x.userId hin).not_vacant h.vacant

/-- Having a seat is stable. -/
theorem seated_stable : (slotsLogic sha256Hex fd own first).Stable t (Seated own t c) :=
  fun _ _ hrely h => h.later hrely

/-- What a login leaves: its user has a session, if it has succeeded. -/
def Settled (own : Prop) (t : ι) (c : Conn) (user : UInt32) (r : Except ErrCode Unit)
    (w : ApiLogged ι) : Prop :=
  Seated own t c w ∧ (r = .ok () → own → OwnsSlot t user w)

/-- So is the outcome of `create_session`. -/
theorem Settled.later {r : Except ErrCode Unit} (h : Settled own t c user r w)
    (hrely : SlotsRely own t w w') : Settled own t c user r w' :=
  ⟨h.1.later hrely, fun hok hown => (h.2 hok hown).later hrely hown⟩

/-- The end of the check and of the creation of a session. -/
theorem wp_unlock_settled {r : Except ErrCode Unit} (h : Settled own t c user r w)
    (hlock : w.1.held .auth = some t) :
    (slotsLogic sha256Hex fd own first).wp t (Seated own t c) (Settled own t c user)
      (unlock .auth >>= fun _ => pure r) w := by
  simp only [unlock, Prog.bind_call, Prog.bind_pure, Prog.pure_eq]
  refine LoopLogic.wp_call (P := fun w => Settled own t c user r w ∧ w.1.held .auth = some t)
    (fun _ _ hrely h => ⟨h.1.later hrely, (hrely.locked h.2).1⟩) ⟨h, hlock⟩ (fun _ h => h.1.1)
    (fun w _ _ => point_of_ne (by simp) w) ?_
  intro w _ w' hkept hP _ hs
  obtain ⟨⟨hseated, howns⟩, hlock⟩ := hP
  obtain ⟨hmoves, hsame⟩ := moves_authUnlock hkept hlock hs
  refine ⟨hmoves, LoopLogic.wp_pure (P := Settled own t c user r)
    (fun _ _ hrely h => h.later hrely) ?_ (fun _ h => h.1) fun _ _ h => h⟩
  exact ⟨hsame.seated hseated, fun hok hown => hsame.owns (howns hok hown)⟩

/-- A failure leaves the connection as it was. -/
theorem settled_error {e : ErrCode} (h : Seated own t c w) :
    Settled own t c user (.error e) w := ⟨h, nofun⟩

/-- The slot is written, and the lock given up. -/
theorem wp_claim (clientFd : Int) (h : Claiming own t c user slot w) :
    (slotsLogic sha256Hex fd own first).wp t (Seated own t c) (Settled own t c user)
      (do
        let loginTime ← time
        let _ ← writeSession slot ⟨user, clientFd, loginTime, true⟩
        unlock .auth
        pure (.ok ())) w := by
  simp only [time, writeSession, Prog.bind_call, Prog.bind_pure]
  refine LoopLogic.wp_call (P := Claiming own t c user slot) (fun _ _ hrely h => h.later hrely) h
    (fun _ h => h.seated) (fun w _ _ => point_of_ne (by simp) w) ?_
  intro w loginTime w' hkept h _ hs
  have hunseen : ApiOp.Unseen (.sys .time) := trivial
  obtain ⟨hmoves, hrely⟩ := (silent_of_unseen hunseen).2 w loginTime w' hkept hs
  refine ⟨hmoves, LoopLogic.wp_call (P := Claiming own t c user slot)
    (fun _ _ hrely h => h.later hrely) (h.later hrely) (fun _ h => h.seated) ?_ ?_⟩
  · intro w _ h slot' x hop
    obtain ⟨rfl, rfl⟩ := SysOp.writeSession.inj (ApiOp.sys.inj hop)
    exact ⟨h.slot_le, fun _ => h.vacant⟩
  · intro w r w' hkept h _ hs
    have hactive : (⟨user, clientFd, loginTime, true⟩ : Session).isActive = true := rfl
    obtain ⟨hmoves, howns, hkeeps⟩ :=
      moves_claim hkept h.lock h.nobody h.vacant h.slot_le h.slot_lt hactive hs
    obtain ⟨-, hheld, -⟩ := session_written hs
    have hseated : Seated own t c w' := fun hown hauth => hkeeps _ (h.seated hown hauth)
    exact ⟨hmoves, wp_unlock_settled ⟨hseated, fun _ _ => howns⟩ (by rw [hheld, h.lock])⟩

/-- `create_session` leaves the user in one slot, or fails. -/
theorem wp_createSession (clientFd : Int) (h : Seated own t c w) :
    (slotsLogic sha256Hex fd own first).wp t (Seated own t c) (Settled own t c u.userId)
      (createSession clientFd u) w := by
  simp only [createSession, lock, findSessionSlot, findFreeSlot, Prog.bind_call, Prog.bind_pure]
  refine LoopLogic.wp_call seated_stable h (fun _ h => h) (fun w _ _ => point_of_ne (by simp) w) ?_
  intro w _ w' hkept h _ hs
  obtain ⟨hmoves, hrely, hheld⟩ := moves_authLock hkept hs
  refine ⟨hmoves, LoopLogic.wp_call (P := fun w => Seated own t c w ∧ w.1.held .auth = some t)
    (fun _ _ hrely h => ⟨h.1.later hrely, (hrely.locked h.2).1⟩) ⟨h.later hrely, hheld⟩
    (fun _ h => h.1) (fun w _ _ => point_of_ne (by simp) w) ?_⟩
  intro w r w' hkept h _ hs
  have hunseen : ApiOp.Unseen (.sys (.findSessionSlot u.userId)) := trivial
  obtain ⟨hmoves, hrely⟩ := (silent_of_unseen hunseen).2 w r w' hkept hs
  have hseated := h.1.later hrely
  have hlock := (hrely.locked h.2).1
  refine ⟨hmoves, ?_⟩
  cases r with
  | some slot => exact wp_unlock_settled (settled_error hseated) hlock
  | none =>
      have hnone : ¬ HasSlot w'.sessions u.userId := by
        obtain ⟨-, hr, -, -⟩ := apiMachine_logged_step.mp hs
        rw [(sameSlots_of_step (by simp) hs).sessions]
        exact sessionSlot_eq_none.mp hr
      refine LoopLogic.wp_call (P := SlotChecked own t c u.userId)
        (fun _ _ hrely h => h.later hrely) ⟨hseated, hlock, hnone⟩ (fun _ h => h.seated)
        (fun w _ _ => point_of_ne (by simp) w) ?_
      intro w r w' hkept h _ hs
      have hunseen : ApiOp.Unseen (.sys .findFreeSlot) := trivial
      obtain ⟨hmoves, hrely⟩ := (silent_of_unseen hunseen).2 w r w' hkept hs
      have hchecked := h.later hrely
      refine ⟨hmoves, ?_⟩
      cases r with
      | none => exact wp_unlock_settled (settled_error hchecked.seated) hchecked.lock
      | some slot =>
          obtain ⟨-, hr, -, -⟩ := apiMachine_logged_step.mp hs
          have hsame := (sameSlots_of_step (by simp) hs).sessions
          obtain ⟨hvacant, hle, hlt⟩ := freeSlot_spec hr
          exact wp_claim clientFd ⟨hchecked, hsame ▸ hvacant, hsame ▸ hle, hlt⟩

/-- What is known of the locals before a login and of those it leaves. -/
def Switching (own : Prop) (t : ι) (c : Conn) (x : Bool × User) (w : ApiLogged ι) : Prop :=
  Seated own t c w ∧ Seated own t ⟨x.1, x.2⟩ w

/-- A program of silent calls in a login: what it knows at its end, it knows of its result. -/
theorem wp_login_end {P : ApiLogged ι → Prop} {p : Prog ApiSig (Bool × User)}
    {R : Bool × User → Prop}
    (hp : p.Respects ApiOp.Unseen (fun _ _ => True) R)
    (hstable : (slotsLogic sha256Hex fd own first).Stable t P) (hD : ∀ w, P w → Seated own t c w)
    (hR : ∀ x w, R x → P w → Seated own t ⟨x.1, x.2⟩ w) (hP : P w) :
    (slotsLogic sha256Hex fd own first).wp t (Seated own t c) (Switching own t c) p w :=
  LoopLogic.wp_mono (LoopLogic.wp_silent (fun _ h => silent_of_unseen h) hstable hD hp hP)
    (fun _ h => h) fun x w _ h => ⟨hD w h.2, hR x w h.1 h.2⟩

/-- A login leaves the connection with a seat, or as it was. -/
theorem wp_handleLogin (clientFd : Int) (req : LoginPayload) (h : Seated own t c w) :
    (slotsLogic sha256Hex fd own first).wp t (Seated own t c) (Switching own t c)
      (handleLogin sha256Hex clientFd req c.currentUser) w := by
  have hfails {w : ApiLogged ι} {p : Prog ApiSig (Bool × User)} (h : Seated own t c w)
      (hp : p.Respects ApiOp.Unseen (fun _ _ => True) (fun x => x.1 = false)) :
      (slotsLogic sha256Hex fd own first).wp t (Seated own t c) (Switching own t c) p w :=
    wp_login_end hp seated_stable (fun _ h => h) (fun x _ hx _ _ hauth => by simp [hx] at hauth) h
  simp only [handleLogin, findUserByUsername, Prog.bind_call, Prog.bind_pure]
  refine LoopLogic.wp_call seated_stable h (fun _ h => h) (fun w _ _ => point_of_ne (by simp) w) ?_
  intro w r w' hkept h _ hs
  have hunseen : ApiOp.Unseen (.sys (.findUserByUsername req.username.val)) := trivial
  obtain ⟨hmoves, hrely⟩ := (silent_of_unseen hunseen).2 w r w' hkept hs
  have h := h.later hrely
  refine ⟨hmoves, ?_⟩
  cases r with
  | none => exact hfails h (by simp [ApiOp.Unseen])
  | some u =>
      by_cases hbanned : u.status = accountBanned ∨ u.status = accountInactive
      · simp only [if_pos hbanned]
        exact hfails h (by simp [ApiOp.Unseen])
      by_cases hpass : (!passwordMatches sha256Hex req.passwordString u) = true
      · simp only [if_neg hbanned, if_pos hpass]
        exact hfails h (by simp [ApiOp.Unseen])
      simp only [if_neg hbanned, if_neg hpass]
      refine LoopLogic.wp_bind hmoves.inv
        (LoopLogic.wp_mono (wp_createSession clientFd h) (fun _ h => h) ?_)
      intro r w _ hsettled
      cases r with
      | error status => exact hfails hsettled.1 (by simp [ApiOp.Unseen])
      | ok _ =>
          refine wp_login_end (P := Settled own t c u.userId (.ok ()))
            (R := fun x => x.2.userId = u.userId) (by simp [notifyRegister, ApiOp.Unseen])
            (fun _ _ hrely h => h.later hrely) (fun _ h => h.1) ?_ hsettled
          intro x w hx hsettled hown _
          have howns := hsettled.2 rfl hown
          rwa [← hx] at howns

/-! ## the connections -/

/-- One turn of the loop keeps to the agreement. -/
theorem wp_serve (m : Signing) (hkept : SlotsKept first w) (h : Seated own t c w) :
    (slotsLogic sha256Hex fd own first).wp t ((slotsLogic sha256Hex fd own first).during t c m)
      ((slotsLogic sha256Hex fd own first).served t) (serve sha256Hex (fd t) c m.request) w := by
  cases m with
  | login req =>
      refine LoopLogic.wp_bind hkept
        (LoopLogic.wp_mono (wp_handleLogin (fd t) req h) (fun _ h => h) ?_)
      intro x w _ h
      exact LoopLogic.wp_pure (P := Switching own t c x)
        (fun _ _ hrely h => ⟨h.1.later hrely, h.2.later hrely⟩) h (fun _ h => h.1)
        fun _ _ h => h.2
  | logout =>
      by_cases hauth : (!c.authenticated) = true
      · simp only [serve, Signing.request, if_pos hauth, Prog.pure_eq]
        refine LoopLogic.wp_mono (LoopLogic.wp_silent (R := fun x => x = (c, true))
          (fun _ h => silent_of_unseen h) seated_stable (fun _ _ => trivial)
          (by simp [ApiOp.Unseen]) h) (fun _ h => h) ?_
        rintro _ w _ ⟨rfl, h⟩
        exact h
      · simp only [serve, Signing.request, if_neg hauth, Prog.pure_eq]
        refine LoopLogic.wp_bind hkept
          (LoopLogic.wp_mono (wp_handleLogout (fd t)) (fun _ h => h) ?_)
        intro _ w _ _
        exact LoopLogic.wp_pure (P := fun _ => True) (fun _ _ _ h => h) trivial (fun _ h => h)
          fun _ hkept _ => wp_cleanUp hkept

variable (sha256Hex fd own first) in
/-- **Agreement**: every connection keeps to it. -/
theorem proved_slotsLogic : (slotsLogic sha256Hex fd own first).Proved where
  serve _ _ m _ hkept h := wp_serve m hkept h
  finish _ _ _ hkept _ := wp_cleanUp hkept

/-- At the start nobody is signed in, whatever slots are in use. -/
theorem holds_start_slots (s : Store) : (slotsLogic sha256Hex fd own s.sessions).Holds
    (.start (Shared.idle s, []) fun _ => .fresh) where
  inv := by
    constructor
    · exact fun i j u _ _ => .inr ⟨rfl, rfl⟩
    · exact fun i u hi _ => hi
    · exact Nat.le_max_left ..
  thread _ := nofun

/-- The clock writes no slot. -/
theorem sameSlots_clock (henv : apiMachine.logged.env w w') : SameSlots w w' := by
  obtain ⟨⟨now, hnow⟩, hlog⟩ := henv
  exact ⟨by rw [ApiLogged.sessions, hnow], fun slot => by rw [hlog]⟩

/-- The clock moves no slot. -/
theorem clock_slots (hkept : SlotsKept first w) (henv : apiMachine.logged.env w w') :
    SlotsKept first w' ∧ ∀ t, SlotsRely own t w w' := by
  have hsame := sameSlots_clock henv
  obtain ⟨⟨now, hnow⟩, -⟩ := henv
  exact ⟨hsame.kept hkept, fun t => hsame.rely fun hheld => by rw [hnow, hheld]⟩

end Clients

end OnlineAuction
