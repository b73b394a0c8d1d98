import OnlineAuction.SessionRaces
import OnlineAuction.SeedAdmin

/-!
# OnlineAuction.LoginRaces

What logins, logouts and clean-ups come to in any order of their calls.

No user has two slots of the session file, and a login writes a slot that is not in use
(`sessionSlots_of_run`), although the clean-up takes no lock.  But the clean-up may clear
the slot of another connection, and a logout has cleared its own long before the
connection is closed, so that a user can be signed in twice; `oneLogin_of_run` says when
not.
-/

namespace OnlineAuction

section Runs

variable {ι : Type}

abbrev Connections (ι : Type) : Type := Workers ApiSig ι (ApiLogged ι) Conn Signing

/-- Accepted connections over a store. -/
def connected (s : Store) : Connections ι := .start (Shared.idle s, []) fun _ => .fresh

variable {sha256Hex : List UInt8 → List UInt8} {fd : ι → Int} {s : Store}
  {w w' : Connections ι} {t t' : ι} {u : UInt32} {c : Conn}

/-! ## the session file -/

/-- What the session file is to be like when the connections are at `w`: no user has two
slots, and the next slot that is written is in the file or at its end, and for a login
not in use. -/
structure SlotsSafe (w : Connections ι) : Prop where
  one_slot : OneSlot w.shared.sessions
  length : w.shared.sessions.length ≤ maxSessions
  writes : ∀ t op, (w.worker t).op = some op → WritesSlot op w.shared

/-- Nothing is asked of the steps. -/
theorem fits_anyTurn (sha256Hex : List UInt8 → List UInt8) (fd : ι → Int) (first : List Session) :
    (slotsLogic sha256Hex fd False first).Fits Workers.anyTurn where
  adm _ _ _ _ _ := False.elim
  env _ _ hkept henv := clock_slots hkept henv

/-- A file that was empty has no slots but those that have been claimed. -/
theorem SlotsKept.oneSlot {w : ApiLogged ι} (h : SlotsKept [] w) : OneSlot w.sessions := by
  intro i j u hi hj
  rcases h.one i j u hi hj with hij | ⟨hnone, -⟩
  · exact hij
  · obtain ⟨x, hx, -⟩ := h.old i u hi hnone
    cases hx

/-- **Sessions**: in every order of logins, logouts and clean-ups. -/
theorem sessionSlots_of_run [DecidableEq ι] (hs : s.sessions = [])
    (h : Workers.Run apiMachine.logged (clients sha256Hex fd) Workers.anyTurn (connected s) w) :
    SlotsSafe w := by
  have hstart : (slotsLogic sha256Hex fd False s.sessions).Holds (connected s) :=
    holds_start_slots s
  rw [hs] at hstart
  have hw := hstart.run (proved_slotsLogic sha256Hex fd False []) (fits_anyTurn sha256Hex fd []) h
  have hkept : SlotsKept [] w.shared := hw.inv
  constructor
  · exact hkept.oneSlot
  · exact hkept.length.trans (by simp)
  · exact fun t op hop => hw.point hop

/-- The same when every thread runs `handle_client` as one program. -/
theorem oneSlot_of_reach [DecidableEq ι] (hs : s.sessions = []) (hfd : ∀ t, 0 < fd t)
    (ms : ι → List Signing) {d : Config ApiSig ι (ApiLogged ι)}
    (h : Reach apiMachine.logged (.start (Shared.idle s, []) fun t =>
      [handleClient sha256Hex (fd t) ((ms t).map Signing.request)]) d) :
    OneSlot d.shared.sessions ∧ d.shared.sessions.length ≤ maxSessions := by
  have hprog : ∀ t, handleClient sha256Hex (fd t) ((ms t).map Signing.request) =
      (clients sha256Hex fd).prog t .fresh (ms t) := by
    intro t
    rw [handleClient, if_neg (not_le.mpr (hfd t)), clients_prog]
  simp only [hprog] at h
  obtain ⟨w, hrun, hfollows⟩ := Workers.covers h
  have hsafe := sessionSlots_of_run hs hrun
  rw [← hfollows.shared]
  exact ⟨hsafe.one_slot, hsafe.length⟩

/-! ## who is signed in -/

/-- No two connections are in their loops authenticated as the same user. -/
def OneLogin (w : Connections ι) : Prop :=
  ∀ t t' c c', (w.worker t).locals = some c → (w.worker t').locals = some c' →
    c.authenticated = true → c'.authenticated = true →
    c.currentUser.userId = c'.currentUser.userId → t = t'

theorem OneLogin.eq_of_user (h : OneLogin w) (ht : (w.worker t).locals.bind Conn.user = some u)
    (ht' : (w.worker t').locals.bind Conn.user = some u) : t = t' := by
  obtain ⟨c, hc, huser⟩ := Option.bind_eq_some_iff.mp ht
  obtain ⟨c', hc', huser'⟩ := Option.bind_eq_some_iff.mp ht'
  simp only [Conn.user, Option.ite_none_right_eq_some, Option.some.injEq] at huser huser'
  exact h t t' c c' hc hc' huser.1 huser'.1 (huser.2.trans huser'.2.symm)

/-- A connection serves a logout of the user. -/
def LogsOut (u : UInt32) : Worker ApiSig Conn Signing → Prop
  | .serving c .logout _ => c.authenticated = true ∧ c.currentUser.userId = u
  | _ => False

/-- A slot in use is cleared by the connection that has claimed it, and one is claimed for
a user that no other connection is logging out. -/
def Careful (w : Connections ι) (t : ι) : Prop :=
  match (w.worker t).op with
  | some (.sys (.writeSession slot x)) =>
      if x.isActive then ∀ t', t' ≠ t → ¬ LogsOut x.userId (w.worker t')
      else ∀ y ∈ w.shared.sessions[slot]?, y.isActive = true →
        ∀ v ∈ writer slot w.shared.2, v = t
  | _ => True

instance (x : Worker ApiSig Conn Signing) : Decidable (LogsOut u x) := by
  unfold LogsOut
  split <;> infer_instance

instance [Fintype ι] [DecidableEq ι] (w : Connections ι) (t : ι) : Decidable (Careful w t) := by
  unfold Careful
  split <;> infer_instance

/-- Who has a slot is alone with the user, also during a logout. -/
structure LoginsKept (w : Connections ι) : Prop where
  one : OneLogin w
  leaving : ∀ t t' u, OwnsSlot t u w.shared → LogsOut u (w.worker t') → t = t'

variable {first : List Session}

theorem fits_careful (sha256Hex : List UInt8 → List UInt8) (fd : ι → Int) (first : List Session) :
    (slotsLogic sha256Hex fd True first).Fits Careful where
  adm w t o ho hok _ slot x hop hx u v hslot hwriter := by
    subst hop
    obtain ⟨y, hy, hactive, -⟩ := hslot
    simp only [Careful, ho, hx] at hok
    exact hok y hy hactive v hwriter
  env _ _ hkept henv := clock_slots hkept henv

/-- A user has one owner. -/
theorem SlotsKept.owner_eq {w : ApiLogged ι} (h : SlotsKept first w) (ht : OwnsSlot t u w)
    (ht' : OwnsSlot t' u w) : t = t' := by
  obtain ⟨i, hi, hwriter⟩ := ht
  obtain ⟨j, hj, hwriter'⟩ := ht'
  rcases h.one i j u hi hj with rfl | ⟨hnone, -⟩
  · rw [hwriter] at hwriter'
    exact Option.some.inj hwriter'
  · rw [hwriter] at hnone
    cases hnone

/-- An authenticated connection owns a slot, unless it is logging out. -/
theorem owns_or_logsOut (h : (slotsLogic sha256Hex fd True first).Holds w)
    (hc : (w.worker t).locals = some c) (hauth : c.authenticated = true) :
    OwnsSlot t c.currentUser.userId w.shared ∨ LogsOut c.currentUser.userId (w.worker t) := by
  cases hw : w.worker t with
  | waiting l =>
      rw [hw] at hc
      obtain rfl := Option.some.inj hc
      have hseated : Seated True t l w.shared := by
        have ht := h.thread t
        rwa [hw] at ht
      exact .inl (hseated trivial hauth)
  | serving l m p =>
      rw [hw] at hc
      obtain rfl := Option.some.inj hc
      cases m with
      | login req =>
          have hseated : Seated True t l w.shared := h.during hw
          exact .inl (hseated trivial hauth)
      | logout => exact .inr ⟨hauth, rfl⟩
  | closing l p =>
      rw [hw] at hc
      cases hc

/-- An owner has been one, or claims a slot. -/
theorem owns_before {v : ι} {op : ApiOp} {r : op.Res} {w w' : ApiLogged ι}
    (hs : apiMachine.logged.step t op w = some (r, w'))
    (hwrites : WritesSlot op w) (h : OwnsSlot v u w') :
    OwnsSlot v u w ∨ v = t ∧ ∃ slot x, op = .sys (.writeSession slot x) ∧ x.isActive = true ∧
      x.userId = u := by
  by_cases hop : ∃ slot x, op = .sys (.writeSession slot x)
  · obtain ⟨slot, x, rfl⟩ := hop
    obtain ⟨hsessions, -, hwriter⟩ := session_written hs
    obtain ⟨i, hi, hmine⟩ := h
    have hle := (hwrites slot x rfl).1
    rw [ApiLogged.InSlot, hsessions, occupied_writeAt hle] at hi
    rw [hwriter] at hmine
    by_cases hslot : i = slot
    · rw [if_pos hslot] at hi hmine
      exact .inr ⟨(Option.some.inj hmine).symm, slot, x, rfl, hi⟩
    · rw [if_neg hslot] at hi hmine
      exact .inl ⟨i, hi, hmine⟩
  · have hne : ∀ slot x, op ≠ .sys (.writeSession slot x) := fun slot x heq => hop ⟨slot, x, heq⟩
    exact .inl ((sameSlots_of_step hne hs).symm.owns h)

/-- Who logs out is in its loop. -/
theorem LogsOut.locals {x : Worker ApiSig Conn Signing} (h : LogsOut u x) :
    ∃ c, x.locals = some c ∧ c.authenticated = true ∧ c.currentUser.userId = u := by
  unfold LogsOut at h
  split at h
  · next c p => exact ⟨c, rfl, h⟩
  · exact h.elim

section Steps

variable [DecidableEq ι]

/-- A connection has gone on to `x` by itself or out of its loop. -/
theorem LoginsKept.put {x : Worker ApiSig Conn Signing} (hk : LoginsKept w)
    (hlocals : ∀ c, x.locals = some c → (w.worker t).locals = some c)
    (hleaves : ∀ v u, OwnsSlot v u w.shared → LogsOut u x → v = t) : LoginsKept (w.put t x) := by
  have hold : ∀ v c, ((w.put t x).worker v).locals = some c → (w.worker v).locals = some c := by
    intro v c hv
    by_cases htv : v = t
    · subst htv
      exact hlocals c (by simpa using hv)
    · simpa [htv] using hv
  constructor
  · intro v v' c c' hv hv'
    exact hk.one v v' c c' (hold v c hv) (hold v' c' hv')
  · intro v v' u hv hv'
    by_cases htv : v' = t
    · subst htv
      exact hleaves v u hv (by simpa using hv')
    · exact hk.leaving v v' u hv (by simpa [htv] using hv')

/-- A login has been answered. -/
theorem LoginsKept.answer (hk : LoginsKept w) (h : (slotsLogic sha256Hex fd True first).Holds w)
    (hidle : Seated True t c w.shared) : LoginsKept (w.put t (.waiting c)) := by
  have halone : c.authenticated = true → ∀ v c', v ≠ t → (w.worker v).locals = some c' →
      c'.authenticated = true → c'.currentUser.userId ≠ c.currentUser.userId := by
    intro hauth v c' hvt hv hauth' huser
    have howns := hidle trivial hauth
    rcases owns_or_logsOut h hv hauth' with howns' | hout
    · rw [huser] at howns'
      exact hvt (h.inv.owner_eq howns' howns)
    · rw [huser] at hout
      exact hvt (hk.leaving t v _ howns hout).symm
  constructor
  · intro v v' c₁ c₂ hv hv' hauth hauth' huser
    by_cases htv : v = t <;> by_cases htv' : v' = t
    · rw [htv, htv']
    · subst htv
      simp only [Workers.put_worker, Function.update_self, Worker.locals, Option.some.injEq] at hv
      subst hv
      have hv' : (w.worker v').locals = some c₂ := by simpa [htv'] using hv'
      exact absurd huser.symm (halone hauth v' c₂ htv' hv' hauth')
    · subst htv'
      simp only [Workers.put_worker, Function.update_self, Worker.locals, Option.some.injEq] at hv'
      subst hv'
      have hv : (w.worker v).locals = some c₁ := by simpa [htv] using hv
      exact absurd huser (halone hauth' v c₁ htv hv hauth)
    · exact hk.one v v' c₁ c₂ (by simpa [htv] using hv) (by simpa [htv'] using hv') hauth
        hauth' huser
  · intro v v' u hv hv'
    by_cases htv : v' = t
    · subst htv
      simp [LogsOut] at hv'
    · exact hk.leaving v v' u hv (by simpa [htv] using hv')

/-- A connection has made a call. -/
theorem LoginsKept.goOn {x : Worker ApiSig Conn Signing} {op : ApiOp} {r : op.Res}
    {s : ApiLogged ι} (hk : LoginsKept w) (hwrites : WritesSlot op w.shared)
    (ho : (w.worker t).op = some op) (hok : Careful w t)
    (hs : apiMachine.logged.step t op w.shared = some (r, s))
    (hlocals : ∀ c, x.locals = some c → (w.worker t).locals = some c)
    (hleaves : ∀ u, LogsOut u x → LogsOut u (w.worker t)) : LoginsKept (w.goOn t x s) := by
  have hold : ∀ v c, ((w.goOn t x s).worker v).locals = some c → (w.worker v).locals = some c := by
    intro v c hv
    by_cases htv : v = t
    · subst htv
      exact hlocals c (by simpa using hv)
    · simpa [htv] using hv
  constructor
  · intro v v' c c' hv hv'
    exact hk.one v v' c c' (hold v c hv) (hold v' c' hv')
  · intro v v' u hv hv'
    have hout : LogsOut u (w.worker v') := by
      by_cases htv : v' = t
      · subst htv
        exact hleaves u (by simpa using hv')
      · simpa [htv] using hv'
    rcases owns_before hs hwrites hv with howns | ⟨rfl, slot, y, rfl, hactive, rfl⟩
    · exact hk.leaving v v' u howns hout
    · simp only [Careful, ho, hactive, if_true] at hok
      by_contra hne
      exact hok v' (Ne.symm hne) hout

/-- **Step lemma**. -/
theorem LoginsKept.step (hk : LoginsKept w) (h : (slotsLogic sha256Hex fd True first).Holds w)
    (hstep : Workers.Step apiMachine.logged (clients sha256Hex fd) Careful w w') :
    LoginsKept w' := by
  cases hstep with
  | @receive t c hw m =>
      refine hk.put (fun c' hc' => by rw [hw]; exact hc') ?_
      intro v u hv hout
      obtain ⟨c', hc', hauth, rfl⟩ := hout.locals
      obtain rfl : c = c' := Option.some.inj hc'
      have hseated : Seated True t c w.shared := by
        have ht := h.thread t
        rwa [hw] at ht
      exact h.inv.owner_eq hv (hseated trivial hauth)
  | hangUp hw => exact hk.put (fun _ => nofun) fun _ _ _ hout => hout.elim
  | @call t c m o k r s hw hok hs =>
      have ho : (w.worker t).op = some o := by rw [hw]; rfl
      refine hk.goOn (h.point ho) ho hok hs (fun c' hc' => by rw [hw]; exact hc') ?_
      intro u hout
      rw [hw]
      cases m with
      | login req => exact hout.elim
      | logout => exact hout
  | answer hw => exact hk.answer h (h.served hw)
  | leave hw => exact hk.put (fun _ => nofun) fun _ _ _ hout => hout.elim
  | @close t c o k r s hw hok hs =>
      have ho : (w.worker t).op = some o := by rw [hw]; rfl
      exact hk.goOn (h.point ho) ho hok hs (fun _ => nofun) fun _ hout => hout.elim
  | env hs =>
      have hsame := sameSlots_clock hs
      exact ⟨hk.one, fun v v' u hv hout => hk.leaving v v' u (hsame.symm.owns hv) hout⟩

/-- **One login per user**: in every order of the calls of careful connections. -/
theorem oneLogin_of_run
    (h : Workers.Run apiMachine.logged (clients sha256Hex fd) Careful (connected s) w) :
    OneLogin w := by
  have hstart : (slotsLogic sha256Hex fd True s.sessions).Holds (connected s) :=
    holds_start_slots s
  have hproved := proved_slotsLogic sha256Hex fd True s.sessions
  have hfits := fits_careful sha256Hex fd s.sessions
  have hk : LoginsKept (connected s : Connections ι) := by
    refine ⟨fun _ _ c _ hc _ hauth => ?_, fun _ _ _ _ hout => hout.elim⟩
    obtain rfl : Conn.fresh = c := Option.some.inj hc
    cases hauth
  have hall := h.inv (P := fun w => (slotsLogic sha256Hex fd True s.sessions).Holds w ∧
    LoginsKept w)
    (fun v w hv hstep => ⟨hv.1.step hproved hfits hstep, hv.2.step hv.1 hstep⟩) ⟨hstart, hk⟩
  exact hall.2.one

end Steps

end Runs

/-! ## three connections of the administrator -/

/-- A message and a number of turns. -/
def turns (t : Fin 3) (m : Signing) (n : Nat) : List (Fin 3 × Workers.Turn Signing) :=
  (t, .receive m) :: List.replicate n (t, .go)

def adminLogin : Signing := .login ⟨.ofBytes _ adminName, .ofBytes _ adminPassword, []⟩

/-- The first connection logs in and out, but has not cleaned up yet when the second one
logs in. -/
def loggedOut : List (Fin 3 × Workers.Turn Signing) :=
  turns 0 adminLogin 20 ++ turns 0 .logout 10 ++ turns 1 adminLogin 20

/-- The connections of a new installation. -/
def admins : Connections (Fin 3) := connected (.seeded adminSha256Hex 0 1000)

def adminClients : EventLoop ApiSig (Fin 3) Conn Signing :=
  clients adminSha256Hex fun t => t.val + 5

/-- The clean-up of the first connection clears the slot of the second one, and the third
one takes it. -/
theorem sessionSlots_of_run_cleared :
    let w := admins.after apiMachine.logged adminClients Workers.anyTurn
      (loggedOut ++ List.replicate 2 (0, .go) ++ turns 2 adminLogin 20)
    w.shared.1.store.sessions.map Session.clientFd = [7] ∧ SlotsSafe w :=
  ⟨by decide +kernel, sessionSlots_of_run rfl (Workers.Run.after _)⟩

/-- As long as the first connection does not clear that slot, the third login is refused. -/
theorem oneLogin_of_run_refused :
    let w := admins.after apiMachine.logged adminClients Careful
      (loggedOut ++ List.replicate 2 (0, .go) ++ turns 2 adminLogin 20)
    (w.worker 1).locals.bind Conn.user = some 1 ∧ (w.worker 2).locals.bind Conn.user = none ∧
      OneLogin w :=
  ⟨by decide +kernel, by decide +kernel, oneLogin_of_run (Workers.Run.after _)⟩

/-- When it does, the third one is signed in besides the second. -/
theorem not_oneLogin :
    ¬ ∀ w, Workers.Run apiMachine.logged adminClients Workers.anyTurn admins w → OneLogin w := by
  intro h
  have hone := h _ (Workers.Run.after
    (loggedOut ++ List.replicate 2 (0, .go) ++ turns 2 adminLogin 20))
  have heq : (1 : Fin 3) = 2 := hone.eq_of_user (u := 1) (by decide +kernel) (by decide +kernel)
  exact absurd heq (by decide)

end OnlineAuction
