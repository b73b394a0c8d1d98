import OnlineAuction.Handlers
import OnlineAuction.Lib.SlotTable

/-!
# OnlineAuction.Presence

Who is signed in: the connections, the session file and the registry.

A user signs in through a connection, which takes a slot of the session file and
an entry of the registry, and both are given up by user identifier when the
connection ends.  `Presence` is what there is of each, `Presence.Step` what may
happen to them as long as nobody logs in on a connection that is in use, and
`Presence.Kept` the invariant.  `Change.presence_step` connects them with the
requests.
-/

namespace OnlineAuction

/-! ## the tables -/

/-- The session file has an active slot for the user. -/
abbrev HasSlot : List Session → UInt32 → Prop := InUse Session.isActive Session.userId

/-- No user has two active slots. -/
abbrev OneSlot : List Session → Prop := OnePerOwner Session.isActive Session.userId

/-- No user has two active entries in the registry. -/
abbrev OneEntry : List RegistryEntry → Prop :=
  OnePerOwner RegistryEntry.active RegistryEntry.userId

section Tables

variable {sessions : List Session} {registry : List RegistryEntry} {u : UInt32} {slot : Nat}

/-- No slot is found when the user has none. -/
theorem sessionSlot_eq_none : sessionSlot sessions u = none ↔ ¬ HasSlot sessions u :=
  findIdx?_eq_none_iff_inUse

/-- The slot that is found is the user's. -/
theorem occupied_of_sessionSlot (h : sessionSlot sessions u = some slot) :
    Occupied Session.isActive Session.userId sessions slot u := occupied_of_findIdx? h

/-- A login writes a slot that is not in use, or the next one. -/
theorem freeSlot_spec (h : freeSlot sessions = some slot) :
    Vacant Session.isActive sessions slot ∧ slot ≤ sessions.length ∧ slot < maxSessions := by
  unfold freeSlot at h
  split at h
  · next i hi =>
      obtain rfl := Option.some.inj h
      obtain ⟨hvacant, hlt⟩ := vacant_of_findIdx? hi
      rw [List.length_take, Nat.lt_min] at hlt
      refine ⟨fun x hx => hvacant x ?_, hlt.2.le, hlt.1⟩
      rwa [List.getElem?_take_of_lt hlt.1]
  · split at h
    · next hlt =>
        obtain rfl := Option.some.inj h
        refine ⟨fun x hx => ?_, le_rfl, hlt⟩
        rw [List.getElem?_eq_none le_rfl] at hx
        cases hx
    · cases h

/-- Clearing releases a slot of the user. -/
theorem released_clearSlot (u : UInt32) (sessions : List Session) :
    Released Session.isActive Session.userId sessions u (clearSlot u sessions) := by
  unfold clearSlot
  cases h : sessionSlot sessions u with
  | none => exact .none (sessionSlot_eq_none.mp h)
  | some slot => exact .some (occupied_of_sessionSlot h) rfl

/-- Unregistering releases an entry of the user. -/
theorem released_unregisterFd (u : UInt32) (registry : List RegistryEntry) :
    Released RegistryEntry.active RegistryEntry.userId registry u (unregisterFd registry u) := by
  unfold unregisterFd
  split
  · next i hi =>
      have hheld := occupied_of_findIdx? hi
      rw [List.modify_eq_set_getElem?, List.getElem?_eq_getElem hheld.lt]
      exact .set hheld rfl
  · next hnone => exact .none (findIdx?_eq_none_iff_inUse.mp hnone)

/-- A registration takes a vacant entry, or does nothing. -/
theorem registerFd_cases (registry : List RegistryEntry) (u : UInt32) (fd : Int) :
    registerFd registry u fd = registry ∨ ∃ i, Vacant RegistryEntry.active registry i ∧
      i < registry.length ∧ registerFd registry u fd = registry.set i ⟨u, fd, true⟩ := by
  unfold registerFd
  split
  · next i hi => exact .inr ⟨i, (vacant_of_findIdx? hi).1, (vacant_of_findIdx? hi).2, rfl⟩
  · exact .inl rfl

/-- What is registered is new or was there. -/
theorem mem_registerFd {fd : Int} {e : RegistryEntry} (h : e ∈ registerFd registry u fd) :
    e = ⟨u, fd, true⟩ ∨ e ∈ registry := by
  rcases registerFd_cases registry u fd with heq | ⟨i, -, -, heq⟩
  · exact .inr (heq ▸ h)
  · exact (List.mem_or_eq_of_mem_set (heq ▸ h)).symm

/-- Registering a user who has no entry leaves one entry for each. -/
theorem OnePerOwner.registerFd (h : OneEntry registry)
    (hnew : ¬ InUse RegistryEntry.active RegistryEntry.userId registry u) (fd : Int) :
    OneEntry (registerFd registry u fd) := by
  rcases registerFd_cases registry u fd with heq | ⟨i, -, hlt, heq⟩
  · rwa [heq]
  · rw [heq]
    exact OnePerOwner.set h hlt hnew

/-- There is nothing to clear for a user without a slot. -/
theorem clearSlot_of_not (h : ¬ HasSlot sessions u) : clearSlot u sessions = sessions := by
  rw [clearSlot, sessionSlot_eq_none.mpr h]

/-- There is nothing to unregister for a user without an entry. -/
theorem unregisterFd_of_not (h : ¬ InUse RegistryEntry.active RegistryEntry.userId registry u) :
    unregisterFd registry u = registry := by
  unfold unregisterFd
  rw [findIdx?_eq_none_iff_inUse.mpr h]

/-- Doing again what has nothing left to do. -/
theorem iterate_eq_of_fixed {α : Type} {f : α → α} {x : α} (h : f (f x) = f x) {n : Nat}
    (hn : 0 < n) : f^[n] x = f x := by
  induction n with
  | zero => omega
  | succ n ih =>
      rcases Nat.eq_zero_or_pos n with rfl | hpos
      · rfl
      · rw [Function.iterate_succ_apply', ih hpos, h]

/-- With one slot for each user clearing again changes nothing. -/
theorem clearSlot_iterate {n : Nat} (h : OneSlot sessions) (hn : 0 < n) :
    (clearSlot u)^[n] sessions = clearSlot u sessions :=
  iterate_eq_of_fixed (clearSlot_of_not ((released_clearSlot u sessions).not_inUse h)) hn

/-- With one entry for each user unregistering again changes nothing. -/
theorem unregisterFd_iterate {n : Nat} (h : OneEntry registry) (hn : 0 < n) :
    (fun r => unregisterFd r u)^[n] registry = unregisterFd registry u :=
  iterate_eq_of_fixed (unregisterFd_of_not ((released_unregisterFd u registry).not_inUse h)) hn

end Tables

/-! ## who is signed in -/

/-- The connections by the users they are authenticated as, and the two tables. -/
structure Presence where
  who : Int → Option UInt32
  sessions : List Session
  registry : List RegistryEntry

/-- The user that a connection is authenticated as. -/
def Conn.user (c : Conn) : Option UInt32 :=
  if c.authenticated then some c.currentUser.userId else none

def View.presence (v : View) : Presence where
  who fd := (v.conns fd).bind Conn.user
  sessions := v.sessions
  registry := v.registry

/-- Who is present on a descriptor is logged in there. -/
theorem View.who_eq_some {v : View} {fd : Int} {u : UInt32} :
    v.presence.who fd = some u ↔ ∃ c, v.LoggedIn fd c ∧ c.currentUser.userId = u := by
  simp only [View.presence, Option.bind_eq_some_iff, Conn.user, Option.ite_none_right_eq_some,
    Option.some.injEq, View.LoggedIn]
  grind

namespace Presence

/-- A user signs in through a connection. -/
def signIn (p : Presence) (fd : Int) (slot : Nat) (x : Session) : Presence where
  who := Function.update p.who fd (some x.userId)
  sessions := writeAt .zero p.sessions slot x
  registry := registerFd p.registry x.userId fd

/-- The connection of a user ends. -/
def signOff (p : Presence) (fd : Int) (u : UInt32) : Presence where
  who := Function.update p.who fd none
  sessions := clearSlot u p.sessions
  registry := unregisterFd p.registry u

/-- The process is killed and `main` runs again: the session file stays. -/
def restart (p : Presence) : Presence := ⟨fun _ => none, p.sessions, emptyRegistry⟩

inductive Step (p : Presence) : Presence → Prop
  | stay : Step p p
  | signIn {fd : Int} {slot : Nat} {x : Session} (hfd : p.who fd = none) (hx : x.isActive = true)
      (hnone : ¬ HasSlot p.sessions x.userId) (hslot : freeSlot p.sessions = some slot) :
      Step p (p.signIn fd slot x)
  | signOff {fd : Int} {u : UInt32} (hfd : p.who fd = some u) : Step p (p.signOff fd u)

/-- Who is signed in has a slot and one connection, and the registry lists
connections that are authenticated as the user they are listed for. -/
structure Kept (p : Presence) : Prop where
  one_slot : OneSlot p.sessions
  one_entry : OneEntry p.registry
  slot : ∀ fd u, p.who fd = some u → HasSlot p.sessions u
  one_conn : ∀ fd fd' u, p.who fd = some u → p.who fd' = some u → fd = fd'
  listed : ∀ e ∈ p.registry, e.active = true → p.who e.clientFd = some e.userId

/-- Who has a slot is signed in. -/
def Current (p : Presence) : Prop := ∀ u, HasSlot p.sessions u → ∃ fd, p.who fd = some u

variable {p p' : Presence} {fd : Int} {u : UInt32} {slot : Nat} {x : Session}

/-- The empty registry has free places. -/
theorem emptyRegistry_vacant (i : Nat) : Vacant RegistryEntry.active emptyRegistry i := by
  intro e he
  rw [(List.mem_replicate.mp (List.mem_of_getElem? he)).2]

/-- A user without a slot has no entry in the registry. -/
theorem Kept.not_listed (h : p.Kept) (hnone : ¬ HasSlot p.sessions u) :
    ¬ InUse RegistryEntry.active RegistryEntry.userId p.registry u := by
  rintro ⟨i, e, he, hactive, rfl⟩
  exact hnone (h.slot _ _ (h.listed e (List.mem_of_getElem? he) hactive))

/-- A login by a user without a session keeps the presence in order. -/
theorem Kept.signIn (h : p.Kept) (hfd : p.who fd = none) (hx : x.isActive = true)
    (hnone : ¬ HasSlot p.sessions x.userId) (hslot : freeSlot p.sessions = some slot) :
    (p.signIn fd slot x).Kept := by
  obtain ⟨hvacant, hle, -⟩ := freeSlot_spec hslot
  have hwho {fd' : Int} {u : UInt32} (hu : (p.signIn fd slot x).who fd' = some u) :
      fd' = fd ∧ u = x.userId ∨ fd' ≠ fd ∧ p.who fd' = some u := by
    simp only [Presence.signIn, Function.update_apply] at hu
    grind
  constructor
  · exact h.one_slot.claim hle hnone
  · exact h.one_entry.registerFd (h.not_listed hnone) fd
  · intro fd' u hu
    refine (inUse_claim hle hvacant hx).mpr ?_
    rcases hwho hu with ⟨-, rfl⟩ | ⟨-, hu⟩
    · exact .inl rfl
    · exact .inr (h.slot fd' u hu)
  · intro fd₁ fd₂ u h₁ h₂
    have hnew {fd' : Int} (hu : p.who fd' = some x.userId) : False := hnone (h.slot _ _ hu)
    have hold := h.one_conn fd₁ fd₂ u
    rcases hwho h₁ with ⟨rfl, rfl⟩ | ⟨-, h₁⟩ <;> rcases hwho h₂ with ⟨rfl, hu⟩ | ⟨-, h₂⟩ <;> grind
  · intro e he hactive
    simp only [Presence.signIn, Function.update_apply]
    rcases mem_registerFd he with rfl | he
    · simp
    · have hlisted := h.listed e he hactive
      rw [if_neg (by rintro rfl; simp [hfd] at hlisted), hlisted]

/-- So does signing off. -/
theorem Kept.signOff (h : p.Kept) (hfd : p.who fd = some u) : (p.signOff fd u).Kept := by
  have hslots := released_clearSlot u p.sessions
  have hentries := released_unregisterFd u p.registry
  have hwho {fd' : Int} {u' : UInt32} (hu : (p.signOff fd u).who fd' = some u') :
      fd' ≠ fd ∧ p.who fd' = some u' := by
    simp only [Presence.signOff, Function.update_apply] at hu
    grind
  constructor
  · exact hslots.onePerOwner h.one_slot
  · exact hentries.onePerOwner h.one_entry
  · intro fd' u' hu
    obtain ⟨hne, hold⟩ := hwho hu
    refine hslots.inUse_of_ne ?_ (h.slot fd' u' hold)
    rintro rfl
    exact hne (h.one_conn fd' fd u' hold hfd)
  · intro fd₁ fd₂ u' h₁ h₂
    exact h.one_conn fd₁ fd₂ u' (hwho h₁).2 (hwho h₂).2
  · intro e he hactive
    have hlisted := h.listed e (hentries.mem he hactive) hactive
    have hne : e.userId ≠ u := by
      rintro rfl
      obtain ⟨i, hi⟩ := List.mem_iff_getElem?.mp he
      exact hentries.not_inUse h.one_entry ⟨i, e, hi, hactive, rfl⟩
    simp only [Presence.signOff, Function.update_apply]
    grind

/-- And a restart. -/
theorem Kept.restart (h : p.Kept) : p.restart.Kept where
  one_slot := h.one_slot
  one_entry _ _ _ hi _ := absurd (emptyRegistry_vacant _) hi.not_vacant
  slot _ _ hu := by simp [Presence.restart] at hu
  one_conn _ _ _ hu := by simp [Presence.restart] at hu
  listed e he hactive := by simp [(List.mem_replicate.mp he).2] at hactive

/-- **Step lemma** for the invariant. -/
theorem Kept.step (h : p.Kept) (hstep : Step p p') : p'.Kept := by
  cases hstep with
  | stay => exact h
  | signIn hfd hx hnone hslot => exact h.signIn hfd hx hnone hslot
  | signOff hfd => exact h.signOff hfd

/-- **Step lemma**: everybody with a slot stays signed in. -/
theorem Current.step (hc : p.Current) (h : p.Kept) (hstep : Step p p') : p'.Current := by
  cases hstep with
  | stay => exact hc
  | @signIn fd slot x hfd hx hnone hslot =>
      obtain ⟨hvacant, hle, -⟩ := freeSlot_spec hslot
      intro u hu
      rcases (inUse_claim hle hvacant hx).mp hu with rfl | hold
      · exact ⟨fd, by simp [Presence.signIn]⟩
      · obtain ⟨fd', hfd'⟩ := hc u hold
        have hne : fd' ≠ fd := by
          rintro rfl
          simp [hfd] at hfd'
        exact ⟨fd', by simpa [Presence.signIn, hne] using hfd'⟩
  | @signOff fd u hfd =>
      intro u' hu
      have hslots := released_clearSlot u p.sessions
      obtain ⟨i, hi⟩ := hu
      obtain ⟨fd', hfd'⟩ := hc u' ⟨i, hslots.occupied hi⟩
      have hne : fd' ≠ fd := by
        rintro rfl
        rw [hfd] at hfd'
        obtain rfl := Option.some.inj hfd'
        exact hslots.not_inUse h.one_slot ⟨i, hi⟩
      exact ⟨fd', by simpa [Presence.signOff, hne] using hfd'⟩

/-- When nobody is signed in, nobody has a slot. -/
theorem Current.restart (hc : p.Current) (hnone : ∀ fd, p.who fd = none) : p.restart.Current := by
  intro u hu
  obtain ⟨fd, hfd⟩ := hc u hu
  simp [hnone] at hfd

end Presence

/-! ## requests -/

/-- A login comes on a connection that is not authenticated. -/
def FreshLogin (s : Server) : Input → Prop
  | .message fd (.login _) => s.view.presence.who fd = none
  | _ => True

instance (s : Server) (i : Input) : Decidable (FreshLogin s i) := by
  unfold FreshLogin
  split <;> infer_instance

section Requests

variable {sha256Hex : List UInt8 → List UInt8} {s : Server} {v v' : View} {i : Input}
  {ms : List Mark} {fd : Int} {c : Conn}

/-- A connection is seen by who is there. -/
theorem presence_setConn (v : View) (fd : Int) (c : Option Conn) :
    (v.setConn fd c).presence =
      { v.presence with who := Function.update v.presence.who fd (c.bind Conn.user) } := by
  rw [View.presence, View.presence, Presence.mk.injEq]
  refine ⟨funext fun fd' => ?_, rfl, rfl⟩
  simp only [View.setConn, Function.update_apply]
  split <;> rfl

/-- Other locals of the same user are no news. -/
theorem step_setConn {p : Presence} {c : Option Conn} (hv : v.presence = p)
    (hc : c.bind Conn.user = p.who fd) : Presence.Step p (v.setConn fd c).presence := by
  rw [presence_setConn, hv, hc, Function.update_eq_self]
  exact .stay

/-- Who is logged in is present. -/
theorem View.LoggedIn.who (h : v.LoggedIn fd c) :
    v.presence.who fd = some c.currentUser.userId := View.who_eq_some.mpr ⟨c, h, rfl⟩

/-- What a request does to who is signed in. -/
theorem Change.presence_step (h : Change sha256Hex s.view i ms v') (hk : s.view.presence.Kept)
    (hfresh : FreshLogin s i) :
    i = .restart ∧ v'.presence = s.view.presence.restart ∨
      Presence.Step s.view.presence v'.presence := by
  cases h with
  | restart => exact .inl ⟨rfl, rfl⟩
  | connect hfd hfree =>
      refine .inr (step_setConn rfl ?_)
      simp [View.presence, hfree, Conn.user, Conn.fresh]
  | hangUp hc hauth =>
      refine .inr (step_setConn rfl ?_)
      simp [View.presence, hc, Conn.user, hauth]
  | @signOff _ fd c n hc hn hi =>
      have hslots : (clearSlot c.currentUser.userId)^[n] s.view.sessions =
          clearSlot c.currentUser.userId s.view.sessions := clearSlot_iterate hk.one_slot hn
      have hentries : (fun r => unregisterFd r c.currentUser.userId)^[n] s.view.registry =
          unregisterFd s.view.registry c.currentUser.userId := unregisterFd_iterate hk.one_entry hn
      rw [presence_setConn, View.signOff, hslots, hentries]
      exact .inr (.signOff hc.who)
  | loginFails hc =>
      refine .inr (step_setConn rfl ?_)
      simpa [Conn.user] using hfresh.symm
  | @logsIn fd c req u slot hc hu hstatus hpass hnone hslot =>
      have hstep : Presence.Step s.view.presence
          (s.view.presence.signIn fd slot ⟨u.userId, fd, s.view.clock, true⟩) :=
        .signIn hfresh rfl (sessionSlot_eq_none.mp hnone) hslot
      rw [presence_setConn]
      exact .inr hstep
  | changePass hc => exact .inr (step_setConn rfl hc.who.symm)
  | deposit hc hpos hw hid =>
      refine .inr (step_setConn rfl (Eq.trans ?_ hc.who.symm))
      simp [Conn.user, hid]
  | _ => exact .inr .stay

end Requests

end OnlineAuction
