import OnlineAuction.Footprint
import OnlineAuction.Presence

/-!
# OnlineAuction.Sessions

When a refused second login and a pushed notification are right.

A login on a connection that is already authenticated leaves the slot and the
registry entry of the former user behind, and so does a restart while somebody is
signed in (the slot).  In the runs without these, who has a slot is signed in
(`loginsTruthful_of_serves`) and the registry lists the connections of the users
(`notificationsAddressed_of_serves`).
-/

namespace OnlineAuction

/-! ## refused logins -/

/-- Nobody logs in on a connection in use, and the process is only killed when
nobody is signed in. -/
def OrderlyLogins (s : Server) (i : Input) : Prop :=
  FreshLogin s i ∧ (i = .restart → ∀ fd, s.view.presence.who fd = none)

/-- A user who has an active slot, or is told to be logged in already, is
authenticated on an open connection. -/
structure LoginsTruthful (sha256Hex : List UInt8 → List UInt8) (s : Server) : Prop where
  slot : ∀ x ∈ s.store.sessions, x.isActive = true →
    ∃ fd c, s.view.LoggedIn fd c ∧ c.currentUser.userId = x.userId
  refusal : ∀ fd req, Answered fd .msgLoginResp .errAlreadyLogged
      (s.calls sha256Hex (.message fd (.login req))) →
    ∃ u, findByUsername s.store.users req.username.val = some u ∧
      ∃ fd' c, s.view.LoggedIn fd' c ∧ c.currentUser.userId = u.userId

section Logins

variable {sha256Hex : List UInt8 → List UInt8} {ok : Server → Input → Prop} {s s₀ : Server}
  {calls : List (Event ApiSig)}

/-- `ERR_ALREADY_LOGGED` is answered when the session file has a slot for the user. -/
theorem hasSlot_of_refused {fd : Int} {req : LoginPayload}
    (h : Answered fd .msgLoginResp .errAlreadyLogged
      (s.calls sha256Hex (.message fd (.login req)))) :
    ∃ u, findByUsername s.store.users req.username.val = some u ∧
      HasSlot s.store.sessions u.userId := by
  cases hc : s.conns fd with
  | none => simp [Server.calls, Input.prog, hc, Answered] at h
  | some c =>
      have hcalls : s.calls sha256Hex (.message fd (.login req)) =
          Prog.trace Api.exec (handleLogin sha256Hex fd req c.currentUser) s.store := by
        simp [Server.calls, Input.prog, Input.before, hc, turn, serve]
      rw [hcalls] at h
      cases hu : findByUsername s.store.users req.username.val with
      | none => simp [handleLogin, Store.exec, hu, Answered] at h
      | some u =>
          refine ⟨u, rfl, ?_⟩
          by_contra hnone
          have hslot : sessionSlot s.store.sessions u.userId = none := sessionSlot_eq_none.mpr hnone
          by_cases hstatus : u.status = accountBanned ∨ u.status = accountInactive
          · simp [handleLogin, Store.exec, hu, hstatus, Answered] at h
          by_cases hpass : passwordMatches sha256Hex req.passwordString u = true
          · cases hfree : freeSlot s.store.sessions <;>
              simp [handleLogin, createSession, notifyRegister, Store.exec, hu, hstatus, hpass,
                hslot,
                hfree, Answered] at h
          · simp [handleLogin, Store.exec, hu, hstatus, hpass, Answered] at h

/-- Nobody is present in a new installation. -/
theorem presence_seeded (createdAt now : Int) :
    (Server.seeded sha256Hex createdAt now).view.presence =
  ⟨fun _ => none, [], emptyRegistry⟩ := rfl

/-- Which is in order. -/
theorem kept_seeded (createdAt now : Int) :
    (Server.seeded sha256Hex createdAt now).view.presence.Kept where
  one_slot _ _ _ hi _ := absurd hi.lt (by simp [presence_seeded])
  one_entry _ _ _ hi _ := absurd (Presence.emptyRegistry_vacant _) hi.not_vacant
  slot _ _ hu := by simp [presence_seeded] at hu
  one_conn _ _ _ hu := by simp [presence_seeded] at hu
  listed e he hactive := by simp [(List.mem_replicate.mp he).2] at hactive

/-- The invariant along runs without a login on a connection in use. -/
theorem Serves.kept (h : Serves sha256Hex ok s₀ calls s) (hok : ∀ s i, ok s i → FreshLogin s i)
    (hs : s₀.Sound) (hk : s₀.view.presence.Kept) : s.view.presence.Kept := by
  refine h.induct (P := fun _ v => v.presence.Kept) hs hk fun _ s i _ _ hk _ _ hi hchange => ?_
  rcases hchange.presence_step hk (hok s i hi) with ⟨-, heq⟩ | hstep
  · rw [heq]
    exact hk.restart
  · exact hk.step hstep

/-- **Refused logins**: along every run without a login on a connection in use and
without a restart while somebody is signed in, a user with an active slot is
authenticated on an open connection. -/
theorem loginsTruthful_of_serves (createdAt now : Int)
    (h : Serves sha256Hex OrderlyLogins (.seeded sha256Hex createdAt now) calls s) :
    LoginsTruthful sha256Hex s := by
  have hcurrent : s.view.presence.Kept ∧ s.view.presence.Current := by
    refine h.induct (P := fun _ v => v.presence.Kept ∧ v.presence.Current)
      (sound_seeded createdAt now) ⟨kept_seeded createdAt now, ?_⟩
      fun _ s i _ _ ⟨hk, hc⟩ _ _ hi hchange => ?_
    · rintro u ⟨i, hi⟩
      exact absurd hi.lt (by simp [presence_seeded])
    · rcases hchange.presence_step hk hi.1 with ⟨rfl, heq⟩ | hstep
      · rw [heq]
        exact ⟨hk.restart, hc.restart (hi.2 rfl)⟩
      · exact ⟨hk.step hstep, hc.step hk hstep⟩
  have honline {u : UInt32} (hu : HasSlot s.store.sessions u) :
      ∃ fd c, s.view.LoggedIn fd c ∧ c.currentUser.userId = u := by
    obtain ⟨fd, hfd⟩ := hcurrent.2 u hu
    exact ⟨fd, View.who_eq_some.mp hfd⟩
  constructor
  · intro x hx hactive
    obtain ⟨i, hi⟩ := List.mem_iff_getElem?.mp hx
    exact honline ⟨i, x, hi, hactive, rfl⟩
  · intro fd req hrefused
    obtain ⟨u, hu, hslot⟩ := hasSlot_of_refused hrefused
    exact ⟨u, hu, honline hslot⟩

end Logins

/-- The administrator logs in, is refused on a second connection, and logs in there
after the first one has ended. -/
theorem loginsTruthful_of_serves_twice :
    let s := played
      [.connect 5, logIn 5 adminName, .connect 6, logIn 6 adminName, .disconnect 5,
        logIn 6 adminName]
    s.view.presence.who 6 = some 1 ∧ LoginsTruthful adminSha256Hex s := by
  have hscript : Playable (fun s i => FreshLogin s i ∧ i.fd.isSome)
      [.connect 5, logIn 5 adminName, .connect 6, logIn 6 adminName, .disconnect 5,
        logIn 6 adminName] := by
    decide +kernel
  obtain ⟨calls, h⟩ := Serves.of_scripted hscript
  refine ⟨by decide +kernel, loginsTruthful_of_serves 0 1000 (h.weaken fun s i hi => ⟨hi.1, ?_⟩)⟩
  rintro rfl
  simp [Input.fd] at hi

/-- A second login on the same connection is refused, but the connection then counts
as not authenticated while the slot stays: no other login succeeds. -/
theorem not_loginsTruthful :
    ¬ ∀ calls s, Plays anyInput calls s → LoginsTruthful adminSha256Hex s := by
  intro h
  have hscript : Playable anyInput
      [.connect 5, logIn 5 adminName, logIn 5 adminName, .connect 6] := by
    decide +kernel
  obtain ⟨calls, hrun⟩ := Serves.of_scripted hscript
  obtain ⟨u, -, fd, c, hc, -⟩ := (h calls _ hrun).refusal 6
    ⟨.ofBytes _ adminName, .ofBytes _ adminPassword, []⟩ (by decide +kernel)
  have hnobody : ∀ fd ∈ [(5 : Int), 5, 5, 6], (played [.connect 5, logIn 5 adminName,
      logIn 5 adminName, .connect 6]).view.presence.who fd = none := by
    decide +kernel
  exact Option.some_ne_none _ (hc.who.symm.trans (hnobody fd (mem_fds_of_loggedIn rfl hc)))

/-! ## notifications -/

/-- The registry lists each user once, on an open connection that is authenticated as
the user, and so does every look-up. -/
structure NotificationsAddressed (sha256Hex : List UInt8 → List UInt8) (s : Server) : Prop where
  entry : ∀ e ∈ s.store.registry, e.active = true →
    ∃ c, s.view.LoggedIn e.clientFd c ∧ c.currentUser.userId = e.userId
  one_entry : ∀ (i j : Nat) (e e' : RegistryEntry), s.store.registry[i]? = some e →
    s.store.registry[j]? = some e' → e.active = true → e'.active = true → e.userId = e'.userId →
      i = j
  lookup : ∀ i u (fd : Int), (⟨.sys (.lookupFd u), fd⟩ : Event ApiSig) ∈ s.calls sha256Hex i →
    0 ≤ fd → ∃ c, s.view.LoggedIn fd c ∧ c.currentUser.userId = u
  push : ∀ u type payload fd m, (⟨.sys (.send fd m), ()⟩ : Event ApiSig) ∈
      Prog.trace Api.exec (pushNotification u type payload) s.store →
    ∃ c, s.view.LoggedIn fd c ∧ c.currentUser.userId = u

section Lookups

variable {sha256Hex : List UInt8 → List UInt8} {α : Type} {p : Prog ApiSig α} {s : Server}
  {i : Input} {u : UInt32}

/-- The program looks nobody up. -/
def LooksUpNobody (p : Prog ApiSig α) : Prop :=
  p.Respects (fun op => ∀ u, op ≠ ApiOp.sys (.lookupFd u)) (fun _ _ => True) fun _ => True

/-- What looks up nobody does not look up this user. -/
theorem LooksUpNobody.not_mem (h : LooksUpNobody p) (s : Store) (fd : Int) :
    (⟨.sys (.lookupFd u), fd⟩ : Event ApiSig) ∉ Prog.trace Api.exec p s := by
  induction p generalizing s with
  | pure a => simp
  | call op k ih =>
      intro hmem
      rcases List.mem_cons.mp hmem with heq | hmem
      · exact h.1 u (congrArg Sigma.fst heq).symm
      · exact ih _ (h.2 _ trivial) _ hmem

/-- While the registry is not written, a look-up finds what is in it. -/
theorem lookup_of_within {areas : List Area} (h : Within areas p) (hareas : .registry ∉ areas)
    {s : Store} {fd : Int}
    (hmem : (⟨.sys (.lookupFd u), fd⟩ : Event ApiSig) ∈ Prog.trace Api.exec p s) :
    fd = lookupFdIn s.registry u := by
  induction p generalizing s with
  | pure a => simp at hmem
  | call op k ih =>
      rcases List.mem_cons.mp hmem with heq | hmem
      · obtain ⟨rfl, heq⟩ := Sigma.mk.inj heq
        exact eq_of_heq heq
      · rw [ih _ (h.2 _ trivial) hmem, exec_registry]
        intro he
        have hin := h.1
        rw [ApiOp.In, he] at hin
        simp [hareas] at hin

theorem looksUpNobody_handleLogin (fd : Int) (req : LoginPayload) (w : User) :
    LooksUpNobody (handleLogin sha256Hex fd req w) := by
  simp [LooksUpNobody, handleLogin, createSession, notifyRegister, Option.forall]

theorem looksUpNobody_cleanUp (c : Conn) : LooksUpNobody (cleanUp c) := by
  simp [LooksUpNobody, cleanUp, clearSession, notifyUnregister, Option.forall]

theorem looksUpNobody_handleLogout (fd : Int) (w : User) : LooksUpNobody (handleLogout fd w) := by
  simp [LooksUpNobody, handleLogout, clearSession, notifyUnregister, Option.forall]

/-- The program does not write the registry, or does not read it. -/
def LooksOnly (p : Prog ApiSig α) : Prop :=
  LooksUpNobody p ∨ ∃ areas, .registry ∉ areas ∧ Within areas p

theorem looksOnly_turn (fd : Int) (c : Conn) (m : Request) :
    LooksOnly (turn sha256Hex fd c m) := by
  have hlogin (req : LoginPayload) : LooksOnly (turn sha256Hex fd c (.login req)) := by
    refine .inl ?_
    simp only [LooksUpNobody, turn, serve, Prog.respects_bind]
    exact (looksUpNobody_handleLogin fd req c.currentUser).mono fun _ _ => trivial
  cases hauth : c.authenticated with
  | false =>
      have hrefuse : LooksOnly (do
          sendMsg fd .msgError .errAuthFail .empty
          pure (some c) : Prog ApiSig (Option Conn)) :=
            .inr ⟨[], by simp, by simp [Within, ApiOp.In]⟩
      cases m with
      | login req => exact hlogin req
      | _ => simpa [turn, serve, hauth] using hrefuse
  | true =>
      have hdispatch : LooksOnly (do
          dispatch sha256Hex fd c.currentUser m
          pure (some c)) :=
        .inr ⟨dispatchAreas, by decide, (within_dispatch sha256Hex fd c.currentUser m).bind
          fun _ _ => trivial⟩
      cases m with
      | login req => exact hlogin req
      | logout =>
          refine .inl ?_
          simp only [LooksUpNobody, turn, serve, hauth, Bool.not_true, Bool.false_eq_true, if_false,
            Prog.pure_eq, Prog.bind_assoc, Prog.bind_pure, Prog.respects_bind]
          refine (looksUpNobody_handleLogout fd c.currentUser).mono fun _ _ => ?_
          exact (looksUpNobody_cleanUp c).mono fun _ _ => trivial
      | changePass req =>
          refine .inr ⟨[.users], by decide, ?_⟩
          simp only [Within, turn, serve, hauth, Bool.not_true, Bool.false_eq_true, if_false,
            Prog.respects_bind]
          exact (within_handleChangePassword sha256Hex fd c.currentUser req).mono fun _ _ => trivial
      | deposit req =>
          refine .inr ⟨[.wallets], by decide, ?_⟩
          simp only [Within, turn, serve, hauth, Bool.not_true, Bool.false_eq_true, if_false,
            Prog.respects_bind]
          exact (within_handleDeposit fd c.currentUser req).mono fun _ _ => trivial
      | _ => simpa [turn, serve, hauth, Prog.bind_assoc] using hdispatch

/-- Who is looked up is looked up in the registry as it was. -/
theorem LooksOnly.lookup (h : LooksOnly p) {s : Store} {fd : Int}
    (hmem : (⟨.sys (.lookupFd u), fd⟩ : Event ApiSig) ∈ Prog.trace Api.exec p s) :
    fd = lookupFdIn s.registry u := by
  rcases h with h | ⟨areas, hareas, h⟩
  · exact absurd hmem (h.not_mem s fd)
  · exact lookup_of_within h hareas hmem

/-- What a look-up during a step answers: the registry is not written in a step that
looks somebody up. -/
theorem lookup_eq {fd : Int}
    (h : (⟨.sys (.lookupFd u), fd⟩ : Event ApiSig) ∈ s.calls sha256Hex i) :
    fd = lookupFdIn s.store.registry u := by
  cases i with
  | message fd' m =>
      cases hc : s.conns fd' with
      | none => simp [Server.calls, Input.prog, hc] at h
      | some c =>
          simp only [Server.calls, Input.prog, Input.before, hc, Prog.trace_bind, Prog.pure_eq,
            Prog.trace_pure, List.append_nil] at h
          exact (looksOnly_turn fd' c m).lookup h
  | disconnect fd' =>
      cases hc : s.conns fd' with
      | none => simp [Server.calls, Input.prog, hc] at h
      | some c =>
          simp only [Server.calls, Input.prog, Input.before, hc, Prog.trace_bind, Prog.pure_eq,
            Prog.trace_pure, List.append_nil] at h
          exact absurd h ((looksUpNobody_cleanUp c).not_mem _ fd)
  | timerClose id =>
      simp only [Server.calls, Input.prog, Input.before, Prog.trace_bind, Prog.pure_eq,
        Prog.trace_pure, List.append_nil] at h
      exact lookup_of_within (within_timerClose id) (by decide) h
  | _ => simp [Server.calls, Input.prog] at h

/-- A look-up answers the descriptor of an active entry of the user. -/
theorem exists_of_lookupFdIn {registry : List RegistryEntry} (h : 0 ≤ lookupFdIn registry u) :
    ∃ e ∈ registry, e.active = true ∧ e.userId = u ∧ e.clientFd = lookupFdIn registry u := by
  unfold lookupFdIn at h ⊢
  split
  · next e he =>
      have hp := List.find?_some he
      simp only [Bool.and_eq_true, beq_iff_eq] at hp
      exact ⟨e, List.mem_of_find?_eq_some he, hp.1, hp.2, rfl⟩
  · next hnone => simp [hnone] at h

/-- A notification is written to what the look-up answers, if that is a descriptor. -/
theorem send_mem_pushNotification {type : MessageType} {payload : Payload} {s : Store} {fd : Int}
    {m : Message} : (⟨.sys (.send fd m), ()⟩ : Event ApiSig) ∈
      Prog.trace Api.exec (pushNotification u type payload) s ↔
        0 ≤ fd ∧ fd = lookupFdIn s.registry u ∧ m = ⟨type, .errOk, payload⟩ := by
  by_cases hneg : lookupFdIn s.registry u < 0
  · simp [pushNotification, Store.exec, hneg]
    omega
  · simp [pushNotification, Store.exec, hneg]
    grind

end Lookups

/-- **Notifications**: along every run without a login on a connection in use, the
registry lists users on connections that are authenticated as them, and notifications
are written there. -/
theorem notificationsAddressed_of_serves {sha256Hex : List UInt8 → List UInt8} {s : Server}
    {calls : List (Event ApiSig)} (createdAt now : Int)
    (h : Serves sha256Hex FreshLogin (.seeded sha256Hex createdAt now) calls s) :
    NotificationsAddressed sha256Hex s := by
  have hk := h.kept (fun _ _ hi => hi) (sound_seeded createdAt now) (kept_seeded createdAt now)
  have hlookup {u : UInt32} {fd : Int} (hfd : fd = lookupFdIn s.store.registry u) (hpos : 0 ≤ fd) :
      ∃ c, s.view.LoggedIn fd c ∧ c.currentUser.userId = u := by
    subst hfd
    obtain ⟨e, he, hactive, rfl, hclient⟩ := exists_of_lookupFdIn hpos
    have hlisted := hk.listed e he hactive
    rw [hclient] at hlisted
    exact View.who_eq_some.mp hlisted
  constructor
  · intro e he hactive
    exact View.who_eq_some.mp (hk.listed e he hactive)
  · intro i j e e' he he' hactive hactive' heq
    exact hk.one_entry i j e.userId ⟨e, he, hactive, rfl⟩ ⟨e', he', hactive', heq.symm⟩
  · intro i u fd hmem hpos
    exact hlookup (lookup_eq hmem) hpos
  · intro u type payload fd m hmem
    obtain ⟨hpos, hfd, -⟩ := send_mem_pushNotification.mp hmem
    exact hlookup hfd hpos

/-- The administrator gets another descriptor after a disconnection, and the old one
goes to a bidder. -/
theorem notificationsAddressed_of_serves_reused :
    let s := played
      [.connect 5, logIn 5 adminName, addUser 5 [98] roleBidder, .disconnect 5, .connect 6,
        logIn 6 adminName, .connect 5, logIn 5 [98]]
    lookupFdIn s.store.registry 2 = 5 ∧ NotificationsAddressed adminSha256Hex s := by
  have hscript : Playable FreshLogin
      [.connect 5, logIn 5 adminName, addUser 5 [98] roleBidder, .disconnect 5, .connect 6,
        logIn 6 adminName, .connect 5, logIn 5 [98]] := by
    decide +kernel
  obtain ⟨calls, h⟩ := Serves.of_scripted hscript
  exact ⟨by decide +kernel, notificationsAddressed_of_serves 0 1000 h⟩

/-- A login as another user on a connection in use leaves the entry of the former user:
its notifications go to the new one. -/
theorem not_notificationsAddressed :
    ¬ ∀ calls s, Plays anyInput calls s → NotificationsAddressed adminSha256Hex s := by
  intro h
  have hscript : Playable anyInput
      [.connect 5, logIn 5 adminName, addUser 5 [98] roleBidder, logIn 5 [98]] := by
    decide +kernel
  obtain ⟨calls, hrun⟩ := Serves.of_scripted hscript
  obtain ⟨c, hc, hid⟩ := (h calls _ hrun).push 1 .msgNotifyAuctionClosed .empty 5
    ⟨.msgNotifyAuctionClosed, .errOk, .empty⟩
    (send_mem_pushNotification.mpr ⟨by decide, by decide +kernel, rfl⟩)
  have hwho : (played [.connect 5, logIn 5 adminName, addUser 5 [98] roleBidder,
      logIn 5 [98]]).view.presence.who 5 = some 2 := by
    decide +kernel
  rw [hc.who, hid] at hwho
  cases hwho

end OnlineAuction
