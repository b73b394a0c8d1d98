import OnlineAuction.Handlers

/-!
# OnlineAuction.Privileges

What the copy of the user that a connection keeps is good for.

Requests are allowed or refused by the copy that `handle_client` took when the user
logged in, while other connections change the stored record.  The copy is right as
long as nobody who is signed in loses a privilege (`privilegesCurrent_of_serves`);
written back, it may undo what others have done (`onlyPassword_iff`), and even take
away the last administrator (`hasAdmin_of_serves`).
-/

namespace OnlineAuction

/-! ## which requests a role permits -/

/-- The roles that the dispatch of `handle_client` lets through. -/
def Request.permitted (role : Role) : Request → Bool
  | .fileDispute _ | .placeBid _ => role == roleBidder
  | .createAuction _ | .closeAuction _ => role == roleAuctioneer || role == roleAdmin
  | .viewDisputes | .resolveDispute _ | .viewFeedback | .toggleAccount _ => roleModerator ≤ role
  | .addUser _ | .listUsers | .changeRole _ => role == roleAdmin
  | _ => true

section Served

variable {sha256Hex : List UInt8 → List UInt8} {s : Server} {fd : Int} {c : Conn} {m : Request}

/-- A request that the role does not permit is answered by an error. -/
theorem dispatch_of_not_permitted {u : User} (hm : m.permitted u.role = false) :
    dispatch sha256Hex fd u m = sendMsg fd .msgError .errPermission .empty := by
  cases m <;> simp only [Request.permitted, reduceCtorEq] at hm <;>
    simp only [dispatch, whenAllowed, hm, Bool.false_eq_true, if_false]

/-- What the role of the copy does not permit is refused. -/
theorem answered_of_not_permitted (hc : s.view.LoggedIn fd c)
    (hm : m.permitted c.currentUser.role = false) :
    Answered fd .msgError .errPermission (s.calls sha256Hex (.message fd m)) := by
  obtain ⟨hconn, hauth⟩ := hc
  have hserve : serve sha256Hex fd c m =
      (dispatch sha256Hex fd c.currentUser m >>= fun _ => pure (c, true)) := by
    cases m <;> first | cases hm | simp [serve, hauth]
  have hread : s.conns fd = some c := hconn
  refine ⟨.empty, ?_⟩
  simp [Server.calls, Input.prog, hread, turn, hserve, dispatch_of_not_permitted hm]

end Served

/-! ## the copy stays right -/

/-- What a request is allowed by. -/
def User.standing (u : User) : UInt32 × Role × AccountStatus := (u.userId, u.role, u.status)

/-- The copy of an active user has the stored role and status. -/
def Copied (users : List User) (u : User) : Prop :=
  u.status = accountActive ∧ u.standing ∈ users.map User.standing

section Copies

variable {users users' : List User} {u w w' : User}

/-- A copy stays one while standings do. -/
theorem Copied.congr (h : Copied users u)
    (hmap : users'.map User.standing = users.map User.standing) :
    Copied users' u := ⟨h.1, hmap ▸ h.2⟩

/-- Another copy with the same standing. -/
theorem Copied.of_standing (h : Copied users u) (heq : w.standing = u.standing) :
    Copied users w := by
  refine ⟨?_, heq ▸ h.2⟩
  have hstatus : w.status = u.status := congrArg (·.2.2) heq
  rw [hstatus, h.1]

/-- The stored record behind a copy. -/
theorem Copied.stored (h : Copied users u) (hnum : Numbered User.userId users) (hw : w ∈ users)
    (hid : w.userId = u.userId) : w.standing = u.standing := by
  obtain ⟨w', hw', heq⟩ := List.mem_map.mp h.2
  have hid' : w'.userId = u.userId := congrArg Prod.fst heq
  rw [← heq, hnum.eq_of_id hw hw' (hid.trans hid'.symm)]

/-- A record is rewritten that is not behind the copy, or keeps its standing. -/
theorem Copied.overwrite (h : Copied users u) (hnum : Numbered User.userId users) (hw : w ∈ users)
    (hid : w'.userId = w.userId) (hkeep : w.userId = u.userId → w'.standing = w.standing) :
    Copied (overwrite User.userId w' users) u := by
  obtain ⟨z, hz, heq⟩ := List.mem_map.mp h.2
  refine ⟨h.1, List.mem_map.mpr ?_⟩
  by_cases hzw : z.userId = w.userId
  · obtain rfl := hnum.eq_of_id hz hw hzw
    exact ⟨w', mem_overwrite_self hw hid, (hkeep (congrArg Prod.fst heq)).trans heq⟩
  · exact ⟨z, mem_overwrite_of_ne hz (hid ▸ hzw), heq⟩

end Copies

/-- The status is one of the enumeration. -/
def User.StatusKnown (u : User) : Prop :=
  u.status = accountActive ∨ u.status = accountInactive ∨ u.status = accountBanned

/-- Who is signed in has an active account, and the copy is right; every status is
one of the enumeration. -/
structure CopiesRight (v : View) : Prop where
  copied : ∀ fd c, v.LoggedIn fd c → Copied v.users c.currentUser
  known : ∀ w ∈ v.users, w.StatusKnown

/-- The user is authenticated on no connection. -/
def Absent (v : View) (userId : UInt32) : Prop :=
  ∀ fd c, v.LoggedIn fd c → c.currentUser.userId ≠ userId

/-- Nobody who is signed in loses a privilege: an accepted `toggle_account` sets
another status, which is one of the enumeration, only of a user who is absent, and an
accepted `change_role` another role. -/
def RevokesAbsent (s : Server) : Input → Prop
  | .message fd (.toggleAccount req) => ∀ c w, s.view.LoggedIn fd c →
      roleModerator ≤ c.currentUser.role → w ∈ s.store.users → w.userId = req.targetUserId →
      w.role < c.currentUser.role → req.newStatus = accountActive ∨
        (req.newStatus = accountInactive ∨ req.newStatus = accountBanned) ∧
          Absent s.view req.targetUserId
  | .message fd (.changeRole req) => ∀ c w, s.view.LoggedIn fd c →
      c.currentUser.role = roleAdmin → w ∈ s.store.users → w.userId = req.targetUserId →
      ¬ (w.role = roleAdmin ∧ req.newRole ≠ roleAdmin ∧ adminCount s.store.users ≤ 1) →
      w.role = req.newRole ∨ Absent s.view req.targetUserId
  | _ => True

section Steps

variable {sha256Hex : List UInt8 → List UInt8} {s : Server} {v v' : View} {i : Input}
  {ms : List Mark}

/-- The connections after other locals of one of them. -/
theorem View.LoggedIn.setConn {fd fd' : Int} {c c' : Conn}
    (h : (v.setConn fd (some c)).LoggedIn fd' c') :
    c' = c ∧ c.authenticated = true ∨ v.LoggedIn fd' c' := by
  rcases View.setConn_conns h.1 with ⟨rfl, rfl⟩ | hold
  · exact .inl ⟨rfl, h.2⟩
  · exact .inr ⟨hold, h.2⟩

/-- Who is logged in after another has gone was so before. -/
theorem View.LoggedIn.setConn_none {fd fd' : Int} {c' : Conn}
    (h : (v.setConn fd none).LoggedIn fd' c') : v.LoggedIn fd' c' :=
  ⟨(View.setConn_none_conns h.1).2, h.2⟩

/-- The copies after a step that leaves the standing of those who are signed in. -/
theorem CopiesRight.copied_change (hk : CopiesRight s.view) (hs : Sound s.view)
    (h : Change sha256Hex s.view i ms v') (hok : RevokesAbsent s i) {fd : Int} {c : Conn}
    (hc : v'.LoggedIn fd c) : Copied v'.users c.currentUser := by
  have hwallets (cs : List WalletCall) : (usersAfter cs s.view.users).map User.standing =
      s.view.users.map User.standing := map_usersAfter hs.users cs fun _ _ _ => rfl
  cases h with
  | restart => simp [View.LoggedIn] at hc
  | connect =>
      rcases hc.setConn with ⟨rfl, hauth⟩ | hc
      · cases hauth
      · exact hk.copied fd c hc
  | hangUp | signOff => exact hk.copied fd c hc.setConn_none
  | loginFails =>
      rcases hc.setConn with ⟨rfl, hauth⟩ | hc
      · cases hauth
      · exact hk.copied fd c hc
  | @logsIn fd' c' req u slot hconn hu hstatus hpass hnone hslot =>
      have hmem := mem_of_findByUsername hu
      have hmap : (overwrite User.userId { u with lastLogin := s.view.clock } s.view.users).map
          User.standing = s.view.users.map User.standing :=
        hs.users.map_overwrite hmem (by rfl) (by rfl)
      rcases hc.setConn with ⟨rfl, -⟩ | hc
      · have hactive : u.status = accountActive := by
          rcases hk.known u hmem with h | h | h
          · exact h
          · exact absurd h hstatus.2
          · exact absurd h hstatus.1
        exact Copied.congr ⟨hactive, List.mem_map.mpr ⟨u, hmem, rfl⟩⟩ hmap
      · exact (hk.copied fd c hc).congr hmap
  | @changePass fd' c' req hlogged hpass =>
      have hcopy := hk.copied fd' c' hlogged
      obtain ⟨w, hw, heq⟩ := List.mem_map.mp hcopy.2
      have hid : w.userId = c'.currentUser.userId := congrArg Prod.fst heq
      have hkept {u : User} (h : Copied s.view.users u) : Copied (overwrite User.userId
          (req.record sha256Hex c'.currentUser) s.view.users) u :=
        h.overwrite hs.users hw hid.symm fun _ => heq.symm
      rcases hc.setConn with ⟨rfl, -⟩ | hc
      · exact (hkept hcopy).of_standing rfl
      · exact hkept (hk.copied fd c hc)
  | @deposit fd' c' req w hlogged hpos hw hid =>
      have hcopy := (hk.copied fd' c' hlogged).congr
        (hwallets [.creditWallet c'.currentUser.userId req.amount])
      rcases hc.setConn with ⟨rfl, -⟩ | hc
      · exact hcopy.of_standing
          (hcopy.stored (hs.users.congr (map_userId_usersAfter hs.users _)) hw hid)
      · exact (hk.copied fd c hc).congr (hwallets _)
  | placeBid | close | refund => exact (hk.copied fd c hc).congr (hwallets _)
  | @toggleAccount fd' c' req w hlogged hrole hw hid hbelow =>
      refine (hk.copied fd c hc).overwrite hs.users hw rfl fun hsame => ?_
      rcases hok c' w hlogged hrole hw hid hbelow with hactive | ⟨-, habsent⟩
      · have hcopy := hk.copied fd c hc
        have hstored : w.status = c.currentUser.status :=
          congrArg (·.2.2) (hcopy.stored hs.users hw hsame)
        simp only [User.standing, hactive, hstored, hcopy.1]
      · exact absurd (hsame.symm.trans hid) (habsent fd c hc)
  | addUser =>
      refine ⟨(hk.copied fd c hc).1, ?_⟩
      rw [List.map_append]
      exact List.mem_append_left _ (hk.copied fd c hc).2
  | @changeRole fd' c' req w hlogged hrole hw hid hlast =>
      refine (hk.copied fd c hc).overwrite hs.users hw rfl fun hsame => ?_
      rcases hok c' w hlogged hrole hw hid hlast with heq | habsent
      · simp only [User.standing, heq]
      · exact absurd (hsame.symm.trans hid) (habsent fd c hc)
  | _ => exact hk.copied fd c hc

theorem statusKnown_of_map {users users' : List User} (h : ∀ w ∈ users, w.StatusKnown)
    (hmap : users'.map User.standing = users.map User.standing) : ∀ w ∈ users', w.StatusKnown := by
  intro w hw
  have hmem : w.standing ∈ users.map User.standing := hmap ▸ List.mem_map_of_mem hw
  obtain ⟨z, hz, heq⟩ := List.mem_map.mp hmem
  have hstatus : z.status = w.status := congrArg (·.2.2) heq
  have hknown := h z hz
  rwa [User.StatusKnown, hstatus] at hknown

/-- Statuses stay known ones. -/
theorem CopiesRight.known_change (hk : CopiesRight s.view) (hs : Sound s.view)
    (h : Change sha256Hex s.view i ms v') (hok : RevokesAbsent s i) :
    ∀ w ∈ v'.users, w.StatusKnown := by
  have hover {w' : User} (hw' : w'.StatusKnown) :
      ∀ w ∈ overwrite User.userId w' s.view.users, w.StatusKnown := by
    intro w hw
    rcases mem_overwrite hw with rfl | ⟨hw, -⟩
    · exact hw'
    · exact hk.known w hw
  cases h with
  | logsIn hconn hu =>
      have hknown := hk.known _ (mem_of_findByUsername hu)
      refine hover ?_
      exact hknown
  | changePass hlogged => exact hover (.inl (hk.copied _ _ hlogged).1)
  | deposit | placeBid | close | refund =>
      exact statusKnown_of_map hk.known (map_usersAfter hs.users _ fun _ _ _ => rfl)
  | toggleAccount hlogged hrole hw hid hbelow =>
      rcases hok _ _ hlogged hrole hw hid hbelow with hactive | ⟨hset, -⟩
      · exact hover (.inl hactive)
      · exact hover (.inr hset)
  | addUser =>
      intro w hw
      rcases List.mem_append.mp hw with hw | hw
      · exact hk.known w hw
      · rw [List.mem_singleton.mp hw]
        exact .inl rfl
  | changeRole hlogged hrole hw =>
      have hknown := hk.known _ hw
      refine hover ?_
      exact hknown
  | _ => exact hk.known

/-- **Step lemma** for the copies. -/
theorem CopiesRight.step (hk : CopiesRight s.view) (hs : Sound s.view)
    (h : Change sha256Hex s.view i ms v') (hok : RevokesAbsent s i) : CopiesRight v' where
  copied _ _ hc := hk.copied_change hs h hok hc
  known := hk.known_change hs h hok

/-- In a new installation nobody has a copy. -/
theorem copiesRight_seeded (createdAt now : Int) :
    CopiesRight (Server.seeded sha256Hex createdAt now).view where
  copied _ _ hc := nomatch hc.1
  known w hw := by
    rw [List.mem_singleton.mp hw]
    exact .inl rfl

/-- A request that is not refused for lack of permission is made by a user whose stored
status is `ACCOUNT_ACTIVE` and whose stored role permits it. -/
structure PrivilegesCurrent (sha256Hex : List UInt8 → List UInt8) (s : Server) : Prop where
  served : ∀ fd c m, s.view.LoggedIn fd c →
    ¬ Answered fd .msgError .errPermission (s.calls sha256Hex (.message fd m)) →
    ∃ w ∈ s.store.users, w.userId = c.currentUser.userId ∧ w.status = accountActive ∧
      m.permitted w.role = true

/-- **Revoked privileges**: along every run in which nobody who is signed in loses a
privilege, requests are served by what is stored. -/
theorem privilegesCurrent_of_serves {calls : List (Event ApiSig)} (createdAt now : Int)
    (h : Serves sha256Hex RevokesAbsent (.seeded sha256Hex createdAt now) calls s) :
    PrivilegesCurrent sha256Hex s := by
  have hk : CopiesRight s.view := h.induct (P := fun _ v => CopiesRight v)
    (sound_seeded createdAt now) (copiesRight_seeded createdAt now)
    fun _ _ _ _ _ hk hs _ hok hchange => hk.step hs.view hchange hok
  constructor
  intro fd c m hc hserved
  have hcopy := hk.copied fd c hc
  obtain ⟨w, hw, heq⟩ := List.mem_map.mp hcopy.2
  obtain ⟨hid, hrole, hstatus⟩ : w.userId = c.currentUser.userId ∧
      w.role = c.currentUser.role ∧ w.status = c.currentUser.status := by
    simpa [User.standing] using heq
  refine ⟨w, hw, hid, hstatus.trans hcopy.1, ?_⟩
  by_contra hrefused
  rw [hrole, Bool.not_eq_true] at hrefused
  exact hserved (answered_of_not_permitted hc hrefused)

end Steps

/-- The input takes privileges away, or gives others. -/
def Input.revokes : Input → Bool
  | .message _ (.toggleAccount _) | .message _ (.changeRole _) => true
  | _ => false

theorem revokesAbsent_of_not {s : Server} {i : Input} (hi : i.revokes = false) :
    RevokesAbsent s i := by
  unfold RevokesAbsent
  split <;> simp_all [Input.revokes]

/-- A bidder is banned after the connection has ended. -/
theorem privilegesCurrent_of_serves_banned :
    let s := played
      [.connect 5, logIn 5 adminName, addUser 5 [98] roleBidder, .connect 6, logIn 6 [98],
        .disconnect 6, .message 5 (.toggleAccount ⟨2, accountBanned⟩)]
    (readRec s.store.users 2).map User.status = some accountBanned ∧
      PrivilegesCurrent adminSha256Hex s := by
  let is : List Input := [.connect 5, logIn 5 adminName, addUser 5 [98] roleBidder, .connect 6,
    logIn 6 [98], .disconnect 6]
  have hscript : Playable (fun _ i => i.revokes = false) is := by decide +kernel
  obtain ⟨calls, h⟩ := Serves.of_scripted hscript
  have habsent : ∀ fd ∈ [(5 : Int), 5, 5, 6, 6, 6], ∀ c ∈ (played is).conns fd,
      c.currentUser.userId ≠ 2 := by
    decide +kernel
  refine ⟨by decide +kernel, privilegesCurrent_of_serves 0 1000
    ((h.weaken fun _ _ => revokesAbsent_of_not).step (by decide +kernel) trivial ?_)⟩
  intro c w _ _ _ _ _
  exact .inr ⟨.inr rfl, fun fd c hc => habsent fd (mem_fds_of_loggedIn rfl hc) c hc.1⟩

/-- A bidder who is banned goes on with the copy of the record. -/
theorem not_privilegesCurrent :
    ¬ ∀ calls s, Plays anyInput calls s → PrivilegesCurrent adminSha256Hex s := by
  intro h
  let is : List Input := [.connect 5, logIn 5 adminName, addUser 5 [98] roleBidder, .connect 6,
    logIn 6 [98], .message 5 (.toggleAccount ⟨2, accountBanned⟩)]
  have hscript : Playable anyInput is := by decide +kernel
  obtain ⟨calls, hrun⟩ := Serves.of_scripted hscript
  have hconn : ∃ c ∈ (played is).conns 6, c.authenticated = true ∧ c.currentUser.userId = 2 := by
    decide +kernel
  obtain ⟨c, hc, hauth, hid⟩ := hconn
  obtain ⟨w, hw, hwid, hstatus, -⟩ := (h calls _ hrun).served 6 c (.deposit ⟨5⟩) ⟨hc, hauth⟩
    (by decide +kernel)
  have hbanned : ∀ w ∈ (played is).store.users, w.userId = 2 → w.status = accountBanned := by
    decide +kernel
  rw [hbanned w hw (hwid.trans hid)] at hstatus
  cases hstatus

/-! ## the last administrator -/

/-- An administrator in use. -/
def User.ActiveAdmin (u : User) : Prop :=
  u.isDeleted = false ∧ u.status = accountActive ∧ u.role = roleAdmin

instance (u : User) : Decidable u.ActiveAdmin := inferInstanceAs (Decidable (_ ∧ _ ∧ _))

/-- What a user counts for. -/
def User.weight (u : User) : Nat := if u.ActiveAdmin then 1 else 0

section Counting

variable {users users' : List User} {w w' : User}

/-- The administrators counted one by one. -/
theorem adminCount_eq_sum : adminCount users = (users.map User.weight).sum := by
  induction users with
  | nil => rfl
  | cons u users ih =>
      have hcons : adminCount (u :: users) = adminCount users + u.weight := by
        rw [adminCount, adminCount, List.countP_cons, User.weight]
        exact congrArg _ (if_congr (by simp [User.ActiveAdmin, and_assoc]) rfl rfl)
      rw [hcons, ih, List.map_cons, List.sum_cons, Nat.add_comm]

/-- Their number depends on the weights. -/
theorem adminCount_congr (hmap : users'.map User.weight = users.map User.weight) :
    adminCount users' = adminCount users := by
  rw [adminCount_eq_sum, adminCount_eq_sum, hmap]

/-- Writing one user changes the count by that user. -/
theorem adminCount_overwrite (w' : User) (hnum : Numbered User.userId users) (hw : w ∈ users)
    (hid : w'.userId = w.userId) :
    adminCount (overwrite User.userId w' users) + w.weight = adminCount users + w'.weight := by
  rw [adminCount_eq_sum, adminCount_eq_sum]
  exact sum_map_overwrite User.weight hnum.nodup hw hid

/-- If some are counted there is one. -/
theorem exists_activeAdmin (h : 0 < adminCount users) : ∃ w ∈ users, w.ActiveAdmin := by
  rw [adminCount, List.countP_pos_iff] at h
  obtain ⟨w, hw, hadmin⟩ := h
  exact ⟨w, hw, by simpa [User.ActiveAdmin, and_assoc] using hadmin⟩

end Counting

/-- An administrator in use is overwritten by something else only while there is
another one: the record that `toggle_account` writes has the new status, and the one of
`change_password` is the session's copy. -/
def KeepsAdmin (sha256Hex : List UInt8 → List UInt8) (s : Server) : Input → Prop
  | .message fd (.toggleAccount req) => ∀ c ∈ s.conns fd, c.authenticated = true →
      roleModerator ≤ c.currentUser.role → ∀ w ∈ s.store.users, w.userId = req.targetUserId →
      w.role < c.currentUser.role → w.ActiveAdmin → req.newStatus = accountActive ∨
        1 < adminCount s.store.users
  | .message fd (.changePass req) => ∀ c ∈ s.conns fd, c.authenticated = true →
      passwordMatches sha256Hex req.oldString c.currentUser = true →
      ∀ w ∈ s.store.users, w.userId = c.currentUser.userId → w.ActiveAdmin →
        c.currentUser.ActiveAdmin ∨ 1 < adminCount s.store.users
  | _ => True

instance (sha256Hex : List UInt8 → List UInt8) (s : Server) (i : Input) :
    Decidable (KeepsAdmin sha256Hex s i) := by
  unfold KeepsAdmin
  split <;> infer_instance

section Steps

variable {sha256Hex : List UInt8 → List UInt8} {s : Server} {v' : View} {i : Input}
  {ms : List Mark}

/-- **Step lemma**: an administrator is left. -/
theorem adminCount_pos_change (hs : Sound s.view) (h : Change sha256Hex s.view i ms v')
    (hok : KeepsAdmin sha256Hex s i) (hpos : 0 < adminCount s.view.users) :
    0 < adminCount v'.users := by
  have hwallets (cs : List WalletCall) : 0 < adminCount (usersAfter cs s.view.users) := by
    rw [adminCount_congr (map_usersAfter hs.users cs fun _ _ _ => rfl)]
    exact hpos
  cases h with
  | @logsIn fd c req u slot hconn hu =>
      have hmem := mem_of_findByUsername hu
      have hover := adminCount_overwrite { u with lastLogin := s.view.clock } hs.users hmem
        rfl
      have hweight : ({ u with lastLogin := s.view.clock } : User).weight = u.weight := rfl
      show 0 < adminCount (overwrite User.userId { u with lastLogin := s.view.clock } s.view.users)
      omega
  | @changePass fd c req hlogged hpass =>
      obtain ⟨w, hw, hid⟩ := List.mem_map.mp (hs.user_mem fd c hlogged)
      have hover := adminCount_overwrite (req.record sha256Hex c.currentUser) hs.users hw
        hid.symm
      have hweight : (req.record sha256Hex c.currentUser).weight = c.currentUser.weight := rfl
      have hkeep : w.ActiveAdmin → c.currentUser.ActiveAdmin ∨ 1 < adminCount s.view.users :=
        hok c hlogged.1 hlogged.2 hpass w hw hid
      show 0 < adminCount (overwrite User.userId (req.record sha256Hex c.currentUser) s.view.users)
      rw [hweight] at hover
      unfold User.weight at hover
      grind
  | deposit | placeBid | close | refund => exact hwallets _
  | @toggleAccount fd c req w hlogged hrole hw hid hbelow =>
      have hover := adminCount_overwrite { w with status := req.newStatus } hs.users hw rfl
      have hkeep : w.ActiveAdmin → req.newStatus = accountActive ∨ 1 < adminCount s.view.users :=
        hok c hlogged.1 hlogged.2 hrole w hw hid hbelow
      show 0 < adminCount (overwrite User.userId { w with status := req.newStatus } s.view.users)
      unfold User.weight User.ActiveAdmin at *
      grind
  | addUser =>
      show 0 < adminCount (_ ++ _)
      rw [adminCount, List.countP_append]
      exact Nat.add_pos_left hpos _
  | @changeRole fd c req w hlogged hrole hw hid hlast =>
      have hover := adminCount_overwrite { w with role := req.newRole } hs.users hw rfl
      show 0 < adminCount (overwrite User.userId { w with role := req.newRole } s.view.users)
      unfold User.weight User.ActiveAdmin at *
      grind
  | _ => exact hpos

/-- **The last administrator**: along every run in which an administrator is overwritten
by something else only while there is another one, an administrator in use is left. -/
theorem hasAdmin_of_serves {calls : List (Event ApiSig)} (createdAt now : Int)
    (h : Serves sha256Hex (KeepsAdmin sha256Hex) (.seeded sha256Hex createdAt now) calls s) :
    ∃ w ∈ s.store.users, w.isDeleted = false ∧ w.status = accountActive ∧ w.role = roleAdmin := by
  have hpos : 0 < adminCount s.view.users := h.induct (P := fun _ v => 0 < adminCount v.users)
    (sound_seeded createdAt now) Nat.one_pos
    fun _ _ _ _ _ hpos hs _ hok hchange => adminCount_pos_change hs.view hchange hok hpos
  exact exists_activeAdmin hpos

end Steps

/-- A user whose role is above `ROLE_ADMIN` bans the first of two administrators. -/
theorem hasAdmin_of_serves_banned :
    let s := played
      [.connect 5, logIn 5 adminName, addUser 5 [98] 7, addUser 5 [99] roleAdmin, .connect 6,
        logIn 6 [98], .message 6 (.toggleAccount ⟨1, accountBanned⟩), changePass 6]
    (readRec s.store.users 1).map User.status = some accountBanned ∧
      ∃ w ∈ s.store.users, w.isDeleted = false ∧ w.status = accountActive ∧
        w.role = roleAdmin := by
  have hscript : Playable (KeepsAdmin adminSha256Hex)
      [.connect 5, logIn 5 adminName, addUser 5 [98] 7, addUser 5 [99] roleAdmin, .connect 6,
        logIn 6 [98], .message 6 (.toggleAccount ⟨1, accountBanned⟩), changePass 6] := by
    decide +kernel
  obtain ⟨calls, h⟩ := Serves.of_scripted hscript
  exact ⟨by decide +kernel, hasAdmin_of_serves 0 1000 h⟩

/-- A bidder is made an administrator and takes the place of the first one; the change
of password then writes back the bidder that the connection still holds. -/
theorem not_hasAdmin :
    ¬ ∀ calls s, Plays anyInput calls s → ∃ w ∈ s.store.users,
      w.isDeleted = false ∧ w.status = accountActive ∧ w.role = roleAdmin := by
  intro h
  have hscript : Playable anyInput
      [.connect 5, logIn 5 adminName, addUser 5 [98] roleBidder, .connect 6, logIn 6 [98],
        .message 5 (.changeRole ⟨2, roleAdmin⟩), .message 5 (.changeRole ⟨1, roleBidder⟩),
        changePass 6] := by
    decide +kernel
  obtain ⟨calls, hrun⟩ := Serves.of_scripted hscript
  have hnone : ¬ ∃ w ∈ (played
      [.connect 5, logIn 5 adminName, addUser 5 [98] roleBidder, .connect 6, logIn 6 [98],
        .message 5 (.changeRole ⟨2, roleAdmin⟩), .message 5 (.changeRole ⟨1, roleBidder⟩),
        changePass 6]).store.users,
      w.isDeleted = false ∧ w.status = accountActive ∧ w.role = roleAdmin := by
    decide +kernel
  exact hnone (h calls _ hrun)

/-! ## changing a password -/

/-- All but the password. -/
def User.withoutPassword (u : User) : User := { u with password := .zero _ }

/-- Nothing but the password of this user differs. -/
structure OnlyPassword (userId : UInt32) (users users' : List User) : Prop where
  own : (readRec users' userId).map User.withoutPassword =
    (readRec users userId).map User.withoutPassword
  others : ∀ id, id ≠ userId → readRec users' id = readRec users id

/-- If only the password changes the role stays. -/
theorem OnlyPassword.role {userId : UInt32} {users users' : List User}
    (h : OnlyPassword userId users users') :
    (readRec users' userId).map User.role = (readRec users userId).map User.role := by
  have hroles := congrArg (Option.map User.role) h.own
  rwa [Option.map_map, Option.map_map] at hroles

section ChangePassword

variable {sha256Hex : List UInt8 → List UInt8} {s : Server} {fd : Int} {c : Conn}

/-- The users after a request to change the password. -/
theorem users_changePass (hs : Sound s.view) (hc : s.view.LoggedIn fd c) (req : ChangePassPayload) :
    (s.handle sha256Hex (.message fd (.changePass req))).store.users =
      if passwordMatches sha256Hex req.oldString c.currentUser then
        overwrite User.userId (req.record sha256Hex c.currentUser) s.store.users
      else s.store.users := by
  obtain ⟨hconn, hauth⟩ := hc
  have hread : s.conns fd = some c := hconn
  obtain ⟨w, hw, hid⟩ := List.mem_map.mp (hs.user_mem fd c ⟨hconn, hauth⟩)
  have hwrite : writeRec .zero s.store.users c.currentUser.userId
      (req.record sha256Hex c.currentUser) =
      overwrite User.userId (req.record sha256Hex c.currentUser) s.store.users :=
    hs.users.writeRec_eq_overwrite (x := req.record sha256Hex c.currentUser) hw hid.symm
  rw [← hwrite]
  cases hpass : passwordMatches sha256Hex req.oldString c.currentUser <;>
    simp [Server.handle, Input.prog, Input.before, turn, serve, hread, hauth, handleChangePassword,
      hpass, sendMsg, OnlineAuction.writeUser, logTxn, Store.exec, ChangePassPayload.record]

/-- **A change of password** leaves everything else alone exactly when it is refused or
the session's copy agrees with the stored record in all but the password. -/
theorem onlyPassword_iff {calls : List (Event ApiSig)} (createdAt now : Int)
    (h : Serves sha256Hex anyInput (.seeded sha256Hex createdAt now) calls s)
    (hc : s.view.LoggedIn fd c) (req : ChangePassPayload) :
    OnlyPassword c.currentUser.userId s.store.users
        (s.handle sha256Hex (.message fd (.changePass req))).store.users ↔
      (passwordMatches sha256Hex req.oldString c.currentUser = true →
        (readRec s.store.users c.currentUser.userId).map User.withoutPassword =
          some c.currentUser.withoutPassword) := by
  have hs := (h.sound (sound_seeded createdAt now)).view
  rw [users_changePass hs hc]
  split
  · next hpass =>
      obtain ⟨w, hw, hid⟩ := List.mem_map.mp (hs.user_mem fd c hc)
      have hread := hs.users.readRec_overwrite (x := req.record sha256Hex c.currentUser) hw hid.symm
      have hown : readRec (overwrite User.userId (req.record sha256Hex c.currentUser)
          s.store.users) c.currentUser.userId = some (req.record sha256Hex c.currentUser) :=
        (hread _).trans (if_pos rfl)
      constructor
      · intro honly _
        rw [← honly.own, hown]
        rfl
      · intro hagrees
        refine ⟨?_, fun id hne => (hread id).trans (if_neg hne)⟩
        rw [hagrees hpass, hown]
        rfl
  · next hpass => exact ⟨fun _ h => absurd h hpass, fun _ => ⟨rfl, fun _ _ => rfl⟩⟩

end ChangePassword

/-- A bidder of a market logs in again and takes another password. -/
theorem onlyPassword_iff_market :
    let s := played (marketScript ++ [.disconnect 6, .connect 9, logIn 9 (ascii "ann")])
    let s' := s.handle adminSha256Hex (newPass 9)
    OnlyPassword 2 s.store.users s'.store.users ∧
      (readRec s'.store.users 2).map User.password ≠
        (readRec s.store.users 2).map User.password := by
  intro s s'
  have hscript : Playable anyInput
      (marketScript ++ [.disconnect 6, .connect 9, logIn 9 (ascii "ann")]) := by
    decide +kernel
  obtain ⟨calls, h⟩ := Serves.of_scripted hscript
  have hconn : ∃ c ∈ s.conns 9, c.authenticated = true ∧ c.currentUser.userId = 2 ∧
      (readRec s.store.users 2).map User.withoutPassword = some c.currentUser.withoutPassword := by
    decide +kernel
  obtain ⟨c, hc, hauth, hid, hagrees⟩ := hconn
  have hlogged : s.view.LoggedIn 9 c := ⟨hc, hauth⟩
  refine ⟨?_, by decide +kernel⟩
  rw [← hid] at hagrees ⊢
  exact (onlyPassword_iff 0 1000 h hlogged _).mpr fun _ => hagrees

/-- A bidder who has become a moderator changes the password and is a bidder again. -/
theorem not_onlyPassword :
    ¬ ∀ calls s fd c req, Plays anyInput calls s → s.view.LoggedIn fd c →
      OnlyPassword c.currentUser.userId s.store.users
        (s.handle adminSha256Hex (.message fd (.changePass req))).store.users := by
  intro h
  let is : List Input := [.connect 5, logIn 5 adminName, addUser 5 [98] roleBidder, .connect 6,
    logIn 6 [98], .message 5 (.changeRole ⟨2, roleModerator⟩)]
  have hscript : Playable anyInput is := by decide +kernel
  have hrun : ∃ calls, Plays anyInput calls (played is) := Serves.of_scripted hscript
  have hback : ∃ c ∈ (played is).conns 6, c.authenticated = true ∧ c.currentUser.userId = 2 ∧
      (readRec ((played is).handle adminSha256Hex (changePass 6)).store.users 2).map User.role ≠
        (readRec (played is).store.users 2).map User.role := by
    decide +kernel
  generalize played is = s at hrun hback
  obtain ⟨calls, hrun⟩ := hrun
  obtain ⟨c, hc, hauth, hid, hback⟩ := hback
  refine hback ?_
  rw [← hid]
  exact (h calls s 6 c _ hrun ⟨hc, hauth⟩).role

end OnlineAuction
