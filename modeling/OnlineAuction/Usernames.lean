import OnlineAuction.Handlers

/-!
# OnlineAuction.Usernames

Whether a name stands for one account.

`handle_add_user` compares all 32 bytes of the request's field with the names in use, and
stores a copy that is cut to 31.  A field without NUL is never found taken, since the names
of the file end with one, and its copy may be a name in use: names are unique exactly in the
runs where that does not happen (`uniqueNames_iff`).
-/

namespace OnlineAuction

/-- Two records in use that `find_user_by_username` does not tell apart. -/
def User.Namesake (u w : User) : Prop :=
  u.isDeleted = false ∧ w.isDeleted = false ∧
    strncmpEq maxUsername u.username.val w.username.val = true

instance (u w : User) : Decidable (u.Namesake w) := inferInstanceAs (Decidable (_ ∧ _ ∧ _))

/-- No two records of the file are in use under one name. -/
def UniqueNames (users : List User) : Prop := users.Pairwise fun u w => ¬ u.Namesake w

instance (users : List User) : Decidable (UniqueNames users) :=
  inferInstanceAs (Decidable (List.Pairwise ..))

/-- An administrator adds a user under a name without NUL that is in use once it is cut. -/
def CutToTaken (s : Server) (i : Input) : Prop :=
  ∃ fd c req w, i = .message fd (.addUser req) ∧ s.conns fd = some c ∧ c.authenticated = true ∧
    c.currentUser.role = roleAdmin ∧ 0 ∉ req.username.val ∧ w ∈ s.store.users ∧
    w.isDeleted = false ∧ cString w.username.val = req.username.val.take (maxUsername - 1)

/-! ## names of the file -/

/-- What says which name finds the record. -/
def User.account (u : User) : UInt32 × CharArray maxUsername × Bool :=
  (u.userId, u.username, u.isDeleted)

section Names

variable {sha256Hex : List UInt8 → List UInt8} {users users' : List User} {u w : User}
  {req : AddUserPayload} {userId : UInt32} {createdAt : Int}

theorem namesake_iff : u.Namesake w ↔
    u.isDeleted = false ∧ w.isDeleted = false ∧
      cString u.username.val = cString w.username.val := by
  rw [User.Namesake, strncmpEq_iff]

theorem uniqueNames_congr (hmap : users'.map User.account = users.map User.account) :
    UniqueNames users' ↔ UniqueNames users := by
  have hpairs (l : List User) : UniqueNames l ↔ (l.map User.account).Pairwise fun x y =>
      ¬ (x.2.2 = false ∧ y.2.2 = false ∧ strncmpEq maxUsername x.2.1.val y.2.1.val = true) := by
    rw [List.pairwise_map]
    rfl
  rw [hpairs, hpairs, hmap]

theorem uniqueNames_concat :
    UniqueNames (users ++ [u]) ↔ UniqueNames users ∧ ∀ w ∈ users, ¬ w.Namesake u := by
  simp [UniqueNames, List.pairwise_append]

/-- Whom a name finds does not depend on the rest of the records. -/
theorem userId_findByUsername (hmap : users'.map User.account = users.map User.account)
    (name : List UInt8) :
    (findByUsername users' name).map User.userId = (findByUsername users name).map User.userId := by
  have hfind (l : List User) : (findByUsername l name).map User.userId =
      ((l.map User.account).find? fun x => !x.2.2 && strncmpEq maxUsername x.2.1.val name).map
        Prod.fst := by
    rw [List.find?_map, Option.map_map]
    rfl
  rw [hfind, hfind, hmap]

/-- The stored name is the one of the field, if that ends in the field. -/
theorem newUser_name (h : 0 ∈ req.username.val) :
    cString (newUser sha256Hex req userId createdAt).username.val = cString req.username.val :=
  (cString_strncpy_zero _ (by decide)).trans (cString_take_of_mem req.username.length_val h)

/-- A field without NUL loses its last byte. -/
theorem newUser_name_cut (h : 0 ∉ req.username.val) :
    cString (newUser sha256Hex req userId createdAt).username.val =
      req.username.val.take (maxUsername - 1) :=
  (cString_strncpy_zero _ (by decide)).trans
    (cString_of_not_mem fun hmem => h (List.mem_of_mem_take hmem))

theorem scanned_users {s : Store} (hfile : s.users ≠ [] → s.present .users = true) :
    (s.scan .users s.users).getD [] = s.users := by
  unfold Store.scan
  split
  · rfl
  · next hnot =>
      by_contra hne
      exact hnot (hfile fun h => hne (by rw [h]; rfl))

theorem newUser_terminated : 0 ∈ (newUser sha256Hex req userId createdAt).username.val := by
  by_contra hnot
  have hcopied : cString (newUser sha256Hex req userId createdAt).username.val =
      cString (req.username.val.take (maxUsername - 1)) := cString_strncpy_zero _ (by decide)
  rw [cString_of_not_mem hnot] at hcopied
  have hlength : maxUsername ≤ maxUsername - 1 :=
    calc maxUsername
      _ = (cString (req.username.val.take (maxUsername - 1))).length := by
          rw [← hcopied, CharArray.length_val]
      _ ≤ (req.username.val.take (maxUsername - 1)).length := (cString_prefix_self _).length_le
      _ ≤ maxUsername - 1 := List.length_take_le ..
  exact absurd hlength (by decide)

/-- The check of the handler. -/
theorem not_taken_iff : (users.any fun w => !w.isDeleted &&
      strncmpEq maxUsername w.username.val req.username.val) = false ↔
    ∀ w ∈ users, w.isDeleted = true ∨ cString w.username.val ≠ cString req.username.val := by
  rw [List.any_eq_false]
  refine forall₂_congr fun w _ => ?_
  rw [Bool.and_eq_true, strncmpEq_iff]
  cases w.isDeleted <;> simp

/-- The users after a request that is let through. -/
theorem users_handleAddUser {s : Store} (fd : Int)
    (hfile : s.users ≠ [] → s.present .users = true) (hroom : s.users.length < 2 ^ 32 - 1)
    (hnew : ∀ w ∈ s.users, w.isDeleted = true ∨
      cString w.username.val ≠ cString req.username.val) :
    (Prog.run Api.exec (handleAddUser sha256Hex fd req) s).2.users =
      s.users ++ [newUser sha256Hex req (nextRecId s.users) s.clock] := by
  have hnext : writeRec .zero s.users (newUser sha256Hex req (nextRecId s.users) s.clock).userId
      (newUser sha256Hex req (nextRecId s.users) s.clock) =
      s.users ++ [newUser sha256Hex req (nextRecId s.users) s.clock] :=
    writeRec_nextRecId hroom
  rw [← hnext]
  simp only [handleAddUser, scanUsers, Prog.bind_call, Prog.bind_pure, Prog.run_call,
    Api.exec_sys, Store.exec, scanned_users hfile, not_taken_iff.mpr hnew, Bool.false_eq_true,
    if_false]
  simp [Store.exec]

/-- No name of the file is as long as a field without NUL. -/
theorem not_taken_of_not_mem (hterm : ∀ w ∈ users, 0 ∈ w.username.val)
    (h : 0 ∉ req.username.val) {w : User} (hw : w ∈ users) :
    cString w.username.val ≠ cString req.username.val := by
  intro heq
  have hlt := length_cString_lt (hterm w hw)
  rw [heq, cString_of_not_mem h, CharArray.length_val, CharArray.length_val] at hlt
  omega

/-- A name that the check lets through is new, unless it is cut to one in use. -/
theorem newUser_unique_iff
    (hnew : ∀ w ∈ users, w.isDeleted = true ∨ cString w.username.val ≠ cString req.username.val) :
    (∀ w ∈ users, ¬ w.Namesake (newUser sha256Hex req userId createdAt)) ↔
      (0 ∉ req.username.val → ∀ w ∈ users, w.isDeleted = false →
        cString w.username.val ≠ req.username.val.take (maxUsername - 1)) := by
  by_cases hmem : 0 ∈ req.username.val
  · refine iff_of_true (fun w hw hsame => ?_) fun h => absurd hmem h
    obtain ⟨hused, -, hname⟩ := namesake_iff.mp hsame
    rw [newUser_name hmem] at hname
    rcases hnew w hw with hdel | hne
    · rw [hused] at hdel
      cases hdel
    · exact hne hname
  · constructor
    · intro h _ w hw hused hname
      exact h w hw (namesake_iff.mpr ⟨hused, rfl, hname.trans (newUser_name_cut hmem).symm⟩)
    · intro h w hw hsame
      obtain ⟨hused, -, hname⟩ := namesake_iff.mp hsame
      exact h hmem w hw hused (hname.trans (newUser_name_cut hmem))

end Names

/-! ## steps -/

/-- Who is logged in is known by the name of the stored record, and the names of the file end
with a NUL. -/
structure NamesKept (v : View) : Prop where
  copied : ∀ fd c, v.LoggedIn fd c → c.currentUser.account ∈ v.users.map User.account
  terminated : ∀ w ∈ v.users, 0 ∈ w.username.val

section Steps

variable {sha256Hex : List UInt8 → List UInt8} {s : Server} {v' : View} {i : Input}
  {ms : List Mark} {fd : Int} {c : Conn}

/-- A step adds a user, or leaves every name as it is. -/
theorem accounts_change (hk : NamesKept s.view) (hs : Sound s.view)
    (h : Change sha256Hex s.view i ms v') :
    v'.users.map User.account = s.view.users.map User.account ∨
      ∃ fd c req, i = .message fd (.addUser req) ∧ s.view.LoggedIn fd c ∧
        c.currentUser.role = roleAdmin ∧
        (∀ w ∈ s.view.users, w.isDeleted = true ∨
          cString w.username.val ≠ cString req.username.val) ∧
        v'.users = s.view.users ++
          [newUser sha256Hex req (nextRecId s.view.users) s.view.clock] := by
  cases h with
  | @logsIn fd c req u slot hconn hu =>
      exact .inl (hs.users.map_overwrite (mem_of_findByUsername hu) (by rfl) (by rfl))
  | @changePass fd c req hlogged hpass =>
      obtain ⟨w, hw, heq⟩ := List.mem_map.mp (hk.copied fd c hlogged)
      exact .inl (hs.users.map_overwrite (x := req.record sha256Hex c.currentUser) hw
        (congrArg Prod.fst heq).symm heq.symm)
  | deposit | placeBid | close | refund =>
      exact .inl (map_usersAfter hs.users _ fun _ _ _ => rfl)
  | @toggleAccount fd c req w hlogged hrole hw | @changeRole fd c req w hlogged hrole hw =>
      exact .inl (hs.users.map_overwrite hw (by rfl) (by rfl))
  | @addUser fd c req hlogged hrole hnew =>
      refine .inr ⟨fd, c, req, rfl, hlogged, hrole, fun w hw => ?_, rfl⟩
      rcases hnew w hw with hdel | hne
      · exact .inl hdel
      · exact .inr fun heq => by simp [strncmpEq_iff.mpr heq] at hne
  | _ => exact .inl rfl

/-- **Step lemma**: the names are kept. -/
theorem NamesKept.step (hk : NamesKept s.view) (hs : Sound s.view)
    (h : Change sha256Hex s.view i ms v') : NamesKept v' := by
  have haccounts := accounts_change hk hs h
  have hstays {x} (hx : x ∈ s.view.users.map User.account) : x ∈ v'.users.map User.account := by
    rcases haccounts with hmap | ⟨_, _, _, -, -, -, -, hadd⟩
    · rwa [hmap]
    · rw [hadd, List.map_append]
      exact List.mem_append_left _ hx
  constructor
  · intro fd c hc
    rcases h.copy hc with hold | ⟨c₀, req, hold, heq⟩ | ⟨u, hu, heq⟩ | ⟨_, _, hmem, _⟩
    · exact hstays (hk.copied fd c hold)
    · rw [heq]
      exact hstays (hk.copied fd c₀ hold)
    · rw [heq]
      exact hstays (List.mem_map.mpr ⟨u, hu, rfl⟩)
    · exact List.mem_map_of_mem hmem
  · intro w hw
    rcases haccounts with hmap | ⟨_, _, _, -, -, -, -, hadd⟩
    · have hmem : w.account ∈ s.view.users.map User.account := hmap ▸ List.mem_map_of_mem hw
      obtain ⟨z, hz, heq⟩ := List.mem_map.mp hmem
      have hname : z.username = w.username := congrArg (·.2.1) heq
      exact hname ▸ hk.terminated z hz
    · rw [hadd, List.mem_append, List.mem_singleton] at hw
      rcases hw with hw | rfl
      · exact hk.terminated w hw
      · exact newUser_terminated

/-- The users after a request of an administrator to add one. -/
theorem users_addUser (hs : s.Sound) (hroom : s.store.HasRoom) (hc : s.conns fd = some c)
    (hauth : c.authenticated = true) (hrole : c.currentUser.role = roleAdmin)
    {req : AddUserPayload} (hnew : ∀ w ∈ s.store.users, w.isDeleted = true ∨
      cString w.username.val ≠ cString req.username.val) :
    (s.handle sha256Hex (.message fd (.addUser req))).store.users =
      s.store.users ++ [newUser sha256Hex req (nextRecId s.store.users) s.store.clock] := by
  have hrun : (Prog.run Api.exec (handleAddUser sha256Hex fd req) s.store).2.users = _ :=
    users_handleAddUser fd (fun _ => hs.present) hroom.users hnew
  rw [← hrun]
  simp [Server.handle, Input.prog, Input.before, turn, serve, hc, hauth, dispatch, whenAllowed,
    hrole]

/-- **Step**: names stay unique exactly if none is cut to one in use. -/
theorem uniqueNames_handle (hk : NamesKept s.view) (hs : s.Sound) (hroom : s.store.HasRoom)
    (hpossible : i.Possible s) : UniqueNames (s.handle sha256Hex i).store.users ↔
      UniqueNames s.store.users ∧ ¬ CutToTaken s i := by
  have hchange : Change sha256Hex s.view i _ _ := hs.change hroom hpossible
  have haccounts := accounts_change hk hs.view hchange
  constructor
  · intro h
    constructor
    · rcases haccounts with hmap | ⟨_, _, _, -, -, -, -, hadd⟩
      · exact (uniqueNames_congr hmap).mp h
      · have hboth : UniqueNames (s.handle sha256Hex i).view.users := h
        rw [hadd, uniqueNames_concat] at hboth
        exact hboth.1
    · rintro ⟨fd, c, req, w, rfl, hc, hauth, hrole, hnul, hw, hused, hname⟩
      have hnew : ∀ w ∈ s.store.users, w.isDeleted = true ∨
          cString w.username.val ≠ cString req.username.val :=
        fun w hw => .inr (not_taken_of_not_mem hk.terminated hnul hw)
      rw [users_addUser hs hroom hc hauth hrole hnew, uniqueNames_concat] at h
      exact (newUser_unique_iff hnew).mp h.2 hnul w hw hused hname
  · rintro ⟨hunique, hcut⟩
    rcases haccounts with hmap | ⟨fd, c, req, rfl, hlogged, hrole, hnew, hadd⟩
    · exact (uniqueNames_congr hmap).mpr hunique
    · show UniqueNames (s.handle sha256Hex _).view.users
      rw [hadd, uniqueNames_concat]
      refine ⟨hunique, (newUser_unique_iff hnew).mpr ?_⟩
      intro hnul w hw hused hname
      exact hcut ⟨fd, c, req, w, rfl, hlogged.1, hlogged.2, hrole, hnul, hw, hused, hname⟩

end Steps

/-! ## runs -/

theorem namesKept_seeded (sha256Hex : List UInt8 → List UInt8) (createdAt now : Int) :
    NamesKept (Server.seeded sha256Hex createdAt now).view where
  copied := fun _ _ hc => nomatch hc.1
  terminated := by
    intro w hw
    obtain rfl : w = seedAdmin sha256Hex createdAt := List.mem_singleton.mp hw
    show (0 : UInt8) ∈ (strncpy (.zero maxUsername) adminName (maxUsername - 1)).val
    decide

section Runs

variable {sha256Hex : List UInt8 → List UInt8} {ok : Server → Input → Prop} {s : Server}
  {calls : List (Event ApiSig)} {createdAt now : Int}

theorem Serves.namesKept (h : Serves sha256Hex ok (.seeded sha256Hex createdAt now) calls s) :
    NamesKept s.view :=
  h.induct (P := fun _ v => NamesKept v) (sound_seeded createdAt now)
    (namesKept_seeded sha256Hex createdAt now)
    fun _ _ _ _ _ hk hs _ _ hchange => hk.step hs.view hchange

/-- **Usernames**: the names of the file are unique exactly after the runs in which no name is cut
to one in use. -/
theorem uniqueNames_iff (createdAt now : Int)
    (h : Serves sha256Hex anyInput (.seeded sha256Hex createdAt now) calls s) :
    UniqueNames s.store.users ↔
      Serves sha256Hex (fun s i => ¬ CutToTaken s i) (.seeded sha256Hex createdAt now) calls s := by
  have hs₀ : (Server.seeded sha256Hex createdAt now).Sound := sound_seeded createdAt now
  constructor
  · intro hunique
    induction h with
    | refl => exact .refl
    | step h hroom hpossible _ ih =>
        obtain ⟨hbefore, hcut⟩ :=
          (uniqueNames_handle h.namesKept (h.sound hs₀) hroom hpossible).mp hunique
        exact .step (ih hbefore) hroom hpossible hcut
  · intro h
    clear * - h hs₀
    induction h with
    | refl => exact List.pairwise_singleton ..
    | step h hroom hpossible hcut ih =>
        exact (uniqueNames_handle h.namesKept (h.sound hs₀) hroom hpossible).mpr ⟨ih, hcut⟩

end Runs

/-- Two users are added. -/
theorem uniqueNames_iff_two :
    ∃ calls, Serves adminSha256Hex (fun s i => ¬ CutToTaken s i)
      (.seeded adminSha256Hex 0 1000) calls (played [.connect 5, logIn 5 adminName,
        addUser 5 [98] roleBidder, addUser 5 [99] roleBidder]) := by
  have hscript : Playable anyInput [.connect 5, logIn 5 adminName, addUser 5 [98] roleBidder,
      addUser 5 [99] roleBidder] := by
    decide +kernel
  exact ⟨_, (uniqueNames_iff 0 1000 (.of_script hscript)).mp (by decide +kernel)⟩

/-- A name of 32 letters is added twice. -/
theorem not_uniqueNames : ¬ ∀ calls s, Plays anyInput calls s → UniqueNames s.store.users := by
  intro h
  have hscript : Playable anyInput [.connect 5, logIn 5 adminName,
      addUser 5 (List.replicate 32 97) roleBidder,
      addUser 5 (List.replicate 32 97) roleBidder] := by
    decide +kernel
  have htwice : ¬ UniqueNames (played [.connect 5, logIn 5 adminName,
      addUser 5 (List.replicate 32 97) roleBidder,
      addUser 5 (List.replicate 32 97) roleBidder]).store.users := by
    decide +kernel
  exact htwice (h _ _ (.of_script hscript))

end OnlineAuction
