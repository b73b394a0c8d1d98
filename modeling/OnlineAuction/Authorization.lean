import OnlineAuction.FeedbackDelivery
import OnlineAuction.Privileges

/-!
# OnlineAuction.Authorization

What one client can do, from the first message to the end of the connection.

`handle_client` keeps a flag and a record, which every login attempt and every deposit
overwrites, and looks at nothing else.  The flag follows the last login attempt, so that between
a failed login and the next that succeeds nothing changes; the record has the role that the last
answer to a login or to a deposit carried and the identifier of the last login
(`authorized`).
-/

namespace OnlineAuction

/-! ## what is kept of a conversation -/

/-- What a client must not change without a login. -/
def Store.files (s : Store) : List User × List Auction × List Bid × List Dispute ×
    List Feedback × List Session × List RegistryEntry :=
  (s.users, s.auctions, s.bids, s.disputes, s.feedback, s.sessions, s.registry)

/-- Messages of one connection and its end; time passes in between. -/
def Input.Own (fd : Int) : Input → Prop
  | .message fd' _ | .disconnect fd' => fd' = fd
  | .clock _ => True
  | _ => False

/-- The input is a login on this connection that is answered `ERR_OK`. -/
def LogsIn (sha256Hex : List UInt8 → List UInt8) (fd : Int) (s : Server) (i : Input) : Prop :=
  ∃ req, i = .message fd (.login req) ∧ Answered fd .msgLoginResp .errOk (s.calls sha256Hex i)

/-- The record in an answer of one of these types. -/
def recordIn (types : List MessageType) (fd : Int) : Event ApiSig → Option User
  | ⟨.sys (.send fd' ⟨type, .errOk, .user u⟩), _⟩ =>
      if fd' = fd ∧ type ∈ types then some u else none
  | _ => none

/-- The records that the connection was answered with. -/
def records (types : List MessageType) (fd : Int) (calls : List (Event ApiSig)) : List User :=
  calls.filterMap (recordIn types fd)

def lastRecord (types : List MessageType) (fd : Int) (calls : List (Event ApiSig)) : Option User :=
  (records types fd calls).getLast?

/-- The record of the last successful login. -/
abbrev lastLogin (fd : Int) (calls : List (Event ApiSig)) : Option User :=
  lastRecord [.msgLoginResp] fd calls

/-- The record that was loaded last, by a successful login or a successful deposit. -/
abbrev lastLoaded (fd : Int) (calls : List (Event ApiSig)) : Option User :=
  lastRecord [.msgLoginResp, .msgDepositResp] fd calls

/-- The requests for which the dispatch looks at the role. -/
def Request.guarded : Request → Bool
  | .fileDispute _ | .placeBid _ | .createAuction _ | .closeAuction _ | .viewDisputes
  | .resolveDispute _ | .viewFeedback | .toggleAccount _ | .addUser _ | .listUsers
  | .changeRole _ => true
  | _ => false

/-- Auctions, bids or disputes change, a user is added, or the role or the status of a user other
than `self` changes. -/
def GuardedChange (self : Option UInt32) (v v' : View) : Prop :=
  v'.auctions ≠ v.auctions ∨ v'.bids ≠ v.bids ∨ v'.disputes ≠ v.disputes ∨
    v'.users.length ≠ v.users.length ∨ ∃ id, some id ≠ self ∧
      (readRec v'.users id).map User.standing ≠ (readRec v.users id).map User.standing

/-- A step of a conversation in which `calls` have been made before. -/
structure StepAuthorized (fd : Int) (calls : List (Event ApiSig)) (s : Server) (i : Input)
    (s' : Server) : Prop where
  guarded : GuardedChange ((lastLogin fd calls).map User.userId) s.view s'.view →
    ∃ m w, i = .message fd m ∧ m.guarded = true ∧ lastLoaded fd calls = some w ∧
      m.permitted w.role = true
  deposit : ∀ req, i = .message fd (.deposit req) → ∀ id,
    some id ≠ (lastLogin fd calls).map User.userId →
      readRec s'.store.users id = readRec s.store.users id
  bids : ∀ b ∈ s'.store.bids.drop s.store.bids.length,
    (lastLogin fd calls).map User.userId = some b.bidderId
  disputes : ∀ d ∈ s'.store.disputes.drop s.store.disputes.length,
    (lastLogin fd calls).map User.userId = some d.raisedByUserId
  feedback : ∀ f ∈ s'.store.feedback.drop s.store.feedback.length,
    (lastLogin fd calls).map User.userId = some f.fromUserId

/-- A conversation on a connection that starts in `s₀`: without a successful login nothing
changes, nor after a login that fails and before one that succeeds, and each step is authorized
by the records that were loaded. -/
structure Authorized (sha256Hex : List UInt8 → List UInt8) (fd : Int) (s₀ : Server) : Prop where
  noLogin : ∀ calls s,
    Serves sha256Hex (fun s i => i.Own fd ∧ ¬ LogsIn sha256Hex fd s i) s₀ calls s →
      s.store.files = s₀.store.files
  failedLogin : ∀ calls s req calls' s',
    Serves sha256Hex (fun _ i => i.Own fd) s₀ calls s →
      ¬ LogsIn sha256Hex fd s (.message fd (.login req)) →
      Serves sha256Hex (fun s i => i.Own fd ∧ ¬ LogsIn sha256Hex fd s i)
        (s.handle sha256Hex (.message fd (.login req))) calls' s' →
      s'.store.files = s.store.files
  steps : ∀ calls s i, Serves sha256Hex (fun _ i => i.Own fd) s₀ calls s → s.store.HasRoom →
    i.Own fd → StepAuthorized fd calls s i (s.handle sha256Hex i)

/-! ## without a login -/

section Idle

variable {sha256Hex : List UInt8 → List UInt8} {s s' : Server} {fd : Int} {c : Conn} {i : Input}
  {types : List MessageType}

/-- The connection has no authenticated user. -/
def SignedOut (fd : Int) (s : Server) : Prop := ∀ c ∈ s.conns fd, c.authenticated = false

@[simp] theorem records_nil : records types fd [] = [] := rfl

@[simp] theorem records_cons (e : Event ApiSig) (calls : List (Event ApiSig)) :
    records types fd (e :: calls) = (recordIn types fd e).toList ++ records types fd calls := by
  cases h : recordIn types fd e <;> simp [records, h]

/-- The records sent in two parts of a run. -/
@[simp] theorem records_append (calls calls' : List (Event ApiSig)) :
    records types fd (calls ++ calls') = records types fd calls ++ records types fd calls' :=
  List.filterMap_append

variable (sha256Hex) in
/-- How a login ends: the client gets the record, or is told and nothing changes. -/
theorem login_cases (hc : s.conns fd = some c) (req : LoginPayload) :
    (∃ u, (s.handle sha256Hex (.message fd (.login req))).conns fd = some ⟨true, u⟩ ∧
        Answered fd .msgLoginResp .errOk (s.calls sha256Hex (.message fd (.login req))) ∧
        ∀ types, .msgLoginResp ∈ types →
          records types fd (s.calls sha256Hex (.message fd (.login req))) = [u]) ∨
      ((s.handle sha256Hex (.message fd (.login req))).conns fd = some ⟨false, c.currentUser⟩ ∧
        (s.handle sha256Hex (.message fd (.login req))).store.files = s.store.files ∧
        ¬ LogsIn sha256Hex fd s (.message fd (.login req)) ∧
        ∀ types, records types fd (s.calls sha256Hex (.message fd (.login req))) = []) := by
  have hlogs : LogsIn sha256Hex fd s (.message fd (.login req)) ↔
      Answered fd .msgLoginResp .errOk (s.calls sha256Hex (.message fd (.login req))) :=
    ⟨fun ⟨_, _, h⟩ => h, fun h => ⟨req, rfl, h⟩⟩
  rw [hlogs]
  cases hu : findByUsername s.store.users req.username.val with
  | none =>
      refine .inr ?_
      simp [Server.handle, Server.calls, Input.prog, Input.before, hc, turn, serve, handleLogin,
        Store.exec, hu, Store.files, Answered, recordIn]
  | some u =>
      by_cases hstatus : u.status = accountBanned ∨ u.status = accountInactive
      · refine .inr ?_
        simp [Server.handle, Server.calls, Input.prog, Input.before, hc, turn, serve, handleLogin,
          Store.exec, hu, hstatus, Store.files, Answered, recordIn]
      cases hpass : passwordMatches sha256Hex req.passwordString u with
      | false =>
          refine .inr ?_
          simp [Server.handle, Server.calls, Input.prog, Input.before, hc, turn, serve,
            handleLogin, Store.exec, hu, hstatus, hpass, Store.files, Answered, recordIn]
      | true =>
          cases hslot : sessionSlot s.store.sessions u.userId with
          | some slot =>
              refine .inr ?_
              simp [Server.handle, Server.calls, Input.prog, Input.before, hc, turn, serve,
                handleLogin, createSession, Store.exec, hu, hstatus, hpass, hslot, Store.files,
                Answered, recordIn]
          | none =>
              cases hfree : freeSlot s.store.sessions with
              | none =>
                  refine .inr ?_
                  simp [Server.handle, Server.calls, Input.prog, Input.before, hc, turn, serve,
                    handleLogin, createSession, Store.exec, Store.create, hu, hstatus, hpass,
                    hslot, hfree, Store.files, Answered, recordIn]
              | some slot =>
                  refine .inl ⟨{ u with lastLogin := s.store.clock }, ?_, ?_, fun types ht => ?_⟩
                  · simp [Server.handle, Input.prog, Input.before, hc, turn, serve, handleLogin,
                      createSession, notifyRegister, Store.exec, hu, hstatus, hpass, hslot, hfree,
                      Store.create]
                  · simp [Server.calls, Input.prog, Input.before, hc, turn, serve, handleLogin,
                      createSession, notifyRegister, Store.exec, hu, hstatus, hpass, hslot, hfree,
                      Answered]
                  · simp [Server.calls, Input.prog, Input.before, hc, turn, serve, handleLogin,
                      createSession, notifyRegister, Store.exec, hu, hstatus, hpass, hslot, hfree,
                      recordIn, ht, Store.create]

/-- **Step**: a client who is not signed in and does not log in changes nothing. -/
theorem files_handle (hout : SignedOut fd s) (hown : i.Own fd)
    (hlogin : ¬ LogsIn sha256Hex fd s i) :
    (s.handle sha256Hex i).store.files = s.store.files ∧ SignedOut fd (s.handle sha256Hex i) := by
  cases i with
  | clock now => exact ⟨rfl, hout⟩
  | disconnect fd' =>
      obtain rfl : fd' = fd := hown
      cases hc : s.conns fd' with
      | none => exact ⟨by simp [Server.handle, Input.prog, hc, Input.before],
          by simp [SignedOut, Server.handle, Input.prog, hc]⟩
      | some c =>
          have hauth := hout c hc
          exact ⟨by simp [Server.handle, Input.prog, hc, Input.before, cleanUp, hauth],
            by simp [SignedOut, Server.handle, Input.prog, hc]⟩
  | message fd' m =>
      obtain rfl : fd' = fd := hown
      cases hc : s.conns fd' with
      | none => exact ⟨by simp [Server.handle, Input.prog, hc, Input.before],
          by simp [SignedOut, Server.handle, Input.prog, hc]⟩
      | some c =>
          by_cases hm : ∃ req, m = .login req
          · obtain ⟨req, rfl⟩ := hm
            rcases login_cases sha256Hex hc req with ⟨u, -, hok, -⟩ | ⟨hconn, hfiles, -⟩
            · exact absurd ⟨req, rfl, hok⟩ hlogin
            · refine ⟨hfiles, fun c' hc' => ?_⟩
              rw [hconn] at hc'
              exact Option.some.inj hc' ▸ rfl
          · have hturn : turn sha256Hex fd' c m = refuse fd' c .errAuthFail :=
              turn_unauthenticated (hout c hc) fun req h => hm ⟨req, h⟩
            refine ⟨?_, fun c' hc' => ?_⟩
            · simp [Server.handle, Input.prog, hc, hturn, refuse, Input.before, Store.exec,
                Store.files]
            · have hsame : c = c' := by
                simpa [Server.handle, Input.prog, hc, hturn, refuse] using hc'
              exact hsame ▸ hout c hc
  | _ => exact hown.elim

/-- **Run**: nothing changes until a login succeeds. -/
theorem files_of_serves {calls : List (Event ApiSig)} (hout : SignedOut fd s)
    (h : Serves sha256Hex (fun s i => i.Own fd ∧ ¬ LogsIn sha256Hex fd s i) s calls s') :
    s'.store.files = s.store.files := by
  have hboth : s'.store.files = s.store.files ∧ SignedOut fd s' :=
    h.inv (P := fun x => x.store.files = s.store.files ∧ SignedOut fd x)
      (fun _ _ hx _ _ hok =>
        have hstep := files_handle hx.2 hok.1 hok.2
        ⟨hstep.1.trans hx.1, hstep.2⟩) ⟨rfl, hout⟩
  exact hboth.1

end Idle

/-! ## the record of the connection -/

/-- The record of the connection has the role that was loaded last and the identifier of the last
login. -/
def Tracked (fd : Int) (calls : List (Event ApiSig)) (s : Server) : Prop :=
  ∀ c ∈ s.conns fd, c.authenticated = true →
    (lastLoaded fd calls).map User.role = some c.currentUser.role ∧
      (lastLogin fd calls).map User.userId = some c.currentUser.userId

section Records

variable {sha256Hex : List UInt8 → List UInt8} {s : Server} {fd : Int} {c c' : Conn} {i : Input}
  {m : Request} {types : List MessageType} {calls : List (Event ApiSig)} {v v' : View}
  {ms : List Mark}

/-- What sends no record leaves the last one. -/
theorem lastRecord_of_nil {calls' : List (Event ApiSig)} (h : records types fd calls' = []) :
    lastRecord types fd (calls ++ calls') = lastRecord types fd calls := by
  rw [lastRecord, records_append, h, List.append_nil]
  rfl

/-- A record that is sent is the last one then. -/
theorem lastRecord_of_singleton {calls' : List (Event ApiSig)} {u : User}
    (h : records types fd calls' = [u]) : lastRecord types fd (calls ++ calls') = some u := by
  rw [lastRecord, records_append, h, List.getLast?_append]
  rfl

/-- A step whose answers are of other types. -/
theorem records_eq_nil (hown : i.Own fd) (hside : ∀ t ∈ types, t ∉ sideTypes)
    (hm : ∀ m, i = .message fd m → ∀ t ∈ types, t ∉ m.answerTypes) :
    records types fd (s.calls sha256Hex i) = [] := by
  refine List.filterMap_eq_nil_iff.mpr fun e he => ?_
  unfold recordIn
  split
  · refine if_neg fun h => ?_
    rcases Server.type_of_send he with hmem | ⟨clientFd, req, rfl, -, hmem⟩
    · exact hside _ h.2 hmem
    · obtain rfl : clientFd = fd := hown
      exact hm req rfl _ h.2 hmem
  · rfl

variable (sha256Hex) in
/-- How a deposit ends: the client gets the record that is loaded, or is told. -/
theorem deposit_cases (hc : s.conns fd = some c) (hauth : c.authenticated = true)
    (req : DepositPayload) :
    (∃ w, (s.handle sha256Hex (.message fd (.deposit req))).conns fd = some ⟨true, w⟩ ∧
        records [.msgLoginResp, .msgDepositResp] fd
          (s.calls sha256Hex (.message fd (.deposit req))) = [w]) ∨
      (s.handle sha256Hex (.message fd (.deposit req))).conns fd = some ⟨true, c.currentUser⟩ ∧
        records [.msgLoginResp, .msgDepositResp] fd
          (s.calls sha256Hex (.message fd (.deposit req))) = [] := by
  by_cases hpos : req.amount ≤ 0
  · refine .inr ?_
    simp [Server.handle, Server.calls, Input.prog, Input.before, hc, turn, serve, hauth,
      handleDeposit, hpos, recordIn]
  · by_cases hresult : (WalletCall.creditWallet c.currentUser.userId req.amount).result
        s.store.users < 0
    · refine .inr ?_
      simp [Server.handle, Server.calls, Input.prog, Input.before, hc, turn, serve, hauth,
        handleDeposit, hpos, hresult, recordIn]
    · refine .inl ⟨(readRec ((WalletCall.creditWallet c.currentUser.userId req.amount).users
          s.store.users) c.currentUser.userId).getD .zero, ?_, ?_⟩
      all_goals
        simp [Server.handle, Server.calls, Input.prog, Input.before, hc, turn, serve, hauth,
          handleDeposit, hpos, hresult, recordIn, Store.exec]

/-- A deposit loads a record of the same user. -/
theorem Change.userId_deposit {req : DepositPayload}
    (h : Change sha256Hex v (.message fd (.deposit req)) ms v') (hc : v.conns fd = some c)
    (hc' : v'.conns fd = some c') : c'.currentUser.userId = c.currentUser.userId := by
  cases h with
  | deposit hlogged _ _ hid =>
      obtain rfl := Option.some.inj (hc.symm.trans hlogged.1)
      rcases View.setConn_conns hc' with ⟨-, rfl⟩ | hold
      · exact hid
      · rw [hc] at hold
        rw [Option.some.inj hold]
  | signOff _ _ hi => simp at hi
  | close hi => exact hi.elim
  | _ => rw [Option.some.inj (hc.symm.trans hc')]

/-- The other requests leave the role and the identifier of the connection's record alone. -/
theorem conn_handle (hc : s.conns fd = some c) (hlogin : ∀ req, m ≠ .login req)
    (hdeposit : ∀ req, m ≠ .deposit req) (hauth : c.authenticated = true)
    (hc' : (s.handle sha256Hex (.message fd m)).conns fd = some c') :
    c'.currentUser.role = c.currentUser.role ∧ c'.currentUser.userId = c.currentUser.userId := by
  cases m with
  | login req => exact absurd rfl (hlogin req)
  | deposit req => exact absurd rfl (hdeposit req)
  | logout => simp [Server.handle, Input.prog, hc, turn, serve, hauth] at hc'
  | changePass req =>
      cases hpass : passwordMatches sha256Hex req.oldString c.currentUser with
      | false =>
          simp [Server.handle, Input.prog, hc, turn, serve, hauth, handleChangePassword, hpass]
            at hc'
          exact hc' ▸ ⟨rfl, rfl⟩
      | true =>
          simp [Server.handle, Input.prog, hc, turn, serve, hauth, handleChangePassword, hpass]
            at hc'
          exact hc' ▸ ⟨rfl, rfl⟩
  | _ =>
      simp [Server.handle, Input.prog, hc, turn, serve, hauth] at hc'
      exact hc' ▸ ⟨rfl, rfl⟩

/-- A login loads the record of its user. -/
theorem tracked_login (hc : s.conns fd = some c) (req : LoginPayload) :
    Tracked fd (calls ++ s.calls sha256Hex (.message fd (.login req)))
      (s.handle sha256Hex (.message fd (.login req))) := by
  intro c' hc' hauth'
  rcases login_cases sha256Hex hc req with ⟨u, hconn, -, hrecords⟩ | ⟨hconn, -⟩
  · obtain rfl : ⟨true, u⟩ = c' := Option.some.inj (hconn.symm.trans hc')
    rw [lastLoaded, lastLogin, lastRecord_of_singleton (hrecords _ (by decide)),
      lastRecord_of_singleton (hrecords _ (by decide))]
    exact ⟨rfl, rfl⟩
  · obtain rfl : ⟨false, c.currentUser⟩ = c' := Option.some.inj (hconn.symm.trans hc')
    cases hauth'

/-- A deposit loads the record of the same user again. -/
theorem Tracked.deposit (h : Tracked fd calls s) (hs : s.Sound) (hroom : s.store.HasRoom)
    (hc : s.conns fd = some c) (hauth : c.authenticated = true) (req : DepositPayload) :
    Tracked fd (calls ++ s.calls sha256Hex (.message fd (.deposit req)))
      (s.handle sha256Hex (.message fd (.deposit req))) := by
  intro c' hc' _
  obtain ⟨hrole, hid⟩ := h c hc hauth
  have hchange : Change sha256Hex s.view (.message fd (.deposit req)) _ _ :=
    hs.change hroom trivial
  have hlogins : records [.msgLoginResp] fd (s.calls sha256Hex (.message fd (.deposit req))) = [] :=
    records_eq_nil rfl (by decide) fun m hm => by
      obtain ⟨-, rfl⟩ := Input.message.inj hm
      simp [Request.answerTypes]
  rw [lastLogin, lastRecord_of_nil hlogins, hchange.userId_deposit hc hc']
  refine ⟨?_, hid⟩
  rcases deposit_cases sha256Hex hc hauth req with
    ⟨w, hconn, hrecords⟩ | ⟨hconn, hrecords⟩
  · obtain rfl : ⟨true, w⟩ = c' := Option.some.inj (hconn.symm.trans hc')
    rw [lastLoaded, lastRecord_of_singleton hrecords]
    rfl
  · obtain rfl : ⟨true, c.currentUser⟩ = c' := Option.some.inj (hconn.symm.trans hc')
    rw [lastLoaded, lastRecord_of_nil hrecords]
    exact hrole

/-- Other requests load no record. -/
theorem Tracked.request (h : Tracked fd calls s) (hc : s.conns fd = some c)
    (hauth : c.authenticated = true) (hlogin : ∀ req, m ≠ .login req)
    (hdeposit : ∀ req, m ≠ .deposit req) :
    Tracked fd (calls ++ s.calls sha256Hex (.message fd m))
      (s.handle sha256Hex (.message fd m)) := by
  intro c' hc' _
  obtain ⟨hrole, hid⟩ := conn_handle hc hlogin hdeposit hauth hc'
  have hnil {types : List MessageType} (ht : types ⊆ [.msgLoginResp, .msgDepositResp]) :
      records types fd (s.calls sha256Hex (.message fd m)) = [] := by
    refine records_eq_nil rfl (fun t hmem => ?_) fun m' hm' t hmem => ?_
    · have hside : ∀ t ∈ [MessageType.msgLoginResp, .msgDepositResp], t ∉ sideTypes := by decide
      exact hside t (ht hmem)
    · obtain ⟨-, rfl⟩ := Input.message.inj hm'
      have htype := ht hmem
      cases m with
      | login req => exact absurd rfl (hlogin req)
      | deposit req => exact absurd rfl (hdeposit req)
      | _ =>
          simp only [List.mem_cons, List.not_mem_nil, or_false] at htype
          rcases htype with rfl | rfl <;> simp [Request.answerTypes]
  rw [lastLogin, lastLoaded, lastRecord_of_nil (hnil (by simp)), lastRecord_of_nil (hnil (by simp)),
    hrole, hid]
  exact h c hc hauth

/-- **Step lemma**: the record of the connection stays tracked. -/
theorem Tracked.step (h : Tracked fd calls s) (hs : s.Sound) (hroom : s.store.HasRoom)
    (hown : i.Own fd) : Tracked fd (calls ++ s.calls sha256Hex i) (s.handle sha256Hex i) := by
  cases i with
  | clock now =>
      have hcalls : s.calls sha256Hex (.clock now) = [] := rfl
      rw [hcalls, List.append_nil]
      exact h
  | disconnect fd' =>
      obtain rfl : fd' = fd := hown
      intro c' hc'
      cases hc : s.conns fd' <;> simp [Server.handle, Input.prog, hc] at hc'
  | message fd' m =>
      obtain rfl : fd' = fd := hown
      cases hc : s.conns fd' with
      | none =>
          intro c' hc'
          simp [Server.handle, Input.prog, hc] at hc'
      | some c =>
          by_cases hlogin : ∃ req, m = .login req
          · obtain ⟨req, rfl⟩ := hlogin
            exact tracked_login hc req
          cases hauth : c.authenticated with
          | false =>
              intro c' hc' hauth'
              have hturn : turn sha256Hex fd' c m = refuse fd' c .errAuthFail :=
                turn_unauthenticated hauth fun req heq => hlogin ⟨req, heq⟩
              have hsame : c = c' := by
                simpa [Server.handle, Input.prog, hc, hturn, refuse] using hc'
              rw [← hsame, hauth] at hauth'
              cases hauth'
          | true =>
              by_cases hdeposit : ∃ req, m = .deposit req
              · obtain ⟨req, rfl⟩ := hdeposit
                exact h.deposit hs hroom hc hauth req
              · exact h.request hc hauth (fun req heq => hlogin ⟨req, heq⟩)
                  fun req heq => hdeposit ⟨req, heq⟩
  | _ => exact hown.elim

end Records

/-! ## what a step changes -/

section Effects

variable {sha256Hex : List UInt8 → List UInt8} {s : Server} {fd : Int} {c : Conn} {i : Input}
  {v v' : View} {ms : List Mark} {self : Option UInt32}

/-- What is read depends on what is stored. -/
theorem map_readRec_congr {β : Type} {users users' : List User} {f : User → β}
    (hmap : users'.map f = users.map f) (id : UInt32) :
    (readRec users' id).map f = (readRec users id).map f := by
  rw [readRec_map, hmap, ← readRec_map]

/-- Nothing that the roles are for. -/
theorem not_guardedChange (hauctions : v'.auctions = v.auctions) (hbids : v'.bids = v.bids)
    (hdisputes : v'.disputes = v.disputes) (hlength : v'.users.length = v.users.length)
    (hstanding : ∀ id, some id ≠ self →
      (readRec v'.users id).map User.standing = (readRec v.users id).map User.standing) :
    ¬ GuardedChange self v v' := by
  rintro (h | h | h | h | ⟨id, hid, h⟩)
  · exact h hauctions
  · exact h hbids
  · exact h hdisputes
  · exact h hlength
  · exact h (hstanding id hid)

/-- A change of other fields needs no right. -/
theorem not_guardedChange_of_map (hauctions : v'.auctions = v.auctions) (hbids : v'.bids = v.bids)
    (hdisputes : v'.disputes = v.disputes)
    (hmap : v'.users.map User.standing = v.users.map User.standing) :
    ¬ GuardedChange self v v' := by
  refine not_guardedChange hauctions hbids hdisputes ?_ fun id _ => map_readRec_congr hmap id
  have hlength := congrArg List.length hmap
  rwa [List.length_map, List.length_map] at hlength

/-- What the roles are for is done by a request that the role allows. -/
theorem guarded_change (hs : Sound v) (h : Change sha256Hex v i ms v') (hown : i.Own fd)
    (hself : ∀ c, v.LoggedIn fd c → self = some c.currentUser.userId)
    (hchange : GuardedChange self v v') :
    ∃ m c, i = .message fd m ∧ v.LoggedIn fd c ∧ m.guarded = true ∧
      m.permitted c.currentUser.role = true := by
  cases h with
  | logsIn _ hu =>
      exact absurd hchange (not_guardedChange_of_map rfl rfl rfl
        (hs.users.map_overwrite (mem_of_findByUsername hu) (by rfl) (by rfl)))
  | @changePass fd' c req hlogged hpass =>
      obtain rfl : fd' = fd := hown
      obtain ⟨w, hw, hid⟩ := List.mem_map.mp (hs.user_mem fd' c hlogged)
      refine absurd hchange (not_guardedChange rfl rfl rfl length_overwrite fun id hne => ?_)
      have hother : id ≠ c.currentUser.userId := fun heq =>
        hne ((congrArg some heq).trans (hself c hlogged).symm)
      have hread := hs.users.readRec_overwrite (x := req.record sha256Hex c.currentUser) hw
        hid.symm id
      exact congrArg (Option.map User.standing) (hread.trans (if_neg hother))
  | deposit =>
      exact absurd hchange (not_guardedChange_of_map rfl rfl rfl
        (map_usersAfter hs.users _ fun _ _ _ => rfl))
  | @close i a hi =>
      cases i with
      | message fd' m =>
          obtain rfl : fd' = fd := hown
          cases m with
          | closeAuction req =>
              obtain ⟨-, c, hc, hauth, hrole, -⟩ := hi
              refine ⟨_, c, rfl, ⟨hc, hauth⟩, rfl, ?_⟩
              simpa [Request.permitted] using hrole
          | _ => exact hi.elim
      | timerClose id => exact hown.elim
      | _ => exact hi.elim
  | createAuction hlogged hrole =>
      obtain rfl := hown
      exact ⟨_, _, rfl, hlogged, rfl, by simpa [Request.permitted] using hrole⟩
  | placeBid hlogged hrole | fileDispute hlogged hrole | reject hlogged hrole
  | refund hlogged hrole | toggleAccount hlogged hrole | addUser hlogged hrole
  | changeRole hlogged hrole =>
      obtain rfl := hown
      exact ⟨_, _, rfl, hlogged, rfl, by simp [Request.permitted, hrole]⟩
  | _ => exact absurd hchange (not_guardedChange_of_map rfl rfl rfl rfl)

/-- A deposit leaves the records of others alone. -/
theorem readRec_deposit (hs : Sound v) {req : DepositPayload}
    (h : Change sha256Hex v (.message fd (.deposit req)) ms v')
    (hself : ∀ c, v.LoggedIn fd c → self = some c.currentUser.userId) {id : UInt32}
    (hid : some id ≠ self) : readRec v'.users id = readRec v.users id := by
  cases h with
  | @deposit _ c _ w hlogged =>
      have hother : id ≠ c.currentUser.userId := fun heq =>
        hid ((congrArg some heq).trans (hself c hlogged).symm)
      show readRec (usersAfter _ v.users) id = _
      rw [usersAfter_eq_map hs.users, readRec, List.getElem?_map]
      cases hread : v.users[recPos id]? with
      | none => simp [readRec, hread]
      | some u =>
          obtain ⟨-, huid⟩ := hs.users.readRec_eq_some.mp hread
          have hsame : updates [.creditWallet c.currentUser.userId req.amount] u = u :=
            updates_of_ne fun call hcall => by
              rw [List.mem_singleton.mp hcall, huid]
              exact hother
          rw [Option.map_some, hsame, readRec, hread]
  | close hi => exact hi.elim
  | _ => rfl

/-- The records beyond the former end of a file. -/
theorem forall_drop_append {α : Type} {l : List α} {x : α} {P : α → Prop} (hx : P x) :
    ∀ y ∈ (l ++ [x]).drop l.length, P y := by
  rw [List.drop_left]
  exact List.forall_mem_singleton.mpr hx

/-- Nothing is new in a list that has not grown. -/
theorem forall_drop {α : Type} {l l' : List α} {P : α → Prop} (h : l'.length ≤ l.length) :
    ∀ y ∈ l'.drop l.length, P y := by
  rw [List.drop_eq_nil_of_le h]
  exact fun _ hy => nomatch hy

/-- A new bid is one of the user of the connection. -/
theorem bidderId_change (h : Change sha256Hex v i ms v') (hown : i.Own fd)
    (hself : ∀ c, v.LoggedIn fd c → self = some c.currentUser.userId) :
    ∀ b ∈ v'.bids.drop v.bids.length, self = some b.bidderId := by
  cases h with
  | @placeBid fd' c req a w b hlogged _ _ _ _ _ hwid _ _ hb =>
      obtain rfl : fd' = fd := hown
      refine forall_drop_append ?_
      rw [hself c hlogged, hb, hwid]
  | @close _ a =>
      refine forall_drop ?_
      show (if a.Settles then markWinning _ _ v.bids else v.bids).length ≤ _
      split
      · exact Nat.le_of_eq (List.length_map ..)
      · exact Nat.le_refl _
  | _ => exact forall_drop (Nat.le_refl _)

/-- A new dispute is one of the user of the connection. -/
theorem raisedBy_change (h : Change sha256Hex v i ms v') (hown : i.Own fd)
    (hself : ∀ c, v.LoggedIn fd c → self = some c.currentUser.userId) :
    ∀ d ∈ v'.disputes.drop v.disputes.length, self = some d.raisedByUserId := by
  cases h with
  | @fileDispute fd' c req a d hlogged _ _ _ _ _ _ _ hraised =>
      obtain rfl : fd' = fd := hown
      refine forall_drop_append ?_
      rw [hself c hlogged, hraised]
  | reject | refund => exact forall_drop (Nat.le_of_eq length_overwrite)
  | _ => exact forall_drop (Nat.le_refl _)

/-- New feedback is from the user of the connection. -/
theorem fromUserId_handle (hfile : s.store.feedback ≠ [] → s.store.present .feedback = true)
    (hown : i.Own fd) (hself : ∀ c, s.view.LoggedIn fd c → self = some c.currentUser.userId) :
    ∀ f ∈ (s.handle sha256Hex i).store.feedback.drop s.store.feedback.length,
      self = some f.fromUserId := by
  have hstep : FeedbackStep s i (s.handle sha256Hex i).store.feedback
      (shown (s.calls sha256Hex i)) := Server.feedbackStep hfile
  generalize (s.handle sha256Hex i).store.feedback = l at hstep ⊢
  generalize shown (s.calls sha256Hex i) = l' at hstep
  cases hstep with
  | @submits fd' c req hi hc hauth =>
      subst hi
      obtain rfl : fd' = fd := hown
      exact forall_drop_append (hself c ⟨hc, hauth⟩)
  | views => exact forall_drop (Nat.le_of_eq (List.length_map ..))
  | quiet => exact forall_drop (Nat.le_refl _)

end Effects

/-! ## conversations -/

section Conversations

variable {sha256Hex : List UInt8 → List UInt8} {s₀ s : Server} {fd : Int}
  {calls : List (Event ApiSig)}

/-- The file is there once there is feedback. -/
theorem feedback_present_of_serves {ok : Server → Input → Prop}
    (h : Serves sha256Hex ok s₀ calls s)
    (hfile : s₀.store.feedback ≠ [] → s₀.store.present .feedback = true) :
    s.store.feedback ≠ [] → s.store.present .feedback = true :=
  h.inv (P := fun s => s.store.feedback ≠ [] → s.store.present .feedback = true)
    (fun _ _ hs _ _ _ => feedback_present hs) hfile

/-- The record of the connection is tracked in every state of a run. -/
theorem Tracked.serves (h : Serves sha256Hex (fun _ i => i.Own fd) s₀ calls s)
    (hs : s₀.Sound) (hout : SignedOut fd s₀) : Tracked fd calls s := by
  induction h with
  | refl =>
      intro c hc hauth
      rw [hout c hc] at hauth
      cases hauth
  | step h hroom hpossible hown ih => exact ih.step (h.sound hs) hroom hown

/-- **Authorization** of every conversation on a connection that has just been accepted. -/
theorem authorized {calls₀ : List (Event ApiSig)} (createdAt now : Int)
    (h₀ : Serves sha256Hex anyInput (.seeded sha256Hex createdAt now) calls₀ s₀)
    (hconn : s₀.conns fd = some .fresh) : Authorized sha256Hex fd s₀ := by
  have hs₀ : s₀.Sound := h₀.sound (sound_seeded createdAt now)
  have hfile₀ : s₀.store.feedback ≠ [] → s₀.store.present .feedback = true :=
    feedback_present_of_serves h₀ fun h => absurd rfl h
  have hout : SignedOut fd s₀ := by
    intro c hc
    rw [hconn] at hc
    exact Option.some.inj hc ▸ rfl
  constructor
  · exact fun calls s h => files_of_serves hout h
  · intro calls s req calls' s' h hfails h'
    cases hc : s.conns fd with
    | none =>
        have hsame : s.handle sha256Hex (.message fd (.login req)) = s := by
          simp [Server.handle, Input.prog, Input.before, hc]
        rw [hsame] at h'
        refine files_of_serves (fun c hmem => ?_) h'
        rw [hc] at hmem
        cases hmem
    | some c =>
        rcases login_cases sha256Hex hc req with ⟨u, -, hok, -⟩ | ⟨hc', hfiles, -⟩
        · exact absurd ⟨req, rfl, hok⟩ hfails
        · refine (files_of_serves (fun c' hmem => ?_) h').trans hfiles
          rw [hc'] at hmem
          exact Option.some.inj hmem ▸ rfl
  · intro calls s i h hroom hown
    have hs := h.sound hs₀
    have htracked := Tracked.serves h hs₀ hout
    have hself (c : Conn) (hc : s.view.LoggedIn fd c) :
        (lastLogin fd calls).map User.userId = some c.currentUser.userId :=
      (htracked c hc.1 hc.2).2
    have hpossible : i.Possible s := by
      cases i with
      | connect => exact hown.elim
      | _ => trivial
    have hchange : Change sha256Hex s.view i _ _ := hs.change hroom hpossible
    constructor
    · intro hguarded
      obtain ⟨m, c, hi, hlogged, hguard, hpermitted⟩ :=
        guarded_change hs.view hchange hown hself hguarded
      obtain ⟨w, hw, hrole⟩ := Option.map_eq_some_iff.mp (htracked c hlogged.1 hlogged.2).1
      exact ⟨m, w, hi, hguard, hw, hrole ▸ hpermitted⟩
    · rintro req rfl id hid
      exact readRec_deposit hs.view hchange hself hid
    · exact bidderId_change hchange hown hself
    · exact raisedBy_change hchange hown hself
    · exact fromUserId_handle (feedback_present_of_serves h hfile₀) hown hself

/-- A new connection to a market, of whose users three are logged in and one has a new session. -/
theorem authorized_market :
    Authorized adminSha256Hex 9 (played (marketScript ++ [.connect 9])) := by
  have hscript : Playable anyInput (marketScript ++ [.connect 9]) := by decide +kernel
  exact authorized 0 1000 (.of_script hscript) (by decide +kernel)

end Conversations

end OnlineAuction
