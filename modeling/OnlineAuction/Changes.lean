import OnlineAuction.Books
import OnlineAuction.Service

/-!
# OnlineAuction.Changes

What one request can change.

The results about whole runs look at the records, the session file, the registry,
the clock and the connections (`View`), and at three kinds of calls: those of the
wallet functions, the log line that follows every close, and the one that
announces a refund (`Mark`).  `Change` lists all that one input can do to a view,
with the marks it leaves and every check that was passed on the way; it is
derived from the handlers in `OnlineAuction.Handlers`.

`Sound` is what every run keeps from the start: the files are numbered, a dispute
is about an auction that exists, and an authenticated connection is one of a user
who exists.
-/

namespace OnlineAuction

/-! ## what is looked at -/

structure View where
  users : List User
  auctions : List Auction
  bids : List Bid
  disputes : List Dispute
  sessions : List Session
  registry : List RegistryEntry
  clock : Int
  conns : Int → Option Conn

def Store.view (s : Store) (conns : Int → Option Conn) : View where
  users := s.users
  auctions := s.auctions
  bids := s.bids
  disputes := s.disputes
  sessions := s.sessions
  registry := s.registry
  clock := s.clock
  conns := conns

abbrev Server.view (s : Server) : View := s.store.view s.conns

/-- A call that results about runs count. -/
inductive Mark
  | wallet (site : Site) (c : WalletCall) (result : Int)
  | closed (auctionId : UInt32)
  | refund (disputeId auctionId : UInt32)
  deriving DecidableEq

/-- Each run of `close_auction_internal` is followed by one of two log lines. -/
def mark : Event ApiSig → Option Mark
  | ⟨.wallet site c, r⟩ => some (.wallet site c r)
  | ⟨.sys (.logTxn (.closeAuction id _)), _⟩ => some (.closed id)
  | ⟨.sys (.logTxn (.timerClose id)), _⟩ => some (.closed id)
  | ⟨.sys (.logTxn (.walRefund dispute auction _ _ _)), _⟩ => some (.refund dispute auction)
  | _ => none

def marks (calls : List (Event ApiSig)) : List Mark := calls.filterMap mark

/-- The marks of two parts of a run follow each other. -/
@[simp] theorem marks_append (l l' : List (Event ApiSig)) :
    marks (l ++ l') = marks l ++ marks l' := List.filterMap_append

/-! ## wallet calls one after the other -/

/-- The users after a list of wallet calls. -/
def usersAfter (calls : List WalletCall) (users : List User) : List User :=
  calls.foldl (fun users c => c.users users) users

/-- The marks that a list of wallet calls leaves. -/
def walletMarks (site : Site) : List WalletCall → List User → List Mark
  | [], _ => []
  | c :: cs, users => .wallet site c (c.result users) :: walletMarks site cs (c.users users)

@[simp] theorem usersAfter_nil (users : List User) : usersAfter [] users = users := rfl

@[simp] theorem usersAfter_cons (c : WalletCall) (cs : List WalletCall) (users : List User) :
    usersAfter (c :: cs) users = usersAfter cs (c.users users) := rfl

/-- Wallet calls are made one after the other. -/
theorem usersAfter_append (cs cs' : List WalletCall) (users : List User) :
    usersAfter (cs ++ cs') users = usersAfter cs' (usersAfter cs users) :=
  List.foldl_append

/-- The wallet calls of an accepted bid on `a`. -/
def Auction.biddingCalls (a : Auction) (bidder : UInt32) (amount : ℚ) : List WalletCall :=
  if a.highestBidderId ≠ 0 then
    [.releaseHold a.highestBidderId a.currentBid, .placeHold bidder amount]
  else [.placeHold bidder amount]

/-- The wallet calls of a refund: the seller is only debited when the balance
covers the amount once the winner has been credited. -/
def Auction.refundCalls (a : Auction) (users : List User) : List WalletCall :=
  let credit : WalletCall := .creditWallet a.highestBidderId a.currentBid
  match readRec (credit.users users) a.sellerId with
  | some seller =>
      if seller.walletBalance ≥ a.currentBid then
        [credit, .creditWallet a.sellerId (-a.currentBid)]
      else [credit]
  | none => [credit]

/-! ## sessions -/

/-- The session file after the first active slot of a user is cleared. -/
def clearSlot (userId : UInt32) (sessions : List Session) : List Session :=
  match sessionSlot sessions userId with
  | some slot => writeAt .zero sessions slot .zero
  | none => sessions

/-! ## the changes -/

section Changes

variable (sha256Hex : List UInt8 → List UInt8)

/-- The record that a change of password writes: the session's copy with the new
hash. -/
def ChangePassPayload.record (req : ChangePassPayload) (u : User) : User :=
  { u with password := strncpy u.password (hashString sha256Hex req.newString) maxPassword }

/-- The input closes this auction: a turn of the timer does, or a request of its
seller or of an administrator. -/
def Input.Closes (v : View) (a : Auction) : Input → Prop
  | .timerClose id => id = a.auctionId
  | .message fd (.closeAuction req) => req.auctionId = a.auctionId ∧
      ∃ c, v.conns fd = some c ∧ c.authenticated = true ∧
        (c.currentUser.role = roleAuctioneer ∨ c.currentUser.role = roleAdmin) ∧
        (a.sellerId = c.currentUser.userId ∨ c.currentUser.role = roleAdmin)
  | _ => False

/-- An authenticated connection. -/
def View.LoggedIn (v : View) (fd : Int) (c : Conn) : Prop :=
  v.conns fd = some c ∧ c.authenticated = true

/-- Who is logged in has sent something. -/
theorem mem_fds_of_loggedIn {sha256Hex : List UInt8 → List UInt8} {s : Server} {is : List Input}
    {fd : Int} {c : Conn} (hs : s.conns fd = none)
    (h : (s.handleAll sha256Hex is).view.LoggedIn fd c) : fd ∈ is.filterMap Input.fd :=
  mem_fds_of_conns hs h.1

/-- The view with other locals of a connection. -/
def View.setConn (v : View) (fd : Int) (c : Option Conn) : View :=
  { v with conns := Function.update v.conns fd c }

/-- The slot of a user is cleared and the registry entry freed, `n` times. -/
def View.signOff (v : View) (userId : UInt32) (n : Nat) : View :=
  { v with
    sessions := (clearSlot userId)^[n] v.sessions
    registry := (fun r => unregisterFd r userId)^[n] v.registry }

/-- What an input can do to a view, and the marks it leaves. -/
inductive Change (v : View) : Input → List Mark → View → Prop
  | nothing (i : Input) : Change v i [] v
  | clock (now : Int) : Change v (.clock now) [] { v with clock := now }
  | restart : Change v .restart [] { v with registry := emptyRegistry, conns := fun _ => none }
  | connect {fd : Int} (hfd : 0 < fd) (hfree : v.conns fd = none) :
      Change v (.connect fd) [] (v.setConn fd (some .fresh))
  | hangUp {fd : Int} {c : Conn} (hc : v.conns fd = some c) (hauth : c.authenticated = false) :
      Change v (.disconnect fd) [] (v.setConn fd none)
  -- a logout clears the slot and the registry, and the clean-up does so again
  | signOff {i : Input} {fd : Int} {c : Conn} {n : Nat} (hc : v.LoggedIn fd c) (hn : 0 < n)
      (hi : i = .disconnect fd ∨ i = .message fd .logout) :
      Change v i [] ((v.signOff c.currentUser.userId n).setConn fd none)
  | loginFails {fd : Int} {c : Conn} {req : LoginPayload} (hc : v.conns fd = some c) :
      Change v (.message fd (.login req)) [] (v.setConn fd (some ⟨false, c.currentUser⟩))
  | logsIn {fd : Int} {c : Conn} {req : LoginPayload} {u : User} {slot : Nat}
      (hc : v.conns fd = some c) (hu : findByUsername v.users req.username.val = some u)
      (hstatus : u.status ≠ accountBanned ∧ u.status ≠ accountInactive)
      (hpass : passwordMatches sha256Hex req.passwordString u = true)
      (hnone : sessionSlot v.sessions u.userId = none) (hslot : freeSlot v.sessions = some slot) :
      Change v (.message fd (.login req)) [] <| View.setConn { v with
        sessions := writeAt .zero v.sessions slot ⟨u.userId, fd, v.clock, true⟩
        registry := registerFd v.registry u.userId fd
        users := overwrite User.userId { u with lastLogin := v.clock } v.users }
        fd (some ⟨true, { u with lastLogin := v.clock }⟩)
  | changePass {fd : Int} {c : Conn} {req : ChangePassPayload} (hc : v.LoggedIn fd c)
      (hpass : passwordMatches sha256Hex req.oldString c.currentUser = true) :
      Change v (.message fd (.changePass req)) [] <| View.setConn { v with
        users := overwrite User.userId (req.record sha256Hex c.currentUser) v.users }
        fd (some ⟨true, req.record sha256Hex c.currentUser⟩)
  | depositFails {fd : Int} {c : Conn} {req : DepositPayload} (hc : v.LoggedIn fd c)
      (hpos : 0 < req.amount)
      (hresult : (WalletCall.creditWallet c.currentUser.userId req.amount).result v.users < 0) :
      Change v (.message fd (.deposit req))
        (walletMarks .deposit [.creditWallet c.currentUser.userId req.amount] v.users) v
  | deposit {fd : Int} {c : Conn} {req : DepositPayload} {w : User} (hc : v.LoggedIn fd c)
      (hpos : 0 < req.amount)
      (hw : w ∈ (WalletCall.creditWallet c.currentUser.userId req.amount).users v.users)
      (hid : w.userId = c.currentUser.userId) :
      Change v (.message fd (.deposit req))
        (walletMarks .deposit [.creditWallet c.currentUser.userId req.amount] v.users) <|
        View.setConn { v with
          users := usersAfter [.creditWallet c.currentUser.userId req.amount] v.users }
          fd (some ⟨true, w⟩)
  | placeBid {fd : Int} {c : Conn} {req : PlaceBidPayload} {a : Auction} {w : User} {b : Bid}
      (hc : v.LoggedIn fd c) (hrole : c.currentUser.role = roleBidder)
      (ha : a ∈ v.auctions) (hid : a.auctionId = req.auctionId) (hopen : a.status = .auctionOpen)
      (hw : w ∈ v.users) (hwid : w.userId = c.currentUser.userId)
      (hfunds : req.amount ≤ w.walletBalance - w.walletHold) (hhigher : a.currentBid < req.amount)
      (hb : b = ⟨nextRecId v.bids, a.auctionId, w.userId, req.amount, v.clock, true⟩) :
      Change v (.message fd (.placeBid req))
        (walletMarks (.placeBid a.auctionId) (a.biddingCalls w.userId req.amount) v.users)
        { v with
          users := usersAfter (a.biddingCalls w.userId req.amount) v.users
          auctions := overwrite Auction.auctionId (a.withBid w.userId req.amount) v.auctions
          bids := v.bids ++ [b] }
  | close {i : Input} {a : Auction} (hi : i.Closes v a) (ha : a ∈ v.auctions)
      (hopen : a.status = .auctionOpen) :
      Change v i
        (walletMarks (.close a.auctionId) a.closingCalls v.users ++ [.closed a.auctionId])
        { v with
          users := usersAfter a.closingCalls v.users
          auctions := overwrite Auction.auctionId (a.withStatus .auctionClosed) v.auctions
          bids := if a.Settles then markWinning a.auctionId a.highestBidderId v.bids else v.bids }
  | createAuction {fd : Int} {c : Conn} {req : CreateAuctionPayload} {a : Auction}
      (hc : v.LoggedIn fd c)
      (hrole : c.currentUser.role = roleAuctioneer ∨ c.currentUser.role = roleAdmin)
      (hid : a.auctionId = nextRecId v.auctions) (hseller : a.sellerId = c.currentUser.userId)
      (hopen : a.status = .auctionOpen) (hleader : a.highestBidderId = 0)
      (hstart : a.currentBid = a.startPrice) (hpos : 0 < a.startPrice) (hcount : a.bidCount = 0) :
      Change v (.message fd (.createAuction req)) [] { v with auctions := v.auctions ++ [a] }
  | fileDispute {fd : Int} {c : Conn} {req : FileDisputePayload} {a : Auction} {d : Dispute}
      (hc : v.LoggedIn fd c) (hrole : c.currentUser.role = roleBidder)
      (ha : a ∈ v.auctions) (haid : a.auctionId = req.auctionId)
      (hclosed : a.status = .auctionClosed) (hid : d.disputeId = nextRecId v.disputes)
      (hauction : d.auctionId = a.auctionId)
      (hopen : d.status = .disputeOpen) (hraised : d.raisedByUserId = c.currentUser.userId)
      (hresolved : d.resolvedByUserId = 0) :
      Change v (.message fd (.fileDispute req)) [] { v with
        disputes := v.disputes ++ [d]
        auctions := overwrite Auction.auctionId (a.withStatus .auctionDisputed) v.auctions }
  | reject {fd : Int} {c : Conn} {req : ResolveDisputePayload} {a : Auction} {d d' : Dispute}
      (hc : v.LoggedIn fd c) (hrole : roleModerator ≤ c.currentUser.role)
      (hd : d ∈ v.disputes) (hdid : d.disputeId = req.disputeId) (hopen : d.status = .disputeOpen)
      (ha : a ∈ v.auctions) (haid : a.auctionId = d.auctionId)
      (hid : d'.disputeId = d.disputeId) (hauction : d'.auctionId = d.auctionId)
      (hstatus : d'.status = .disputeRejected) (hraised : d'.raisedByUserId = d.raisedByUserId)
      (hresolved : d'.resolvedByUserId = c.currentUser.userId) :
      Change v (.message fd (.resolveDispute req)) [] { v with
        disputes := overwrite Dispute.disputeId d' v.disputes
        auctions := overwrite Auction.auctionId (a.withStatus .auctionClosed) v.auctions }
  | refund {fd : Int} {c : Conn} {req : ResolveDisputePayload} {a : Auction} {d d' : Dispute}
      (hc : v.LoggedIn fd c) (hrole : roleModerator ≤ c.currentUser.role)
      (hd : d ∈ v.disputes) (hdid : d.disputeId = req.disputeId) (hopen : d.status = .disputeOpen)
      (ha : a ∈ v.auctions) (haid : a.auctionId = d.auctionId)
      (hid : d'.disputeId = d.disputeId) (hauction : d'.auctionId = d.auctionId)
      (hstatus : d'.status = .disputeResolved) (hraised : d'.raisedByUserId = d.raisedByUserId)
      (hresolved : d'.resolvedByUserId = c.currentUser.userId) :
      Change v (.message fd (.resolveDispute req))
        (.refund d.disputeId a.auctionId ::
          walletMarks (.resolve d.disputeId) (a.refundCalls v.users) v.users)
        { v with
          disputes := overwrite Dispute.disputeId d' v.disputes
          users := usersAfter (a.refundCalls v.users) v.users }
  | toggleAccount {fd : Int} {c : Conn} {req : ToggleAccountPayload} {w : User}
      (hc : v.LoggedIn fd c) (hrole : roleModerator ≤ c.currentUser.role)
      (hw : w ∈ v.users) (hid : w.userId = req.targetUserId)
      (hbelow : w.role < c.currentUser.role) :
      Change v (.message fd (.toggleAccount req)) [] { v with
        users := overwrite User.userId { w with status := req.newStatus } v.users }
  | addUser {fd : Int} {c : Conn} {req : AddUserPayload}
      (hc : v.LoggedIn fd c) (hrole : c.currentUser.role = roleAdmin)
      (hnew : ∀ w ∈ v.users, w.isDeleted = true ∨
        strncmpEq maxUsername w.username.val req.username.val = false) :
      Change v (.message fd (.addUser req)) [] { v with
        users := v.users ++ [newUser sha256Hex req (nextRecId v.users) v.clock] }
  | changeRole {fd : Int} {c : Conn} {req : ChangeRolePayload} {w : User}
      (hc : v.LoggedIn fd c) (hrole : c.currentUser.role = roleAdmin)
      (hw : w ∈ v.users) (hid : w.userId = req.targetUserId)
      (hlast : ¬ (w.role = roleAdmin ∧ req.newRole ≠ roleAdmin ∧ adminCount v.users ≤ 1)) :
      Change v (.message fd (.changeRole req)) [] { v with
        users := overwrite User.userId { w with role := req.newRole } v.users }

end Changes

/-! ## identifiers -/

section Identifiers

variable {α : Type} {idOf : α → UInt32} {l l' : List α} {x : α}

/-- Overwriting keeps the identifiers. -/
@[simp] theorem map_id_overwrite : (overwrite idOf x l).map idOf = l.map idOf :=
  map_overwrite fun _ _ hid => hid.symm

/-- Where a record is written over the one with its identifier, what they agree on stays. -/
theorem Numbered.map_overwrite {β : Type} (h : Numbered idOf l) {y : α} (hy : y ∈ l)
    (hid : idOf x = idOf y) {f : α → β} (hf : f x = f y) :
    (OnlineAuction.overwrite idOf x l).map f = l.map f :=
  OnlineAuction.map_overwrite fun z hz hzx => by rw [h.eq_of_id hz hy (hzx.trans hid), hf]

/-- A file is numbered or not by its identifiers alone. -/
theorem Numbered.congr (h : Numbered idOf l) (hids : l'.map idOf = l.map idOf) :
    Numbered idOf l' := by
  intro i y hy
  have hmap : (l.map idOf)[i]? = some (idOf y) := by
    rw [← hids, List.getElem?_map, hy]
    rfl
  rw [List.getElem?_map] at hmap
  obtain ⟨z, hz, hzy⟩ := Option.map_eq_some_iff.mp hmap
  rw [← hzy]
  exact h i z hz

/-- The file has the same identifiers, or the next one besides. -/
def Extends (idOf : α → UInt32) (l l' : List α) : Prop :=
  l'.map idOf = l.map idOf ∨ l'.map idOf = l.map idOf ++ [nextRecId l]

/-- A list with the same identifiers extends the other. -/
theorem Extends.of_eq (h : l'.map idOf = l.map idOf) : Extends idOf l l' := .inl h

/-- So does one with a further record at the next identifier. -/
theorem Extends.append (hid : idOf x = nextRecId l) : Extends idOf l (l ++ [x]) :=
  .inr (by rw [List.map_append, List.map_singleton, hid])

/-- Identifiers stay in use. -/
theorem Extends.mem (h : Extends idOf l l') {id : UInt32} (hid : id ∈ l.map idOf) :
    id ∈ l'.map idOf := by
  rcases h with h | h
  · rwa [h]
  · rw [h]
    exact List.mem_append_left _ hid

/-- An extended file stays numbered while there is room. -/
theorem Extends.numbered (h : Extends idOf l l') (hl : Numbered idOf l)
    (hroom : l.length < 2 ^ 32 - 1) : Numbered idOf l' := by
  rcases h with h | h
  · exact hl.congr h
  · intro i y hy
    have hmap : (l.map idOf ++ [nextRecId l])[i]? = some (idOf y) := by
      rw [← h, List.getElem?_map, hy]
      rfl
    rw [List.getElem?_append, List.length_map] at hmap
    split at hmap
    · rw [List.getElem?_map] at hmap
      obtain ⟨z, hz, hzy⟩ := Option.map_eq_some_iff.mp hmap
      rw [← hzy]
      exact hl i z hz
    · next hi =>
        obtain ⟨hlt, hid⟩ := List.getElem?_eq_some_iff.mp hmap
        rw [← hid, List.getElem_singleton, nextRecId_toNat hroom]
        simp only [List.length_singleton] at hlt
        omega

end Identifiers

/-- A wallet call leaves alone what does not depend on the wallets. -/
theorem map_walletUsers {β : Type} {users : List User} (h : Numbered User.userId users)
    (c : WalletCall) {f : User → β}
    (hf : ∀ u balance hold, f (User.withWallet u balance hold) = f u) :
    (c.users users).map f = users.map f := by
  unfold WalletCall.users
  cases hw : c.written (readRec users c.userId) with
  | none => rfl
  | some v =>
      obtain ⟨u, hu, hv⟩ := Option.bind_eq_some_iff.mp hw
      obtain ⟨hmem, -⟩ := h.readRec_eq_some.mp hu
      obtain ⟨⟨balance, hold, rfl⟩, -⟩ := c.apply_eq_some hv
      have hwrite : writeRec .zero users u.userId (u.withWallet balance hold) =
          overwrite User.userId (u.withWallet balance hold) users :=
        h.writeRec_eq_overwrite (x := u.withWallet balance hold) hmem rfl
      exact (congrArg _ hwrite).trans
        (h.map_overwrite (x := u.withWallet balance hold) hmem rfl (hf u balance hold))

/-- A wallet call keeps the identifiers of the users. -/
theorem map_userId_walletUsers {users : List User} (h : Numbered User.userId users)
    (c : WalletCall) : (c.users users).map User.userId = users.map User.userId :=
  map_walletUsers h c fun _ _ _ => rfl

/-- What does not depend on wallets is the same after wallet calls. -/
theorem map_usersAfter {β : Type} {users : List User} (h : Numbered User.userId users)
    (cs : List WalletCall) {f : User → β}
    (hf : ∀ u balance hold, f (User.withWallet u balance hold) = f u) :
    (usersAfter cs users).map f = users.map f := by
  induction cs generalizing users with
  | nil => rfl
  | cons c cs ih =>
      rw [usersAfter_cons, ih (h.congr (map_userId_walletUsers h c)), map_walletUsers h c hf]

/-- So are the identifiers. -/
theorem map_userId_usersAfter {users : List User} (h : Numbered User.userId users)
    (cs : List WalletCall) : (usersAfter cs users).map User.userId = users.map User.userId :=
  map_usersAfter h cs fun _ _ _ => rfl

/-- What a list of calls makes of a record. -/
def updates (cs : List WalletCall) (u : User) : User := cs.foldl (fun u c => c.update u) u

@[simp] theorem updates_nil (u : User) : updates [] u = u := rfl

@[simp] theorem updates_cons (c : WalletCall) (cs : List WalletCall) (u : User) :
    updates (c :: cs) u = updates cs (c.update u) := rfl

/-- Wallet calls do not change who the user is. -/
@[simp] theorem updates_userId (cs : List WalletCall) (u : User) :
    (updates cs u).userId = u.userId := by
  induction cs generalizing u with
  | nil => rfl
  | cons c cs ih => rw [updates_cons, ih, WalletCall.update_userId]

/-- The calls are about other users. -/
theorem updates_of_ne {cs : List WalletCall} {u : User} (h : ∀ c ∈ cs, u.userId ≠ c.userId) :
    updates cs u = u := by
  induction cs with
  | nil => rfl
  | cons c cs ih =>
      rw [updates_cons, WalletCall.update_of_ne (h c (List.mem_cons_self ..))]
      exact ih fun c' hc' => h c' (List.mem_cons_of_mem _ hc')

/-- On a numbered file wallet calls change each record by itself. -/
theorem usersAfter_eq_map {users : List User} (h : Numbered User.userId users)
    (cs : List WalletCall) : usersAfter cs users = users.map (updates cs) := by
  induction cs generalizing users with
  | nil => exact (List.map_id users).symm
  | cons c cs ih =>
      rw [usersAfter_cons, c.users_eq_map h, ih (h.map_users fun u => c.update_userId u),
        List.map_map]
      rfl

/-! ## what every run keeps -/

structure View.HasRoom (v : View) : Prop where
  users : v.users.length < 2 ^ 32 - 1
  auctions : v.auctions.length < 2 ^ 32 - 1
  disputes : v.disputes.length < 2 ^ 32 - 1

/-- There is room in the view if there is in the store. -/
theorem Store.HasRoom.view {s : Server} (h : s.store.HasRoom) : s.view.HasRoom :=
  ⟨h.users, h.auctions, h.disputes⟩

structure Sound (v : View) : Prop where
  users : Numbered User.userId v.users
  auctions : Numbered Auction.auctionId v.auctions
  disputes : Numbered Dispute.disputeId v.disputes
  auction_mem : ∀ d ∈ v.disputes, d.auctionId ∈ v.auctions.map Auction.auctionId
  fd_pos : ∀ fd c, v.conns fd = some c → 0 < fd
  user_mem : ∀ fd c, v.LoggedIn fd c → c.currentUser.userId ∈ v.users.map User.userId

section Sound

variable {sha256Hex : List UInt8 → List UInt8} {v v' v₀ : View} {i : Input} {ms : List Mark}

/-- Users are appended or keep their identifiers. -/
theorem Change.users_extends (h : Change sha256Hex v i ms v') (hs : Sound v) :
    Extends User.userId v.users v'.users := by
  cases h with
  | addUser => exact .append rfl
  | deposit | placeBid | close | refund => exact .of_eq (map_userId_usersAfter hs.users _)
  | logsIn | changePass | toggleAccount | changeRole => exact .of_eq map_id_overwrite
  | _ => exact .of_eq rfl

/-- No change takes an auction away. -/
theorem Change.auctions_extends (h : Change sha256Hex v i ms v') :
    Extends Auction.auctionId v.auctions v'.auctions := by
  cases h with
  | createAuction _ _ hid => exact .append hid
  | placeBid | close | fileDispute | reject => exact .of_eq map_id_overwrite
  | _ => exact .of_eq rfl

/-- Nor a dispute. -/
theorem Change.disputes_extends (h : Change sha256Hex v i ms v') :
    Extends Dispute.disputeId v.disputes v'.disputes := by
  cases h with
  | fileDispute _ _ _ _ _ hid => exact .append hid
  | reject | refund => exact .of_eq map_id_overwrite
  | _ => exact .of_eq rfl

/-- What is known of a new set of locals. -/
theorem View.setConn_conns {fd fd' : Int} {c c' : Conn}
    (h : (v.setConn fd (some c)).conns fd' = some c') :
    fd' = fd ∧ c' = c ∨ v.conns fd' = some c' := by
  by_cases hfd : fd' = fd
  · subst hfd
    simp only [View.setConn, Function.update_self] at h
    exact .inl ⟨rfl, (Option.some.inj h).symm⟩
  · simp only [View.setConn, Function.update_of_ne hfd] at h
    exact .inr h

/-- Ending a connection leaves the others. -/
theorem View.setConn_none_conns {fd fd' : Int} {c' : Conn}
    (h : (v.setConn fd none).conns fd' = some c') : fd' ≠ fd ∧ v.conns fd' = some c' := by
  by_cases hfd : fd' = fd
  · subst hfd
    simp [View.setConn] at h
  · simp only [View.setConn, Function.update_of_ne hfd] at h
    exact ⟨hfd, h⟩

/-- An open connection has been open, or has just been made. -/
theorem Change.fd_pos (h : Change sha256Hex v i ms v') (hs : Sound v) {fd : Int} {c : Conn}
    (hc : v'.conns fd = some c) : 0 < fd := by
  cases h with
  | restart => simp at hc
  | connect hfd =>
      rcases View.setConn_conns hc with ⟨rfl, -⟩ | hc
      · exact hfd
      · exact hs.fd_pos fd c hc
  | hangUp | signOff => exact hs.fd_pos fd c (View.setConn_none_conns hc).2
  | loginFails hold | logsIn hold =>
      rcases View.setConn_conns hc with ⟨rfl, -⟩ | hc
      · exact hs.fd_pos _ _ hold
      · exact hs.fd_pos fd c hc
  | changePass hold | deposit hold =>
      rcases View.setConn_conns hc with ⟨rfl, -⟩ | hc
      · exact hs.fd_pos _ _ hold.1
      · exact hs.fd_pos fd c hc
  | _ => exact hs.fd_pos fd c hc

/-- Where the record of an authenticated connection is from: the connection had it, with
the same password or another one, or it was read from the file by a login or by a deposit. -/
theorem Change.copy (h : Change sha256Hex v i ms v') {fd : Int} {c : Conn}
    (hc : v'.LoggedIn fd c) :
    v.LoggedIn fd c ∨
      (∃ c₀ req, v.LoggedIn fd c₀ ∧
        c.currentUser = ChangePassPayload.record sha256Hex req c₀.currentUser) ∨
      (∃ u ∈ v.users, c.currentUser = { u with lastLogin := v.clock }) ∨
      (∃ c₀, v.LoggedIn fd c₀ ∧ c.currentUser ∈ v'.users ∧
        c.currentUser.userId = c₀.currentUser.userId) := by
  obtain ⟨hc, hauth⟩ := hc
  cases h with
  | restart => simp at hc
  | connect | loginFails =>
      rcases View.setConn_conns hc with ⟨-, rfl⟩ | hold
      · cases hauth
      · exact .inl ⟨hold, hauth⟩
  | hangUp | signOff => exact .inl ⟨(View.setConn_none_conns hc).2, hauth⟩
  | logsIn _ hu =>
      rcases View.setConn_conns hc with ⟨-, rfl⟩ | hold
      · exact .inr (.inr (.inl ⟨_, mem_of_findByUsername hu, rfl⟩))
      · exact .inl ⟨hold, hauth⟩
  | changePass hlogged =>
      rcases View.setConn_conns hc with ⟨rfl, rfl⟩ | hold
      · exact .inr (.inl ⟨_, _, hlogged, rfl⟩)
      · exact .inl ⟨hold, hauth⟩
  | deposit hlogged _ hw hid =>
      rcases View.setConn_conns hc with ⟨rfl, rfl⟩ | hold
      · exact .inr (.inr (.inr ⟨_, hlogged, hw, hid⟩))
      · exact .inl ⟨hold, hauth⟩
  | _ => exact .inl ⟨hc, hauth⟩

/-- An authenticated connection was one of the same user before, or has just
logged in. -/
theorem Change.loggedIn (h : Change sha256Hex v i ms v') {fd : Int} {c : Conn}
    (hc : v'.LoggedIn fd c) :
    (∃ c₀, v.LoggedIn fd c₀ ∧ c₀.currentUser.userId = c.currentUser.userId) ∨
      ∃ u ∈ v.users, u.userId = c.currentUser.userId := by
  rcases h.copy hc with hold | ⟨c₀, req, hold, heq⟩ | ⟨u, hu, heq⟩ | ⟨c₀, hold, -, hid⟩
  · exact .inl ⟨c, hold, rfl⟩
  · exact .inl ⟨c₀, hold, by rw [heq]; rfl⟩
  · exact .inr ⟨u, hu, by rw [heq]⟩
  · exact .inl ⟨c₀, hold, hid.symm⟩

/-- A dispute was there before, perhaps with another status, or is about an
auction that exists. -/
theorem Change.dispute_mem (h : Change sha256Hex v i ms v') {d : Dispute} (hd : d ∈ v'.disputes) :
    (∃ d₀ ∈ v.disputes, d₀.auctionId = d.auctionId) ∨
      ∃ a ∈ v.auctions, a.auctionId = d.auctionId := by
  cases h with
  | fileDispute _ _ ha _ _ _ hauction =>
      rcases List.mem_append.mp hd with hd | hd
      · exact .inl ⟨d, hd, rfl⟩
      · obtain rfl := List.mem_singleton.mp hd
        exact .inr ⟨_, ha, hauction.symm⟩
  | reject _ _ hmem _ _ _ _ _ hauction | refund _ _ hmem _ _ _ _ _ hauction =>
      rcases mem_overwrite hd with rfl | ⟨hd, -⟩
      · exact .inl ⟨_, hmem, hauction.symm⟩
      · exact .inl ⟨d, hd, rfl⟩
  | _ => exact .inl ⟨d, hd, rfl⟩

/-- **Step lemma** for what every run keeps. -/
theorem Sound.change (hs : Sound v) (hroom : v.HasRoom) (h : Change sha256Hex v i ms v') :
    Sound v' where
  users := (h.users_extends hs).numbered hs.users hroom.users
  auctions := h.auctions_extends.numbered hs.auctions hroom.auctions
  disputes := h.disputes_extends.numbered hs.disputes hroom.disputes
  auction_mem d hd := h.auctions_extends.mem <| by
    rcases h.dispute_mem hd with ⟨d₀, hd₀, heq⟩ | ⟨a, ha, heq⟩
    · exact heq ▸ hs.auction_mem d₀ hd₀
    · exact heq ▸ List.mem_map_of_mem ha
  fd_pos fd c hc := h.fd_pos hs hc
  user_mem fd c hc := (h.users_extends hs).mem <| by
    rcases h.loggedIn hc with ⟨c₀, hc₀, heq⟩ | ⟨u, hu, heq⟩
    · exact heq ▸ hs.user_mem fd c₀ hc₀
    · exact heq ▸ List.mem_map_of_mem hu

end Sound

end OnlineAuction
