import OnlineAuction.Admin
import OnlineAuction.AuctionEngine
import OnlineAuction.BidHandler
import OnlineAuction.Lib.Conduct
import OnlineAuction.Lib.Growth
import OnlineAuction.SeedAdmin
import OnlineAuction.Threads
import OnlineAuction.WalletEffect

/-!
# OnlineAuction.Creations

The requests that create records, side by side.

A user, an auction and a bid get the identifier that `next_user_id`, `next_auction_id`
and `next_bid_id` compute from the size of the file, and the record is written later, a
user and an auction at the place of its identifier.  `Creation.conduct` is what the
requests do in terms of what they remember.
-/

namespace OnlineAuction

/-- A request that creates a record. -/
inductive Creation
  | addUser (clientFd : Int) (req : AddUserPayload)
  | createAuction (clientFd : Int) (req : CreateAuctionPayload) (seller : User)
  | placeBid (clientFd : Int) (req : PlaceBidPayload) (bidder : User)

namespace Creation

/-- Its program, in system calls. -/
def prog (sha256Hex : List UInt8 → List UInt8) : Creation → Prog SysSig Unit
  | .addUser clientFd req => (handleAddUser sha256Hex clientFd req).subst Api.impl
  | .createAuction clientFd req seller => (handleCreateAuction clientFd req seller).subst Api.impl
  | .placeBid clientFd req bidder => (handlePlaceBid clientFd req bidder).subst Api.impl

/-! The record that a call creates, and the one that the client is told of. -/

@[simp] def madeUser : Creation → SysOp → Option User
  | .addUser _ _, .writeUser u => some u
  | _, _ => none

@[simp] def madeAuction : Creation → SysOp → Option Auction
  | .createAuction _ _ _, .writeAuction a => some a
  | _, _ => none

@[simp] def madeBid : Creation → SysOp → Option Bid
  | .placeBid _ _ _, .appendBid b => some b
  | _, _ => none

@[simp] def toldUser : Creation → SysOp → Option User
  | .addUser _ _, .send _ ⟨.msgAddUserResp, .errOk, .user u⟩ => some u
  | _, _ => none

@[simp] def toldAuction : Creation → SysOp → Option Auction
  | .createAuction _ _ _, .send _ ⟨.msgCreateAuctionResp, .errOk, .auction a⟩ => some a
  | _, _ => none

@[simp] def toldBid : Creation → SysOp → Option Bid
  | .placeBid _ _ _, .send _ ⟨.msgPlaceBidResp, .errOk, .bid b⟩ => some b
  | _, _ => none

section Made

variable {c : Creation} {op : SysOp}

/-- Only `write_user` makes a user. -/
theorem madeUser_eq_none (h : ∀ u, op ≠ .writeUser u) : c.madeUser op = none := by
  unfold madeUser
  split
  · exact absurd rfl (h _)
  · rfl

/-- Only `write_auction` makes an auction. -/
theorem madeAuction_eq_none (h : ∀ a, op ≠ .writeAuction a) : c.madeAuction op = none := by
  unfold madeAuction
  split
  · exact absurd rfl (h _)
  · rfl

/-- Only `append_bid` makes a bid. -/
theorem madeBid_eq_none (h : ∀ b, op ≠ .appendBid b) : c.madeBid op = none := by
  unfold madeBid
  split
  · exact absurd rfl (h _)
  · rfl

end Made

end Creation

/-- The auction that a bid rewrites. -/
@[simp] def Creation.bidOn : Creation → SysOp → Option Auction
  | .placeBid _ _ _, .writeAuction a => some a
  | _, _ => none

/-- The record as a client may see it. -/
def User.blank (u : User) : User := { u with password := .zero _ }

/-! ## what a request does -/

/-- What a request remembers: the user it has read last, and the record it has created. -/
structure Made where
  seen : Option User
  user : Option User
  auction : Option Auction
  bid : Option Bid

/-- The user that a call has read. -/
@[simp] def userRead : Event SysSig → Option User
  | ⟨.readUser _, r⟩ => r
  | _ => none

@[simp] def Made.note (c : Creation) (g : Made) (e : Event SysSig) : Made where
  seen := (userRead e).or g.seen
  user := (c.madeUser e.1).or g.user
  auction := (c.madeAuction e.1).or g.auction
  bid := (c.madeBid e.1).or g.bid

/-- A new user has no money, and a bid moves holds of users that have been read. -/
@[simp] def Creation.WritesUser (c : Creation) (g : Made) (v : User) : Prop := match c with
  | .addUser _ _ => v.walletBalance = 0 ∧ v.walletHold = 0
  | .createAuction _ _ _ => False
  | .placeBid _ _ _ => ∃ u ∈ g.seen, ∃ hold, walletDelta u 0 hold = some v

/-- Who is told of a record has created it. -/
@[simp] def Creation.Tells (c : Creation) (g : Made) (op : SysOp) : Prop :=
  (∀ v ∈ c.toldUser op, ∃ u ∈ g.user, u.blank = v) ∧
    (∀ a ∈ c.toldAuction op, a ∈ g.auction) ∧ ∀ b ∈ c.toldBid op, b ∈ g.bid

/-- What a request calls next. -/
@[simp] def Creation.Calls (c : Creation) (g : Made) (op : SysOp) : Prop :=
  (match op with
    | .writeUser v => c.WritesUser g v
    | .writeAuction _ => ∀ fd req, c ≠ .addUser fd req
    | .appendBid b => c.madeBid op = some b
    | .markWinningBids _ _ => False
    | _ => True) ∧ c.Tells g op

def Creation.conduct (c : Creation) : Conduct SysSig Made where
  first := ⟨none, none, none, none⟩
  note := Made.note c
  pre := c.Calls
  post _ _ _ := True

@[simp] theorem conduct_pre (c : Creation) (g : Made) (o : SysOp) :
    c.conduct.pre g o = c.Calls g o := rfl

@[simp] theorem conduct_post (c : Creation) (g : Made) (o : SysOp) (r : o.Res) :
    c.conduct.post g o r = True := rfl

@[simp] theorem conduct_note (c : Creation) (g : Made) (e : Event SysSig) :
    c.conduct.note g e = Made.note c g e := rfl

/-! ## the requests -/

section Programs

variable (sha256Hex : List UInt8 → List UInt8) (clientFd : Int) {g : Made}

/-- A new user has no money. -/
theorem newUser_wallet (req : AddUserPayload) (id : UInt32) (now : Int) :
    (newUser sha256Hex req id now).walletBalance = 0 ∧
      (newUser sha256Hex req id now).walletHold = 0 := ⟨rfl, rfl⟩

/-- `handle_add_user` writes one user, under the identifier that it was given. -/
theorem keeps_addUser (req : AddUserPayload) :
    (Creation.addUser clientFd req).conduct.Keeps (fun _ _ => True)
      ((Creation.addUser clientFd req).prog sha256Hex) g := by
  simp [Creation.prog, handleAddUser, Prog.subst_ite, Api.impl_sys, newUser_wallet, User.blank]

/-- `handle_create_auction` writes one auction, under the identifier that it was given. -/
theorem keeps_createAuction (req : CreateAuctionPayload) (seller : User) :
    (Creation.createAuction clientFd req seller).conduct.Keeps (fun _ _ => True)
      ((Creation.createAuction clientFd req seller).prog sha256Hex) g := by
  simp [Creation.prog, handleCreateAuction, Prog.subst_ite, Api.impl_sys]

section PlaceBid

variable (req : PlaceBidPayload) (bidder : User)

/-- Whatever a wallet function has read, the request forgets. -/
theorem keeps_applyWalletDelta (id : UInt32) (hold : ℚ) {Q : Int → Made → Prop}
    (hQ : ∀ r seen, Q r { g with seen := seen }) :
    (Creation.placeBid clientFd req bidder).conduct.Keeps Q (applyWalletDelta id 0 hold) g := by
  simp only [applyWalletDelta, Sys.readUser, Prog.bind_call, Prog.bind_pure]
  refine ⟨by simp, fun r _ => ?_⟩
  cases r with
  | none => exact hQ _ _
  | some u =>
      cases hv : walletDelta u 0 hold with
      | none => simpa [hv] using hQ _ _
      | some v =>
          have hwrites : ∃ hold, walletDelta u 0 hold = some v := ⟨hold, hv⟩
          simpa [hv, hwrites] using fun r => hQ r _

/-- Placing or releasing a hold. -/
def WalletCall.OfHold : WalletCall → Prop
  | .placeHold _ _ | .releaseHold _ _ => True
  | .settlePayment _ _ | .creditWallet _ _ => False

/-- A wallet call on a hold writes back the record that it has read. -/
theorem keeps_walletCall {c : WalletCall} (hc : c.OfHold) {Q : Int → Made → Prop}
    (hQ : ∀ r seen, Q r { g with seen := seen }) :
    (Creation.placeBid clientFd req bidder).conduct.Keeps Q c.prog g := by
  cases c with
  | placeHold id amount =>
      simp only [WalletCall.prog, placeHold, Sys.lock, Sys.unlock, Sys.readUser, Sys.logTxn,
        Prog.bind_call, Prog.bind_pure, Prog.pure_eq]
      refine ⟨by simp, fun _ _ => ⟨by simp, fun r _ => ?_⟩⟩
      cases r with
      | none => simpa using hQ _ _
      | some u =>
          rw [Conduct.keeps_ite]
          refine ⟨fun _ => by simpa using hQ _ _, fun _ => ?_⟩
          rw [Conduct.keeps_bind]
          refine keeps_applyWalletDelta clientFd req bidder id amount fun r seen => ?_
          simpa using hQ _ _
  | releaseHold id amount =>
      simp only [WalletCall.prog, releaseHold, lockedDelta, Sys.lock, Sys.unlock, Sys.logTxn,
        Prog.bind_call, Prog.bind_pure, Prog.pure_eq]
      refine ⟨by simp, fun _ _ => ?_⟩
      rw [Conduct.keeps_bind]
      refine keeps_applyWalletDelta clientFd req bidder id (-amount) fun r seen => ?_
      simpa using hQ _ _
  | _ => exact hc.elim

/-- The release of the leader's hold creates nothing. -/
theorem keeps_releaseLeader (a : Auction) (site : Site) {Q : Int → Made → Prop}
    (hQ : ∀ r seen, Q r { g with seen := seen }) :
    (Creation.placeBid clientFd req bidder).conduct.Keeps Q
      ((releaseLeader site a).subst Api.impl) g := by
  unfold releaseLeader
  rw [Prog.subst_ite, Conduct.keeps_ite]
  refine ⟨fun _ => ?_, fun _ => by simpa using hQ 0 g.seen⟩
  simp only [wallet, Prog.subst_call, Api.impl_wallet, Conduct.keeps_bind]
  have hcall : (WalletCall.releaseHold a.highestBidderId a.currentBid).OfHold := trivial
  exact keeps_walletCall clientFd req bidder hcall hQ

/-- Recording a bid appends one, under the identifier that it was given. -/
theorem keeps_recordBid (a : Auction) {Q : Bid → Made → Prop}
    (hQ : ∀ b seen, Q b { g with seen := seen, bid := some b }) :
    (Creation.placeBid clientFd req bidder).conduct.Keeps Q
      ((recordBid req bidder a).subst Api.impl) g := by
  unfold recordBid
  rw [Prog.subst_bind, Conduct.keeps_bind]
  refine keeps_releaseLeader clientFd req bidder a _ fun _ seen => ?_
  simp only [wallet, Prog.bind_call, Prog.subst_call, Api.impl_wallet, Conduct.keeps_bind]
  have hcall : (WalletCall.placeHold bidder.userId req.amount).OfHold := trivial
  refine keeps_walletCall clientFd req bidder hcall fun _ seen => ?_
  simpa [Api.impl_sys] using fun _ _ => hQ _ _

/-- So does what is done inside the semaphore. -/
theorem keeps_placeBidLocked : (Creation.placeBid clientFd req bidder).conduct.Keeps
    (fun _ _ => True) ((placeBidLocked clientFd req bidder).subst Api.impl) g := by
  simp only [placeBidLocked, getAuctionSem, lock, unlock, readAuction, Prog.bind_call,
    Prog.bind_pure, Prog.pure_eq, Prog.subst_call, Api.impl_sys]
  refine ⟨by simp, fun _ _ => ⟨by simp, fun _ _ => ⟨by simp, fun _ _ => ⟨by simp, fun r _ => ?_⟩⟩⟩⟩
  cases r with
  | none => simp [Api.impl_sys]
  | some a =>
      simp only [Prog.subst_ite, Conduct.keeps_ite]
      refine ⟨fun _ => by simp [Api.impl_sys], fun _ =>
        ⟨fun _ => by simp [Api.impl_sys], fun _ => ?_⟩⟩
      rw [Prog.subst_bind, Conduct.keeps_bind]
      refine keeps_recordBid clientFd req bidder a fun b seen => ?_
      simp [Prog.subst_ite, Api.impl_sys, notifyOutbid, pushNotification]

/-- And the whole of `handle_place_bid`. -/
theorem keeps_placeBid : (Creation.placeBid clientFd req bidder).conduct.Keeps (fun _ _ => True)
    ((Creation.placeBid clientFd req bidder).prog sha256Hex) g := by
  simp only [Creation.prog, handlePlaceBid, readAuction, readUser, Prog.bind_call, Prog.bind_pure,
    Prog.subst_call, Api.impl_sys]
  refine ⟨by simp, fun r _ => ?_⟩
  cases r with
  | none => simp [Api.impl_sys]
  | some a =>
      simp only [Prog.subst_ite, Conduct.keeps_ite]
      refine ⟨fun _ => by simp [Api.impl_sys], fun _ => ⟨by simp, fun r _ => ?_⟩⟩
      cases r with
      | none => simp [Api.impl_sys]
      | some u =>
          simp only [Prog.bind_of_pure, Prog.subst_ite, Conduct.keeps_ite]
          exact ⟨fun _ => by simp [Api.impl_sys],
            fun _ => keeps_placeBidLocked clientFd req bidder⟩

end PlaceBid

end Programs

end OnlineAuction
