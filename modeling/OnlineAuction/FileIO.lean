import OnlineAuction.Lib.Prog
import OnlineAuction.Lib.RecordFile
import OnlineAuction.Models

/-!
# OnlineAuction.FileIO

The calls of `common/file_io.h` and the state they work on.

A call of this module is one critical section of a file function, one pass of
a handler over a file, one access to the connection registry, one operation on
a lock, one reading of the clock or one message written to a socket
(`SysOp`).  `Store` is everything that outlives a request and is shared
between threads except the locks, whose owners are a matter of who runs
(`OnlineAuction.Threads`); `exec` is what each call answers and does when
storage does not fail.
-/

namespace OnlineAuction

/-! ## what is stored -/

/-- The data files; `open` for reading fails on a file never created. -/
inductive FileName
  | users | auctions | bids | sessions | feedback | disputes
  deriving DecidableEq, Repr

/-- The lines of `data/txn.log`, without their time stamp. -/
inductive LogLine
  | hold (user : UInt32) (amount : ℚ)
  | release (user : UInt32) (amount : ℚ)
  | settle (user : UInt32) (amount : ℚ)
  | credit (user : UInt32) (amount : ℚ)
  | bid (auctionId bidderId : UInt32) (amount : ℚ)
  | createAuction (id seller : UInt32) (item : List UInt8) (endTime : Int)
  | closeAuction (id byUser : UInt32)
  | timerClose (auctionId : UInt32)
  | walSettle (auction winner seller : UInt32) (amount : ℚ)
  | walRefund (dispute auction winner seller : UInt32) (amount : ℚ)
  | refundAnomaly
  | fileDispute (disputeId auction byUser : UInt32)
  | resolveDispute (id : UInt32) (status : DisputeStatus) (byMod : UInt32)
  | login (userId : UInt32) (username : List UInt8)
  | logout (userId : UInt32)
  | changePass (userId : UInt32)
  | addUser (id : UInt32) (username : List UInt8) (role : Role)
  | changeRole (user : UInt32) (old new : Role)
  | toggleAccount (target : UInt32) (newStatus : AccountStatus) (byMod : UInt32)
  deriving DecidableEq

/-- An entry of the connection registry of `notify.c`. -/
structure RegistryEntry where
  userId : UInt32
  clientFd : Int
  active : Bool
  deriving DecidableEq

/-- The number of entries of the registry. -/
abbrev maxRegistry : Nat := 128

structure Store where
  users : List User
  auctions : List Auction
  bids : List Bid
  sessions : List Session
  feedback : List Feedback
  disputes : List Dispute
  txnLog : List LogLine
  present : FileName → Bool
  registry : List RegistryEntry
  clock : Int
  sent : List (Int × Message)

/-! ## locks -/

/-- The locks of the server: the per-auction semaphores, the lock of their
initialisation, the wallet buckets, `auth_lock` and `registry_lock`. -/
inductive Lock
  | auctionSem (idx : UInt32)
  | semInit
  | wallet (bucket : UInt32)
  | auth
  | registry
  deriving DecidableEq, Repr

/-! ## the calls -/

inductive SysOp
  | readUser (userId : UInt32)
  | writeUser (u : User)
  | findUserByUsername (username : List UInt8)
  | scanUsers
  | nextUserId
  | readAuction (auctionId : UInt32)
  | writeAuction (a : Auction)
  | scanAuctions
  | nextAuctionId
  | appendBid (b : Bid)
  | nextBidId
  | scanBids
  | markWinningBids (auctionId bidderId : UInt32)
  | findSessionSlot (userId : UInt32)
  | findFreeSlot
  | writeSession (slot : Nat) (s : Session)
  | logTxn (line : LogLine)
  | nextFeedbackId
  | appendFeedback (f : Feedback)
  | scanFeedback
  | markFeedbackReviewed
  | readDispute (disputeId : UInt32)
  | writeDispute (d : Dispute)
  | scanDisputes
  | nextDisputeId
  | registryInsert (userId : UInt32) (fd : Int)
  | registryRemove (userId : UInt32)
  | lookupFd (userId : UInt32)
  | lock (l : Lock)
  | unlock (l : Lock)
  | time
  | send (fd : Int) (m : Message)

/-- The answers: `none` for a failed read, `0` or `-1` for a write, `-1` for a
descriptor that is not registered. -/
abbrev SysOp.Res : SysOp → Type
  | .readUser _ | .findUserByUsername _ => Option User
  | .scanUsers => Option (List User)
  | .readAuction _ => Option Auction
  | .scanAuctions => Option (List Auction)
  | .scanBids => Option (List Bid)
  | .scanFeedback => Option (List Feedback)
  | .readDispute _ => Option Dispute
  | .scanDisputes => Option (List Dispute)
  | .writeUser _ | .writeAuction _ | .appendBid _ | .writeSession _ _ | .appendFeedback _
  | .writeDispute _ => Int
  | .nextUserId | .nextAuctionId | .nextBidId | .nextFeedbackId | .nextDisputeId => UInt32
  | .findSessionSlot _ | .findFreeSlot => Option Nat
  | .lookupFd _ | .time => Int
  | .markWinningBids _ _ | .logTxn _ | .markFeedbackReviewed | .registryInsert _ _
  | .registryRemove _ | .lock _ | .unlock _ | .send _ _ => Unit

/-- The signature of the calls to the system. -/
abbrev SysSig : Sig := ⟨SysOp, SysOp.Res⟩

/-! ## what the calls do -/

/-- `find_user_by_username`: the first record in use with this name. -/
def findByUsername (users : List User) (username : List UInt8) : Option User :=
  users.find? fun u => !u.isDeleted && strncmpEq maxUsername u.username.val username

/-- Who is found by name is stored. -/
theorem mem_of_findByUsername {users : List User} {name : List UInt8} {u : User}
    (h : findByUsername users name = some u) : u ∈ users :=
  List.mem_of_find?_eq_some h

/-- `find_session_slot`: the first active slot of the user. -/
def sessionSlot (sessions : List Session) (userId : UInt32) : Option Nat :=
  sessions.findIdx? fun s => s.isActive && s.userId == userId

/-- `find_free_slot`: the first inactive slot, else one past the end, else none
when `MAX_SESSIONS` are taken. -/
def freeSlot (sessions : List Session) : Option Nat :=
  match (sessions.take maxSessions).findIdx? fun s => !s.isActive with
  | some slot => some slot
  | none => if sessions.length < maxSessions then some sessions.length else none

/-- The pass of `close_auction_internal` over `bids.dat`. -/
def markWinning (auctionId bidderId : UInt32) (bids : List Bid) : List Bid :=
  bids.map fun b =>
    if b.auctionId = auctionId ∧ b.bidderId = bidderId then { b with isWinning := true } else b

/-- `notify_register`: the first inactive entry is taken, if there is one. -/
def registerFd (registry : List RegistryEntry) (userId : UInt32) (fd : Int) :
    List RegistryEntry :=
  match registry.findIdx? fun e => !e.active with
  | some i => registry.set i ⟨userId, fd, true⟩
  | none => registry

/-- `notify_unregister`: the first active entry of the user is freed. -/
def unregisterFd (registry : List RegistryEntry) (userId : UInt32) : List RegistryEntry :=
  match registry.findIdx? fun e => e.active && e.userId == userId with
  | some i => registry.modify i fun e => { e with active := false, clientFd := -1 }
  | none => registry

/-- `lookup_fd`: the descriptor of the first active entry of the user. -/
def lookupFdIn (registry : List RegistryEntry) (userId : UInt32) : Int :=
  match registry.find? fun e => e.active && e.userId == userId with
  | some e => e.clientFd
  | none => -1

namespace Store

/-- The file exists from now on. -/
def create (s : Store) (f : FileName) : Store :=
  { s with present := Function.update s.present f true }

/-- Open a file for reading: its records, unless it was never created. -/
def scan {α : Type} (s : Store) (f : FileName) (records : List α) : Option (List α) :=
  if s.present f then some records else none

/-- The meaning of the calls when storage does not fail.  Taking a lock always
succeeds here: a request that runs alone never waits. -/
def exec : Prog.Handler SysSig Store
  | .readUser id, s => (readRec s.users id, s)
  | .writeUser u, s =>
      (0, { s.create .users with users := writeRec .zero s.users u.userId u })
  | .findUserByUsername name, s => (findByUsername s.users name, s)
  | .scanUsers, s => (s.scan .users s.users, s)
  | .nextUserId, s => (nextRecId s.users, s)
  | .readAuction id, s => (readRec s.auctions id, s)
  | .writeAuction a, s =>
      (0, { s.create .auctions with auctions := writeRec .zero s.auctions a.auctionId a })
  | .scanAuctions, s => (s.scan .auctions s.auctions, s)
  | .nextAuctionId, s => (nextRecId s.auctions, s)
  | .appendBid b, s => (0, { s.create .bids with bids := s.bids ++ [b] })
  | .nextBidId, s => (nextRecId s.bids, s)
  | .scanBids, s => (s.scan .bids s.bids, s)
  | .markWinningBids aid bidder, s =>
      ((), { s with bids := markWinning aid bidder s.bids })
  | .findSessionSlot id, s => (sessionSlot s.sessions id, s)
  | .findFreeSlot, s => (freeSlot s.sessions, s.create .sessions)
  | .writeSession slot x, s =>
      (0, { s.create .sessions with sessions := writeAt .zero s.sessions slot x })
  | .logTxn line, s => ((), { s with txnLog := s.txnLog ++ [line] })
  | .nextFeedbackId, s => (if s.present .feedback then nextRecId s.feedback else 0, s)
  | .appendFeedback f, s => (0, { s.create .feedback with feedback := s.feedback ++ [f] })
  | .scanFeedback, s => (s.scan .feedback s.feedback, s)
  | .markFeedbackReviewed, s =>
      ((), { s with feedback := s.feedback.map fun f => { f with reviewed := true } })
  | .readDispute id, s => (readRec s.disputes id, s)
  | .writeDispute d, s =>
      (0, { s.create .disputes with disputes := writeRec .zero s.disputes d.disputeId d })
  | .scanDisputes, s => (s.scan .disputes s.disputes, s)
  | .nextDisputeId, s => (nextRecId s.disputes, s)
  | .registryInsert id fd, s => ((), { s with registry := registerFd s.registry id fd })
  | .registryRemove id, s => ((), { s with registry := unregisterFd s.registry id })
  | .lookupFd id, s => (lookupFdIn s.registry id, s)
  | .lock _, s => ((), s)
  | .unlock _, s => ((), s)
  | .time, s => (s.clock, s)
  | .send fd m, s => ((), { s with sent := s.sent ++ [(fd, m)] })

end Store

end OnlineAuction
