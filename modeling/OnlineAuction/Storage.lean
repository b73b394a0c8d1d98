import OnlineAuction.FileCalls
import OnlineAuction.RecordLayout
import OnlineAuction.Service

/-!
# OnlineAuction.Storage

The calls of the server on files of bytes.

`Performs` says what a call answers and does when the data files are bytes and the functions of
`FileCalls` work on them: a record that is written is any string of bytes that stands for it.
`OnDisk` relates such a disk to the store of `FileIO`.  Every call then does on the disk what
`Store.exec` does on the store (`Performs.sound`), and so does every program
(`RunsOnDisk.sound`); no descriptor is left open.  A store whose records fit their fields has a
disk (`onDisk_disk`).
-/

namespace OnlineAuction

open Posix FileCalls

/-! ## calls on a disk -/

/-- What is not in a data file. -/
structure Beyond where
  txnLog : List LogLine
  registry : List RegistryEntry
  clock : Int
  sent : List (Int × Message)

def Store.rest (s : Store) : Beyond := ⟨s.txnLog, s.registry, s.clock, s.sent⟩

/-- The calls that touch no data file. -/
def SysOp.inMemory : SysOp → Bool
  | .logTxn _ | .registryInsert _ _ | .registryRemove _ | .lookupFd _ | .lock _ | .unlock _
  | .time | .send _ _ => true
  | _ => false

/-- What was read are these records, as bytes. -/
def Reads {size : Nat} {α : Type} (ofBytes : CharArray size → Option α)
    (b : Option (CharArray size)) (x : Option α) : Prop :=
  Option.Rel (fun b x => ofBytes b = some x) b x

/-- What a loop gives with enough fuel. -/
def Loops {α : Type} (f : Nat → FileProg (Option α)) (d : Disk FileName) (r : α)
    (d' : Disk FileName) : Prop :=
  ∃ n, ∀ fuel ≥ n, Prog.run Disk.exec (f fuel) d = (some r, d')

/-- What a program gives. -/
abbrev Gives {α : Type} (p : FileProg α) (d : Disk FileName) (r : α) (d' : Disk FileName) : Prop :=
  Prog.run Disk.exec p d = (r, d')

/-- The slot that an answer stands for. -/
def slotOf (slot : Int) : Option Nat := if slot < 0 then none else some slot.toNat

/-- What a call answers and does on a disk. -/
inductive Performs : (op : SysOp) → Disk FileName × Beyond → op.Res → Disk FileName × Beyond → Prop
  | readUser {id d m b d' r} (hrun : Gives (FileCalls.readUser id) d b d')
      (hread : Reads User.ofBytes b r) : Performs (.readUser id) (d, m) r (d', m)
  | writeUser {u b d m d' r} (hb : User.ofBytes b = some u)
      (hrun : Gives (FileCalls.writeUser b) d r d') : Performs (.writeUser u) (d, m) r (d', m)
  | findUserByUsername {name d m b d' r}
      (hrun : Loops (FileCalls.findUserByUsername name) d b d') (hread : Reads User.ofBytes b r) :
      Performs (.findUserByUsername name) (d, m) r (d', m)
  | scanUsers {d m file d' r} (hrun : Loops (readAll .users userSize) d file d')
      (hread : Decodes User.ofBytes file r) : Performs .scanUsers (d, m) r (d', m)
  | nextUserId {d m d' r} (hrun : Gives FileCalls.nextUserId d r d') :
      Performs .nextUserId (d, m) r (d', m)
  | readAuction {id d m b d' r} (hrun : Gives (FileCalls.readAuction id) d b d')
      (hread : Reads Auction.ofBytes b r) : Performs (.readAuction id) (d, m) r (d', m)
  | writeAuction {a b d m d' r} (hb : Auction.ofBytes b = some a)
      (hrun : Gives (FileCalls.writeAuction b) d r d') :
      Performs (.writeAuction a) (d, m) r (d', m)
  | scanAuctions {d m file d' r} (hrun : Loops (readAll .auctions auctionSize) d file d')
      (hread : Decodes Auction.ofBytes file r) : Performs .scanAuctions (d, m) r (d', m)
  | nextAuctionId {d m d' r} (hrun : Gives FileCalls.nextAuctionId d r d') :
      Performs .nextAuctionId (d, m) r (d', m)
  | appendBid {x b d m d' r} (hb : Bid.ofBytes b = some x)
      (hrun : Gives (FileCalls.appendBid b) d r d') : Performs (.appendBid x) (d, m) r (d', m)
  | nextBidId {d m d' r} (hrun : Gives FileCalls.nextBidId d r d') :
      Performs .nextBidId (d, m) r (d', m)
  | scanBids {d m file d' r} (hrun : Loops (readAll .bids bidSize) d file d')
      (hread : Decodes Bid.ofBytes file r) : Performs .scanBids (d, m) r (d', m)
  | markWinningBids {aid bidder d m offset d'}
      (hrun : Loops (FileCalls.markWinningBids aid bidder) d offset d') :
      Performs (.markWinningBids aid bidder) (d, m) () (d', m)
  | findSessionSlot {id d m slot d'} (hrun : Loops (FileCalls.findSessionSlot id) d slot d') :
      Performs (.findSessionSlot id) (d, m) (slotOf slot) (d', m)
  | findFreeSlot {d m slot d'} (hrun : Loops FileCalls.findFreeSlot d slot d') :
      Performs .findFreeSlot (d, m) (slotOf slot) (d', m)
  | writeSession {slot x b d m d' r} (hb : Session.ofBytes b = some x)
      (hrun : Gives (FileCalls.writeSession slot b) d r d') :
      Performs (.writeSession slot x) (d, m) r (d', m)
  | nextFeedbackId {d m d' r} (hrun : Gives FileCalls.nextFeedbackId d r d') :
      Performs .nextFeedbackId (d, m) r (d', m)
  | appendFeedback {x b d m d' r} (hb : Feedback.ofBytes b = some x)
      (hrun : Gives (FileCalls.appendFeedback b) d r d') :
      Performs (.appendFeedback x) (d, m) r (d', m)
  | scanFeedback {d m file d' r} (hrun : Loops (readAll .feedback feedbackSize) d file d')
      (hread : Decodes Feedback.ofBytes file r) : Performs .scanFeedback (d, m) r (d', m)
  | markFeedbackReviewed {d m offset d'}
      (hrun : Loops FileCalls.markFeedbackReviewed d offset d') :
      Performs .markFeedbackReviewed (d, m) () (d', m)
  | readDispute {id d m b d' r} (hrun : Gives (FileCalls.readDispute id) d b d')
      (hread : Reads Dispute.ofBytes b r) : Performs (.readDispute id) (d, m) r (d', m)
  | writeDispute {x b d m d' r} (hb : Dispute.ofBytes b = some x)
      (hrun : Gives (FileCalls.writeDispute b) d r d') :
      Performs (.writeDispute x) (d, m) r (d', m)
  | scanDisputes {d m file d' r} (hrun : Loops (readAll .disputes disputeSize) d file d')
      (hread : Decodes Dispute.ofBytes file r) : Performs .scanDisputes (d, m) r (d', m)
  | nextDisputeId {d m d' r} (hrun : Gives FileCalls.nextDisputeId d r d') :
      Performs .nextDisputeId (d, m) r (d', m)
  | inMemory {op : SysOp} {s s' : Store} {d r} (hop : op.inMemory = true)
      (hexec : Store.exec op s = (r, s')) : Performs op (d, s.rest) r (d, s'.rest)

/-- What a program gives on a disk. -/
inductive RunsOnDisk {α : Type} :
    Prog SysSig α → Disk FileName × Beyond → α → Disk FileName × Beyond → Prop
  | pure {a w} : RunsOnDisk (.pure a) w a w
  | call {op : SysOp} {k : op.Res → Prog SysSig α} {w w' w'' r a} (hcall : Performs op w r w')
      (hrest : RunsOnDisk (k r) w' a w'') : RunsOnDisk (.call op k) w a w''

/-! ## stores on a disk -/

/-- The file is there, or not, and its records are these. -/
def Holds {size : Nat} {α : Type} (ofBytes : CharArray size → Option α) (d : Disk FileName)
    (path : FileName) (present : Bool) (records : List α) : Prop :=
  ∃ bs, FileIs d path present bs ∧ List.Forall₂ (fun b x => ofBytes b = some x) bs records

/-- The data files are those of the store. -/
structure OnDisk (d : Disk FileName) (s : Store) : Prop where
  users : Holds User.ofBytes d .users (s.present .users) s.users
  auctions : Holds Auction.ofBytes d .auctions (s.present .auctions) s.auctions
  bids : Holds Bid.ofBytes d .bids (s.present .bids) s.bids
  sessions : Holds Session.ofBytes d .sessions (s.present .sessions) s.sessions
  feedback : Holds Feedback.ofBytes d .feedback (s.present .feedback) s.feedback
  disputes : Holds Dispute.ofBytes d .disputes (s.present .disputes) s.disputes

section Files

variable {size : Nat} {α : Type} {ofBytes : CharArray size → Option α} {d : Disk FileName}
  {path : FileName} {present : Bool} {records : List α} {bs : List (CharArray size)} {s : Store}

/-- A write to another file does not matter. -/
theorem Holds.of_ne (h : Holds ofBytes d path present records) {path' : FileName}
    (hne : path ≠ path') (bytes : List UInt8) :
    Holds ofBytes (d.put path' bytes) path present records := by
  obtain ⟨bs, hfile, hbs⟩ := h
  exact ⟨bs, ⟨(Disk.put_content_ne hne).trans hfile.content, hfile.absent⟩, hbs⟩

/-- A file holds the records whose bytes were put there. -/
theorem Holds.of_put (h : List.Forall₂ (fun b x => ofBytes b = some x) bs records) :
    Holds ofBytes (d.put path (pack bs)) path true records := ⟨bs, .of_put bs, h⟩

/-- One file is written. -/
theorem OnDisk.put_users {l : List User} {bs : List (CharArray userSize)} (h : OnDisk d s)
    (hbs : List.Forall₂ (fun b x => User.ofBytes b = some x) bs l) :
    OnDisk (d.put .users (pack bs)) { s.create .users with users := l } :=
  ⟨.of_put hbs, h.auctions.of_ne (by decide) _, h.bids.of_ne (by decide) _,
    h.sessions.of_ne (by decide) _, h.feedback.of_ne (by decide) _, h.disputes.of_ne (by decide) _⟩

/-- Putting the bytes of other auctions. -/
theorem OnDisk.put_auctions {l : List Auction} {bs : List (CharArray auctionSize)}
    (h : OnDisk d s) (hbs : List.Forall₂ (fun b x => Auction.ofBytes b = some x) bs l) :
    OnDisk (d.put .auctions (pack bs)) { s.create .auctions with auctions := l } :=
  ⟨h.users.of_ne (by decide) _, .of_put hbs, h.bids.of_ne (by decide) _,
    h.sessions.of_ne (by decide) _, h.feedback.of_ne (by decide) _, h.disputes.of_ne (by decide) _⟩

/-- Putting the bytes of other bids. -/
theorem OnDisk.put_bids {l : List Bid} {bs : List (CharArray bidSize)} (h : OnDisk d s)
    (hbs : List.Forall₂ (fun b x => Bid.ofBytes b = some x) bs l) :
    OnDisk (d.put .bids (pack bs)) { s.create .bids with bids := l } :=
  ⟨h.users.of_ne (by decide) _, h.auctions.of_ne (by decide) _, .of_put hbs,
    h.sessions.of_ne (by decide) _, h.feedback.of_ne (by decide) _, h.disputes.of_ne (by decide) _⟩

/-- Putting the bytes of other sessions. -/
theorem OnDisk.put_sessions {l : List Session} {bs : List (CharArray sessionSize)}
    (h : OnDisk d s) (hbs : List.Forall₂ (fun b x => Session.ofBytes b = some x) bs l) :
    OnDisk (d.put .sessions (pack bs)) { s.create .sessions with sessions := l } :=
  ⟨h.users.of_ne (by decide) _, h.auctions.of_ne (by decide) _, h.bids.of_ne (by decide) _,
    .of_put hbs, h.feedback.of_ne (by decide) _, h.disputes.of_ne (by decide) _⟩

/-- Putting the bytes of other feedback. -/
theorem OnDisk.put_feedback {l : List Feedback} {bs : List (CharArray feedbackSize)}
    (h : OnDisk d s) (hbs : List.Forall₂ (fun b x => Feedback.ofBytes b = some x) bs l) :
    OnDisk (d.put .feedback (pack bs)) { s.create .feedback with feedback := l } :=
  ⟨h.users.of_ne (by decide) _, h.auctions.of_ne (by decide) _, h.bids.of_ne (by decide) _,
    h.sessions.of_ne (by decide) _, .of_put hbs, h.disputes.of_ne (by decide) _⟩

/-- Putting the bytes of other disputes. -/
theorem OnDisk.put_disputes {l : List Dispute} {bs : List (CharArray disputeSize)}
    (h : OnDisk d s) (hbs : List.Forall₂ (fun b x => Dispute.ofBytes b = some x) bs l) :
    OnDisk (d.put .disputes (pack bs)) { s.create .disputes with disputes := l } :=
  ⟨h.users.of_ne (by decide) _, h.auctions.of_ne (by decide) _, h.bids.of_ne (by decide) _,
    h.sessions.of_ne (by decide) _, h.feedback.of_ne (by decide) _, .of_put hbs⟩

/-- The records fit their fields, and there are none if there is no file. -/
abbrev FileFits {α : Type} (present : Bool) (records : List α) (fits : α → Prop) : Prop :=
  (present = false → records = []) ∧ ∀ x ∈ records, fits x

/-- Every data file of the store can be written. -/
abbrev Store.Fits (s : Store) : Prop :=
  FileFits (s.present .users) s.users User.Fits ∧
    FileFits (s.present .auctions) s.auctions Auction.Fits ∧
    FileFits (s.present .bids) s.bids Bid.Fits ∧
    FileFits (s.present .sessions) s.sessions Session.Fits ∧
    FileFits (s.present .feedback) s.feedback Feedback.Fits ∧
    FileFits (s.present .disputes) s.disputes Dispute.Fits

def Store.fileBytes (s : Store) : FileName → List UInt8
  | .users => pack (s.users.map User.bytes)
  | .auctions => pack (s.auctions.map Auction.bytes)
  | .bids => pack (s.bids.map Bid.bytes)
  | .sessions => pack (s.sessions.map Session.bytes)
  | .feedback => pack (s.feedback.map Feedback.bytes)
  | .disputes => pack (s.disputes.map Dispute.bytes)

/-- The disk with the data files of the store, and no open descriptor. -/
def Store.disk (s : Store) : Disk FileName :=
  ⟨fun f => if s.present f then some (s.fileBytes f) else none, [none], []⟩

/-- A file holds the records that were laid out in it. -/
theorem Holds.of_bytes {bytes : α → CharArray size} {fits : α → Prop}
    (h : FileFits present records fits) (hbytes : ∀ {x}, fits x → ofBytes (bytes x) = some x)
    (hcontent : d.content path = if present then some (pack (records.map bytes)) else none) :
    Holds ofBytes d path present records := by
  refine ⟨records.map bytes, ⟨hcontent, fun habsent => ?_⟩, ?_⟩
  · rw [h.1 habsent, List.map_nil]
  · rw [List.forall₂_map_left_iff, List.forall₂_same]
    exact fun x hx => hbytes (h.2 x hx)

/-- A store whose records fit has a disk. -/
theorem onDisk_disk (h : s.Fits) : OnDisk s.disk s := by
  obtain ⟨husers, hauctions, hbids, hsessions, hfeedback, hdisputes⟩ := h
  exact ⟨.of_bytes husers User.ofBytes_bytes rfl, .of_bytes hauctions Auction.ofBytes_bytes rfl,
    .of_bytes hbids Bid.ofBytes_bytes rfl, .of_bytes hsessions Session.ofBytes_bytes rfl,
    .of_bytes hfeedback Feedback.ofBytes_bytes rfl, .of_bytes hdisputes Dispute.ofBytes_bytes rfl⟩

/-- The disk of a store is ready. -/
theorem ready_disk : Ready s.disk 0 := ⟨rfl, rfl⟩

/-- A file that was there is there as before. -/
theorem OnDisk.of_present {s' : Store} {f : FileName} (h : OnDisk d (s'.create f))
    (hpresent : s'.present f = true) : OnDisk d s' := by
  have hsame : s'.create f = s' := by
    rw [Store.create, ← hpresent, Function.update_eq_self]
  rwa [hsame] at h

end Files

/-! ## one call -/

section Reading

variable {size : Nat} {α : Type} {ofBytes : CharArray size → Option α} {bs : List (CharArray size)}
  {records : List α} {b : Option (CharArray size)} {x y : Option α}

/-- Bytes are read as one record at most. -/
theorem Reads.unique (h : Reads ofBytes b x) (h' : Reads ofBytes b y) : x = y := by
  cases h with
  | none => cases h'; rfl
  | some h =>
      cases h' with
      | some h' => exact h.symm.trans h'

/-- A file is read as one list at most. -/
theorem Decodes.unique {file : Option (List (CharArray size))} {l l' : Option (List α)}
    (h : Decodes ofBytes file l) (h' : Decodes ofBytes file l') : l = l' := by
  have hlist {bs : List (CharArray size)} {l l' : List α}
      (h : List.Forall₂ (fun b x => ofBytes b = some x) bs l)
      (h' : List.Forall₂ (fun b x => ofBytes b = some x) bs l') : l = l' := by
    induction h generalizing l' with
    | nil => cases h'; rfl
    | cons hx _ ih =>
        cases h' with
        | cons hy h' => rw [Option.some.inj (hx.symm.trans hy), ih h']
  cases h with
  | none => cases h'; rfl
  | some h =>
      cases h' with
      | some h' => rw [hlist h h']

/-- What a loop gives is what it gives with enough fuel. -/
theorem Loops.unique {β : Type} {f : Nat → FileProg (Option β)} {d d' d'' : Disk FileName}
    {r r' : β} (h : Loops f d r d') {m : Nat}
    (hrun : ∀ {fuel}, m < fuel → Prog.run Disk.exec (f fuel) d = (some r', d'')) :
    r = r' ∧ d' = d'' := by
  obtain ⟨n, hn⟩ := h
  have heq := (hn (max n (m + 1)) (le_max_left ..)).symm.trans (hrun (by omega))
  rw [Prod.mk.injEq, Option.some.injEq] at heq
  exact heq

/-- A program gives one answer and one disk. -/
theorem Gives.unique {β : Type} {p : FileProg β} {d d' d'' : Disk FileName} {r r' : β}
    (h : Gives p d r d') (hrun : Prog.run Disk.exec p d = (r', d'')) : r = r' ∧ d' = d'' := by
  have heq := h.symm.trans hrun
  rwa [Prod.mk.injEq] at heq

/-- A slot comes back from its answer. -/
theorem slotOf_getD (slot : Option Nat) : slotOf ((slot.map Int.ofNat).getD (-1)) = slot := by
  cases slot with
  | none => rfl
  | some n =>
      have hn : ¬ (Int.ofNat n < 0) := by simp
      rw [Option.map_some, Option.getD_some, slotOf, if_neg hn]
      rfl

/-- The answer of `find_free_slot` is the free slot of the model. -/
theorem slotOf_freeAnswer (sessions : List Session) :
    slotOf (freeAnswer ((sessions.take maxSessions).findIdx? fun s => !s.isActive)
      sessions.length) = freeSlot sessions := by
  have hnat (n : Nat) : slotOf (n : Int) = some n := by
    have hn : ¬ ((n : Int) < 0) := by omega
    rw [slotOf, if_neg hn, Int.toNat_natCast]
  rw [freeSlot]
  cases (sessions.take maxSessions).findIdx? fun s => !s.isActive with
  | some slot => exact hnat slot
  | none =>
      by_cases hlt : sessions.length < maxSessions
      · simp only [freeAnswer, if_pos hlt, hnat]
      · simp only [freeAnswer, if_neg hlt]
        rfl

/-- The records that a file is read as. -/
theorem decodes_scan (present : Bool)
    (hbs : List.Forall₂ (fun b x => ofBytes b = some x) bs records) :
    Decodes ofBytes (if present then some bs else none)
      (if present then some records else none) := by
  cases present with
  | false => exact .none
  | true => exact .some hbs

end Reading

/-- What a call does on a disk is what it does on the store; the table is as it was. -/
structure DoesAs (fd : Nat) (op : SysOp) (d : Disk FileName) (s : Store) (r : op.Res)
    (w' : Disk FileName × Beyond) : Prop where
  answer : (Store.exec op s).1 = r
  files : OnDisk w'.1 (Store.exec op s).2
  rest : w'.2 = (Store.exec op s).2.rest
  ready : Ready w'.1 fd
  table : w'.1.table = d.table

section Step

variable {d : Disk FileName} {s : Store} {fd : Nat}

/-- What is tested of a record in a loop of `file_io.h`. -/
theorem named_eq (username : List UInt8) {b : CharArray userSize} {u : User}
    (h : User.ofBytes b = some u) : named username b =
      (!u.isDeleted && strncmpEq maxUsername u.username.val username) := by
  obtain ⟨-, hname, hdeleted⟩ := User.ofBytes_eq_some h
  rw [named, hname, hdeleted, bne, Bool.not_not]

/-- The flag of a session is read off its bytes. -/
theorem active_eq {b : CharArray sessionSize} {x : Session} (h : Session.ofBytes b = some x) :
    active b = x.isActive := by
  obtain rfl := Option.some.inj h
  rfl

/-- So is whether it is the user's. -/
theorem activeOf_eq (userId : UInt32) {b : CharArray sessionSize} {x : Session}
    (h : Session.ofBytes b = some x) :
    activeOf userId b = (x.isActive && x.userId == userId) := by
  obtain rfl := Option.some.inj h
  rfl

/-- Marking is marking the records. -/
theorem forall₂_markWinning {bs : List (CharArray bidSize)} {l : List Bid} (aid bidder : UInt32)
    (h : List.Forall₂ (fun b x => Bid.ofBytes b = some x) bs l) :
    List.Forall₂ (fun b x => Bid.ofBytes b = some x)
      (bs.map fun b => (winningMark aid bidder b).getD b) (markWinning aid bidder l) := by
  refine List.rel_map (fun b x hx => ?_) h
  rw [winningMark, ← Bid.ofBytes_auctionId hx, ← Bid.ofBytes_eq_some hx]
  split
  · rw [Option.getD_some, Bid.ofBytes_isWinning, hx]
    rfl
  · exact hx

theorem forall₂_reviewed {bs : List (CharArray feedbackSize)} {l : List Feedback}
    (h : List.Forall₂ (fun b x => Feedback.ofBytes b = some x) bs l) :
    List.Forall₂ (fun b x => Feedback.ofBytes b = some x)
      (bs.map fun f => (reviewedMark f).getD f) (l.map fun f => { f with reviewed := true }) := by
  refine List.rel_map (fun b x hx => ?_) h
  rw [reviewedMark]
  split
  · rw [Option.getD_some, Feedback.ofBytes_reviewed, hx]
    rfl
  · next hne =>
      rw [Option.getD_none, hx]
      obtain rfl := Option.some.inj hx
      have hreviewed : (uint32 (FeedbackField.reviewed.get b) != 0) = true := by simpa using hne
      simp [hreviewed]

end Step

section Families

variable {size : Nat} {α : Type} {ofBytes : CharArray size → Option α} {d d' : Disk FileName}
  {path : FileName} {present : Bool} {records : List α} {s s' : Store} {fd i : Nat}
  {op : SysOp} {r : op.Res} {b : Option (CharArray size)} {x : Option α}

/-- A record is read. -/
theorem Holds.read (h : Holds ofBytes d path present records) (hready : Ready d fd)
    (hsize : 0 < size) (hrun : Gives (readRecord path size (i * size)) d b d')
    (hread : Reads ofBytes b x) : records[i]? = x ∧ d' = d := by
  obtain ⟨bs, hfile, hbs⟩ := h
  obtain ⟨rfl, rfl⟩ := hrun.unique (run_readRecord hready hfile i hsize)
  exact ⟨Reads.unique (forall₂_getElem? hbs i) hread, rfl⟩

/-- All records are read. -/
theorem Holds.scan (h : Holds ofBytes d path present records) (hready : Ready d fd)
    (hsize : 0 < size) {file : Option (List (CharArray size))} {l : Option (List α)}
    (hrun : Loops (readAll path size) d file d') (hread : Decodes ofBytes file l) :
    (if present then some records else none) = l ∧ d' = d := by
  obtain ⟨bs, hfile, hbs⟩ := h
  obtain ⟨rfl, rfl⟩ := hrun.unique fun hfuel => run_readAll hready hfile hsize hfuel
  exact ⟨Decodes.unique (decodes_scan present hbs) hread, rfl⟩

/-- The next identifier is read off the size. -/
theorem Holds.nextId (h : Holds ofBytes d path present records) (hready : Ready d fd)
    (hsize : 0 < size) {id : UInt32} (hrun : Gives (FileCalls.nextId path size) d id d') :
    nextRecId records = id ∧ d' = d := by
  obtain ⟨bs, hfile, hbs⟩ := h
  obtain ⟨rfl, rfl⟩ := hrun.unique (run_nextId hready hfile hsize)
  exact ⟨by rw [nextRecId, nextRecId, hbs.length_eq], rfl⟩

/-- A record is written at a position. -/
theorem Holds.write (h : Holds ofBytes d path present records) (hready : Ready d fd)
    {zero y : α} (hzero : ofBytes (.zero size) = some zero) {b : CharArray size}
    (hb : ofBytes b = some y) {w : Int} (hrun : Gives (writeRecord path (i * size) b) d w d') :
    w = 0 ∧ ∃ bs, List.Forall₂ (fun b x => ofBytes b = some x) bs (writeAt zero records i y) ∧
      d' = d.put path (pack bs) := by
  obtain ⟨bs, hfile, hbs⟩ := h
  obtain ⟨rfl, rfl⟩ := hrun.unique (run_writeRecord hready hfile i b)
  exact ⟨rfl, _, forall₂_writeAt hbs hzero hb i, rfl⟩

/-- A record is appended. -/
theorem Holds.append (h : Holds ofBytes d path present records) (hready : Ready d fd) {y : α}
    {b : CharArray size} (hb : ofBytes b = some y) {w : Int}
    (hrun : Gives (appendRecord path b) d w d') :
    w = 0 ∧ ∃ bs, List.Forall₂ (fun b x => ofBytes b = some x) bs (records ++ [y]) ∧
      d' = d.put path (pack bs) := by
  obtain ⟨bs, hfile, hbs⟩ := h
  obtain ⟨rfl, rfl⟩ := hrun.unique (run_appendRecord hready hfile b)
  exact ⟨rfl, _, List.rel_append hbs (.cons hb .nil), rfl⟩

/-- A pass writes records back. -/
theorem Holds.update (h : Holds ofBytes d path present records) (hready : Ready d fd)
    (hsize : 0 < size) {change : CharArray size → Option (CharArray size)} {g : List α → List α}
    (hg : ∀ bs, List.Forall₂ (fun b x => ofBytes b = some x) bs records →
      List.Forall₂ (fun b x => ofBytes b = some x) (bs.map fun b => (change b).getD b) (g records))
    {offset : Nat} (hrun : Loops (updateFile path change) d offset d') :
    if present then ∃ bs, List.Forall₂ (fun b x => ofBytes b = some x) bs (g records) ∧
      d' = d.put path (pack bs) else d' = d ∧ g records = records := by
  obtain ⟨bs, hfile, hbs⟩ := h
  obtain ⟨-, rfl⟩ := hrun.unique fun hfuel => run_updateFile hready hfile hsize hfuel change
  cases present with
  | true => exact ⟨_, hg bs hbs, rfl⟩
  | false =>
      obtain rfl := hfile.absent rfl
      have hnil := hg [] hbs
      rw [List.map_nil] at hnil
      cases hbs
      exact ⟨rfl, List.forall₂_nil_left_iff.mp hnil⟩

/-- A call that changes nothing. -/
theorem DoesAs.same (h : OnDisk d s) (hready : Ready d fd) (hexec : Store.exec op s = (r, s)) :
    DoesAs fd op d s r (d, s.rest) := by
  refine ⟨by rw [hexec], ?_, ?_, hready, rfl⟩
  · rw [hexec]; exact h
  · rw [hexec]

/-- A call that changes one file. -/
theorem DoesAs.put (hready : Ready d fd) {bytes : List UInt8}
    (hexec : Store.exec op s = (r, s')) (h : OnDisk (d.put path bytes) s')
    (hrest : s'.rest = s.rest) : DoesAs fd op d s r (d.put path bytes, s.rest) := by
  refine ⟨by rw [hexec], ?_, ?_, hready.put bytes, rfl⟩
  · rw [hexec]; exact h
  · rw [hexec, hrest]

end Families

section Sound

variable {d : Disk FileName} {s : Store} {fd : Nat} {op : SysOp} {r : op.Res}
  {w' : Disk FileName × Beyond}

/-- The calls that touch no data file. -/
theorem DoesAs.inMemory (h : OnDisk d s) (hready : Ready d fd) {s₀ s₀' : Store}
    (hop : op.inMemory = true) (hrest : s₀.rest = s.rest) (hexec : Store.exec op s₀ = (r, s₀')) :
    DoesAs fd op d s r (d, s₀'.rest) := by
  have hfields := hrest
  simp only [Store.rest, Beyond.mk.injEq] at hfields
  obtain ⟨hlog, hregistry, hclock, hsent⟩ := hfields
  cases op <;> cases hop <;> cases hexec <;>
    refine ⟨?_, ⟨h.users, h.auctions, h.bids, h.sessions, h.feedback, h.disputes⟩, ?_, hready,
      rfl⟩ <;>
    simp [Store.exec, Store.rest, hlog, hregistry, hclock, hsent]

/-- **Step lemma**: what a call does on a disk is what it does on the store. -/
theorem Performs.sound (hready : Ready d fd) (h : OnDisk d s)
    (hp : Performs op (d, s.rest) r w') : DoesAs fd op d s r w' := by
  generalize hw : (d, s.rest) = w at hp
  cases hp with
  | inMemory hop hexec =>
      obtain ⟨rfl, hrest⟩ := Prod.mk.inj hw
      exact .inMemory h hready hop hrest.symm hexec
  | readUser hrun hread =>
      cases hw
      obtain ⟨hx, rfl⟩ := h.users.read hready (by decide) ((readUser_eq d _).symm.trans hrun) hread
      exact .same h hready (by rw [Store.exec, readRec, hx])
  | @writeUser u b _ _ _ _ hb hrun =>
      cases hw
      obtain ⟨rfl, bs', hbs', rfl⟩ := h.users.write hready User.ofBytes_zero hb
        ((writeUser_eq d _).symm.trans hrun)
      rw [← (User.ofBytes_eq_some hb).1] at hbs'
      exact .put hready rfl (h.put_users hbs') rfl
  | @findUserByUsername name _ _ _ _ _ hrun hread =>
      cases hw
      obtain ⟨bs, hfile, hbs⟩ := h.users
      obtain ⟨rfl, rfl⟩ := hrun.unique fun hfuel => run_findUserByUsername hready hfile hfuel _
      have hfound := forall₂_find? hbs (named_eq name)
      exact .same h hready (by rw [Store.exec, findByUsername, Reads.unique hfound hread])
  | scanUsers hrun hread =>
      cases hw
      obtain ⟨hl, rfl⟩ := h.users.scan hready (by decide) hrun hread
      exact .same h hready (by rw [Store.exec, Store.scan, hl])
  | nextUserId hrun =>
      cases hw
      obtain ⟨hid, rfl⟩ := h.users.nextId hready (by decide) hrun
      exact .same h hready (by rw [Store.exec, hid])
  | readAuction hrun hread =>
      cases hw
      obtain ⟨hx, rfl⟩ := h.auctions.read hready (by decide) hrun hread
      exact .same h hready (by rw [Store.exec, readRec, hx])
  | writeAuction hb hrun =>
      cases hw
      obtain ⟨rfl, bs, hbs, rfl⟩ := h.auctions.write hready Auction.ofBytes_zero hb hrun
      rw [← Auction.ofBytes_auctionId hb] at hbs
      exact .put hready rfl (h.put_auctions hbs) rfl
  | scanAuctions hrun hread =>
      cases hw
      obtain ⟨hl, rfl⟩ := h.auctions.scan hready (by decide) hrun hread
      exact .same h hready (by rw [Store.exec, Store.scan, hl])
  | nextAuctionId hrun =>
      cases hw
      obtain ⟨hid, rfl⟩ := h.auctions.nextId hready (by decide) hrun
      exact .same h hready (by rw [Store.exec, hid])
  | appendBid hb hrun =>
      cases hw
      obtain ⟨rfl, bs, hbs, rfl⟩ := h.bids.append hready hb hrun
      exact .put hready rfl (h.put_bids hbs) rfl
  | nextBidId hrun =>
      cases hw
      obtain ⟨hid, rfl⟩ := h.bids.nextId hready (by decide) hrun
      exact .same h hready (by rw [Store.exec, hid])
  | scanBids hrun hread =>
      cases hw
      obtain ⟨hl, rfl⟩ := h.bids.scan hready (by decide) hrun hread
      exact .same h hready (by rw [Store.exec, Store.scan, hl])
  | @markWinningBids aid bidder _ _ offset _ hrun =>
      cases hw
      have hupdate := h.bids.update hready (by decide)
        (fun _ hbs => forall₂_markWinning aid bidder hbs) hrun
      cases hpresent : s.present .bids with
      | true =>
          rw [hpresent, if_pos rfl] at hupdate
          obtain ⟨bs, hbs, rfl⟩ := hupdate
          exact .put hready rfl ((h.put_bids hbs).of_present hpresent) rfl
      | false =>
          rw [hpresent, if_neg (by decide)] at hupdate
          obtain ⟨rfl, hsame⟩ := hupdate
          exact .same h hready (by rw [Store.exec, hsame])
  | @findSessionSlot id _ _ _ _ hrun =>
      cases hw
      obtain ⟨bs, hfile, hbs⟩ := h.sessions
      obtain ⟨rfl, rfl⟩ := hrun.unique fun hfuel => run_findSessionSlot hready hfile hfuel _
      have hslot := forall₂_findIdx? hbs (activeOf_eq id)
      exact .same h hready (by rw [Store.exec, sessionSlot, slotOf_getD, hslot])
  | findFreeSlot hrun =>
      cases hw
      obtain ⟨bs, hfile, hbs⟩ := h.sessions
      obtain ⟨rfl, rfl⟩ := hrun.unique fun hfuel => run_findFreeSlot hready hfile hfuel
      have hslot : (bs.take maxSessions).findIdx? (fun x => !active x) =
          (s.sessions.take maxSessions).findIdx? (fun x => !x.isActive) :=
        forall₂_findIdx? (List.forall₂_take maxSessions hbs) fun h => congrArg (! ·) (active_eq h)
      rw [hslot, hbs.length_eq, slotOf_freeAnswer]
      exact .put hready rfl (h.put_sessions hbs) rfl
  | writeSession hb hrun =>
      cases hw
      obtain ⟨rfl, bs, hbs, rfl⟩ := h.sessions.write hready Session.ofBytes_zero hb hrun
      exact .put hready rfl (h.put_sessions hbs) rfl
  | nextFeedbackId hrun =>
      cases hw
      obtain ⟨bs, hfile, hbs⟩ := h.feedback
      obtain ⟨rfl, rfl⟩ := hrun.unique (run_nextFeedbackId hready hfile)
      exact .same h hready (by rw [Store.exec, nextRecId, nextRecId, hbs.length_eq])
  | appendFeedback hb hrun =>
      cases hw
      obtain ⟨rfl, bs, hbs, rfl⟩ := h.feedback.append hready hb hrun
      exact .put hready rfl (h.put_feedback hbs) rfl
  | scanFeedback hrun hread =>
      cases hw
      obtain ⟨hl, rfl⟩ := h.feedback.scan hready (by decide) hrun hread
      exact .same h hready (by rw [Store.exec, Store.scan, hl])
  | markFeedbackReviewed hrun =>
      cases hw
      have hupdate := h.feedback.update hready (by decide)
        (fun _ hbs => forall₂_reviewed hbs) hrun
      cases hpresent : s.present .feedback with
      | true =>
          rw [hpresent, if_pos rfl] at hupdate
          obtain ⟨bs, hbs, rfl⟩ := hupdate
          exact .put hready rfl ((h.put_feedback hbs).of_present hpresent) rfl
      | false =>
          rw [hpresent, if_neg (by decide)] at hupdate
          obtain ⟨rfl, hsame⟩ := hupdate
          exact .same h hready (by rw [Store.exec, hsame])
  | readDispute hrun hread =>
      cases hw
      obtain ⟨hx, rfl⟩ := h.disputes.read hready (by decide) hrun hread
      exact .same h hready (by rw [Store.exec, readRec, hx])
  | writeDispute hb hrun =>
      cases hw
      obtain ⟨rfl, bs, hbs, rfl⟩ := h.disputes.write hready Dispute.ofBytes_zero hb hrun
      rw [← Dispute.ofBytes_disputeId hb] at hbs
      exact .put hready rfl (h.put_disputes hbs) rfl
  | scanDisputes hrun hread =>
      cases hw
      obtain ⟨hl, rfl⟩ := h.disputes.scan hready (by decide) hrun hread
      exact .same h hready (by rw [Store.exec, Store.scan, hl])
  | nextDisputeId hrun =>
      cases hw
      obtain ⟨hid, rfl⟩ := h.disputes.nextId hready (by decide) hrun
      exact .same h hready (by rw [Store.exec, hid])

end Sound

/-! ## a record can be written -/

/-- What is written has bytes that stand for it. -/
def SysOp.Representable : SysOp → Prop
  | .writeUser u => ∃ b, User.ofBytes b = some u
  | .writeAuction a => ∃ b, Auction.ofBytes b = some a
  | .appendBid x => ∃ b, Bid.ofBytes b = some x
  | .writeSession _ x => ∃ b, Session.ofBytes b = some x
  | .appendFeedback f => ∃ b, Feedback.ofBytes b = some f
  | .writeDispute x => ∃ b, Dispute.ofBytes b = some x
  | _ => True

/-- The amounts and the times of what is written fit their fields. -/
def SysOp.fits : SysOp → Bool
  | .writeUser u => decide u.Fits
  | .writeAuction a => decide a.Fits
  | .appendBid x => decide x.Fits
  | .writeSession _ x => decide x.Fits
  | .appendFeedback f => decide f.Fits
  | .writeDispute x => decide x.Fits
  | _ => true

/-- What fits can be written. -/
theorem SysOp.representable_of_fits {op : SysOp} (h : op.fits = true) : op.Representable := by
  cases op with
  | writeUser u => exact ⟨u.bytes, User.ofBytes_bytes (of_decide_eq_true h)⟩
  | writeAuction a => exact ⟨a.bytes, Auction.ofBytes_bytes (of_decide_eq_true h)⟩
  | appendBid x => exact ⟨x.bytes, Bid.ofBytes_bytes (of_decide_eq_true h)⟩
  | writeSession _ x => exact ⟨x.bytes, Session.ofBytes_bytes (of_decide_eq_true h)⟩
  | appendFeedback f => exact ⟨f.bytes, Feedback.ofBytes_bytes (of_decide_eq_true h)⟩
  | writeDispute x => exact ⟨x.bytes, Dispute.ofBytes_bytes (of_decide_eq_true h)⟩
  | _ => trivial

section Progress

variable {d : Disk FileName} {s : Store} {fd : Nat}

/-- A loop that gives this with enough fuel. -/
theorem Loops.of_lt {α : Type} {f : Nat → FileProg (Option α)} {d d' : Disk FileName} {r : α}
    {m : Nat} (h : ∀ {fuel}, m < fuel → Prog.run Disk.exec (f fuel) d = (some r, d')) :
    Loops f d r d' := ⟨m + 1, fun _ hfuel => h hfuel⟩

/-- **Progress**: every call whose record can be written is performed. -/
theorem Performs.exists (hready : Ready d fd) (h : OnDisk d s) (op : SysOp)
    (hop : op.Representable) : ∃ r w', Performs op (d, s.rest) r w' := by
  obtain ⟨users, husers, husersOf⟩ := h.users
  obtain ⟨auctions, hauctions, hauctionsOf⟩ := h.auctions
  obtain ⟨bids, hbids, hbidsOf⟩ := h.bids
  obtain ⟨sessions, hsessions, -⟩ := h.sessions
  obtain ⟨feedback, hfeedback, hfeedbackOf⟩ := h.feedback
  obtain ⟨disputes, hdisputes, hdisputesOf⟩ := h.disputes
  cases op with
  | readUser id =>
      have hrun := (readUser_eq d id).trans
        (run_readRecord hready husers (recPos id) (by decide))
      exact ⟨_, _, .readUser hrun (forall₂_getElem? husersOf (recPos id))⟩
  | writeUser u =>
      obtain ⟨b, hb⟩ := hop
      exact ⟨_, _, .writeUser hb rfl⟩
  | findUserByUsername name =>
      exact ⟨_, _, .findUserByUsername
        (.of_lt fun hfuel => run_findUserByUsername hready husers hfuel name)
        (forall₂_find? husersOf (named_eq name))⟩
  | scanUsers =>
      exact ⟨_, _, .scanUsers (.of_lt fun hfuel => run_readAll hready husers (by decide) hfuel)
        (decodes_scan _ husersOf)⟩
  | readAuction id =>
      exact ⟨_, _, .readAuction (run_readRecord hready hauctions (recPos id) (by decide))
        (forall₂_getElem? hauctionsOf (recPos id))⟩
  | writeAuction a =>
      obtain ⟨b, hb⟩ := hop
      exact ⟨_, _, .writeAuction hb rfl⟩
  | scanAuctions =>
      exact ⟨_, _, .scanAuctions
        (.of_lt fun hfuel => run_readAll hready hauctions (by decide) hfuel)
        (decodes_scan _ hauctionsOf)⟩
  | appendBid x =>
      obtain ⟨b, hb⟩ := hop
      exact ⟨_, _, .appendBid hb rfl⟩
  | scanBids =>
      exact ⟨_, _, .scanBids (.of_lt fun hfuel => run_readAll hready hbids (by decide) hfuel)
        (decodes_scan _ hbidsOf)⟩
  | markWinningBids aid bidder =>
      exact ⟨_, _, .markWinningBids (.of_lt fun hfuel =>
        run_updateFile hready hbids (by decide) hfuel (winningMark aid bidder))⟩
  | findSessionSlot id =>
      exact ⟨_, _, .findSessionSlot
        (.of_lt fun hfuel => run_findSessionSlot hready hsessions hfuel id)⟩
  | findFreeSlot =>
      exact ⟨_, _, .findFreeSlot (.of_lt fun hfuel => run_findFreeSlot hready hsessions hfuel)⟩
  | writeSession slot x =>
      obtain ⟨b, hb⟩ := hop
      exact ⟨_, _, .writeSession hb rfl⟩
  | appendFeedback f =>
      obtain ⟨b, hb⟩ := hop
      exact ⟨_, _, .appendFeedback hb rfl⟩
  | scanFeedback =>
      exact ⟨_, _, .scanFeedback
        (.of_lt fun hfuel => run_readAll hready hfeedback (by decide) hfuel)
        (decodes_scan _ hfeedbackOf)⟩
  | markFeedbackReviewed =>
      exact ⟨_, _, .markFeedbackReviewed (.of_lt fun hfuel =>
        run_updateFile hready hfeedback (by decide) hfuel reviewedMark)⟩
  | readDispute id =>
      exact ⟨_, _, .readDispute (run_readRecord hready hdisputes (recPos id) (by decide))
        (forall₂_getElem? hdisputesOf (recPos id))⟩
  | writeDispute x =>
      obtain ⟨b, hb⟩ := hop
      exact ⟨_, _, .writeDispute hb rfl⟩
  | scanDisputes =>
      exact ⟨_, _, .scanDisputes
        (.of_lt fun hfuel => run_readAll hready hdisputes (by decide) hfuel)
        (decodes_scan _ hdisputesOf)⟩
  | nextUserId => exact ⟨_, _, .nextUserId rfl⟩
  | nextAuctionId => exact ⟨_, _, .nextAuctionId rfl⟩
  | nextBidId => exact ⟨_, _, .nextBidId rfl⟩
  | nextFeedbackId => exact ⟨_, _, .nextFeedbackId rfl⟩
  | nextDisputeId => exact ⟨_, _, .nextDisputeId rfl⟩
  | logTxn _ | registryInsert _ _ | registryRemove _ | lookupFd _ | lock _ | unlock _ | time
  | send _ _ => exact ⟨_, _, .inMemory rfl rfl⟩

end Progress

/-! ## programs -/

section Programs

variable {α : Type} {d : Disk FileName} {s : Store} {fd : Nat} {p : Prog SysSig α} {a : α}
  {w' : Disk FileName × Beyond}

/-- What a program has left is what the model says. -/
structure Ends (fd : Nat) (d : Disk FileName) (p : Prog SysSig α) (s : Store) (a : α)
    (w' : Disk FileName × Beyond) : Prop where
  result : a = (Prog.run Store.exec p s).1
  files : OnDisk w'.1 (Prog.run Store.exec p s).2
  rest : w'.2 = (Prog.run Store.exec p s).2.rest
  ready : Ready w'.1 fd
  table : w'.1.table = d.table

/-- **Run lemma**: what a program does on a disk is what it does on the store. -/
theorem RunsOnDisk.sound (hready : Ready d fd) (h : OnDisk d s)
    (hp : RunsOnDisk p (d, s.rest) a w') : Ends fd d p s a w' := by
  generalize hw : (d, s.rest) = w at hp
  induction hp generalizing d s with
  | pure =>
      subst hw
      exact ⟨rfl, h, rfl, hready, rfl⟩
  | @call op k w w₁ w₂ r a hcall hrest ih =>
      subst hw
      have hstep := hcall.sound hready h
      obtain rfl := hstep.answer
      have hnext := ih hstep.ready hstep.files (Prod.ext rfl hstep.rest.symm)
      exact ⟨hnext.result, hnext.files, hnext.rest, hnext.ready, hnext.table.trans hstep.table⟩

/-- A program whose records can be written runs to its end. -/
theorem RunsOnDisk.exists (hready : Ready d fd) (h : OnDisk d s)
    (hp : ∀ e ∈ Prog.trace Store.exec p s, e.1.Representable) :
    ∃ a w', RunsOnDisk p (d, s.rest) a w' := by
  induction p generalizing d s with
  | pure a => exact ⟨a, _, .pure⟩
  | call op k ih =>
      rw [Prog.trace_call, List.forall_mem_cons] at hp
      obtain ⟨r, w', hcall⟩ := Performs.exists hready h op hp.1
      have hstep := hcall.sound hready h
      obtain rfl := hstep.answer
      obtain ⟨a, w'', hrest⟩ := ih _ hstep.ready hstep.files hp.2
      have hw : (w'.1, (Store.exec op s).2.rest) = w' := Prod.ext rfl hstep.rest.symm
      rw [hw] at hrest
      exact ⟨a, w'', .call hcall hrest⟩

end Programs

/-! ## the server -/

section Serving

variable (sha256Hex : List UInt8 → List UInt8)

/-- What an input does before any call is made. -/
def Input.beforeRest : Input → Beyond → Beyond
  | .clock now, m => { m with clock := now }
  | .restart, m => { m with registry := emptyRegistry }
  | _, m => m

/-- A server on a disk serves one input after another. -/
inductive ServesOnDisk : Disk FileName × Beyond → (Int → Option Conn) → List Input →
    Disk FileName × Beyond → (Int → Option Conn) → Prop
  | nil {w conns} : ServesOnDisk w conns [] w conns
  | cons {d m w w' conns conns' conns'' i is}
      (hrun : RunsOnDisk ((i.prog sha256Hex conns).subst Api.impl) (d, i.beforeRest m) conns' w)
      (hrest : ServesOnDisk w conns' is w' conns'') :
      ServesOnDisk (d, m) conns (i :: is) w' conns''

variable {sha256Hex} {d : Disk FileName} {s : Server} {fd : Nat} {i : Input} {is : List Input}
  {conns : Int → Option Conn} {w' : Disk FileName × Beyond}

/-- What an input does before it is handled is seen besides the files. -/
theorem rest_before (i : Input) (s : Store) : (i.before s).rest = i.beforeRest s.rest := by
  cases i <;> rfl

/-- It leaves the files as they are. -/
theorem onDisk_before {s : Store} (i : Input) (h : OnDisk d s) : OnDisk d (i.before s) := by
  cases i <;> exact ⟨h.users, h.auctions, h.bids, h.sessions, h.feedback, h.disputes⟩

/-- What is left of a server on a disk is the server of the model. -/
structure EndsAs (fd : Nat) (d : Disk FileName) (w' : Disk FileName × Beyond)
    (conns : Int → Option Conn) (s : Server) : Prop where
  conns : conns = s.conns
  files : OnDisk w'.1 s.store
  rest : w'.2 = s.store.rest
  ready : Ready w'.1 fd
  table : w'.1.table = d.table

/-- One input. -/
theorem RunsOnDisk.handle (hready : Ready d fd) (h : OnDisk d s.store)
    (hrun : RunsOnDisk ((i.prog sha256Hex s.conns).subst Api.impl)
      (d, i.beforeRest s.store.rest) conns w') :
    EndsAs fd d w' conns (s.handle sha256Hex i) := by
  rw [← rest_before] at hrun
  have hends := hrun.sound hready (onDisk_before i h)
  obtain ⟨hresult, hfiles, hrest, hready', htable⟩ := hends
  rw [Api.run_subst_impl] at hresult hfiles hrest
  exact ⟨hresult, hfiles, hrest, hready', htable⟩

/-- **Run lemma**: what is left after any inputs. -/
theorem ServesOnDisk.sound (hready : Ready d fd) (h : OnDisk d s.store)
    (hserves : ServesOnDisk sha256Hex (d, s.store.rest) s.conns is w' conns) :
    EndsAs fd d w' conns (is.foldl (Server.handle sha256Hex) s) := by
  generalize hw : (d, s.store.rest) = w at hserves
  generalize hconns : s.conns = conns₀ at hserves
  induction hserves generalizing d s with
  | nil =>
      subst hw hconns
      exact ⟨rfl, h, rfl, hready, rfl⟩
  | @cons d₀ m w w' conns₀ conns' conns'' i is hrun hrest ih =>
      obtain ⟨rfl, rfl⟩ := Prod.mk.inj hw
      subst hconns
      have hstep := hrun.handle hready h
      have hnext := ih hstep.ready hstep.files (Prod.ext rfl hstep.rest.symm) hstep.conns.symm
      exact ⟨hnext.conns, hnext.files, hnext.rest, hnext.ready, hnext.table.trans hstep.table⟩

/-- Every record that the inputs write has bytes that stand for it. -/
def Writable (sha256Hex : List UInt8 → List UInt8) : Server → List Input → Prop
  | _, [] => True
  | s, i :: is =>
      (∀ e ∈ Prog.trace Store.exec ((i.prog sha256Hex s.conns).subst Api.impl) (i.before s.store),
        e.1.Representable) ∧ Writable sha256Hex (s.handle sha256Hex i) is

/-- Inputs whose records can be written are served. -/
theorem ServesOnDisk.exists (hready : Ready d fd) (h : OnDisk d s.store)
    (hwritable : Writable sha256Hex s is) :
    ∃ w' conns, ServesOnDisk sha256Hex (d, s.store.rest) s.conns is w' conns := by
  induction is generalizing d s with
  | nil => exact ⟨_, _, .nil⟩
  | cons i is ih =>
      obtain ⟨conns, w, hrun⟩ := RunsOnDisk.exists hready (onDisk_before i h) hwritable.1
      rw [rest_before] at hrun
      have hstep := hrun.handle hready h
      obtain ⟨w', conns', hrest⟩ := ih hstep.ready hstep.files hwritable.2
      have hw : (w.1, (s.handle sha256Hex i).store.rest) = w := Prod.ext rfl hstep.rest.symm
      rw [hw, ← hstep.conns] at hrest
      exact ⟨w', conns', .cons hrun hrest⟩

/-- A test for this. -/
def writesFit (sha256Hex : List UInt8 → List UInt8) : Server → List Input → Bool
  | _, [] => true
  | s, i :: is =>
      ((Prog.trace Store.exec ((i.prog sha256Hex s.conns).subst Api.impl) (i.before s.store)).all
        fun e => e.1.fits) && writesFit sha256Hex (s.handle sha256Hex i) is

/-- That every record written has bytes can be computed. -/
theorem writable_of_fits (h : writesFit sha256Hex s is = true) : Writable sha256Hex s is := by
  induction is generalizing s with
  | nil => trivial
  | cons i is ih =>
      rw [writesFit, Bool.and_eq_true, List.all_eq_true] at h
      exact ⟨fun e he => SysOp.representable_of_fits (h.1 e he), ih h.2⟩

/-- **The server on its files**: whatever it is asked, what it has sent, its connections and its
files are those of the model, and no descriptor is left open; and it does not stop, as long as
what it writes are records. -/
theorem server_onDisk (sha256Hex : List UInt8 → List UInt8) (s : Server) (d : Disk FileName)
    (fd : Nat) (is : List Input) (hready : Ready d fd) (h : OnDisk d s.store) :
    (∀ w' conns, ServesOnDisk sha256Hex (d, s.store.rest) s.conns is w' conns →
      EndsAs fd d w' conns (is.foldl (Server.handle sha256Hex) s)) ∧
    (Writable sha256Hex s is →
      ∃ w' conns, ServesOnDisk sha256Hex (d, s.store.rest) s.conns is w' conns) :=
  ⟨fun _ _ hserves => hserves.sound hready h, ServesOnDisk.exists hready h⟩

/-- The server of a busy market: a bid that outbids another, two requests that read the files, and
the close of an auction by the timer. -/
theorem server_onDisk_market :
    let s := played marketScript
    let is : List Input := [.message 7 (.placeBid ⟨1, 301 / 4⟩), .message 6 .viewMyBids,
      .message 5 .viewFeedback, .clock 2000, .timerClose 1]
    ∃ w' conns,
      ServesOnDisk adminSha256Hex (s.store.disk, s.store.rest) s.conns is w' conns ∧
      EndsAs 0 s.store.disk w' conns (is.foldl (Server.handle adminSha256Hex) s) ∧
      (w'.2.sent.drop s.store.sent.length).map (fun e => (e.1, e.2.type)) =
        [(7, .msgPlaceBidResp), (6, .msgNotifyOutbid), (6, .msgViewMyBidsResp),
          (5, .msgViewFeedbackResp), (7, .msgNotifyAuctionWon), (8, .msgNotifyAuctionClosed)] := by
  intro s is
  have hfits : s.store.Fits := by decide +kernel
  have hwritable : Writable adminSha256Hex s is := writable_of_fits (by decide +kernel)
  have hboth := server_onDisk adminSha256Hex s s.store.disk 0 is ready_disk (onDisk_disk hfits)
  obtain ⟨w', conns, hserves⟩ := hboth.2 hwritable
  have hends := hboth.1 w' conns hserves
  refine ⟨w', conns, hserves, hends, ?_⟩
  rw [hends.rest]
  decide +kernel

end Serving

end OnlineAuction
