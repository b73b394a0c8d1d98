import OnlineAuction.ListQueries
import OnlineAuction.Storage

/-!
# OnlineAuction.HandlerLoops

The loops of the handlers over the files of a disk.

The model of a handler takes all records of a file and says which of them it wants; the handler
reads record after record and stops when its buffer is full.  Both agree on every disk
(`Holds.collect`), so that what a list query sends is what its model sends, from the bytes of the
file to those of the message (`handlerLoops_onDisk`).
-/

namespace OnlineAuction

open Posix FileCalls ListQueries Wire

/-! ## the tests on bytes -/

/-- `a.status == AUCTION_OPEN && a.end_time <= now` -/
def expiredAuction (now : Int) (a : CharArray auctionSize) : Bool :=
  uint32 (AuctionField.status.get a) == 1 && decide (int (AuctionField.endTime.get a) ≤ now)

/-- `a.auction_id` -/
def auctionIdOf (a : CharArray auctionSize) : UInt32 := uint32 (AuctionField.auctionId.get a)

/-- `!tmp.is_deleted && tmp.status == ACCOUNT_ACTIVE && tmp.role == ROLE_ADMIN` -/
def activeAdmin (tmp : CharArray userSize) : Bool :=
  uint32 (UserField.isDeleted.get tmp) == 0 && uint32 (UserField.status.get tmp) == accountActive
    && uint32 (UserField.role.get tmp) == roleAdmin

/-- `!f.reviewed` -/
def notReviewed (f : CharArray feedbackSize) : Bool := uint32 (FeedbackField.reviewed.get f) == 0

theorem expiredAuction_eq (now : Int) {b : CharArray auctionSize} {a : Auction}
    (h : Auction.ofBytes b = some a) :
    expiredAuction now b = (a.status == .auctionOpen && decide (a.endTime ≤ now)) := by
  have hopen : (uint32 (AuctionField.status.get b) == 1) = (a.status == .auctionOpen) := by
    rw [Bool.eq_iff_iff, beq_iff_eq, beq_iff_eq, ← AuctionStatus.ofCode_eq_open,
      (Auction.ofBytes_eq_some h).1, Option.some.injEq]
  have hend : a.endTime = int (AuctionField.endTime.get b) := by
    obtain ⟨startPrice, -, h⟩ := Option.bind_eq_some_iff.mp h
    obtain ⟨reservePrice, -, h⟩ := Option.bind_eq_some_iff.mp h
    obtain ⟨currentBid, -, h⟩ := Option.bind_eq_some_iff.mp h
    obtain ⟨status, -, h⟩ := Option.bind_eq_some_iff.mp h
    cases h
    rfl
  rw [expiredAuction, hopen, hend]

theorem activeAdmin_eq {b : CharArray userSize} {u : User} (h : User.ofBytes b = some u) :
    activeAdmin b = (!u.isDeleted && u.status == accountActive && u.role == roleAdmin) := by
  have hdeleted := (User.ofBytes_eq_some h).2.2
  obtain ⟨balance, -, h⟩ := Option.bind_eq_some_iff.mp h
  obtain ⟨hold, -, h⟩ := Option.bind_eq_some_iff.mp h
  rw [activeAdmin, hdeleted, bne, Bool.not_not]
  cases h
  rfl

theorem notReviewed_eq {b : CharArray feedbackSize} {f : Feedback}
    (h : Feedback.ofBytes b = some f) : notReviewed b = !f.reviewed := by
  obtain rfl := Option.some.inj h
  simp [notReviewed, bne]

/-! ## loops on a disk -/

section Loops

variable {size : Nat} {α β γ : Type} {ofBytes : CharArray size → Option α} {d : Disk FileName}
  {path : FileName} {present : Bool} {records : List α} {fd : Nat}
  {matching : CharArray size → Bool} {p : α → Bool}

/-- **Collecting** on bytes is taking the first records that match. -/
theorem Holds.collect (h : Holds ofBytes d path present records) (hready : Ready d fd)
    (hsize : 0 < size) (cap : Nat) (hmatching : ∀ {b x}, ofBytes b = some x → matching b = p x)
    (entry : CharArray size → β) (g : α → γ) {R : β → γ → Prop}
    (hentry : ∀ {b x}, ofBytes b = some x → R (entry b) (g x)) :
    ∃ list, Loops (collect path cap matching entry) d list d ∧ Option.Rel (List.Forall₂ R) list
        (if present then some (((records.filter p).take cap).map g) else none) := by
  obtain ⟨bs, hfile, hbs⟩ := h
  refine ⟨_, .of_lt fun hfuel => run_collect hready hfile hsize hfuel cap matching entry, ?_⟩
  have hfilter : List.Forall₂ (fun b x => ofBytes b = some x) (bs.filter matching)
      (records.filter p) :=
    List.rel_filter (fun b x hbx => Bool.eq_iff_iff.mp (hmatching hbx)) hbs
  cases present with
  | false => exact .none
  | true => exact .some (List.rel_map (fun b x hbx => hentry hbx) (List.forall₂_take cap hfilter))

/-- **Counting** on bytes is counting. -/
theorem Holds.countFile (h : Holds ofBytes d path present records) (hready : Ready d fd)
    (hsize : 0 < size) (hmatching : ∀ {b x}, ofBytes b = some x → matching b = p x) :
    Loops (FileCalls.countFile path matching) d (records.countP p) d := by
  obtain ⟨bs, hfile, hbs⟩ := h
  have hcount : bs.countP matching = records.countP p := by
    have hfilter := List.rel_filter (fun b x hbx => Bool.eq_iff_iff.mp (hmatching hbx)) hbs
    rw [List.countP_eq_length_filter, List.countP_eq_length_filter, hfilter.length_eq]
  rw [← hcount]
  exact .of_lt fun hfuel => run_countFile hready hfile hsize hfuel matching

/-- **Looking** for a match on bytes is looking for one. -/
theorem Holds.anyInFile (h : Holds ofBytes d path present records) (hready : Ready d fd)
    (hsize : 0 < size) (hmatching : ∀ {b x}, ofBytes b = some x → matching b = p x) :
    Loops (FileCalls.anyInFile path matching) d (records.any p) d := by
  obtain ⟨bs, hfile, hbs⟩ := h
  rw [← forall₂_any hbs hmatching]
  exact .of_lt fun hfuel => run_anyInFile hready hfile hsize hfuel matching

end Loops

/-! ## the handlers -/

/-- A list query on a disk: the loop collects the payload of a frame, which is that of the message
that the handler sends in the model. -/
def SentFrom {size : Nat} (d : Disk FileName) (path : FileName) (cap : Nat)
    (matching : CharArray size → Bool) (entry : CharArray size → CharArray size)
    (answer : Option (List (CharArray size)) → Frame) (handler : Prog ApiSig Unit) (clientFd : Int)
    (s : Store) : Prop :=
  ∃ file list m, Loops (collect path cap matching entry) d list d ∧
    d.content path = file.map pack ∧
    (answer file).payload = pack (list.getD []) ∧ FrameOf (answer file) m ∧
    (Prog.run Api.exec handler s).2.sent = s.sent ++ [(clientFd, m)]

section Handlers

variable {d : Disk FileName} {s : Store} {fd : Nat}

/-- The file of a list query. -/
theorem sentFrom_of_holds {size cap : Nat} {α : Type} {ofBytes : CharArray size → Option α}
    {path : FileName} {records : List α} {matching : CharArray size → Bool}
    {entry : CharArray size → CharArray size} {missing : ErrCode} {type : MessageType}
    {handler : Prog ApiSig Unit} {clientFd : Int} (hcap : cap * size < 2 ^ 32)
    (h : Holds ofBytes d path (s.present path) records) (hready : Ready d fd) (hsize : 0 < size)
    (hhandler : ∀ file, Decodes ofBytes file (s.scan path records) →
      ∃ m, (Prog.run Api.exec handler s).2.sent = s.sent ++ [(clientFd, m)] ∧
        FrameOf (answerList cap matching entry missing type hcap file) m) :
    SentFrom d path cap matching entry (answerList cap matching entry missing type hcap) handler
      clientFd s := by
  obtain ⟨bs, hfile, hbs⟩ := h
  obtain ⟨m, hsent, hframe⟩ := hhandler (if s.present path then some bs else none)
    (decodes_scan (s.present path) hbs)
  refine ⟨_, _, m, .of_lt fun hfuel => run_collect hready hfile hsize hfuel cap matching entry, ?_,
    ?_, hframe, hsent⟩
  · rw [hfile.content]
    split <;> rfl
  · rw [payload_answerList]
    split <;> simp [found]

/-- The loops of the handlers do on the disk what the model says of the store. -/
structure LoopsAgree (d : Disk FileName) (s : Store) (clientFd : Int) (u : User) (now : Int)
    (username : List UInt8) : Prop where
  viewAuctions : SentFrom d .auctions 256 openAuction id ListQueries.handleViewAuctions
    (OnlineAuction.handleViewAuctions clientFd) clientFd s
  viewMyBids : SentFrom d .bids 256 (bidOf u.userId) id (ListQueries.handleViewMyBids u.userId)
    (OnlineAuction.handleViewMyBids clientFd u) clientFd s
  viewDisputes : SentFrom d .disputes 128 openDispute id ListQueries.handleViewDisputes
    (OnlineAuction.handleViewDisputes clientFd) clientFd s
  listUsers : SentFrom d .users 512 userInUse blankPassword ListQueries.handleListUsers
    (OnlineAuction.handleListUsers clientFd) clientFd s
  viewFeedback : ∃ list, Loops (collect .feedback 256 notReviewed id) d list d ∧
    Decodes Feedback.ofBytes list ((s.scan .feedback s.feedback).map fun l =>
      (l.filter fun f => !f.reviewed).take 256)
  timer : Loops (collect .auctions 64 (expiredAuction now) auctionIdOf) d
    ((s.scan .auctions s.auctions).map (expiredIds now)) d
  changeRole : Loops (countFile .users activeAdmin) d (adminCount s.users) d
  addUser : Loops (anyInFile .users (named username)) d
    (s.users.any fun u => !u.isDeleted && strncmpEq maxUsername u.username.val username) d

/-- **The loops of the handlers**, on the bytes of the files: the four list queries send the
frames of the messages of the model; `handle_view_feedback` and the timer collect what the model
collects; `handle_change_role` counts the same administrators; and `handle_add_user` finds the
same names taken. -/
theorem handlerLoops_onDisk (d : Disk FileName) (s : Store) (fd : Nat) (hready : Ready d fd)
    (h : OnDisk d s) (clientFd : Int) (u : User) (now : Int) (username : List UInt8) :
    LoopsAgree d s clientFd u now username := by
  refine ⟨sentFrom_of_holds _ h.auctions hready (by decide) fun _ => handleViewAuctions_of_bytes,
    sentFrom_of_holds _ h.bids hready (by decide) fun _ => handleViewMyBids_of_bytes,
    sentFrom_of_holds _ h.disputes hready (by decide) fun _ => handleViewDisputes_of_bytes,
    sentFrom_of_holds _ h.users hready (by decide) fun _ => handleListUsers_of_bytes, ?_, ?_,
    h.users.countFile hready (by decide) activeAdmin_eq,
    h.users.anyInFile hready (by decide) (named_eq username)⟩
  · have hcollect := h.feedback.collect (R := fun b f => Feedback.ofBytes b = some f) hready
      (by decide) 256 notReviewed_eq id id fun h => h
    obtain ⟨list, hlist, hrel⟩ := hcollect
    refine ⟨list, hlist, ?_⟩
    rw [Decodes, Store.scan]
    simp only [List.map_id] at hrel
    cases hpresent : s.present .feedback <;> simpa [hpresent] using hrel
  · have hids {b : CharArray auctionSize} {a : Auction} (ha : Auction.ofBytes b = some a) :
        auctionIdOf b = a.auctionId := (Auction.ofBytes_auctionId ha).symm
    have hcollect := h.auctions.collect (R := Eq) hready (by decide) 64 (expiredAuction_eq now)
      auctionIdOf (fun a => a.auctionId) hids
    obtain ⟨list, hlist, hrel⟩ := hcollect
    have heq : list = (s.scan .auctions s.auctions).map (expiredIds now) := by
      rw [Store.scan]
      rw [List.forall₂_eq_eq_eq] at hrel
      cases hpresent : s.present .auctions <;> rw [hpresent] at hrel
      · cases hrel
        rfl
      · cases hrel with
        | some h => rw [h]; rfl
    rw [← heq]
    exact hlist

/-- The files of a busy market, where each loop finds something: one open auction, which is due at
1600, two bids of user 2, a dispute, four users, and one of each of the others. -/
theorem handlerLoops_market :
    let s := (played marketScript).store
    let ann : User := { User.zero with userId := 2 }
    LoopsAgree s.disk s 6 ann 1600 (ascii "bob") ∧
      expiredIds 1600 s.auctions = [1] ∧ (s.bids.filter fun b => b.bidderId == 2).length = 2 ∧
      (s.disputes.filter fun d => d.status == .disputeOpen).length = 1 ∧ s.users.length = 4 ∧
      (s.feedback.filter fun f => !f.reviewed).length = 1 ∧ adminCount s.users = 1 ∧
      (s.users.any fun u => !u.isDeleted && strncmpEq maxUsername u.username.val (ascii "bob")) =
        true := by
  intro s ann
  have hdisk : OnDisk s.disk s := onDisk_disk (by decide +kernel)
  exact ⟨handlerLoops_onDisk s.disk s 0 ready_disk hdisk 6 ann 1600 (ascii "bob"),
    by decide +kernel⟩

end Handlers

end OnlineAuction
