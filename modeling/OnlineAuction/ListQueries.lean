import OnlineAuction.FileCalls
import OnlineAuction.RecordLayout
import OnlineAuction.Service
import OnlineAuction.Socket

/-!
# OnlineAuction.ListQueries

The four requests that are answered with a list of records, from the file to the screen.

Each handler copies the records that match into a buffer of its own, as long as there is room
(`scanLoop_eq`), and each function of the client divides the length of the answer by the size of
a record.  Both sides have their own limit; as these are the same, what is shown is what the
handler has found, and nothing of the answer is left in the stream (`listQueries_agree`).
-/

namespace OnlineAuction

/-- The value of the enumeration, which begins at 1. -/
def MessageType.code (t : MessageType) : UInt32 := .ofNat (t.ctorIdx + 1)

def ErrCode.code : ErrCode → UInt32
  | .errOk => 0
  | .errAuthFail => 1
  | .errAlreadyLogged => 2
  | .errPermission => 3
  | .errNotFound => 4
  | .errBidTooLow => 5
  | .errInsufficient => 6
  | .errAuctionClosed => 7
  | .errAccountBanned => 8
  | .errInternal => 99

namespace ListQueries

open Posix FileCalls Wire Socket

/-! ## the server -/

section Server

variable {size : Nat}

variable (cap : Nat) (matching : CharArray size → Bool) (entry : CharArray size → CharArray size)

/-- The first records that match, as they are answered. -/
def found (records : List (CharArray size)) : List (CharArray size) :=
  ((records.filter matching).take cap).map entry

/-- No more entries are found than the buffer holds. -/
theorem length_found_le (records : List (CharArray size)) :
    (found cap matching entry records).length ≤ cap := by
  rw [found, List.length_map]
  exact List.length_take_le ..

/-- An empty payload has a length. -/
theorem empty_fits : ([] : List UInt8).length < 2 ^ 32 := by decide

/-- A handler that answers with a list, `missing` where there is no file. -/
def answerList (missing : ErrCode) (type : MessageType) (hcap : cap * size < 2 ^ 32)
    (file : Option (List (CharArray size))) : Frame :=
  match file with
  | none => ⟨type.code, missing.code, [], empty_fits⟩
  | some records =>
      ⟨type.code, ErrCode.errOk.code, pack (scanLoop cap matching entry [] records), by
        rw [length_pack, scanLoop_eq, List.nil_append]
        exact Nat.lt_of_le_of_lt
          (Nat.mul_le_mul_right size (length_found_le cap matching entry records)) hcap⟩

end Server

/-- `!a.is_deleted && a.status == AUCTION_OPEN` -/
def openAuction (a : CharArray auctionSize) : Bool :=
  uint32 (AuctionField.isDeleted.get a) == 0 && uint32 (AuctionField.status.get a) == 1

/-- `d.status == DISPUTE_OPEN` -/
def openDispute (d : CharArray disputeSize) : Bool := uint32 (DisputeField.status.get d) == 0

/-- `b.bidder_id == u->user_id` -/
def bidOf (userId : UInt32) (b : CharArray bidSize) : Bool :=
  uint32 (BidField.bidderId.get b) == userId

/-- `!u.is_deleted` -/
def userInUse (u : CharArray userSize) : Bool := uint32 (UserField.isDeleted.get u) == 0

def handleViewAuctions : Option (List (CharArray auctionSize)) → Frame :=
  answerList 256 openAuction id .errInternal .msgViewAuctionsResp (by decide)

def handleViewMyBids (userId : UInt32) : Option (List (CharArray bidSize)) → Frame :=
  answerList 256 (bidOf userId) id .errInternal .msgViewMyBidsResp (by decide)

def handleViewDisputes : Option (List (CharArray disputeSize)) → Frame :=
  answerList 128 openDispute id .errOk .msgViewDisputesResp (by decide)

def handleListUsers : Option (List (CharArray userSize)) → Frame :=
  answerList 512 userInUse blankPassword .errOk .msgListUsersResp (by decide)

/-! ## the client -/

/-- The client writes requests and reads answers. -/
abbrev ClientSig : Sig := WireSig.sum ReadSig

/-- `send_msg(type, NULL, 0)`. -/
def sendRequest (type : MessageType) : Prog WireSig Int :=
  .call (.writeHeader ⟨type.code, 0, 0⟩) fun n => pure (if n ≠ headerSize then -1 else 0)

section Client

variable {size cap : Nat}

/-- `list[i]` for each `i` below `hdr.length / sizeof(*list)`, where `list` is the buffer. -/
def rows (size : Nat) {n : Nat} (m : MessageHeader × CharArray n) : List (CharArray size) :=
  (List.range (m.1.length.toNat / size)).map fun i => .ofBytes size (m.2.load (i * size) size)

/-- What is printed of a record. -/
def line (columns : List (Field size)) (x : CharArray size) : List (List UInt8) :=
  columns.map fun f => (f.get x).val

/-- A function that asks for a list and prints it.  `checked` is whether it looks at what
`recv_msg` returns; one that does not goes on with what is left in `hdr` and `buf`. -/
def viewList (type : MessageType) (checked : Bool) (columns : List (Field size))
    (left : MessageHeader × CharArray (cap * size)) :
    Prog ClientSig (List (List (List UInt8))) := do
  let _ ← Prog.inl (sendRequest type)
  match ← Prog.inr (Socket.recvMsg left.2) with
  | none => pure (if checked then [] else (rows size left).map (line columns))
  | some m => pure ((rows size m).map (line columns))

end Client

def auctionColumns : List (Field auctionSize) :=
  [AuctionField.auctionId, AuctionField.itemName, AuctionField.currentBid, AuctionField.endTime]

def bidColumns : List (Field bidSize) :=
  [BidField.bidId, BidField.auctionId, BidField.amount, BidField.placedAt, BidField.isWinning]

def disputeColumns : List (Field disputeSize) :=
  [DisputeField.disputeId, DisputeField.auctionId, DisputeField.raisedByUserId,
    DisputeField.reason]

def userColumns : List (Field userSize) :=
  [UserField.userId, UserField.username, UserField.fullName, UserField.role, UserField.status,
    UserField.walletBalance]

def viewAuctions (left : MessageHeader × CharArray (256 * auctionSize)) :
    Prog ClientSig (List (List (List UInt8))) :=
  viewList .msgViewAuctionsReq true auctionColumns left

def bidderMyBids (left : MessageHeader × CharArray (256 * bidSize)) :
    Prog ClientSig (List (List (List UInt8))) :=
  viewList .msgViewMyBidsReq false bidColumns left

def modDisputes (left : MessageHeader × CharArray (128 * disputeSize)) :
    Prog ClientSig (List (List (List UInt8))) :=
  viewList .msgViewDisputesReq false disputeColumns left

def adminListUsers (left : MessageHeader × CharArray (512 * userSize)) :
    Prog ClientSig (List (List (List UInt8))) :=
  viewList .msgListUsersReq false userColumns left

/-! ## what is received -/

section Rows

variable {size : Nat}

/-- A record of the list. -/
theorem record_pack {list : List (CharArray size)} {i : Nat} (h : i < list.length) :
    ((pack list).drop (i * size)).take size = list[i].val := by
  have hdrop := drop_pack (i := i) h.le []
  rw [List.append_nil, List.append_nil] at hdrop
  rw [hdrop, List.drop_eq_getElem_cons h, pack_cons, List.take_left' list[i].length_val]

/-- The rows of a buffer that begins with a list are the list. -/
theorem rows_eq {n : Nat} {m : MessageHeader × CharArray n} {list : List (CharArray size)}
    (hsize : 0 < size) (hlength : m.1.length.toNat = list.length * size)
    (hbuf : m.2.val.take (list.length * size) = pack list) : rows size m = list := by
  have hcount : m.1.length.toNat / size = list.length := by
    rw [hlength, Nat.mul_div_cancel _ hsize]
  refine List.ext_getElem (by simp [rows, hcount]) fun i _ hi => ?_
  have hwithin : i * size + size ≤ list.length * size := by
    rw [← Nat.succ_mul]
    exact Nat.mul_le_mul_right size hi
  have hload : m.2.load (i * size) size = list[i].val := by
    rw [← record_pack hi, ← hbuf, CharArray.load, List.drop_take, List.take_take,
      Nat.min_eq_left (by omega)]
  simp only [rows, List.getElem_map, List.getElem_range, hload]
  exact Subtype.ext (CharArray.val_ofBytes list[i].length_val)

end Rows

/-! ## end to end -/

/-- A query from the file to the screen.  The answer holds the first `cap` records that match,
and all of them if there are no more; a client that gets the answer, in whatever pieces its
payload arrives, shows these records and leaves the stream where the answer ends. -/
structure Agrees {size : Nat} (cap : Nat) (matching : CharArray size → Bool)
    (entry : CharArray size → CharArray size) (missing : ErrCode) (request : MessageType)
    (columns : List (Field size)) (file : Option (List (CharArray size))) (answer : Frame)
    (client : MessageHeader × CharArray (cap * size) →
      Prog ClientSig (List (List (List UInt8)))) : Prop where
  status : answer.status = (if file.isSome then ErrCode.errOk else missing).code
  first : answer.payload =
    pack ((((file.getD []).filter matching).take cap).map entry)
  atMost : answer.payload.length ≤ cap * size
  all : ((file.getD []).filter matching).length ≤ cap →
    answer.payload = pack (((file.getD []).filter matching).map entry)
  shown : ∀ left accepts accepts' sent rest segs,
    Segmentation (sentBytes accepts [answer] ++ rest) [answer] segs →
      ∃ segs', segs'.flatten = rest ∧
        Prog.run (Prog.Handler.sum writeExec readExec) (client left) ((sent, accepts'), segs) =
          (((((file.getD []).filter matching).take cap).map entry).map (line columns),
            ((sent ++ (⟨request.code, 0, 0⟩ : MessageHeader).bytes, accepts'), segs'))

section Agreement

variable {size cap : Nat} {matching : CharArray size → Bool}
  {entry : CharArray size → CharArray size} {missing : ErrCode} {type request : MessageType}
  {checked : Bool} {columns : List (Field size)} {file : Option (List (CharArray size))}

/-- The payload are the entries found, one after another. -/
theorem payload_answerList (hcap : cap * size < 2 ^ 32) :
    (answerList cap matching entry missing type hcap file).payload =
      pack (found cap matching entry (file.getD [])) := by
  cases file with
  | none => simp [answerList, found, pack]
  | some records => exact congrArg pack (scanLoop_eq cap matching entry [] records)

/-- What a function of the client shows of an answer that fits its buffer. -/
theorem run_viewList {left : MessageHeader × CharArray (cap * size)} {answer : Frame}
    {list : List (CharArray size)} {accepts accepts' : List Nat} {sent rest : List UInt8}
    {segs : List (List UInt8)} (hsize : 0 < size) (hpayload : answer.payload = pack list)
    (hlist : list.length ≤ cap)
    (h : Segmentation (sentBytes accepts [answer] ++ rest) [answer] segs) :
    ∃ segs', segs'.flatten = rest ∧
      Prog.run (Prog.Handler.sum writeExec readExec) (viewList request checked columns left)
          ((sent, accepts'), segs) =
        (list.map (line columns),
          ((sent ++ (⟨request.code, 0, 0⟩ : MessageHeader).bytes, accepts'), segs')) := by
  have hflatten : segs.flatten = answer.bytes ++ rest := by
    rw [h.flatten, sentBytes_eq, List.flatMap_singleton]
  have hfits : answer.payload.length ≤ cap * size := by
    rw [hpayload, length_pack]
    exact Nat.mul_le_mul_right size hlist
  have hrecv : Prog.run readExec (Socket.recvMsg left.2) segs =
      (some (answer.header, left.2.store 0 answer.payload),
        dropBytes answer.bytes.length segs) := run_recvMsg_frame h.ne_nil h.headers.1 hflatten hfits
  have hrows : rows size (answer.header, left.2.store 0 answer.payload) = list := by
    refine rows_eq hsize (by rw [answer.header_length, hpayload, length_pack]) ?_
    have hcontents := congrArg Prod.snd (contents_store left.2 hfits)
    simp only [contents, answer.header_length] at hcontents
    rw [hpayload, length_pack] at hcontents
    rw [hpayload]
    exact hcontents
  refine ⟨dropBytes answer.bytes.length segs, ?_, ?_⟩
  · rw [flatten_dropBytes, hflatten, List.drop_left]
  · simp only [viewList, Prog.run_bind, Prog.run_inl, Prog.run_inr, hrecv, hrows]
    rfl

/-- **A query** whose limit is the same on both sides agrees. -/
theorem agrees_answerList (hsize : 0 < size) (hcap : cap * size < 2 ^ 32) :
    Agrees cap matching entry missing request columns file
      (answerList cap matching entry missing type hcap file)
      (viewList request checked columns) where
  status := by cases file <;> rfl
  first := payload_answerList hcap
  atMost := by
    rw [payload_answerList hcap, length_pack]
    exact Nat.mul_le_mul_right size (length_found_le ..)
  all hfew := by rw [payload_answerList hcap, found, List.take_of_length_le hfew]
  shown _ _ _ _ _ _ h :=
    run_viewList hsize (payload_answerList hcap) (length_found_le ..) h

end Agreement

/-- **List queries** agree end to end. -/
theorem listQueries_agree (auctions : Option (List (CharArray auctionSize)))
    (bids : Option (List (CharArray bidSize))) (disputes : Option (List (CharArray disputeSize)))
    (users : Option (List (CharArray userSize))) (userId : UInt32) :
    Agrees 256 openAuction id .errInternal .msgViewAuctionsReq auctionColumns auctions
        (handleViewAuctions auctions) viewAuctions ∧
      Agrees 256 (bidOf userId) id .errInternal .msgViewMyBidsReq bidColumns bids
        (handleViewMyBids userId bids) bidderMyBids ∧
      Agrees 128 openDispute id .errOk .msgViewDisputesReq disputeColumns disputes
        (handleViewDisputes disputes) modDisputes ∧
      Agrees 512 userInUse blankPassword .errOk .msgListUsersReq userColumns users
        (handleListUsers users) adminListUsers :=
  ⟨agrees_answerList (by decide) _, agrees_answerList (by decide) _,
    agrees_answerList (by decide) _, agrees_answerList (by decide) _⟩

/-- An answer may arrive in two pieces, the second with what follows. -/
theorem segmentation_two (accepts : List Nat) (f : Frame) (k : Nat) {rest : List UInt8}
    (hrest : rest ≠ []) : Segmentation (sentBytes accepts [f] ++ rest) [f]
      [f.header.bytes ++ f.payload.take k, f.payload.drop k ++ rest] where
  flatten := by
    rw [sentBytes_eq, List.flatMap_singleton, Frame.bytes, List.flatten_cons, List.flatten_cons,
      List.flatten_nil, List.append_nil, List.append_assoc, ← List.append_assoc (List.take k _),
      List.take_append_drop, List.append_assoc]
  ne_nil := by
    have hheader : f.header.bytes ≠ [] := by
      rw [← List.length_pos_iff, f.header.length_bytes]
      decide
    simp [hheader, hrest]
  headers := by
    refine ⟨?_, trivial⟩
    rw [List.headD_cons, List.length_append, f.header.length_bytes]
    exact Nat.le_add_right _ _

/-- In a market with one open auction the client shows this one, from an answer that arrives in two
pieces and is followed by another byte. -/
theorem listQueries_agree_market :
    let s := (played marketScript).store
    let answer := handleViewAuctions (some (s.auctions.map Auction.bytes))
    let segs := [answer.header.bytes ++ answer.payload.take 100, answer.payload.drop 100 ++ [9]]
    ∀ left, ∃ segs', segs'.flatten = [9] ∧
      Prog.run (Prog.Handler.sum writeExec readExec) (viewAuctions left) (([], []), segs) =
        ((readRec s.auctions 1).toList.map fun a => line auctionColumns a.bytes,
          (((⟨MessageType.msgViewAuctionsReq.code, 0, 0⟩ : MessageHeader).bytes, []), segs')) := by
  intro s answer segs left
  have hsegs : Segmentation (sentBytes [] [answer] ++ [9]) [answer] segs :=
    segmentation_two [] answer 100 (by decide)
  have hagrees := listQueries_agree (some (s.auctions.map Auction.bytes)) none none none 0
  obtain ⟨segs', hrest, hrun⟩ := hagrees.1.shown left [] [] [] [9] segs hsegs
  have hopen : ((((some (s.auctions.map Auction.bytes)).getD []).filter openAuction).take 256).map
      id = (readRec s.auctions 1).toList.map Auction.bytes := by
    decide +kernel
  rw [hopen, List.map_map, List.nil_append] at hrun
  exact ⟨segs', hrest, hrun⟩

/-! ## the handlers on records -/

/-- The records of a payload, one after another. -/
inductive Carries : List UInt8 → Payload → Prop
  | empty : Carries [] .empty
  | auctions {bs l} (h : List.Forall₂ (fun b a => Auction.ofBytes b = some a) bs l) :
      Carries (pack bs) (.auctions l)
  | bids {bs l} (h : List.Forall₂ (fun b x => Bid.ofBytes b = some x) bs l) :
      Carries (pack bs) (.bids l)
  | disputes {bs l} (h : List.Forall₂ (fun b d => Dispute.ofBytes b = some d) bs l) :
      Carries (pack bs) (.disputes l)
  | users {bs l} (h : List.Forall₂ (fun b u => User.ofBytes b = some u) bs l) :
      Carries (pack bs) (.users l)

/-- The frame of a message. -/
structure FrameOf (f : Frame) (m : Message) : Prop where
  type : f.type = m.type.code
  status : f.status = m.status.code
  payload : Carries f.payload m.payload

/-- A list that is answered on records. -/
def listMessage {α : Type} (cap : Nat) (p : α → Bool) (g : α → α) (missing : ErrCode)
    (type : MessageType) (payload : List α → Payload) : Option (List α) → Message
  | none => ⟨type, missing, .empty⟩
  | some l => ⟨type, .errOk, payload (((l.filter p).take cap).map g)⟩

section Records

variable {size cap : Nat} {α : Type} {R : CharArray size → α → Prop}
  {matching : CharArray size → Bool} {entry : CharArray size → CharArray size} {p : α → Bool}
  {g : α → α}

/-- The records that are found are those that the handler finds. -/
theorem forall₂_found {bs : List (CharArray size)} {l : List α} (h : List.Forall₂ R bs l)
    (hmatching : ∀ {b x}, R b x → matching b = p x) (hentry : ∀ {b x}, R b x → R (entry b) (g x)) :
    List.Forall₂ R (found cap matching entry bs) (((l.filter p).take cap).map g) := by
  have hfilter : List.Forall₂ R (bs.filter matching) (l.filter p) :=
    List.rel_filter (fun b x hbx => Bool.eq_iff_iff.mp (hmatching hbx)) h
  exact List.rel_map (fun b x hbx => hentry hbx) (List.forall₂_take cap hfilter)

variable {missing : ErrCode} {type : MessageType} {file : Option (List (CharArray size))}

/-- **Refinement**: a list that is answered on bytes is the list that is answered on records. -/
theorem frameOf_answerList {records : Option (List α)} {payload : List α → Payload}
    (hcap : cap * size < 2 ^ 32) (h : Option.Rel (List.Forall₂ R) file records)
    (hmatching : ∀ {b x}, R b x → matching b = p x) (hentry : ∀ {b x}, R b x → R (entry b) (g x))
    (hpayload : ∀ {bs l}, List.Forall₂ R bs l → Carries (pack bs) (payload l)) :
    FrameOf (answerList cap matching entry missing type hcap file)
      (listMessage cap p g missing type payload records) := by
  cases h with
  | none => exact ⟨rfl, rfl, .empty⟩
  | some h =>
      refine ⟨rfl, rfl, ?_⟩
      rw [payload_answerList hcap]
      exact hpayload (forall₂_found h hmatching hentry)

end Records

section Handlers

variable {s : Store} {fd : Int}

/-- The test of `handle_view_auctions`, on a record. -/
theorem openAuction_eq {b : CharArray auctionSize} {a : Auction}
    (h : Auction.ofBytes b = some a) :
    openAuction b = (!a.isDeleted && a.status == .auctionOpen) := by
  obtain ⟨hstatus, hdeleted⟩ := Auction.ofBytes_eq_some h
  have hopen : (uint32 (AuctionField.status.get b) == 1) = (a.status == .auctionOpen) := by
    rw [Bool.eq_iff_iff, beq_iff_eq, beq_iff_eq, ← AuctionStatus.ofCode_eq_open, hstatus,
      Option.some.injEq]
  rw [openAuction, hopen, hdeleted, bne, Bool.not_not]

/-- That of `handle_view_disputes`. -/
theorem openDispute_eq {b : CharArray disputeSize} {d : Dispute}
    (h : Dispute.ofBytes b = some d) : openDispute b = (d.status == .disputeOpen) := by
  rw [openDispute, Bool.eq_iff_iff, beq_iff_eq, beq_iff_eq, ← DisputeStatus.ofCode_eq_open,
    Dispute.ofBytes_eq_some h, Option.some.injEq]

/-- That of `handle_view_my_bids`. -/
theorem bidOf_eq {b : CharArray bidSize} {x : Bid} {userId : UInt32}
    (h : Bid.ofBytes b = some x) : bidOf userId b = (x.bidderId == userId) := by
  rw [bidOf, Bid.ofBytes_eq_some h]

/-- That of `handle_list_users`. -/
theorem userInUse_eq {b : CharArray userSize} {u : User} (h : User.ofBytes b = some u) :
    userInUse b = !u.isDeleted := by
  rw [userInUse, (User.ofBytes_eq_some h).2.2, bne, Bool.not_not]

/-- A user is sent without the digest. -/
theorem ofBytes_blanked {b : CharArray userSize} {u : User} (h : User.ofBytes b = some u) :
    User.ofBytes (blankPassword b) = some { u with password := .zero _ } := by
  rw [User.ofBytes_blankPassword, h]
  rfl

/-- The handlers send the frames of what the handlers on records send. -/
theorem handleViewAuctions_of_bytes {file : Option (List (CharArray auctionSize))}
    (h : Decodes Auction.ofBytes file (s.scan .auctions s.auctions)) :
    ∃ m, (Prog.run Api.exec (OnlineAuction.handleViewAuctions fd) s).2.sent =
        s.sent ++ [(fd, m)] ∧ FrameOf (handleViewAuctions file) m := by
  refine ⟨_, ?_, frameOf_answerList (by decide) h openAuction_eq id Carries.auctions⟩
  cases hscan : s.scan .auctions s.auctions <;>
    simp [OnlineAuction.handleViewAuctions, Store.exec, hscan, listMessage]

/-- The frame of `handle_view_my_bids` carries the message of the model. -/
theorem handleViewMyBids_of_bytes {file : Option (List (CharArray bidSize))} {u : User}
    (h : Decodes Bid.ofBytes file (s.scan .bids s.bids)) :
    ∃ m, (Prog.run Api.exec (OnlineAuction.handleViewMyBids fd u) s).2.sent =
        s.sent ++ [(fd, m)] ∧ FrameOf (handleViewMyBids u.userId file) m := by
  refine ⟨_, ?_, frameOf_answerList (by decide) h bidOf_eq id Carries.bids⟩
  cases hscan : s.scan .bids s.bids <;>
    simp [OnlineAuction.handleViewMyBids, Store.exec, hscan, listMessage]

/-- So does that of `handle_view_disputes`. -/
theorem handleViewDisputes_of_bytes {file : Option (List (CharArray disputeSize))}
    (h : Decodes Dispute.ofBytes file (s.scan .disputes s.disputes)) :
    ∃ m, (Prog.run Api.exec (OnlineAuction.handleViewDisputes fd) s).2.sent =
        s.sent ++ [(fd, m)] ∧ FrameOf (handleViewDisputes file) m := by
  refine ⟨_, ?_, frameOf_answerList (by decide) h openDispute_eq id Carries.disputes⟩
  cases hscan : s.scan .disputes s.disputes <;>
    simp [OnlineAuction.handleViewDisputes, Store.exec, hscan, listMessage]

/-- And that of `handle_list_users`. -/
theorem handleListUsers_of_bytes {file : Option (List (CharArray userSize))}
    (h : Decodes User.ofBytes file (s.scan .users s.users)) :
    ∃ m, (Prog.run Api.exec (OnlineAuction.handleListUsers fd) s).2.sent =
        s.sent ++ [(fd, m)] ∧ FrameOf (handleListUsers file) m := by
  refine ⟨_, ?_, frameOf_answerList (by decide) h userInUse_eq ofBytes_blanked Carries.users⟩
  cases hscan : s.scan .users s.users <;>
    simp [OnlineAuction.handleListUsers, Store.exec, hscan, listMessage]

end Handlers

end ListQueries

end OnlineAuction
