import OnlineAuction.Answers
import OnlineAuction.Footprint
import OnlineAuction.Handlers

/-!
# OnlineAuction.BidAnswers

What `handle_place_bid` answers when it runs alone.

The four checks of the handler are a function of the stored auction and the bidder's stored
record (`bidAnswer`).  `answers_handlePlaceBid` says that this is what the client is told, once,
and `view_handlePlaceBid` what becomes of the files (`View.placeBid`).
-/

namespace OnlineAuction

/-- The status of the answer to a bid. -/
def bidAnswer (users : List User) (auctions : List Auction) (req : PlaceBidPayload)
    (bidderId : UInt32) : ErrCode :=
  match readRec auctions req.auctionId with
  | none => .errNotFound
  | some a =>
      if a.status ≠ .auctionOpen then .errAuctionClosed
      else match readRec users bidderId with
        | none => .errInternal
        | some u =>
            if req.amount > u.walletBalance - u.walletHold then .errInsufficient
            else if req.amount ≤ a.currentBid then .errBidTooLow
            else .errOk

/-- The record that an accepted bid appends. -/
def Store.bid (s : Store) (req : PlaceBidPayload) (bidderId : UInt32) : Bid :=
  ⟨nextRecId s.bids, req.auctionId, bidderId, req.amount, s.clock, true⟩

/-- The files after a bid: an accepted one moves the holds, writes the auction and appends the
bid. -/
def View.placeBid (v : View) (req : PlaceBidPayload) (bidderId : UInt32) : View :=
  if bidAnswer v.users v.auctions req bidderId = .errOk then
    match readRec v.auctions req.auctionId with
    | none => v
    | some a => { v with
        users := usersAfter (a.biddingCalls bidderId req.amount) v.users
        auctions := writeRec .zero v.auctions a.auctionId (a.withBid bidderId req.amount)
        bids := v.bids ++ [⟨nextRecId v.bids, req.auctionId, bidderId, req.amount, v.clock, true⟩] }
  else v

/-- The answers to bids among these calls. -/
def bidAnswerOf : Event ApiSig → Option (Int × ErrCode × Payload)
  | ⟨.sys (.send fd ⟨.msgPlaceBidResp, status, payload⟩), _⟩ => some (fd, status, payload)
  | _ => none

def bidAnswers (calls : List (Event ApiSig)) : List (Int × ErrCode × Payload) :=
  calls.filterMap bidAnswerOf

section Answer

variable {users : List User} {auctions : List Auction} {req : PlaceBidPayload}
  {bidderId : UInt32} {a : Auction} {u : User}

/-- Which bids are accepted. -/
theorem bidAnswer_eq_ok : bidAnswer users auctions req bidderId = .errOk ↔
    ∃ a u, readRec auctions req.auctionId = some a ∧ a.status = .auctionOpen ∧
      readRec users bidderId = some u ∧ req.amount ≤ u.walletBalance - u.walletHold ∧
      a.currentBid < req.amount := by
  unfold bidAnswer
  cases readRec auctions req.auctionId with
  | none => simp
  | some a =>
      cases readRec users bidderId with
      | none => by_cases hopen : a.status = .auctionOpen <;> simp [hopen]
      | some u => grind

/-- The funds of a bidder are looked at before the current bid is. -/
theorem bidAnswer_eq_insufficient : bidAnswer users auctions req bidderId = .errInsufficient ↔
    ∃ a u, readRec auctions req.auctionId = some a ∧ a.status = .auctionOpen ∧
      readRec users bidderId = some u ∧ u.walletBalance - u.walletHold < req.amount := by
  unfold bidAnswer
  cases readRec auctions req.auctionId with
  | none => simp
  | some a =>
      cases readRec users bidderId with
      | none => by_cases hopen : a.status = .auctionOpen <;> simp [hopen]
      | some u => grind

end Answer

section Handler

variable {types : List MessageType} {α : Type} {p : Prog ApiSig α} {s : Store} {fd : Int}
  {req : PlaceBidPayload} {bidder : User} {a : Auction}

@[simp] theorem bidAnswers_append (calls calls' : List (Event ApiSig)) :
    bidAnswers (calls ++ calls') = bidAnswers calls ++ bidAnswers calls' :=
  List.filterMap_append

@[simp] theorem bidAnswers_nil : bidAnswers [] = [] := rfl

@[simp] theorem bidAnswers_cons (e : Event ApiSig) (calls : List (Event ApiSig)) :
    bidAnswers (e :: calls) = (bidAnswerOf e).toList ++ bidAnswers calls := by
  cases h : bidAnswerOf e <;> simp [bidAnswers, h]

theorem mem_bidAnswers {status : ErrCode} {payload : Payload} {calls : List (Event ApiSig)} :
    (fd, status, payload) ∈ bidAnswers calls ↔
      (⟨.sys (.send fd ⟨.msgPlaceBidResp, status, payload⟩), ()⟩ : Event ApiSig) ∈ calls := by
  rw [bidAnswers, List.mem_filterMap]
  constructor
  · rintro ⟨e, he, hof⟩
    unfold bidAnswerOf at hof
    split at hof
    · obtain ⟨rfl, rfl, rfl⟩ := by simpa using hof
      exact he
    · cases hof
  · exact fun he => ⟨_, he, rfl⟩

/-- A program that writes no answer to a bid. -/
theorem Says.bidAnswers_eq_nil (h : Says types p) (ht : .msgPlaceBidResp ∉ types) (s : Store) :
    bidAnswers (Prog.trace Api.exec p s) = [] := by
  refine List.filterMap_eq_nil_iff.mpr fun e he => ?_
  unfold bidAnswerOf
  split
  · exact absurd (h.mem he) ht
  · rfl

theorem says_recordBid (req : PlaceBidPayload) (bidder : User) (a : Auction) :
    Says [] (recordBid req bidder a) := by
  simp [Says, recordBid, releaseLeader, ApiOp.Says]

/-- What follows the semaphore is run on the record that was read before. -/
theorem trace_accepted (fd : Int) (bidder : User)
    (hread : readRec s.auctions req.auctionId = some a)
    (hopen : a.status = .auctionOpen) (hhigher : a.currentBid < req.amount) :
    bidAnswers (Prog.trace Api.exec (placeBidLocked fd req bidder) s) =
      [(fd, .errOk, .bid (s.bid req bidder.userId))] := by
  have hresult : (Prog.run Api.exec (recordBid req bidder a) s).1 = s.bid req bidder.userId :=
    (does_recordBid (rfl : s.view (fun _ => none) = _) req bidder a).result
  have hrecord : bidAnswers (Prog.trace Api.exec (recordBid req bidder a) s) = [] :=
    (says_recordBid req bidder a).bidAnswers_eq_nil (by simp) s
  have houtbid (s : Store) : bidAnswers (Prog.trace Api.exec
      (notifyOutbid a.highestBidderId req.auctionId req.amount) s) = [] :=
    Says.bidAnswers_eq_nil (says_pushNotification _ _ (List.mem_singleton.mpr rfl)) (by decide) s
  generalize hrun : Prog.run Api.exec (recordBid req bidder a) s = r at hresult
  obtain ⟨b, s'⟩ := r
  obtain rfl : b = s.bid req bidder.userId := hresult
  have hlow : ¬ req.amount ≤ a.currentBid := not_le.mpr hhigher
  by_cases hleader : a.highestBidderId ≠ 0 ∧ a.highestBidderId ≠ bidder.userId
  · simp [placeBidLocked, getAuctionSem, Store.exec, hread, hopen, hlow, hrun, hrecord, houtbid,
      hleader, bidAnswerOf]
  · simp [placeBidLocked, getAuctionSem, Store.exec, hread, hopen, hlow, hrun, hrecord, hleader,
      bidAnswerOf]

/-- The handler tells the client the outcome, once. -/
theorem answers_handlePlaceBid (fd : Int) (req : PlaceBidPayload) (bidder : User) (s : Store) :
    bidAnswers (Prog.trace Api.exec (handlePlaceBid fd req bidder) s) =
      [(fd, bidAnswer s.users s.auctions req bidder.userId,
        if bidAnswer s.users s.auctions req bidder.userId = .errOk then
          .bid (s.bid req bidder.userId) else .empty)] := by
  cases hread : readRec s.auctions req.auctionId with
  | none => simp [handlePlaceBid, bidAnswer, hread, Store.exec, bidAnswerOf]
  | some a =>
      by_cases hopen : a.status = .auctionOpen
      case neg => simp [handlePlaceBid, bidAnswer, hread, hopen, Store.exec, bidAnswerOf]
      cases huser : readRec s.users bidder.userId with
      | none =>
          simp [handlePlaceBid, bidAnswer, hread, hopen, huser, Store.exec, bidAnswerOf]
      | some u =>
          by_cases hfunds : u.walletBalance - u.walletHold < req.amount
          · simp [handlePlaceBid, bidAnswer, hread, hopen, huser, hfunds, Store.exec, bidAnswerOf]
          · by_cases hlow : req.amount ≤ a.currentBid
            · simp [handlePlaceBid, placeBidLocked, getAuctionSem, bidAnswer, hread, hopen, huser,
                hfunds, hlow, Store.exec, bidAnswerOf]
            · have haccepted := trace_accepted fd bidder hread hopen
                (not_le.mp hlow)
              simpa [handlePlaceBid, bidAnswer, hread, hopen, huser, hfunds, hlow, Store.exec,
                bidAnswerOf] using haccepted

/-- What follows the recording of a bid changes no file. -/
theorem view_accepted (conns : Int → Option Conn) (fd : Int) (bidder : User)
    (hread : readRec s.auctions req.auctionId = some a)
    (hopen : a.status = .auctionOpen) (hhigher : a.currentBid < req.amount) :
    (Prog.run Api.exec (placeBidLocked fd req bidder) s).2.view conns =
      { s.view conns with
        users := usersAfter (a.biddingCalls bidder.userId req.amount) s.users
        auctions := writeRec .zero s.auctions a.auctionId (a.withBid bidder.userId req.amount)
        bids := s.bids ++ [s.bid req bidder.userId] } := by
  have hview := (does_recordBid (rfl : s.view conns = _) req bidder a).view
  generalize hrun : Prog.run Api.exec (recordBid req bidder a) s = r at hview
  obtain ⟨b, s'⟩ := r
  have hlow : ¬ req.amount ≤ a.currentBid := not_le.mpr hhigher
  by_cases hleader : a.highestBidderId ≠ 0 ∧ a.highestBidderId ≠ bidder.userId
  · simpa [placeBidLocked, getAuctionSem, Store.exec, hread, hopen, hlow, hrun, hleader,
      notifyOutbid, run_pushNotification, Store.view, Store.bid] using hview
  · simpa [placeBidLocked, getAuctionSem, Store.exec, hread, hopen, hlow, hrun, hleader,
      Store.view, Store.bid] using hview

/-- The handler, run alone, as a change of the files. -/
theorem view_handlePlaceBid (conns : Int → Option Conn) (fd : Int) (req : PlaceBidPayload)
    (bidder : User) (s : Store) :
    (Prog.run Api.exec (handlePlaceBid fd req bidder) s).2.view conns =
      (s.view conns).placeBid req bidder.userId := by
  have husers : (s.view conns).users = s.users := rfl
  have hauctions : (s.view conns).auctions = s.auctions := rfl
  rw [View.placeBid, husers, hauctions]
  cases hread : readRec s.auctions req.auctionId with
  | none => simp [handlePlaceBid, bidAnswer, hread, Store.exec, Store.view]
  | some a =>
      by_cases hopen : a.status = .auctionOpen
      case neg => simp [handlePlaceBid, bidAnswer, hread, hopen, Store.exec, Store.view]
      cases huser : readRec s.users bidder.userId with
      | none => simp [handlePlaceBid, bidAnswer, hread, hopen, huser, Store.exec, Store.view]
      | some u =>
          by_cases hfunds : u.walletBalance - u.walletHold < req.amount
          · simp [handlePlaceBid, bidAnswer, hread, hopen, huser, hfunds, Store.exec, Store.view]
          · by_cases hlow : req.amount ≤ a.currentBid
            · simp [handlePlaceBid, placeBidLocked, getAuctionSem, bidAnswer, hread, hopen, huser,
                hfunds, hlow, Store.exec, Store.view]
            · have haccepted := view_accepted conns fd bidder hread hopen
                (not_le.mp hlow)
              simpa [handlePlaceBid, bidAnswer, hread, hopen, huser, hfunds, hlow, Store.exec,
                Store.view, Store.bid] using haccepted

end Handler

end OnlineAuction
