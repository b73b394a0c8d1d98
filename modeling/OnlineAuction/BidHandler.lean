import OnlineAuction.Notify

/-!
# OnlineAuction.BidHandler

`server/bid_handler.c`: placing a bid, under the binary semaphore of its
auction, and the bidder's queries.
-/

namespace OnlineAuction

/-! ## placing a bid -/

/-- `MAX_AUCTIONS`: the number of semaphores; auctions share them modulo it. -/
abbrev maxAuctions : UInt32 := 1024

/-- The semaphore of an auction. -/
def auctionSem (auctionId : UInt32) : Lock := .auctionSem ((auctionId - 1) % maxAuctions)

/-- The semaphore is initialised at its first use, under `sem_init_lock`. -/
def getAuctionSem (auctionId : UInt32) : Prog ApiSig Lock := do
  lock .semInit
  unlock .semInit
  pure (auctionSem auctionId)

/-- Steps 4 to 6 of `handle_place_bid`: move the hold from the leader of `a` to
the bidder, write the auction and append the bid.  What the wallet functions
and the writes answer is not looked at. -/
def recordBid (req : PlaceBidPayload) (bidder : User) (a : Auction) : Prog ApiSig Bid := do
  let _ ← releaseLeader (.placeBid req.auctionId) a
  let _ ← wallet (.placeBid req.auctionId) (.placeHold bidder.userId req.amount)
  let _ ← writeAuction (a.withBid bidder.userId req.amount)
  let bidId ← nextBidId
  let placedAt ← time
  let b : Bid :=
    { bidId := bidId
      auctionId := req.auctionId
      bidderId := bidder.userId
      amount := req.amount
      placedAt := placedAt
      isWinning := true }
  let _ ← appendBid b
  pure b

/-- `handle_place_bid` from the semaphore on: the auction is read again, since
it may have changed while the bidder waited. -/
def placeBidLocked (clientFd : Int) (req : PlaceBidPayload) (bidder : User) :
    Prog ApiSig Unit := do
  let sem ← getAuctionSem req.auctionId
  lock sem
  match ← readAuction req.auctionId with
  | none => do
      unlock sem
      sendMsg clientFd .msgPlaceBidResp .errNotFound .empty
  | some a =>
      if a.status ≠ .auctionOpen then do
        unlock sem
        sendMsg clientFd .msgPlaceBidResp .errAuctionClosed .empty
      else if req.amount ≤ a.currentBid then do
        unlock sem
        sendMsg clientFd .msgPlaceBidResp .errBidTooLow .empty
      else do
        let b ← recordBid req bidder a
        unlock sem
        sendMsg clientFd .msgPlaceBidResp .errOk (.bid b)
        logTxn (.bid req.auctionId bidder.userId req.amount)
        if a.highestBidderId ≠ 0 ∧ a.highestBidderId ≠ bidder.userId then
          notifyOutbid a.highestBidderId req.auctionId req.amount
        else pure ()

/-- The peek at the auction and the check of the wallet take no lock. -/
def handlePlaceBid (clientFd : Int) (req : PlaceBidPayload) (bidder : User) :
    Prog ApiSig Unit := do
  match ← readAuction req.auctionId with
  | none => sendMsg clientFd .msgPlaceBidResp .errNotFound .empty
  | some a =>
      if a.status ≠ .auctionOpen then
        sendMsg clientFd .msgPlaceBidResp .errAuctionClosed .empty
      else do
        match ← readUser bidder.userId with
        | none => sendMsg clientFd .msgPlaceBidResp .errInternal .empty
        | some freshBidder =>
            if req.amount > freshBidder.walletBalance - freshBidder.walletHold then
              sendMsg clientFd .msgPlaceBidResp .errInsufficient .empty
            else placeBidLocked clientFd req bidder

/-! ## queries and feedback -/

def handleViewAuctions (clientFd : Int) : Prog ApiSig Unit := do
  match ← scanAuctions with
  | none => sendMsg clientFd .msgViewAuctionsResp .errInternal .empty
  | some l =>
      let openList := (l.filter fun a => !a.isDeleted && a.status == .auctionOpen).take 256
      sendMsg clientFd .msgViewAuctionsResp .errOk (.auctions openList)

def handleViewMyBids (clientFd : Int) (u : User) : Prog ApiSig Unit := do
  match ← scanBids with
  | none => sendMsg clientFd .msgViewMyBidsResp .errInternal .empty
  | some l =>
      let bids := (l.filter fun b => b.bidderId == u.userId).take 256
      sendMsg clientFd .msgViewMyBidsResp .errOk (.bids bids)

def handleSubmitFeedback (clientFd : Int) (req : FeedbackPayload) (u : User) :
    Prog ApiSig Unit := do
  let submittedAt ← time
  let feedbackId ← nextFeedbackId
  let f : Feedback :=
    { feedbackId := feedbackId
      fromUserId := u.userId
      aboutAuctionId := req.auctionId
      message := strncpy (.zero _) req.message.val (maxFeedback - 1)
      submittedAt := submittedAt
      reviewed := false }
  if (← appendFeedback f) < 0 then
    sendMsg clientFd .msgSubmitFeedbackResp .errInternal .empty
  else
    sendMsg clientFd .msgSubmitFeedbackResp .errOk .empty

end OnlineAuction
