import OnlineAuction.Notify

/-!
# OnlineAuction.AuctionEngine

`server/auction_engine.c`: creating an auction, closing it on request or when
the timer finds it expired, and the settlement that a close performs.
-/

namespace OnlineAuction

def handleCreateAuction (clientFd : Int) (req : CreateAuctionPayload) (seller : User) :
    Prog ApiSig Unit := do
  if req.startPrice ≤ 0 ∨ req.durationSeconds < 10 then
    sendMsg clientFd .msgCreateAuctionResp .errInternal .empty
  else do
    let now ← time
    let auctionId ← nextAuctionId
    let a : Auction :=
      { auctionId := auctionId
        itemName := strncpy (.zero _) req.itemName.val (maxItemName - 1)
        description := strncpy (.zero _) req.description.val (maxDesc - 1)
        sellerId := seller.userId
        startPrice := req.startPrice
        reservePrice := req.reservePrice
        currentBid := req.startPrice
        highestBidderId := 0
        status := .auctionOpen
        startTime := now
        endTime := now + req.durationSeconds.toNat
        bidCount := 0
        isDeleted := false }
    if (← writeAuction a) < 0 then
      sendMsg clientFd .msgCreateAuctionResp .errInternal .empty
    else do
      sendMsg clientFd .msgCreateAuctionResp .errOk (.auction a)
      logTxn (.createAuction a.auctionId seller.userId (cString a.itemName.val) a.endTime)

/-! ## closing -/

/-- The reserve is met when there is none or the highest bid reaches it. -/
def Auction.ReserveMet (a : Auction) : Prop :=
  a.reservePrice = 0 ∨ a.reservePrice ≤ a.currentBid

instance (a : Auction) : Decidable a.ReserveMet := inferInstanceAs (Decidable (_ ∨ _))

/-- A close of `a` pays the seller: there is a highest bidder and the reserve
is met. -/
def Auction.Settles (a : Auction) : Prop := a.highestBidderId ≠ 0 ∧ a.ReserveMet

instance (a : Auction) : Decidable a.Settles := inferInstanceAs (Decidable (_ ∧ _))

/-- `close_auction_internal`: returns the caller's copy as it leaves it.  No
lock is taken here. -/
def closeAuctionInternal (a : Auction) : Prog ApiSig Auction := do
  let a := a.withStatus .auctionClosed
  let _ ← writeAuction a
  if a.Settles then do
    logTxn (.walSettle a.auctionId a.highestBidderId a.sellerId a.currentBid)
    let _ ← wallet (.close a.auctionId) (.settlePayment a.highestBidderId a.currentBid)
    let _ ← wallet (.close a.auctionId) (.creditWallet a.sellerId a.currentBid)
    markWinningBids a.auctionId a.highestBidderId
    notifyAuctionWon a.highestBidderId a.auctionId a.currentBid
    notifyAuctionClosed a.sellerId a.auctionId
    pure a
  else do
    let _ ← releaseLeader (.close a.auctionId) a
    notifyAuctionClosed a.sellerId a.auctionId
    pure a

def handleCloseAuction (clientFd : Int) (req : CloseAuctionPayload) (requester : User) :
    Prog ApiSig Unit := do
  match ← readAuction req.auctionId with
  | none => sendMsg clientFd .msgCloseAuctionResp .errNotFound .empty
  | some a =>
      if a.sellerId ≠ requester.userId ∧ requester.role ≠ roleAdmin then
        sendMsg clientFd .msgCloseAuctionResp .errPermission .empty
      else if a.status ≠ .auctionOpen then
        sendMsg clientFd .msgCloseAuctionResp .errAuctionClosed .empty
      else do
        let a ← closeAuctionInternal a
        sendMsg clientFd .msgCloseAuctionResp .errOk (.auction a)
        logTxn (.closeAuction a.auctionId requester.userId)

/-! ## the timer -/

/-- The identifiers that one pass of the timer collects: the first 64 expired
auctions of the file. -/
def expiredIds (now : Int) (auctions : List Auction) : List UInt32 :=
  ((auctions.filter fun a => a.status == .auctionOpen && decide (a.endTime ≤ now)).take 64).map
    (·.auctionId)

/-- The body of the second loop of a pass: read the auction again and close it
if it is still open. -/
def timerClose (auctionId : UInt32) : Prog ApiSig Unit := do
  match ← readAuction auctionId with
  | none => pure ()
  | some ea =>
      if ea.status ≠ .auctionOpen then pure ()
      else do
        let _ ← closeAuctionInternal ea
        logTxn (.timerClose auctionId)

def closeExpired : List UInt32 → Prog ApiSig Unit
  | [] => pure ()
  | id :: ids => do
      timerClose id
      closeExpired ids

/-- One pass of the loop of `timer_thread`. -/
def timerPass : Prog ApiSig Unit := do
  let now ← time
  match ← scanAuctions with
  | none => pure ()
  | some l => closeExpired (expiredIds now l)

end OnlineAuction
