import OnlineAuction.Wallet

/-!
# OnlineAuction.Dispute

`server/dispute.c`: filing and resolving disputes, the moderator's queries,
and switching accounts on and off.
-/

namespace OnlineAuction

def handleFileDispute (clientFd : Int) (req : FileDisputePayload) (u : User) :
    Prog ApiSig Unit := do
  match ← readAuction req.auctionId with
  | none => sendMsg clientFd .msgResolveDisputeResp .errNotFound .empty
  | some a =>
      if a.status ≠ .auctionClosed then
        sendMsg clientFd .msgResolveDisputeResp .errAuctionClosed .empty
      else do
        let disputeId ← nextDisputeId
        let raisedAt ← time
        let d : Dispute :=
          { disputeId := disputeId
            auctionId := req.auctionId
            raisedByUserId := u.userId
            resolvedByUserId := 0
            reason := strncpy (.zero _) req.reason.val (maxDesc - 1)
            resolution := .zero _
            status := .disputeOpen
            raisedAt := raisedAt
            resolvedAt := 0 }
        if (← writeDispute d) < 0 then
          sendMsg clientFd .msgResolveDisputeResp .errInternal .empty
        else do
          let _ ← writeAuction (a.withStatus .auctionDisputed)
          sendMsg clientFd .msgResolveDisputeResp .errOk (.dispute d)
          logTxn (.fileDispute d.disputeId d.auctionId u.userId)

def handleViewDisputes (clientFd : Int) : Prog ApiSig Unit := do
  match ← scanDisputes with
  | none => sendMsg clientFd .msgViewDisputesResp .errOk .empty
  | some l =>
      let list := (l.filter fun d => d.status == .disputeOpen).take 128
      sendMsg clientFd .msgViewDisputesResp .errOk (.disputes list)

/-! ## resolving a dispute -/

/-- The refund flow: credit the winner, then take the amount back from the
seller when the seller's balance covers it, else leave a line in the log. -/
def refund (d : Dispute) (a : Auction) : Prog ApiSig Unit := do
  logTxn (.walRefund d.disputeId a.auctionId a.highestBidderId a.sellerId a.currentBid)
  let _ ← wallet (.resolve d.disputeId) (.creditWallet a.highestBidderId a.currentBid)
  match ← readUser a.sellerId with
  | none => pure ()
  | some seller =>
      if seller.walletBalance ≥ a.currentBid then do
        let _ ← wallet (.resolve d.disputeId) (.creditWallet a.sellerId (-a.currentBid))
        pure ()
      else logTxn .refundAnomaly

/-- What becomes of the auction: a refund, or `REJECTED` restores `CLOSED`. -/
def concludeDispute (d : Dispute) (a : Auction) : Prog ApiSig Unit :=
  if d.status = .disputeResolved then refund d a
  else do
    let _ ← writeAuction (a.withStatus .auctionClosed)
    pure ()

def handleResolveDispute (clientFd : Int) (req : ResolveDisputePayload) (moderator : User) :
    Prog ApiSig Unit := do
  match DisputeStatus.ofCode req.newStatus with
  | none | some .disputeOpen => sendMsg clientFd .msgResolveDisputeResp .errInternal .empty
  | some newStatus => do
      match ← readDispute req.disputeId with
      | none => sendMsg clientFd .msgResolveDisputeResp .errNotFound .empty
      | some d =>
          if d.status ≠ .disputeOpen then
            sendMsg clientFd .msgResolveDisputeResp .errInternal .empty
          else do
            let resolvedAt ← time
            let d : Dispute :=
              { d with
                status := newStatus
                resolvedByUserId := moderator.userId
                resolvedAt := resolvedAt
                resolution := strncpy d.resolution req.resolution.val (maxDesc - 1) }
            let _ ← writeDispute d
            match ← readAuction d.auctionId with
            | none => sendMsg clientFd .msgResolveDisputeResp .errInternal .empty
            | some a => do
                concludeDispute d a
                sendMsg clientFd .msgResolveDisputeResp .errOk (.dispute d)
                logTxn (.resolveDispute d.disputeId d.status moderator.userId)

/-! ## the moderator's other requests -/

/-- At most 256 records are answered, but the second pass marks all of them. -/
def handleViewFeedback (clientFd : Int) : Prog ApiSig Unit := do
  match ← scanFeedback with
  | none => sendMsg clientFd .msgViewFeedbackResp .errOk .empty
  | some l => do
      let list := (l.filter fun f => !f.reviewed).take 256
      markFeedbackReviewed
      sendMsg clientFd .msgViewFeedbackResp .errOk (.feedback list)

def handleToggleAccount (clientFd : Int) (req : ToggleAccountPayload) (moderator : User) :
    Prog ApiSig Unit := do
  match ← readUser req.targetUserId with
  | none => sendMsg clientFd .msgToggleAccountResp .errNotFound .empty
  | some target =>
      if target.role ≥ moderator.role then
        sendMsg clientFd .msgToggleAccountResp .errPermission .empty
      else do
        let target := { target with status := req.newStatus }
        let _ ← writeUser target
        sendMsg clientFd .msgToggleAccountResp .errOk (.user target)
        logTxn (.toggleAccount target.userId target.status moderator.userId)

end OnlineAuction
