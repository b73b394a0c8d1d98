import OnlineAuction.Wallet

/-!
# OnlineAuction.Notify

`server/notify.c`: the registry of connections and the notifications that the
server pushes to them without being asked.
-/

namespace OnlineAuction

def notifyRegister (userId : UInt32) (clientFd : Int) : Prog ApiSig Unit := do
  lock .registry
  registryInsert userId clientFd
  unlock .registry

def notifyUnregister (userId : UInt32) : Prog ApiSig Unit := do
  lock .registry
  registryRemove userId
  unlock .registry

/-- The registry lock is released before the message is written; a user who is
not registered gets nothing. -/
def pushNotification (userId : UInt32) (type : MessageType) (payload : Payload) :
    Prog ApiSig Unit := do
  lock .registry
  let fd ← lookupFd userId
  unlock .registry
  if fd < 0 then pure () else sendMsg fd type .errOk payload

def notifyOutbid (userId auctionId : UInt32) (newHighestBid : ℚ) : Prog ApiSig Unit :=
  pushNotification userId .msgNotifyOutbid (.outbid auctionId newHighestBid)

def notifyAuctionWon (userId auctionId : UInt32) (winningAmount : ℚ) : Prog ApiSig Unit :=
  pushNotification userId .msgNotifyAuctionWon (.auctionWon auctionId winningAmount)

def notifyAuctionClosed (userId auctionId : UInt32) : Prog ApiSig Unit :=
  pushNotification userId .msgNotifyAuctionClosed (.auctionClosed auctionId)

end OnlineAuction
