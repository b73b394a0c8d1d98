import OnlineAuction.FileIO

/-!
# OnlineAuction.Wallet

`server/wallet.c`, and the calls that the other handlers make.

The four wallet functions are programs over the system calls: each takes the
mutex of the user's bucket, reads the user's record, and writes it back with
new wallet fields unless a guard refuses.  The handlers call them without
looking inside, so for the handlers a wallet function is one more call
(`ApiOp.wallet`); `Api.impl` implements it by its program and `Api.exec` is
what the calls of the handlers do when a request runs alone.
-/

namespace OnlineAuction

/-! ## the wallet functions -/

namespace Sys

@[simp] def readUser (id : UInt32) : Prog SysSig (Option User) := .call (.readUser id) .pure
@[simp] def writeUser (u : User) : Prog SysSig Int := .call (.writeUser u) .pure
@[simp] def logTxn (line : LogLine) : Prog SysSig Unit := .call (.logTxn line) .pure
@[simp] def lock (l : Lock) : Prog SysSig Unit := .call (.lock l) .pure
@[simp] def unlock (l : Lock) : Prog SysSig Unit := .call (.unlock l) .pure

end Sys

/-- `WALLET_LOCK_BUCKETS`. -/
abbrev walletLockBuckets : UInt32 := 64

/-- The mutex that guards the wallet of a user. -/
def getWalletLock (userId : UInt32) : Lock := .wallet (userId % walletLockBuckets)

/-- The record with its wallet fields changed, unless a guard of
`apply_wallet_delta` refuses: a negative balance, or a hold above the balance.
A negative hold is raised to zero. -/
def walletDelta (u : User) (balanceDelta holdDelta : ℚ) : Option User :=
  let newBalance := u.walletBalance + balanceDelta
  let newHold := u.walletHold + holdDelta
  if newBalance < 0 then none
  else
    let newHold := if newHold < 0 then 0 else newHold
    if newHold > newBalance then none
    else some (u.withWallet newBalance newHold)

def applyWalletDelta (userId : UInt32) (balanceDelta holdDelta : ℚ) : Prog SysSig Int := do
  match ← Sys.readUser userId with
  | none => pure (-1)
  | some u => match walletDelta u balanceDelta holdDelta with
      | none => pure (-1)
      | some v => Sys.writeUser v

def placeHold (userId : UInt32) (amount : ℚ) : Prog SysSig Int := do
  Sys.lock (getWalletLock userId)
  match ← Sys.readUser userId with
  | none => do
      Sys.unlock (getWalletLock userId)
      pure (-1)
  | some u =>
      -- the two error returns leave no line in the log
      if amount > u.walletBalance - u.walletHold then do
        Sys.unlock (getWalletLock userId)
        pure (-1)
      else do
        let result ← applyWalletDelta userId 0 amount
        Sys.unlock (getWalletLock userId)
        Sys.logTxn (.hold userId amount)
        pure result

/-- The common body of the three other functions: one delta under the mutex,
then a line in the log whatever the result. -/
def lockedDelta (userId : UInt32) (balanceDelta holdDelta : ℚ) (line : LogLine) :
    Prog SysSig Int := do
  Sys.lock (getWalletLock userId)
  let result ← applyWalletDelta userId balanceDelta holdDelta
  Sys.unlock (getWalletLock userId)
  Sys.logTxn line
  pure result

def releaseHold (userId : UInt32) (amount : ℚ) : Prog SysSig Int :=
  lockedDelta userId 0 (-amount) (.release userId amount)

def settlePayment (userId : UInt32) (amount : ℚ) : Prog SysSig Int :=
  lockedDelta userId (-amount) (-amount) (.settle userId amount)

def creditWallet (userId : UInt32) (amount : ℚ) : Prog SysSig Int :=
  lockedDelta userId amount 0 (.credit userId amount)

/-! ## the calls of the handlers -/

/-- A call of one of the four wallet functions. -/
inductive WalletCall
  | placeHold (userId : UInt32) (amount : ℚ)
  | releaseHold (userId : UInt32) (amount : ℚ)
  | settlePayment (userId : UInt32) (amount : ℚ)
  | creditWallet (userId : UInt32) (amount : ℚ)
  deriving DecidableEq

/-- The program that a wallet call runs. -/
def WalletCall.prog : WalletCall → Prog SysSig Int
  | .placeHold id amount => OnlineAuction.placeHold id amount
  | .releaseHold id amount => OnlineAuction.releaseHold id amount
  | .settlePayment id amount => OnlineAuction.settlePayment id amount
  | .creditWallet id amount => OnlineAuction.creditWallet id amount

/-- Where a wallet function is called from: a note for the reader of a trace
that no meaning depends on. -/
inductive Site
  | placeBid (auctionId : UInt32)
  | close (auctionId : UInt32)
  | resolve (disputeId : UInt32)
  | deposit
  deriving DecidableEq

/-- The calls of the handlers: those to the system and the wallet functions. -/
inductive ApiOp
  | sys (op : SysOp)
  | wallet (site : Site) (c : WalletCall)

abbrev ApiOp.Res : ApiOp → Type
  | .sys op => op.Res
  | .wallet _ _ => Int

abbrev ApiSig : Sig := ⟨ApiOp, ApiOp.Res⟩

namespace Api

/-- The wallet functions are implemented by their programs. -/
def impl : (o : ApiOp) → Prog SysSig o.Res
  | .sys op => .call op .pure
  | .wallet _ c => c.prog

theorem impl_sys (op : SysOp) : impl (.sys op) = .call op .pure := rfl

theorem impl_wallet (site : Site) (c : WalletCall) : impl (.wallet site c) = c.prog := rfl

/-- What the calls of the handlers do, each as one step. -/
def exec : Prog.Handler ApiSig Store := fun o s => Prog.run Store.exec (impl o) s

/-- A system call runs as itself. -/
@[simp] theorem exec_sys (op : SysOp) (s : Store) : exec (.sys op) s = Store.exec op s := rfl

/-- A wallet call runs its function. -/
theorem exec_wallet (site : Site) (c : WalletCall) (s : Store) :
    exec (.wallet site c) s = Prog.run Store.exec c.prog s := rfl

/-- A handler run alone does the same whether a wallet function counts as one
call or as the calls of its program. -/
theorem run_subst_impl {α : Type} (p : Prog ApiSig α) (s : Store) :
    Prog.run Store.exec (p.subst impl) s = Prog.run exec p s :=
  Prog.run_subst impl exec Store.exec (fun _ _ => rfl) p s

end Api

section Calls

@[simp] def readUser (id : UInt32) : Prog ApiSig (Option User) :=
  .call (.sys (.readUser id)) .pure
@[simp] def writeUser (u : User) : Prog ApiSig Int := .call (.sys (.writeUser u)) .pure
@[simp] def findUserByUsername (name : List UInt8) : Prog ApiSig (Option User) :=
  .call (.sys (.findUserByUsername name)) .pure
@[simp] def scanUsers : Prog ApiSig (Option (List User)) := .call (.sys .scanUsers) .pure
@[simp] def nextUserId : Prog ApiSig UInt32 := .call (.sys .nextUserId) .pure
@[simp] def readAuction (id : UInt32) : Prog ApiSig (Option Auction) :=
  .call (.sys (.readAuction id)) .pure
@[simp] def writeAuction (a : Auction) : Prog ApiSig Int :=
  .call (.sys (.writeAuction a)) .pure
@[simp] def scanAuctions : Prog ApiSig (Option (List Auction)) :=
  .call (.sys .scanAuctions) .pure
@[simp] def nextAuctionId : Prog ApiSig UInt32 := .call (.sys .nextAuctionId) .pure
@[simp] def appendBid (b : Bid) : Prog ApiSig Int := .call (.sys (.appendBid b)) .pure
@[simp] def nextBidId : Prog ApiSig UInt32 := .call (.sys .nextBidId) .pure
@[simp] def scanBids : Prog ApiSig (Option (List Bid)) := .call (.sys .scanBids) .pure
@[simp] def markWinningBids (auctionId bidderId : UInt32) : Prog ApiSig Unit :=
  .call (.sys (.markWinningBids auctionId bidderId)) .pure
@[simp] def findSessionSlot (userId : UInt32) : Prog ApiSig (Option Nat) :=
  .call (.sys (.findSessionSlot userId)) .pure
@[simp] def findFreeSlot : Prog ApiSig (Option Nat) := .call (.sys .findFreeSlot) .pure
@[simp] def writeSession (slot : Nat) (x : Session) : Prog ApiSig Int :=
  .call (.sys (.writeSession slot x)) .pure
@[simp] def logTxn (line : LogLine) : Prog ApiSig Unit := .call (.sys (.logTxn line)) .pure
@[simp] def nextFeedbackId : Prog ApiSig UInt32 := .call (.sys .nextFeedbackId) .pure
@[simp] def appendFeedback (f : Feedback) : Prog ApiSig Int :=
  .call (.sys (.appendFeedback f)) .pure
@[simp] def scanFeedback : Prog ApiSig (Option (List Feedback)) :=
  .call (.sys .scanFeedback) .pure
@[simp] def markFeedbackReviewed : Prog ApiSig Unit :=
  .call (.sys .markFeedbackReviewed) .pure
@[simp] def readDispute (id : UInt32) : Prog ApiSig (Option Dispute) :=
  .call (.sys (.readDispute id)) .pure
@[simp] def writeDispute (d : Dispute) : Prog ApiSig Int :=
  .call (.sys (.writeDispute d)) .pure
@[simp] def scanDisputes : Prog ApiSig (Option (List Dispute)) :=
  .call (.sys .scanDisputes) .pure
@[simp] def nextDisputeId : Prog ApiSig UInt32 := .call (.sys .nextDisputeId) .pure
@[simp] def registryInsert (userId : UInt32) (fd : Int) : Prog ApiSig Unit :=
  .call (.sys (.registryInsert userId fd)) .pure
@[simp] def registryRemove (userId : UInt32) : Prog ApiSig Unit :=
  .call (.sys (.registryRemove userId)) .pure
@[simp] def lookupFd (userId : UInt32) : Prog ApiSig Int :=
  .call (.sys (.lookupFd userId)) .pure
@[simp] def lock (l : Lock) : Prog ApiSig Unit := .call (.sys (.lock l)) .pure
@[simp] def unlock (l : Lock) : Prog ApiSig Unit := .call (.sys (.unlock l)) .pure
@[simp] def time : Prog ApiSig Int := .call (.sys .time) .pure
@[simp] def sendMsg (fd : Int) (type : MessageType) (status : ErrCode) (payload : Payload) :
    Prog ApiSig Unit :=
  .call (.sys (.send fd ⟨type, status, payload⟩)) .pure
@[simp] def wallet (site : Site) (c : WalletCall) : Prog ApiSig Int :=
  .call (.wallet site c) .pure

end Calls

/-- Release the hold of the highest bidder of `a`, when there is one. -/
def releaseLeader (site : Site) (a : Auction) : Prog ApiSig Int :=
  if a.highestBidderId ≠ 0 then wallet site (.releaseHold a.highestBidderId a.currentBid)
  else pure 0

/-! ## the wallet requests -/

/-- The session's copy of the user is brought up to date on success. -/
def handleDeposit (clientFd : Int) (req : DepositPayload) (u : User) : Prog ApiSig User := do
  if req.amount ≤ 0 then
    sendMsg clientFd .msgDepositResp .errInternal .empty
    pure u
  else
    let result ← wallet .deposit (.creditWallet u.userId req.amount)
    if result < 0 then
      sendMsg clientFd .msgDepositResp .errInternal .empty
      pure u
    else
      -- the answer is not checked: after a credit the record is there
      let updated := (← readUser u.userId).getD .zero
      sendMsg clientFd .msgDepositResp .errOk (.user updated)
      pure updated

def handleViewBalance (clientFd : Int) (u : User) : Prog ApiSig Unit := do
  match ← readUser u.userId with
  | none => sendMsg clientFd .msgViewBalanceResp .errInternal .empty
  | some fresh => sendMsg clientFd .msgViewBalanceResp .errOk (.user fresh)

end OnlineAuction
