import OnlineAuction.Handlers

/-!
# OnlineAuction.TxnLog

What is appended to `txn.log`.

The log only grows (`run_txnLog`).  A wallet function logs the change it states
(`WalletCall.line`), and `place_hold` leaves nothing out when it answers 0, so the lines
about wallets that a program adds can be read off the wallet calls it makes
(`statements_run`).
-/

namespace OnlineAuction

section Grows

variable {α : Type} (s : Store)

/-- No system call takes a line away. -/
theorem exec_txnLog (op : SysOp) : s.txnLog <+: (Store.exec op s).2.txnLog := by
  cases op <;> first | exact List.prefix_rfl | exact List.prefix_append _ _

/-- Every call appends to the log or leaves it. -/
theorem api_exec_txnLog (o : ApiOp) : s.txnLog <+: (Api.exec o s).2.txnLog := by
  cases o with
  | sys op => exact exec_txnLog s op
  | wallet site c =>
      rw [exec_wallet]
      split <;> exact List.prefix_append _ _

/-- Nor does a program. -/
theorem run_txnLog (p : Prog ApiSig α) : s.txnLog <+: (Prog.run Api.exec p s).2.txnLog := by
  induction p generalizing s with
  | pure a => exact List.prefix_rfl
  | call o k ih => exact (api_exec_txnLog s o).trans (ih _ _)

end Grows

/-! ## the lines about wallets -/

/-- The line that states the change a wallet call is to make. -/
def WalletCall.line : WalletCall → LogLine
  | .placeHold id amount => .hold id amount
  | .releaseHold id amount => .release id amount
  | .settlePayment id amount => .settle id amount
  | .creditWallet id amount => .credit id amount

/-- The line states a change of a wallet. -/
def LogLine.isStatement : LogLine → Bool
  | .hold _ _ | .release _ _ | .settle _ _ | .credit _ _ => true
  | _ => false

/-- The line that a wallet call should leave: one that is answered 0 has changed the
wallet. -/
def statement : Event ApiSig → Option LogLine
  | ⟨.wallet _ c, r⟩ => if r = (0 : Int) then some c.line else none
  | _ => none

/-- A wallet call has succeeded. -/
def Succeeded : Event ApiSig → Prop
  | ⟨.wallet _ _, r⟩ => r = (0 : Int)
  | _ => True

section Statements

variable {α : Type} {s : Store}

/-- The lines of wallet calls are statements. -/
theorem WalletCall.isStatement_line (c : WalletCall) : c.line.isStatement = true := by
  cases c <;> rfl

/-- A call that is answered 0 has written. -/
theorem WalletCall.isSome_written {c : WalletCall} {users : List User} (h : c.result users = 0) :
    (c.written (readRec users c.userId)).isSome = true := by
  by_contra hnone
  rw [WalletCall.result, if_neg hnone] at h
  cases h

/-- It leaves its line. -/
theorem WalletCall.lines_of_result {c : WalletCall} {users : List User} (h : c.result users = 0) :
    c.lines (readRec users c.userId) = [c.line] := by
  have hwritten := c.isSome_written h
  cases c with
  | placeHold id amount =>
      simp only [WalletCall.userId] at hwritten ⊢
      cases hread : readRec users id with
      | none => simp [hread, WalletCall.written] at hwritten
      | some u =>
          simp only [hread, WalletCall.written, WalletCall.apply, Option.bind_some] at hwritten
          simp only [WalletCall.lines, WalletCall.line]
          split
          · next hgt => simp [hgt] at hwritten
          · rfl
  | _ => rfl

/-- A call that logs no statement of its own. -/
def ApiOp.Plain : ApiOp → Prop
  | .sys (.logTxn line) => line.isStatement = false
  | _ => True

/-- **The lines of a call** that has not failed. -/
theorem statements_exec {o : ApiOp} (hplain : o.Plain) (h : Succeeded ⟨o, (Api.exec o s).1⟩) :
    (Api.exec o s).2.txnLog.filter LogLine.isStatement =
      s.txnLog.filter LogLine.isStatement ++ (statement ⟨o, (Api.exec o s).1⟩).toList := by
  cases o with
  | sys op =>
      cases op with
      | logTxn line =>
          have hline : line.isStatement = false := hplain
          simp [statement, Store.exec, hline]
      | _ => simp [statement, Store.exec, Store.create]
  | wallet site c =>
      have hresult : c.result s.users = 0 := (exec_wallet_result s site c).symm.trans h
      have hlines := c.lines_of_result hresult
      have hstatement : statement ⟨.wallet site c, (Api.exec (.wallet site c) s).1⟩ = some c.line :=
        if_pos h
      rw [hstatement, exec_wallet, hlines]
      split <;> simp [Store.putLines, Store.putUser, Store.create, c.isStatement_line]

/-- A program none of whose calls logs a statement of its own. -/
abbrev Plain (p : Prog ApiSig α) : Prop := p.Respects ApiOp.Plain (fun _ _ => True) fun _ => True

/-- **The lines of a program** whose wallet calls succeed. -/
theorem statements_run {p : Prog ApiSig α} (hp : Plain p)
    (h : ∀ e ∈ Prog.trace Api.exec p s, Succeeded e) :
    (Prog.run Api.exec p s).2.txnLog.filter LogLine.isStatement =
      s.txnLog.filter LogLine.isStatement ++ (Prog.trace Api.exec p s).filterMap statement := by
  induction p generalizing s with
  | pure a => simp
  | call o k ih =>
      have hcall := statements_exec (s := s) hp.1 (h _ (List.mem_cons_self ..))
      have hrest := ih _ (hp.2 _ trivial) fun e he => h e (List.mem_cons_of_mem _ he)
      rw [Prog.run_call, hrest, hcall, List.append_assoc, Prog.trace_call, List.filterMap_cons]
      cases statement ⟨o, (Api.exec o s).1⟩ <;> rfl

end Statements

/-! ## the handlers -/

section Handlers

variable (sha256Hex : List UInt8 → List UInt8) (clientFd : Int) {u : User}

/-- A close logs its announcement, which is no statement. -/
theorem plain_closeAuctionInternal (a : Auction) : Plain (closeAuctionInternal a) := by
  have hrelease (site : Site) (b : Auction) : Plain (releaseLeader site b) := by
    unfold releaseLeader
    split <;> simp [Plain, ApiOp.Plain]
  simpa [Plain, closeAuctionInternal, notifyAuctionWon, notifyAuctionClosed, pushNotification,
    ApiOp.Plain, LogLine.isStatement] using fun _ => hrelease _ _

/-- A resolution logs lines of its own. -/
theorem plain_handleResolveDispute (req : ResolveDisputePayload) :
    Plain (handleResolveDispute clientFd req u) := by
  unfold handleResolveDispute
  split
  · simp [Plain, ApiOp.Plain]
  · simp [Plain, ApiOp.Plain]
  · simp [Plain, concludeDispute, refund, Option.forall, ApiOp.Plain, LogLine.isStatement]

theorem plain_handleCloseAuction (req : CloseAuctionPayload) :
    Plain (handleCloseAuction clientFd req u) := by
  simpa [Plain, handleCloseAuction, Option.forall, ApiOp.Plain, LogLine.isStatement] using
    fun a _ _ => plain_closeAuctionInternal a

theorem plain_timerClose (auctionId : UInt32) : Plain (timerClose auctionId) := by
  simpa [Plain, timerClose, Option.forall, ApiOp.Plain, LogLine.isStatement] using
    fun a _ => plain_closeAuctionInternal a

theorem plain_whenAllowed (allowed : Bool) {p : Prog ApiSig Unit} (h : Plain p) :
    Plain (whenAllowed allowed clientFd p) := by
  unfold whenAllowed
  split
  · exact h
  · simp [Plain, ApiOp.Plain]

/-- Statements come from the wallet functions only. -/
theorem plain_dispatch (m : Request) : Plain (dispatch sha256Hex clientFd u m) := by
  cases m with
  | resolveDispute req => exact plain_whenAllowed _ _ (plain_handleResolveDispute _ req)
  | closeAuction req => exact plain_whenAllowed _ _ (plain_handleCloseAuction _ req)
  | placeBid req =>
      simp [Plain, dispatch, whenAllowed, handlePlaceBid, placeBidLocked, getAuctionSem, recordBid,
        releaseLeader, notifyOutbid, pushNotification, Option.forall, ApiOp.Plain,
        LogLine.isStatement]
  | _ =>
      simp [Plain, dispatch, whenAllowed, handleFileDispute, handleViewAuctions, handleViewMyBids,
        handleViewBalance, handleListUsers, handleViewDisputes, handleViewFeedback,
        handleSubmitFeedback, handleCreateAuction, handleToggleAccount, handleAddUser,
        handleChangeRole, demotesLastAdmin, Option.forall, ApiOp.Plain, LogLine.isStatement]

/-- Whatever the message. -/
theorem plain_serve (c : Conn) (m : Request) : Plain (serve sha256Hex clientFd c m) := by
  have hdispatch := plain_dispatch sha256Hex clientFd (u := c.currentUser) m
  cases m with
  | login | logout | changePass | deposit =>
      simp [Plain, serve, handleLogin, createSession, notifyRegister, handleLogout, clearSession,
        notifyUnregister, handleChangePassword, handleDeposit, Option.forall, ApiOp.Plain,
        LogLine.isStatement]
  | _ => simpa [Plain, serve, ApiOp.Plain] using fun _ => hdispatch

/-- The end of a connection logs nothing. -/
theorem plain_cleanUp (c : Conn) : Plain (cleanUp c) := by
  simp [Plain, cleanUp, clearSession, notifyUnregister, Option.forall, ApiOp.Plain]

/-- So a turn of a connection logs no statement of its own. -/
theorem plain_turn (c : Conn) (m : Request) : Plain (turn sha256Hex clientFd c m) := by
  refine (plain_serve sha256Hex clientFd c m).bind fun r _ => ?_
  obtain ⟨c', running⟩ := r
  cases running with
  | true => exact trivial
  | false => simpa [Plain] using plain_cleanUp c'

/-- No input logs a statement of its own. -/
theorem plain_input (conns : Int → Option Conn) (i : Input) :
    Plain (i.prog sha256Hex conns) := by
  cases i with
  | message clientFd m =>
      simp only [Input.prog]
      cases conns clientFd with
      | none => exact trivial
      | some c => simpa [Plain] using plain_turn sha256Hex clientFd c m
  | disconnect clientFd =>
      simp only [Input.prog]
      cases conns clientFd with
      | none => exact trivial
      | some c => simpa [Plain] using plain_cleanUp c
  | timerClose auctionId => simpa [Plain, Input.prog] using plain_timerClose auctionId
  | _ => exact trivial

end Handlers

end OnlineAuction
