import OnlineAuction.Changes

/-!
# OnlineAuction.Handlers

Every input makes one of the listed changes.

`Does` says what a program answers, which marks it leaves and what the view is
after it.  Most calls are silent (`ApiOp.Silent`), so of each handler only the
accepted branches need attention.  `change_of_handle` is the inversion lemma of a
step that all invariants are derived from.
-/

namespace OnlineAuction

/-! ## what a program does -/

section Does

variable {α β : Type} {conns : Int → Option Conn}

/-- The program, run alone from `s`, returns `r` and leaves these marks and this
view. -/
structure Does (conns : Int → Option Conn) (p : Prog ApiSig α) (s : Store) (r : α)
    (ms : List Mark) (v : View) : Prop where
  result : (Prog.run Api.exec p s).1 = r
  marks : marks (Prog.trace Api.exec p s) = ms
  view : (Prog.run Api.exec p s).2.view conns = v

variable {p : Prog ApiSig α} {k : α → Prog ApiSig β} {s : Store} {r : α} {r' : β}
  {ms ms' : List Mark} {v v' : View}

/-- A program that is through has done nothing. -/
theorem does_pure (r : α) (hs : s.view conns = v) : Does conns (.pure r) s r [] v := ⟨rfl, rfl, hs⟩

/-- One after another: the marks follow each other. -/
theorem Does.bind (h : Does conns p s r ms v)
    (hk : ∀ s', s'.view conns = v → Does conns (k r) s' r' ms' v') :
    Does conns (p >>= k) s r' (ms ++ ms') v' := by
  obtain ⟨rfl, rfl, rfl⟩ := h
  obtain ⟨hr, hm, hv⟩ := hk _ rfl
  constructor
  · rw [Prog.run_bind, hr]
  · rw [Prog.trace_bind, marks_append, hm]
  · rw [Prog.run_bind, hv]

/-- A beginning without marks is one that only changes the view. -/
theorem Does.bind_unmarked (h : Does conns p s r [] v)
    (hk : ∀ s', s'.view conns = v → Does conns (k r) s' r' ms' v') :
    Does conns (p >>= k) s r' ms' v' := h.bind hk

/-- The call neither leaves a mark nor changes the view. -/
def ApiOp.Silent : ApiOp → Prop
  | .wallet _ _ | .sys (.writeUser _) | .sys (.writeAuction _) | .sys (.appendBid _)
  | .sys (.markWinningBids _ _) | .sys (.writeSession _ _) | .sys (.writeDispute _)
  | .sys (.registryInsert _ _) | .sys (.registryRemove _)
  | .sys (.logTxn (.closeAuction _ _)) | .sys (.logTxn (.timerClose _))
  | .sys (.logTxn (.walRefund _ _ _ _ _)) => False
  | _ => True

/-- The program makes silent calls only, and returns `r`. -/
abbrev Silent (p : Prog ApiSig α) (r : α) : Prop :=
  p.Respects ApiOp.Silent (fun _ _ => True) (· = r)

/-- A silent call neither leaves a mark nor changes what is seen. -/
theorem exec_silent (conns : Int → Option Conn) {op : ApiOp} (h : op.Silent) (s : Store) :
    mark ⟨op, (Api.exec op s).1⟩ = none ∧ (Api.exec op s).2.view conns = s.view conns := by
  cases op with
  | wallet site c => exact h.elim
  | sys op =>
      cases op with
      | logTxn line => cases line <;> first | exact ⟨rfl, rfl⟩ | exact h.elim
      | _ => first | exact ⟨rfl, rfl⟩ | exact h.elim

/-- A program of silent calls does nothing that is seen. -/
theorem does_silent (h : Silent p r) (hs : s.view conns = v) : Does conns p s r [] v := by
  induction p generalizing s with
  | pure a =>
      obtain rfl : a = r := h
      exact does_pure a hs
  | call o k ih =>
      obtain ⟨hm, hv⟩ := exec_silent conns h.1 s
      obtain ⟨hr, hms, hview⟩ := ih (Api.exec o s).1 (h.2 _ trivial) (hv.trans hs)
      refine ⟨hr, ?_, hview⟩
      rw [Prog.trace_call, marks, List.filterMap_cons_none hm]
      exact hms

/-- What follows without a trace adds nothing. -/
theorem Does.then_silent (h : Does conns p s r ms v) (hk : Silent (k r) r') :
    Does conns (p >>= k) s r' ms v := by
  have hdoes := h.bind fun s' hs' => does_silent hk hs'
  rwa [List.append_nil] at hdoes

/-- A silent call before the rest. -/
theorem Does.silent_call {o : ApiOp} {k : ApiSig.Res o → Prog ApiSig α} {v₀ : View}
    {a : ApiSig.Res o} (ho : o.Silent) (hs : s.view conns = v₀) (ha : (Api.exec o s).1 = a)
    (h : ∀ s', s'.view conns = v₀ → Does conns (k a) s' r ms v) :
    Does conns (.call o k) s r ms v := by
  obtain ⟨hm, hv⟩ := exec_silent conns ho s
  have hdoes := h _ (hv.trans hs)
  rw [← ha] at hdoes
  refine ⟨hdoes.result, ?_, hdoes.view⟩
  rw [Prog.trace_call, OnlineAuction.marks, List.filterMap_cons_none hm]
  exact hdoes.marks

/-- A call before the rest. -/
theorem Does.call {o : ApiOp} {k : ApiSig.Res o → Prog ApiSig α}
    (h : Does conns (k (Api.exec o s).1) (Api.exec o s).2 r ms v) :
    Does conns (.call o k) s r ((mark ⟨o, (Api.exec o s).1⟩).toList ++ ms) v := by
  refine ⟨h.result, ?_, h.view⟩
  rw [Prog.trace_call, OnlineAuction.marks]
  cases hm : mark ⟨o, (Api.exec o s).1⟩ with
  | none => rw [List.filterMap_cons_none hm]; exact h.marks
  | some m => rw [List.filterMap_cons_some hm, ← h.marks]; rfl

/-- The wallet functions do not know of the sessions. -/
@[simp] theorem exec_wallet_sessions (s : Store) (site : Site) (c : WalletCall) :
    (Api.exec (.wallet site c) s).2.sessions = s.sessions := by
  obtain ⟨_, _, _, h⟩ := exec_wallet_frame s site c
  rw [h]

/-- A line of the log that is counted. -/
theorem does_logTxn {line : LogLine} {m : Mark} (hm : mark ⟨.sys (.logTxn line), ()⟩ = some m)
    (hs : s.view conns = v) : Does conns (logTxn line) s () [m] v :=
  ⟨rfl, by simp [OnlineAuction.marks, hm], hs⟩

/-- What a system call does to a view. -/
def SysOp.effect : SysOp → View → View
  | .writeUser u, v => { v with users := writeRec .zero v.users u.userId u }
  | .writeAuction a, v => { v with auctions := writeRec .zero v.auctions a.auctionId a }
  | .appendBid b, v => { v with bids := v.bids ++ [b] }
  | .markWinningBids a u, v => { v with bids := markWinning a u v.bids }
  | .writeSession slot x, v => { v with sessions := writeAt .zero v.sessions slot x }
  | .writeDispute d, v => { v with disputes := writeRec .zero v.disputes d.disputeId d }
  | .registryInsert id fd, v => { v with registry := registerFd v.registry id fd }
  | .registryRemove id, v => { v with registry := unregisterFd v.registry id }
  | _, v => v

/-- What a system call does to the store is seen as its effect on the view. -/
theorem exec_view (op : SysOp) (s : Store) :
    (Store.exec op s).2.view conns = op.effect (s.view conns) := by
  cases op <;> rfl

/-- A system call before the rest. -/
theorem Does.sys_call {op : SysOp} {k : op.Res → Prog ApiSig α} {v₀ : View}
    (hm : ∀ r, mark ⟨.sys op, r⟩ = none) (hs : s.view conns = v₀)
    (h : ∀ s', s'.view conns = op.effect v₀ → Does conns (k (Store.exec op s).1) s' r ms v) :
    Does conns (.call (.sys op) k) s r ms v := by
  subst hs
  have hdoes := (h _ (exec_view op s)).call (o := .sys op)
  rw [show mark ⟨.sys op, (Api.exec (.sys op) s).1⟩ = none from hm _] at hdoes
  exact hdoes

/-- A wallet call before the rest. -/
theorem Does.wallet_call {site : Site} {c : WalletCall} {k : Int → Prog ApiSig α} {v₀ : View}
    {users : List User} (hs : s.view conns = v₀) (hu : v₀.users = users)
    (h : ∀ s', s'.view conns = { v₀ with users := c.users users } →
      Does conns (k (c.result users)) s' r ms v) :
    Does conns (.call (.wallet site c) k) s r (.wallet site c (c.result users) :: ms) v := by
  subst hs hu
  have hview : (Api.exec (.wallet site c) s).2.view conns =
      { s.view conns with users := c.users s.users } := by
    simp [Store.view]
  have hdoes := h _ hview
  have hresult : c.result (s.view conns).users = (Api.exec (.wallet site c) s).1 :=
    (exec_wallet_result s site c).symm
  rw [hresult] at hdoes ⊢
  exact hdoes.call

end Does

/-! ## files stay -/

/-- Files do not go away when others are made. -/
theorem create_present {s : Store} {f g : FileName} (h : s.present f = true) :
    (s.create g).present f = true := by
  by_cases hfg : f = g
  · subst hfg
    simp [Store.create]
  · simpa [Store.create, hfg] using h

/-- No system call removes a file. -/
theorem exec_present {s : Store} {f : FileName} (h : s.present f = true) (op : SysOp) :
    (Store.exec op s).2.present f = true := by
  cases op <;> first | exact h | exact create_present h

/-- Nor does a program of such calls. -/
theorem run_sys_present {α : Type} {s : Store} {f : FileName} (h : s.present f = true)
    (p : Prog SysSig α) : (Prog.run Store.exec p s).2.present f = true := by
  induction p generalizing s with
  | pure a => exact h
  | call o k ih => exact ih _ (exec_present h o)

/-- A file that exists is never removed. -/
theorem run_present {α : Type} {s : Store} {f : FileName} (h : s.present f = true)
    (p : Prog ApiSig α) : (Prog.run Api.exec p s).2.present f = true := by
  induction p generalizing s with
  | pure a => exact h
  | call o k ih => exact ih _ (run_sys_present h (Api.impl o))

/-! ## handlers -/

section Handlers

variable {sha256Hex : List UInt8 → List UInt8} {v : View} {i : Input} {p : Prog ApiSig Unit}

/-- From every store with the view `v` the program makes a change that the input
`i` can make. -/
def Handles (sha256Hex : List UInt8 → List UInt8) (v : View) (i : Input)
    (p : Prog ApiSig Unit) : Prop :=
  ∀ s : Store, s.view v.conns = v → s.present .users = true →
    ∃ ms v', Does v.conns p s () ms v' ∧ Change sha256Hex v i ms v'

/-- What is silent handles any input, by doing nothing. -/
theorem Handles.of_silent (h : Silent p ()) : Handles sha256Hex v i p := fun _ hs _ =>
  ⟨[], v, does_silent h hs, .nothing i⟩

/-- A silent call whose answer the view determines. -/
theorem Handles.call {o : ApiOp} {k : ApiSig.Res o → Prog ApiSig Unit} (ho : o.Silent)
    {r : ApiSig.Res o}
    (hr : ∀ s : Store, s.view v.conns = v → s.present .users = true → (Api.exec o s).1 = r)
    (h : Handles sha256Hex v i (k r)) : Handles sha256Hex v i (.call o k) := by
  intro s hs hp
  obtain ⟨hm, hview⟩ := exec_silent v.conns ho s
  obtain ⟨ms, v', hdoes, hchange⟩ := h (Api.exec o s).2 (hview.trans hs)
    (run_sys_present hp (Api.impl o))
  rw [← hr s hs hp] at hdoes
  refine ⟨ms, v', ⟨hdoes.result, ?_, hdoes.view⟩, hchange⟩
  rw [Prog.trace_call, marks, List.filterMap_cons_none hm]
  exact hdoes.marks

section Reads

variable {k : Option Auction → Prog ApiSig Unit} {k' : Option User → Prog ApiSig Unit}
  {k'' : Option Dispute → Prog ApiSig Unit}

/-- Reading an auction goes on with the one that is seen. -/
theorem Handles.readAuction {id : UInt32} (h : Handles sha256Hex v i (k (readRec v.auctions id))) :
    Handles sha256Hex v i (.call (.sys (.readAuction id)) k) :=
  .call trivial (fun s hs _ => by rw [← hs]; rfl) h

/-- Reading a user goes on with the one that is seen. -/
theorem Handles.readUser {id : UInt32} (h : Handles sha256Hex v i (k' (readRec v.users id))) :
    Handles sha256Hex v i (.call (.sys (.readUser id)) k') :=
  .call trivial (fun s hs _ => by rw [← hs]; rfl) h

/-- The clock goes on with the time that is seen. -/
theorem Handles.time {k : Int → Prog ApiSig Unit} (h : Handles sha256Hex v i (k v.clock)) :
    Handles sha256Hex v i (.call (.sys .time) k) :=
  .call trivial (fun _ hs _ => congrArg View.clock hs) h

/-- The loop over the users goes on with those that are seen. -/
theorem Handles.scanUsers {k : Option (List User) → Prog ApiSig Unit}
    (h : Handles sha256Hex v i (k (some v.users))) :
    Handles sha256Hex v i (.call (.sys .scanUsers) k) :=
  .call trivial (fun _ hs hp => (if_pos hp).trans (congrArg (fun v : View => some v.users) hs)) h

/-- The next identifier of a user is that of the users seen. -/
theorem Handles.nextUserId {k : UInt32 → Prog ApiSig Unit}
    (h : Handles sha256Hex v i (k (nextRecId v.users))) :
    Handles sha256Hex v i (.call (.sys .nextUserId) k) :=
  .call trivial (fun _ hs _ => congrArg (fun v : View => nextRecId v.users) hs) h

/-- The next identifier of an auction is that of the auctions seen. -/
theorem Handles.nextAuctionId {k : UInt32 → Prog ApiSig Unit}
    (h : Handles sha256Hex v i (k (nextRecId v.auctions))) :
    Handles sha256Hex v i (.call (.sys .nextAuctionId) k) :=
  .call trivial (fun _ hs _ => congrArg (fun v : View => nextRecId v.auctions) hs) h

/-- The next identifier of a dispute is that of the disputes seen. -/
theorem Handles.nextDisputeId {k : UInt32 → Prog ApiSig Unit}
    (h : Handles sha256Hex v i (k (nextRecId v.disputes))) :
    Handles sha256Hex v i (.call (.sys .nextDisputeId) k) :=
  .call trivial (fun _ hs _ => congrArg (fun v : View => nextRecId v.disputes) hs) h

/-- Reading a dispute goes on with the one that is seen. -/
theorem Handles.readDispute {id : UInt32}
    (h : Handles sha256Hex v i (k'' (readRec v.disputes id))) :
    Handles sha256Hex v i (.call (.sys (.readDispute id)) k'') :=
  .call trivial (fun s hs _ => by rw [← hs]; rfl) h

end Reads

end Handlers

/-! ## bids and closes -/

section Auctions

variable {sha256Hex : List UInt8 → List UInt8} {conns : Int → Option Conn} {s : Store}
  {v : View} {fd : Int} {c : Conn}

/-- What `close_auction_internal` does: the wallet calls of the close, the auction closed, and the
winning bids marked. -/
theorem does_closeAuctionInternal (hs : s.view conns = v) (a : Auction) :
    Does conns (closeAuctionInternal a) s (a.withStatus .auctionClosed)
      (walletMarks (.close a.auctionId) a.closingCalls v.users)
      { v with
        users := usersAfter a.closingCalls v.users
        auctions := writeRec .zero v.auctions a.auctionId (a.withStatus .auctionClosed)
        bids :=
          if a.Settles then markWinning a.auctionId a.highestBidderId v.bids else v.bids } := by
  simp only [closeAuctionInternal, writeAuction, Prog.bind_call, Prog.bind_pure]
  refine Does.sys_call (fun _ => rfl) hs fun s₁ hs₁ => ?_
  by_cases hsettles : a.Settles
  · have hcalls : a.closingCalls = [.settlePayment a.highestBidderId a.currentBid,
        .creditWallet a.sellerId a.currentBid] := if_pos hsettles
    rw [if_pos hsettles, hcalls, if_pos (show (a.withStatus .auctionClosed).Settles from hsettles)]
    simp only [logTxn, wallet, markWinningBids, Prog.bind_call, Prog.bind_pure]
    refine Does.silent_call trivial hs₁ rfl fun s₂ hs₂ => Does.wallet_call hs₂ rfl fun s₃ hs₃ => ?_
    refine Does.wallet_call hs₃ rfl fun s₄ hs₄ => Does.sys_call (fun _ => rfl) hs₄ fun s₅ hs₅ => ?_
    exact does_silent (by simp [notifyAuctionWon, notifyAuctionClosed, pushNotification,
      ApiOp.Silent]) hs₅
  · rw [if_neg hsettles, if_neg (show ¬ (a.withStatus .auctionClosed).Settles from hsettles)]
    have htail : Silent (do
        notifyAuctionClosed (a.withStatus .auctionClosed).sellerId
          (a.withStatus .auctionClosed).auctionId
        pure (a.withStatus .auctionClosed) : Prog ApiSig Auction)
        (a.withStatus .auctionClosed) := by
      simp [notifyAuctionClosed, pushNotification, ApiOp.Silent]
    by_cases hleader : a.highestBidderId = 0
    · simp only [releaseLeader, Auction.withStatus_highestBidderId, Auction.closingCalls, hsettles,
        hleader, ne_eq, not_true_eq_false, if_false]
      exact does_silent htail hs₁
    · simp only [releaseLeader, Auction.withStatus_highestBidderId, Auction.closingCalls, hsettles,
        hleader, ne_eq, not_false_eq_true, if_false, if_true]
      exact Does.wallet_call hs₁ rfl fun s₂ hs₂ => does_silent htail hs₂

/-- A bid is written over the auction that it is placed on. -/
theorem writeRec_withBid (hv : Sound v) {a : Auction} (ha : a ∈ v.auctions) {bidder : UInt32}
    {amount : ℚ} : writeRec .zero v.auctions a.auctionId (a.withBid bidder amount) =
      overwrite Auction.auctionId (a.withBid bidder amount) v.auctions :=
  hv.auctions.writeRec_eq_overwrite (x := a.withBid bidder amount) ha rfl

/-- A change of status is written over the auction itself. -/
theorem writeRec_withStatus (hv : Sound v) {a : Auction} (ha : a ∈ v.auctions)
    {status : AuctionStatus} : writeRec .zero v.auctions a.auctionId (a.withStatus status) =
      overwrite Auction.auctionId (a.withStatus status) v.auctions :=
  hv.auctions.writeRec_eq_overwrite (x := a.withStatus status) ha rfl

/-- What an accepted bid does, inside the semaphore. -/
theorem does_recordBid (hs : s.view conns = v)
    (req : PlaceBidPayload) (bidder : User) (a : Auction) :
    Does conns (recordBid req bidder a) s
      ⟨nextRecId v.bids, req.auctionId, bidder.userId, req.amount, v.clock, true⟩
      (walletMarks (.placeBid req.auctionId) (a.biddingCalls bidder.userId req.amount) v.users)
      { v with
        users := usersAfter (a.biddingCalls bidder.userId req.amount) v.users
        auctions := writeRec .zero v.auctions a.auctionId (a.withBid bidder.userId req.amount)
        bids := v.bids ++
          [⟨nextRecId v.bids, req.auctionId, bidder.userId, req.amount, v.clock, true⟩] } := by
  have hrest {users : List User} {s : Store} (hs : s.view conns = { v with users := users }) :
      Does conns (do
        let _ ← writeAuction (a.withBid bidder.userId req.amount)
        let bidId ← nextBidId
        let placedAt ← time
        let b : Bid := ⟨bidId, req.auctionId, bidder.userId, req.amount, placedAt, true⟩
        let _ ← appendBid b
        pure b : Prog ApiSig Bid) s
      ⟨nextRecId v.bids, req.auctionId, bidder.userId, req.amount, v.clock, true⟩ []
      { v with
        users := users
        auctions := writeRec .zero v.auctions a.auctionId (a.withBid bidder.userId req.amount)
        bids := v.bids ++
          [⟨nextRecId v.bids, req.auctionId, bidder.userId, req.amount, v.clock, true⟩] } := by
    refine Does.sys_call (fun _ => rfl) hs fun s₁ hs₁ => ?_
    refine Does.silent_call trivial hs₁ (congrArg (fun v : View => nextRecId v.bids) hs₁)
      fun s₂ hs₂ => ?_
    refine Does.silent_call trivial hs₂ (congrArg View.clock hs₂) fun s₃ hs₃ => ?_
    exact Does.sys_call (fun _ => rfl) hs₃ fun s₄ hs₄ => does_pure _ hs₄
  by_cases hleader : a.highestBidderId = 0
  · simp only [recordBid, releaseLeader, Auction.biddingCalls, hleader, ne_eq, not_true_eq_false,
      if_false, wallet, Prog.pure_eq, Prog.bind_pure, Prog.bind_call]
    exact Does.wallet_call hs rfl fun s₁ hs₁ => hrest hs₁
  · simp only [recordBid, releaseLeader, Auction.biddingCalls, hleader, ne_eq, not_false_eq_true,
      if_true, wallet, Prog.pure_eq, Prog.bind_pure, Prog.bind_call]
    exact Does.wallet_call hs rfl fun s₁ hs₁ => Does.wallet_call hs₁ rfl fun s₂ hs₂ => hrest hs₂

/-- `handle_place_bid` makes the change of a bid, or none. -/
theorem handles_placeBid (hv : Sound v) (hc : v.LoggedIn fd c)
    (hrole : c.currentUser.role = roleBidder) (req : PlaceBidPayload) :
    Handles sha256Hex v (.message fd (.placeBid req)) (handlePlaceBid fd req c.currentUser) := by
  simp only [handlePlaceBid, OnlineAuction.readAuction, OnlineAuction.readUser, sendMsg,
    Prog.bind_call, Prog.bind_pure]
  refine Handles.readAuction ?_
  cases hread : readRec v.auctions req.auctionId with
  | none => exact .of_silent (by simp [ApiOp.Silent])
  | some a =>
      obtain ⟨ha, hid⟩ := hv.auctions.readRec_eq_some.mp hread
      by_cases hopen : a.status = .auctionOpen
      case neg => exact .of_silent (by simp [hopen, ApiOp.Silent])
      simp only [hopen, ne_eq, not_true_eq_false, if_false]
      refine Handles.readUser ?_
      cases huser : readRec v.users c.currentUser.userId with
      | none => exact .of_silent (by simp [ApiOp.Silent])
      | some w =>
          obtain ⟨hw, hwid⟩ := hv.users.readRec_eq_some.mp huser
          simp only
          split
          · exact .of_silent (by simp [ApiOp.Silent])
          · next hfunds =>
              simp only [placeBidLocked, getAuctionSem, lock, unlock, OnlineAuction.readAuction,
                Prog.pure_eq, Prog.bind_call, Prog.bind_pure]
              refine Handles.call trivial (fun _ _ _ => rfl)
                (Handles.call trivial (fun _ _ _ => rfl) ?_)
              refine Handles.call trivial (fun _ _ _ => rfl) (Handles.readAuction ?_)
              rw [hread]
              simp only [hopen, ne_eq, not_true_eq_false, if_false]
              split
              · exact .of_silent (by simp [ApiOp.Silent])
              · next hhigher =>
                  intro s hs _
                  have hdoes := does_recordBid hs req c.currentUser a
                  rw [writeRec_withBid hv ha, ← hwid, ← hid] at hdoes
                  refine ⟨_, _, hdoes.then_silent ?_, .placeBid hc hrole ha hid hopen hw hwid
                    (not_lt.mp hfunds) (not_le.mp hhigher) rfl⟩
                  simp [ApiOp.Silent, notifyOutbid, pushNotification]

/-- What follows a close is one line in the log. -/
theorem does_closing {s : Store} {a : Auction} {k : Auction → Prog ApiSig Unit} {i : Input}
    (hv : Sound v) (hs : s.view v.conns = v) (hi : i.Closes v a) (ha : a ∈ v.auctions)
    (hopen : a.status = .auctionOpen)
    (hk : ∀ s' v', s'.view v.conns = v' →
      Does v.conns (k (a.withStatus .auctionClosed)) s' () [.closed a.auctionId] v') :
    ∃ ms v', Does v.conns (closeAuctionInternal a >>= k) s () ms v' ∧
      Change sha256Hex v i ms v' := by
  have hdoes := does_closeAuctionInternal hs a
  rw [writeRec_withStatus hv ha] at hdoes
  exact ⟨_, _, hdoes.bind fun s' hs' => hk s' _ hs', .close hi ha hopen⟩

/-- `handle_close_auction` makes the change of a close, or none. -/
theorem handles_closeAuction (hv : Sound v) (hc : v.LoggedIn fd c)
    (hrole : c.currentUser.role = roleAuctioneer ∨ c.currentUser.role = roleAdmin)
    (req : CloseAuctionPayload) :
    Handles sha256Hex v (.message fd (.closeAuction req))
      (handleCloseAuction fd req c.currentUser) := by
  simp only [handleCloseAuction, OnlineAuction.readAuction, sendMsg, Prog.bind_call, Prog.bind_pure]
  refine Handles.readAuction ?_
  cases hread : readRec v.auctions req.auctionId with
  | none => exact .of_silent (by simp [ApiOp.Silent])
  | some a =>
      obtain ⟨ha, hid⟩ := hv.auctions.readRec_eq_some.mp hread
      simp only
      split
      · exact .of_silent (by simp [ApiOp.Silent])
      · next hown =>
          by_cases hopen : a.status = .auctionOpen
          case neg => exact .of_silent (by simp [hopen, ApiOp.Silent])
          simp only [hopen, ne_eq, not_true_eq_false, if_false]
          intro s hs _
          refine does_closing hv hs ⟨hid.symm, c, hc.1, hc.2, hrole, by tauto⟩ ha hopen
            fun s₁ v₁ hs₁ => ?_
          exact Does.silent_call trivial hs₁ rfl fun s₂ hs₂ => does_logTxn rfl hs₂

/-- So does the timer, of an auction that is still open. -/
theorem handles_timerClose (hv : Sound v) (auctionId : UInt32) :
    Handles sha256Hex v (.timerClose auctionId) (timerClose auctionId) := by
  simp only [timerClose, OnlineAuction.readAuction, Prog.bind_call, Prog.bind_pure]
  refine Handles.readAuction ?_
  cases hread : readRec v.auctions auctionId with
  | none => exact .of_silent (by simp)
  | some a =>
      obtain ⟨ha, hid⟩ := hv.auctions.readRec_eq_some.mp hread
      by_cases hopen : a.status = .auctionOpen
      case neg => exact .of_silent (by simp [hopen])
      simp only [hopen, ne_eq, not_true_eq_false, if_false]
      intro s hs _
      refine does_closing hv hs hid.symm ha hopen fun s₁ v₁ hs₁ => does_logTxn ?_ hs₁
      rw [hid]
      rfl

/-- `handle_create_auction` appends the new auction. -/
theorem handles_createAuction (hroom : v.HasRoom) (hc : v.LoggedIn fd c)
    (hrole : c.currentUser.role = roleAuctioneer ∨ c.currentUser.role = roleAdmin)
    (req : CreateAuctionPayload) :
    Handles sha256Hex v (.message fd (.createAuction req))
      (handleCreateAuction fd req c.currentUser) := by
  simp only [handleCreateAuction, time, nextAuctionId, writeAuction, sendMsg, Prog.bind_call,
    Prog.bind_pure]
  split
  · exact .of_silent (by simp [ApiOp.Silent])
  · next hbad =>
      obtain ⟨hpos, -⟩ := not_or.mp hbad
      refine Handles.time (Handles.nextAuctionId ?_)
      intro s hs _
      refine ⟨[], _, Does.sys_call (fun _ => rfl) hs fun s₁ hs₁ =>
        does_silent (by simp [ApiOp.Silent, Store.exec]) hs₁, ?_⟩
      simp only [SysOp.effect]
      rw [writeRec_nextRecId hroom.auctions]
      exact .createAuction hc hrole rfl rfl rfl rfl rfl (not_le.mp hpos) rfl

/-! ## disputes -/

/-- `handle_file_dispute` appends the dispute and marks the auction disputed, or does nothing. -/
theorem handles_fileDispute (hv : Sound v) (hroom : v.HasRoom) (hc : v.LoggedIn fd c)
    (hrole : c.currentUser.role = roleBidder) (req : FileDisputePayload) :
    Handles sha256Hex v (.message fd (.fileDispute req))
      (handleFileDispute fd req c.currentUser) := by
  simp only [handleFileDispute, OnlineAuction.readAuction, nextDisputeId, time, writeDispute,
    writeAuction, sendMsg, Prog.bind_call, Prog.bind_pure]
  refine Handles.readAuction ?_
  cases hread : readRec v.auctions req.auctionId with
  | none => exact .of_silent (by simp [ApiOp.Silent])
  | some a =>
      obtain ⟨ha, hid⟩ := hv.auctions.readRec_eq_some.mp hread
      by_cases hclosed : a.status = .auctionClosed
      case neg => exact .of_silent (by simp [hclosed, ApiOp.Silent])
      simp only [hclosed, ne_eq, not_true_eq_false, if_false]
      refine Handles.nextDisputeId (Handles.time ?_)
      intro s hs _
      refine ⟨[], _, Does.sys_call (fun _ => rfl) hs fun s₁ hs₁ => Does.sys_call (fun _ => rfl) hs₁
        fun s₂ hs₂ => does_silent (by simp [ApiOp.Silent]) hs₂, ?_⟩
      simp only [SysOp.effect]
      rw [writeRec_nextRecId hroom.disputes, Auction.withStatus_auctionId,
        writeRec_withStatus hv ha]
      exact .fileDispute hc hrole ha hid hclosed rfl hid.symm rfl rfl rfl

/-- What the refund of a resolved dispute does to the wallets. -/
theorem does_refund (hs : s.view conns = v) (d : Dispute) (a : Auction) :
    Does conns (refund d a) s ()
      (.refund d.disputeId a.auctionId ::
        walletMarks (.resolve d.disputeId) (a.refundCalls v.users) v.users)
      { v with users := usersAfter (a.refundCalls v.users) v.users } := by
  simp only [refund]
  refine Does.bind (does_logTxn rfl hs) fun s₁ hs₁ => ?_
  simp only [wallet, OnlineAuction.readUser, Prog.bind_call, Prog.bind_pure, Auction.refundCalls]
  cases hread : readRec ((WalletCall.creditWallet a.highestBidderId a.currentBid).users v.users)
      a.sellerId with
  | none =>
      refine Does.wallet_call hs₁ rfl fun s₂ hs₂ => Does.silent_call trivial hs₂
        (congrArg (fun v : View => readRec v.users a.sellerId) hs₂) fun s₃ hs₃ => ?_
      simp only [hread]
      exact does_pure () hs₃
  | some seller =>
      by_cases hcovers : seller.walletBalance ≥ a.currentBid
      · simp only [hcovers, if_true]
        refine Does.wallet_call hs₁ rfl fun s₂ hs₂ => Does.silent_call trivial hs₂
          (congrArg (fun v : View => readRec v.users a.sellerId) hs₂) fun s₃ hs₃ => ?_
        simp only [hread, hcovers, if_true]
        exact Does.wallet_call hs₃ rfl fun s₄ hs₄ => does_pure () hs₄
      · simp only [hcovers, if_false]
        refine Does.wallet_call hs₁ rfl fun s₂ hs₂ => Does.silent_call trivial hs₂
          (congrArg (fun v : View => readRec v.users a.sellerId) hs₂) fun s₃ hs₃ => ?_
        simp only [hread, hcovers, if_false]
        exact does_silent (by simp [ApiOp.Silent]) hs₃

/-- `handle_resolve_dispute` concludes an open dispute, or does nothing. -/
theorem handles_resolveDispute (hv : Sound v) (hc : v.LoggedIn fd c)
    (hrole : roleModerator ≤ c.currentUser.role) (req : ResolveDisputePayload) :
    Handles sha256Hex v (.message fd (.resolveDispute req))
      (handleResolveDispute fd req c.currentUser) := by
  unfold handleResolveDispute
  split
  · exact .of_silent (by simp [ApiOp.Silent])
  · exact .of_silent (by simp [ApiOp.Silent])
  · next newStatus hne hcode =>
      simp only [OnlineAuction.readDispute, time, writeDispute, OnlineAuction.readAuction, sendMsg,
        Prog.bind_call, Prog.bind_pure]
      refine Handles.readDispute ?_
      cases hread : readRec v.disputes req.disputeId with
      | none => exact .of_silent (by simp [ApiOp.Silent])
      | some d =>
          obtain ⟨hd, hdid⟩ := hv.disputes.readRec_eq_some.mp hread
          by_cases hopen : d.status = .disputeOpen
          case neg => exact .of_silent (by simp [hopen, ApiOp.Silent])
          simp only [hopen, ne_eq, not_true_eq_false, if_false]
          refine Handles.time ?_
          intro s hs _
          obtain ⟨a, ha, haid⟩ := List.mem_map.mp (hv.auction_mem d hd)
          have hreada : readRec v.auctions d.auctionId = some a :=
            hv.auctions.readRec_eq_some.mpr ⟨ha, haid⟩
          have hwrite (d' : Dispute) (hid : d'.disputeId = d.disputeId) :
              writeRec .zero v.disputes d.disputeId d' =
                overwrite Dispute.disputeId d' v.disputes :=
            hid ▸ hv.disputes.writeRec_eq_overwrite hd hid
          cases newStatus with
          | disputeOpen => exact absurd rfl hne
          | disputeResolved =>
              refine ⟨_, _, Does.sys_call (fun _ => rfl) hs fun s₁ hs₁ => Does.silent_call
                trivial hs₁
                ((congrArg (fun v : View => readRec v.auctions d.auctionId) hs₁).trans hreada)
                fun s₂ hs₂ => (does_refund hs₂ _ a).then_silent (by simp [ApiOp.Silent]), ?_⟩
              simp only [SysOp.effect]
              rw [hwrite]
              · exact .refund hc hrole hd hdid hopen ha haid rfl rfl rfl rfl rfl
              · rfl
          | disputeRejected =>
              refine ⟨_, _, Does.sys_call (fun _ => rfl) hs fun s₁ hs₁ => Does.silent_call
                trivial hs₁
                ((congrArg (fun v : View => readRec v.auctions d.auctionId) hs₁).trans hreada)
                fun s₂ hs₂ => Does.sys_call (fun _ => rfl) hs₂ fun s₃ hs₃ =>
                  does_silent ?_ hs₃, ?_⟩
              · show Silent (do
                  sendMsg fd .msgResolveDisputeResp .errOk _
                  logTxn _ : Prog ApiSig Unit) ()
                simp [ApiOp.Silent]
              · simp only [SysOp.effect]
                rw [hwrite, Auction.withStatus_auctionId, writeRec_withStatus hv ha]
                · exact .reject hc hrole hd hdid hopen ha haid rfl rfl rfl rfl rfl
                · rfl

/-! ## users -/

/-- A record of an existing user is written, and nothing else that counts. -/
theorem handles_writeUser {i : Input} {u w : User} {k : Int → Prog ApiSig Unit} (hv : Sound v)
    (hw : w ∈ v.users) (hid : u.userId = w.userId) (hk : Silent (k 0) ())
    (hchange : Change sha256Hex v i [] { v with users := overwrite User.userId u v.users }) :
    Handles sha256Hex v i (.call (.sys (.writeUser u)) k) := by
  intro s hs _
  refine ⟨[], _, Does.sys_call (fun _ => rfl) hs fun s₁ hs₁ => does_silent hk hs₁, ?_⟩
  simp only [SysOp.effect]
  rw [hv.users.writeRec_eq_overwrite hw hid]
  exact hchange

/-- `handle_toggle_account` sets the status of a stored user, or does nothing. -/
theorem handles_toggleAccount (hv : Sound v) (hc : v.LoggedIn fd c)
    (hrole : roleModerator ≤ c.currentUser.role) (req : ToggleAccountPayload) :
    Handles sha256Hex v (.message fd (.toggleAccount req))
      (handleToggleAccount fd req c.currentUser) := by
  simp only [handleToggleAccount, OnlineAuction.readUser, OnlineAuction.writeUser, sendMsg,
    Prog.bind_call, Prog.bind_pure]
  refine Handles.readUser ?_
  cases hread : readRec v.users req.targetUserId with
  | none => exact .of_silent (by simp [ApiOp.Silent])
  | some w =>
      obtain ⟨hw, hid⟩ := hv.users.readRec_eq_some.mp hread
      simp only
      split
      · exact .of_silent (by simp [ApiOp.Silent])
      · next hbelow =>
          exact handles_writeUser hv hw rfl (by simp [ApiOp.Silent])
            (.toggleAccount hc hrole hw hid (UInt32.not_le.mp hbelow))

/-- `handle_add_user` appends a user whose name is not taken, or does nothing. -/
theorem handles_addUser (hroom : v.HasRoom) (hc : v.LoggedIn fd c)
    (hrole : c.currentUser.role = roleAdmin) (req : AddUserPayload) :
    Handles sha256Hex v (.message fd (.addUser req)) (handleAddUser sha256Hex fd req) := by
  simp only [handleAddUser, scanUsers, OnlineAuction.writeUser, sendMsg, Prog.bind_call,
    Prog.bind_pure]
  refine Handles.scanUsers ?_
  simp only [Option.getD_some]
  split
  · exact .of_silent (by simp [ApiOp.Silent])
  · next htaken =>
      simp only [nextUserId, time, Prog.bind_call, Prog.bind_pure]
      refine Handles.nextUserId (Handles.time ?_)
      intro s hs _
      refine ⟨[], _, Does.sys_call (fun _ => rfl) hs fun s₁ hs₁ =>
        does_silent (by simp [ApiOp.Silent, Store.exec]) hs₁, ?_⟩
      have hnext : writeRec .zero v.users (newUser sha256Hex req (nextRecId v.users) v.clock).userId
          (newUser sha256Hex req (nextRecId v.users) v.clock) =
          v.users ++ [newUser sha256Hex req (nextRecId v.users) v.clock] :=
        writeRec_nextRecId hroom.users
      simp only [SysOp.effect]
      rw [hnext]
      refine .addUser hc hrole fun w hw => ?_
      rw [Bool.not_eq_true, List.any_eq_false] at htaken
      have hfree := htaken w hw
      cases hdel : w.isDeleted <;> simp_all

/-- `handle_change_role` sets the role of a stored user, or does nothing. -/
theorem handles_changeRole (hv : Sound v) (hc : v.LoggedIn fd c)
    (hrole : c.currentUser.role = roleAdmin) (req : ChangeRolePayload) :
    Handles sha256Hex v (.message fd (.changeRole req)) (handleChangeRole fd req) := by
  simp only [handleChangeRole, OnlineAuction.readUser, OnlineAuction.writeUser, sendMsg,
    Prog.bind_call, Prog.bind_pure]
  refine Handles.readUser ?_
  cases hread : readRec v.users req.targetUserId with
  | none => exact .of_silent (by simp [ApiOp.Silent])
  | some w =>
      obtain ⟨hw, hid⟩ := hv.users.readRec_eq_some.mp hread
      have hchange (hlast : ¬ (w.role = roleAdmin ∧ req.newRole ≠ roleAdmin ∧
          adminCount v.users ≤ 1)) : Change sha256Hex v (.message fd (.changeRole req)) [] { v with
            users := overwrite User.userId { w with role := req.newRole } v.users } :=
        .changeRole hc hrole hw hid hlast
      by_cases hdemotes : w.role = roleAdmin ∧ req.newRole ≠ roleAdmin
      · simp only [demotesLastAdmin, hdemotes, ne_eq, not_false_eq_true, and_self, if_true,
          scanUsers, Prog.pure_eq, Prog.bind_call, Prog.bind_pure]
        refine Handles.scanUsers ?_
        simp only [Option.getD_some, decide_eq_true_eq]
        split
        · exact .of_silent (by simp [ApiOp.Silent])
        · next hlast =>
            exact handles_writeUser hv hw rfl (by simp [ApiOp.Silent])
              (hchange fun h => hlast h.2.2)
      · simp only [demotesLastAdmin, hdemotes, if_false, Prog.pure_eq, Prog.bind_pure]
        exact handles_writeUser hv hw rfl (by simp [ApiOp.Silent])
          (hchange fun h => hdemotes ⟨h.1, h.2.1⟩)

/-! ## sessions -/

/-- Clearing a session makes the slot of the user inactive. -/
theorem does_clearSession (hs : s.view conns = v) (userId : UInt32) :
    Does conns (clearSession userId) s () []
      { v with sessions := clearSlot userId v.sessions } := by
  simp only [clearSession, findSessionSlot, writeSession, Prog.bind_call, Prog.bind_pure]
  refine Does.silent_call trivial hs (congrArg (fun v : View => sessionSlot v.sessions userId) hs)
    fun s₁ hs₁ => ?_
  unfold clearSlot
  cases sessionSlot v.sessions userId with
  | none => exact does_pure () hs₁
  | some slot => exact Does.sys_call (fun _ => rfl) hs₁ fun s₂ hs₂ => does_pure () hs₂

/-- Unregistering takes the user out of the registry. -/
theorem does_notifyUnregister (hs : s.view conns = v) (userId : UInt32) :
    Does conns (notifyUnregister userId) s () []
      { v with registry := unregisterFd v.registry userId } := by
  simp only [notifyUnregister, lock, registryRemove, unlock, Prog.bind_call, Prog.bind_pure]
  exact Does.silent_call trivial hs rfl fun s₁ hs₁ => Does.sys_call (fun _ => rfl) hs₁
    fun s₂ hs₂ => does_silent (by simp [ApiOp.Silent]) hs₂

/-- The end of an authenticated connection signs the user off. -/
theorem does_cleanUp (hs : s.view conns = v) (hauth : c.authenticated = true)
    (hne : c.currentUser.userId ≠ 0) :
    Does conns (cleanUp c) s () [] (v.signOff c.currentUser.userId 1) := by
  rw [cleanUp, if_pos ⟨hauth, hne⟩]
  exact (does_clearSession hs _).bind fun s₁ hs₁ => does_notifyUnregister hs₁ _

/-- A logout signs the user off. -/
theorem does_handleLogout (hs : s.view conns = v) (u : User) :
    Does conns (handleLogout fd u) s () [] (v.signOff u.userId 1) := by
  simp only [handleLogout, lock, Prog.bind_call, Prog.bind_pure]
  refine Does.silent_call trivial hs rfl fun s₁ hs₁ => ?_
  refine (does_clearSession hs₁ u.userId).bind_unmarked fun s₂ hs₂ => ?_
  refine Does.silent_call trivial hs₂ rfl fun s₃ hs₃ => ?_
  exact (does_notifyUnregister hs₃ u.userId).then_silent (by simp [ApiOp.Silent])

/-- `create_session` fails and leaves all as it is, or takes a free slot for the user. -/
theorem does_createSession (fd : Int) (v : View) (u : User) :
    ∃ r v', (∀ s : Store, s.view v.conns = v → Does v.conns (createSession fd u) s r [] v') ∧
      ((∃ e, r = .error e) ∧ v' = v ∨
        ∃ slot, r = .ok () ∧ sessionSlot v.sessions u.userId = none ∧
          freeSlot v.sessions = some slot ∧
          v' = { v with
            sessions := writeAt .zero v.sessions slot ⟨u.userId, fd, v.clock, true⟩ }) := by
  have hfind {s : Store} (hs : s.view v.conns = v) :
      (Api.exec (.sys (.findSessionSlot u.userId)) s).1 = sessionSlot v.sessions u.userId :=
    congrArg (fun v : View => sessionSlot v.sessions u.userId) hs
  have hfree {s : Store} (hs : s.view v.conns = v) :
      (Api.exec (.sys .findFreeSlot) s).1 = freeSlot v.sessions :=
    congrArg (fun v : View => freeSlot v.sessions) hs
  simp only [createSession, lock, unlock, findSessionSlot, findFreeSlot, time, writeSession,
    Prog.pure_eq, Prog.bind_call, Prog.bind_pure]
  cases hslot : sessionSlot v.sessions u.userId with
  | some slot =>
      refine ⟨.error .errAlreadyLogged, v, fun s hs => ?_, .inl ⟨⟨_, rfl⟩, rfl⟩⟩
      refine Does.silent_call trivial hs rfl fun s₁ hs₁ =>
        Does.silent_call trivial hs₁ ((hfind hs₁).trans hslot) fun s₂ hs₂ => ?_
      exact does_silent (by simp [ApiOp.Silent]) hs₂
  | none =>
      cases hfreeSlot : freeSlot v.sessions with
      | none =>
          refine ⟨.error .errInternal, v, fun s hs => ?_, .inl ⟨⟨_, rfl⟩, rfl⟩⟩
          refine Does.silent_call trivial hs rfl fun s₁ hs₁ =>
            Does.silent_call trivial hs₁ ((hfind hs₁).trans hslot) fun s₂ hs₂ =>
            Does.silent_call trivial hs₂ ((hfree hs₂).trans hfreeSlot) fun s₃ hs₃ => ?_
          exact does_silent (by simp [ApiOp.Silent]) hs₃
      | some slot =>
          refine ⟨.ok (), _, fun s hs => ?_, .inr ⟨slot, rfl, rfl, rfl, rfl⟩⟩
          refine Does.silent_call trivial hs rfl fun s₁ hs₁ =>
            Does.silent_call trivial hs₁ ((hfind hs₁).trans hslot) fun s₂ hs₂ =>
            Does.silent_call trivial hs₂ ((hfree hs₂).trans hfreeSlot) fun s₃ hs₃ =>
            Does.silent_call trivial hs₃ (congrArg View.clock hs₃) fun s₄ hs₄ =>
            Does.sys_call (fun _ => rfl) hs₄ fun s₅ hs₅ => ?_
          exact does_silent (by simp [ApiOp.Silent]) hs₅

/-! ## the turns of a connection -/

/-- From every store with the view `v` the program makes a change that the message
can make, the locals of the connection included. -/
def Turns (sha256Hex : List UInt8 → List UInt8) (v : View) (fd : Int) (m : Request)
    (p : Prog ApiSig (Option Conn)) : Prop :=
  ∀ s : Store, s.view v.conns = v → s.present .users = true →
    ∃ c ms v', Does v.conns p s c ms v' ∧ Change sha256Hex v (.message fd m) ms (v'.setConn fd c)

/-- Storing the connection that is there changes nothing. -/
theorem setConn_self {v' : View} (hc : v'.conns fd = some c) : v'.setConn fd (some c) = v' := by
  rw [View.setConn, ← hc, Function.update_eq_self]

/-- A handler that leaves the locals alone. -/
theorem Turns.of_handles {m : Request} {p : Prog ApiSig Unit} (hc : v.conns fd = some c)
    (h : Handles sha256Hex v (.message fd m) p) :
    Turns sha256Hex v fd m (p >>= fun _ => pure (some c)) := by
  intro s hs hp
  obtain ⟨ms, v', hdoes, hchange⟩ := h s hs hp
  have hconns : v'.conns = v.conns := (congrArg View.conns hdoes.view).symm
  refine ⟨some c, ms, v', hdoes.then_silent (by simp), ?_⟩
  rw [setConn_self (by rw [hconns]; exact hc)]
  exact hchange

/-- A change of password writes back the copy of the connection with the new digest, or does
nothing. -/
theorem turns_changePass (hv : Sound v) (hc : v.LoggedIn fd c) (req : ChangePassPayload) :
    Turns sha256Hex v fd (.changePass req) (do
      let user ← handleChangePassword sha256Hex fd req c.currentUser
      pure (some { c with currentUser := user })) := by
  intro s hs _
  simp only [handleChangePassword]
  split
  · refine ⟨some c, [], v, does_silent (by simp [ApiOp.Silent]) hs, ?_⟩
    rw [setConn_self hc.1]
    exact .nothing _
  · next hpass =>
      obtain ⟨w, hw, hid⟩ := List.mem_map.mp (hv.user_mem fd c hc)
      rw [Bool.not_eq_true, Bool.not_eq_false'] at hpass
      have hchange : Change sha256Hex v (.message fd (.changePass req)) [] _ := .changePass hc hpass
      have hwrite :
          writeRec .zero v.users c.currentUser.userId (req.record sha256Hex c.currentUser) =
          overwrite User.userId (req.record sha256Hex c.currentUser) v.users :=
        hv.users.writeRec_eq_overwrite (x := req.record sha256Hex c.currentUser) hw hid.symm
      rw [← hwrite] at hchange
      have hconn : ({ c with currentUser := req.record sha256Hex c.currentUser } : Conn) =
          ⟨true, req.record sha256Hex c.currentUser⟩ := by rw [← hc.2]
      refine ⟨some { c with currentUser := req.record sha256Hex c.currentUser }, [], _,
        Does.sys_call (fun _ => rfl) hs fun s₁ hs₁ => does_silent ?_ hs₁, hconn ▸ hchange⟩
      simp [ApiOp.Silent, ChangePassPayload.record]

/-- A wallet call that fails has changed no wallet. -/
theorem users_of_result_neg {call : WalletCall} {users : List User} (h : call.result users < 0) :
    call.users users = users := by
  unfold WalletCall.result at h
  unfold WalletCall.users
  cases hw : call.written (readRec users call.userId) with
  | none => rfl
  | some w => simp [hw] at h

/-- A deposit credits the wallet and reads the copy of the connection again, or does nothing. -/
theorem turns_deposit (hv : Sound v) (hc : v.LoggedIn fd c) (req : DepositPayload) :
    Turns sha256Hex v fd (.deposit req) (do
      let user ← handleDeposit fd req c.currentUser
      pure (some { c with currentUser := user })) := by
  intro s hs _
  simp only [handleDeposit, wallet, OnlineAuction.readUser, sendMsg, Prog.pure_eq, Prog.bind_call,
    Prog.bind_pure]
  split
  · refine ⟨some c, [], v, does_silent (by simp [ApiOp.Silent]) hs, ?_⟩
    rw [setConn_self hc.1]
    exact .nothing _
  · next hpos =>
      by_cases hresult :
          (WalletCall.creditWallet c.currentUser.userId req.amount).result v.users < 0
      · refine ⟨some c, _, _, Does.wallet_call hs rfl fun s₁ hs₁ => does_silent ?_ hs₁, ?_⟩
        · simp [ApiOp.Silent, hresult]
        · rw [users_of_result_neg hresult, setConn_self hc.1]
          exact .depositFails hc (not_le.mp hpos) hresult
      · have hids := map_userId_walletUsers hv.users
          (.creditWallet c.currentUser.userId req.amount)
        obtain ⟨w, hw, hwid⟩ := List.mem_map.mp (hids.symm ▸ hv.user_mem fd c hc)
        have hread : readRec ((WalletCall.creditWallet c.currentUser.userId req.amount).users
            v.users) c.currentUser.userId = some w :=
          (hv.users.congr hids).readRec_eq_some.mpr ⟨hw, hwid⟩
        have hconn : ({ c with currentUser := w } : Conn) = ⟨true, w⟩ := by rw [← hc.2]
        have hchange : Change sha256Hex v (.message fd (.deposit req)) _ _ :=
          .deposit hc (not_le.mp hpos) hw hwid
        refine ⟨some { c with currentUser := w }, _, _, Does.wallet_call hs rfl fun s₁ hs₁ => ?_,
          hconn ▸ hchange⟩
        simp only [hresult, if_false]
        refine Does.silent_call trivial hs₁
          ((congrArg (fun v : View => readRec v.users c.currentUser.userId) hs₁).trans hread)
          fun s₂ hs₂ => does_silent ?_ hs₂
        simp [ApiOp.Silent]

/-- A login takes a session for a stored user, or does nothing. -/
theorem turns_login {req : LoginPayload} (hv : Sound v) (hc : v.conns fd = some c) :
    Turns sha256Hex v fd (.login req) (do
      let (authenticated, user) ← handleLogin sha256Hex fd req c.currentUser
      pure (some ⟨authenticated, user⟩)) := by
  intro s hs _
  have hfind : (Api.exec (.sys (.findUserByUsername req.username.val)) s).1 =
      findByUsername v.users req.username.val :=
    congrArg (fun v : View => findByUsername v.users req.username.val) hs
  simp only [handleLogin, findUserByUsername, sendMsg, Prog.pure_eq, Prog.bind_call, Prog.bind_pure]
  cases hu : findByUsername v.users req.username.val with
  | none =>
      refine ⟨some ⟨false, c.currentUser⟩, [], v, Does.silent_call trivial hs (hfind.trans hu)
        fun s₁ hs₁ => does_silent ?_ hs₁, .loginFails hc⟩
      simp [ApiOp.Silent]
  | some u =>
      by_cases hstatus : u.status = accountBanned ∨ u.status = accountInactive
      · refine ⟨some ⟨false, c.currentUser⟩, [], v, Does.silent_call trivial hs (hfind.trans hu)
          fun s₁ hs₁ => does_silent ?_ hs₁, .loginFails hc⟩
        simp [hstatus, ApiOp.Silent]
      by_cases hpass : passwordMatches sha256Hex req.passwordString u = true
      case neg =>
        refine ⟨some ⟨false, c.currentUser⟩, [], v, Does.silent_call trivial hs (hfind.trans hu)
          fun s₁ hs₁ => does_silent ?_ hs₁, .loginFails hc⟩
        simp [hstatus, hpass, ApiOp.Silent]
      obtain ⟨r, v₁, hsession, ⟨⟨e, rfl⟩, rfl⟩ | ⟨slot, rfl, hnone, hslot, rfl⟩⟩ :=
        does_createSession fd v u
      · refine ⟨some ⟨false, c.currentUser⟩, [], v₁, Does.silent_call trivial hs (hfind.trans hu)
          fun s₁ hs₁ => ?_, .loginFails hc⟩
        simp only [hstatus, hpass, if_false, Bool.not_true, Bool.false_eq_true, Prog.bind_assoc]
        exact (hsession s₁ hs₁).then_silent (by simp [ApiOp.Silent])
      · have hchange := Change.logsIn hc hu (not_or.mp hstatus) hpass hnone hslot
        have hwrite : writeRec .zero v.users u.userId { u with lastLogin := v.clock } =
            overwrite User.userId { u with lastLogin := v.clock } v.users :=
          hv.users.writeRec_eq_overwrite (x := { u with lastLogin := v.clock })
            (mem_of_findByUsername hu) rfl
        rw [← hwrite] at hchange
        refine ⟨some ⟨true, { u with lastLogin := v.clock }⟩, [], _, Does.silent_call trivial hs
          (hfind.trans hu) fun s₁ hs₁ => ?_, hchange⟩
        simp only [hstatus, hpass, if_false, Bool.not_true, Bool.false_eq_true, Prog.bind_assoc]
        refine (hsession s₁ hs₁).bind_unmarked fun s₂ hs₂ => ?_
        simp only [notifyRegister, lock, unlock, registryInsert, time, OnlineAuction.writeUser,
          Prog.bind_call, Prog.bind_pure]
        refine Does.silent_call trivial hs₂ rfl fun s₃ hs₃ => Does.sys_call (fun _ => rfl) hs₃
          fun s₄ hs₄ => Does.silent_call trivial hs₄ rfl fun s₅ hs₅ =>
          Does.silent_call trivial hs₅ (congrArg View.clock hs₅) fun s₆ hs₆ =>
          Does.sys_call (fun _ => rfl) hs₆ fun s₇ hs₇ => does_silent ?_ hs₇
        simp [ApiOp.Silent, SysOp.effect]

/-- A user who is logged in has an identifier. -/
theorem userId_ne_zero (hv : Sound v) (hc : v.LoggedIn fd c) : c.currentUser.userId ≠ 0 := by
  obtain ⟨w, hw, hid⟩ := List.mem_map.mp (hv.user_mem fd c hc)
  rw [← hid]
  exact hv.users.ne_zero hw

/-- A logout: the clean-up after the loop does the same once more. -/
theorem turns_logout (hv : Sound v) (hc : v.LoggedIn fd c) :
    Turns sha256Hex v fd .logout (do
      handleLogout fd c.currentUser
      cleanUp c
      pure none) := by
  intro s hs _
  have hne := userId_ne_zero hv hc
  have hdoes : Does v.conns (do
      handleLogout fd c.currentUser
      cleanUp c
      pure none : Prog ApiSig (Option Conn)) s none [] (v.signOff c.currentUser.userId 2) :=
    (does_handleLogout hs c.currentUser).bind fun s₁ hs₁ =>
      (does_cleanUp hs₁ hc.2 hne).then_silent (k := fun _ => pure none) (by simp)
  exact ⟨none, [], _, hdoes, .signOff hc (by omega) (.inr rfl)⟩

/-! ## dispatch -/

/-- What is refused for the role does nothing. -/
theorem handles_whenAllowed {i : Input} {allowed : Bool} {p : Prog ApiSig Unit}
    (h : allowed = true → Handles sha256Hex v i p) :
    Handles sha256Hex v i (whenAllowed allowed fd p) := by
  unfold whenAllowed
  split
  · next hallowed => exact h hallowed
  · exact .of_silent (by simp [ApiOp.Silent])

/-- Every request of a user who is logged in is handled as one change. -/
theorem handles_dispatch (hv : Sound v) (hroom : v.HasRoom) (hc : v.LoggedIn fd c) (m : Request) :
    Handles sha256Hex v (.message fd m) (dispatch sha256Hex fd c.currentUser m) := by
  cases m with
  | fileDispute req =>
      exact handles_whenAllowed fun h => handles_fileDispute hv hroom hc (eq_of_beq h) req
  | placeBid req => exact handles_whenAllowed fun h => handles_placeBid hv hc (eq_of_beq h) req
  | createAuction req =>
      exact handles_whenAllowed fun h => handles_createAuction hroom hc (by simpa using h) req
  | closeAuction req =>
      exact handles_whenAllowed fun h => handles_closeAuction hv hc (by simpa using h) req
  | resolveDispute req =>
      exact handles_whenAllowed fun h => handles_resolveDispute hv hc (of_decide_eq_true h) req
  | toggleAccount req =>
      exact handles_whenAllowed fun h => handles_toggleAccount hv hc (of_decide_eq_true h) req
  | addUser req => exact handles_whenAllowed fun h => handles_addUser hroom hc (eq_of_beq h) req
  | changeRole req => exact handles_whenAllowed fun h => handles_changeRole hv hc (eq_of_beq h) req
  | viewAuctions =>
      exact .of_silent (by simp [dispatch, handleViewAuctions, Option.forall, ApiOp.Silent])
  | viewBalance =>
      exact .of_silent (by simp [dispatch, handleViewBalance, Option.forall, ApiOp.Silent])
  | viewMyBids =>
      exact .of_silent (by simp [dispatch, handleViewMyBids, Option.forall, ApiOp.Silent])
  | submitFeedback req =>
      exact .of_silent (by simp [dispatch, handleSubmitFeedback, ApiOp.Silent])
  | viewDisputes =>
      exact handles_whenAllowed fun _ =>
        .of_silent (by simp [handleViewDisputes, Option.forall, ApiOp.Silent])
  | viewFeedback =>
      exact handles_whenAllowed fun _ =>
        .of_silent (by simp [handleViewFeedback, Option.forall, ApiOp.Silent])
  | listUsers =>
      exact handles_whenAllowed fun _ =>
        .of_silent (by simp [handleListUsers, Option.forall, ApiOp.Silent])
  | _ => exact .of_silent (by simp [dispatch, ApiOp.Silent])

/-- So is every message of a connection. -/
theorem turns_turn (hv : Sound v) (hroom : v.HasRoom) (hc : v.conns fd = some c) (m : Request) :
    Turns sha256Hex v fd m (turn sha256Hex fd c m) := by
  cases hauth : c.authenticated with
  | false =>
      have hrefuse : Turns sha256Hex v fd m (do
          sendMsg fd .msgError .errAuthFail .empty
          pure (some c)) := .of_handles hc (.of_silent (by simp [ApiOp.Silent]))
      cases m with
      | login req => simpa [turn, serve, Prog.bind_assoc] using turns_login hv hc
      | _ => simpa [turn, serve, hauth] using hrefuse
  | true =>
      have hlogged : v.LoggedIn fd c := ⟨hc, hauth⟩
      have hdispatch : Turns sha256Hex v fd m (do
          dispatch sha256Hex fd c.currentUser m
          pure (some c)) := .of_handles hc (handles_dispatch hv hroom hlogged m)
      cases m with
      | login req => simpa [turn, serve, Prog.bind_assoc] using turns_login hv hc
      | logout => simpa [turn, serve, hauth, Prog.bind_assoc] using turns_logout hv hlogged
      | changePass req =>
          simpa [turn, serve, hauth, Prog.bind_assoc] using turns_changePass hv hlogged req
      | deposit req =>
          simpa [turn, serve, hauth, Prog.bind_assoc] using turns_deposit hv hlogged req
      | _ => simpa [turn, serve, hauth, Prog.bind_assoc] using hdispatch

end Auctions

/-! ## steps and runs -/

section Runs

variable {sha256Hex : List UInt8 → List UInt8} {ok : Server → Input → Prop} {s s₀ : Server}
  {i : Input} {calls : List (Event ApiSig)}

/-- What every run of the server keeps. -/
structure Server.Sound (s : Server) : Prop where
  view : OnlineAuction.Sound s.view
  present : s.store.present .users = true

/-- The marks and the view of a step, from what its program does. -/
theorem Server.view_of_does {ms : List Mark} {v : View} {conns : Int → Option Conn}
    (h : Does s.conns (i.prog sha256Hex s.conns) (i.before s.store) conns ms v) :
    marks (s.calls sha256Hex i) = ms ∧
      (s.handle sha256Hex i).view = { v with conns := conns } := by
  obtain ⟨hr, hm, hv⟩ := h
  refine ⟨hm, ?_⟩
  rw [← hv, ← hr]
  rfl

/-- **Inversion of a step**: an input makes one of the listed changes. -/
theorem Server.Sound.change (hs : s.Sound) (hroom : s.store.HasRoom) (hpossible : i.Possible s) :
    Change sha256Hex s.view i (marks (s.calls sha256Hex i)) (s.handle sha256Hex i).view := by
  have hlift (conns : Int → Option Conn) (ms : List Mark) (v : View)
      (hdoes : Does s.conns (i.prog sha256Hex s.conns) (i.before s.store) conns ms v)
      (hchange : Change sha256Hex s.view i ms { v with conns := conns }) :
      Change sha256Hex s.view i (marks (s.calls sha256Hex i)) (s.handle sha256Hex i).view := by
    obtain ⟨hm, hv⟩ := view_of_does hdoes
    rw [hm, hv]
    exact hchange
  cases i with
  | connect fd => exact hlift _ [] s.view (does_pure _ rfl) (.connect hpossible.1 hpossible.2)
  | clock now => exact hlift _ [] _ (does_pure _ rfl) (.clock now)
  | restart => exact hlift _ [] _ (does_pure _ rfl) .restart
  | timerClose id =>
      have hhandles : Handles sha256Hex s.view (.timerClose id) (timerClose id) :=
        handles_timerClose hs.view id
      obtain ⟨ms, v, hdoes, hchange⟩ := hhandles s.store rfl hs.present
      have hconns : v.conns = s.conns := (congrArg View.conns hdoes.view).symm
      refine hlift s.conns ms v (hdoes.then_silent rfl) ?_
      rw [← hconns]
      exact hchange
  | message fd m =>
      cases hc : s.conns fd with
      | none =>
          refine hlift s.conns [] s.view (does_silent ?_ rfl) (.nothing _)
          simp [Input.prog, hc]
      | some c =>
          have hturns : Turns sha256Hex s.view fd m (turn sha256Hex fd c m) :=
            turns_turn hs.view hroom.view hc m
          obtain ⟨c', ms, v, hdoes, hchange⟩ := hturns s.store rfl hs.present
          have hconns : v.conns = s.conns := (congrArg View.conns hdoes.view).symm
          refine hlift (Function.update s.conns fd c') ms v ?_ ?_
          · simp only [Input.prog, hc]
            exact hdoes.then_silent (by simp)
          · rw [← hconns]
            exact hchange
  | disconnect fd =>
      cases hc : s.conns fd with
      | none =>
          refine hlift s.conns [] s.view (does_silent ?_ rfl) (.nothing _)
          simp [Input.prog, hc]
      | some c =>
          cases hauth : c.authenticated with
          | false =>
              refine hlift (Function.update s.conns fd none) [] s.view (does_silent ?_ rfl)
                (.hangUp hc hauth)
              simp [Input.prog, hc, cleanUp, hauth]
          | true =>
              have hlogged : s.view.LoggedIn fd c := ⟨hc, hauth⟩
              have hdoes : Does s.conns (cleanUp c) s.store () []
                  (s.view.signOff c.currentUser.userId 1) :=
                does_cleanUp rfl hauth (userId_ne_zero hs.view hlogged)
              refine hlift (Function.update s.conns fd none) [] _ ?_
                (.signOff hlogged Nat.one_pos (.inl rfl))
              simp only [Input.prog, hc]
              exact hdoes.then_silent (by simp)

/-- One input keeps the server sound. -/
theorem Server.Sound.handle (hs : s.Sound) (hroom : s.store.HasRoom) (hpossible : i.Possible s) :
    (s.handle sha256Hex i).Sound where
  view := hs.view.change hroom.view (hs.change hroom hpossible : Change sha256Hex _ i _ _)
  present := run_present (by cases i <;> exact hs.present) _

/-- Every reachable state is sound. -/
theorem Serves.sound (h : Serves sha256Hex ok s₀ calls s) (hs : s₀.Sound) : s.Sound :=
  h.inv (fun _ _ hs hroom hpossible _ => hs.handle hroom hpossible) hs

/-- **Run rule**: what every change keeps, given the marks so far, holds along
every run. -/
theorem Serves.induct {P : List Mark → View → Prop} (h : Serves sha256Hex ok s₀ calls s)
    (hs : s₀.Sound) (h₀ : P [] s₀.view)
    (hstep : ∀ (ms : List Mark) (s : Server) (i : Input) (ms' : List Mark) (v' : View),
      P ms s.view → s.Sound → s.store.HasRoom → ok s i → Change sha256Hex s.view i ms' v' →
        P (ms ++ ms') v') : P (marks calls) s.view := by
  induction h with
  | refl => exact h₀
  | step hrun hroom hpossible hok ih =>
      have hsound := hrun.sound hs
      rw [marks_append]
      exact hstep _ _ _ _ _ ih hsound hroom hok (hsound.change hroom hpossible)

/-- The new installation is sound. -/
theorem sound_seeded (createdAt now : Int) : (Server.seeded sha256Hex createdAt now).Sound where
  view := {
    users := numbered_seeded sha256Hex createdAt now
    auctions := numbered_nil
    disputes := numbered_nil
    auction_mem := fun _ hd => nomatch hd
    fd_pos := fun _ _ hc => nomatch hc
    user_mem := fun _ _ hc => nomatch hc.1 }
  present := rfl

end Runs

end OnlineAuction
