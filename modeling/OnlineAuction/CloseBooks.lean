import OnlineAuction.BooksRules

/-!
# OnlineAuction.CloseBooks

A close keeps the books in any company, as long as it closes what it has seen.

`close_auction_internal` takes no lock.  All that it needs is that the auction
is still as its caller has read it when it writes `CLOSED`, and that nobody is
moving money for it then (`MayClose`): from that write on nobody else touches
the account.
-/

namespace OnlineAuction

variable {ι : Type} {plan : Plan ι} {t : ι}

/-! ## what a close carries along -/

section Carry

variable {F : World ι → Prop} (hF : Carried plan t F)

include hF

/-- Once closed, an auction stays closed. -/
theorem Carried.andClosed (i : UInt32) :
    Carried plan t fun w => F w ∧ ¬ (account plan w i).IsOpen :=
  fun w w' h hw => ⟨hF w w' h hw.1, fun hopen => hw.2 (h.final.isOpen hopen)⟩

end Carry

section Closer

variable {Q F : World ι → Prop} {w : World ι} {a₀ a : Auction} {x : Account} {i : UInt32}

/-- A thread that owns a closed auction may be anywhere it is entitled to be. -/
theorem point_of_closed (h : Owns plan t F i x w) (hx : ¬ x.IsOpen) {p : Prog ApiSig Unit}
    (hp : Entitled plan t p) : Point plan t p w := by
  refine ⟨fun j hj hopen => ?_, hp⟩
  obtain rfl := h.only j hj
  rw [h.account] at hopen
  exact absurd hopen hx

/-- Quiet calls of a thread that owns a closed auction's account. -/
theorem wp_closingQuiet (hF : Carried plan t F) {op : ApiOp} {k : op.Res → Prog ApiSig Unit}
    (hop : op.Quiet) (hk : Kept plan w) (hw : Owns plan t F i x w) (hx : ¬ x.IsOpen)
    (hf : ∀ r w, Kept plan w → Owns plan t F i x w → (booksLogic plan).wp t Q (k r) w) :
    (booksLogic plan).wp t Q (.call op k) w := by
  refine Logic.wp_call (P := Owns plan t F i x)
    (fun _ _ _ _ hrely h => h.later hF hrely) hk hw
    (fun _ _ h => point_of_closed h hx (hop.entitled _)) ?_
  intro w r s hk hw _ hs
  obtain ⟨hmove, hrely⟩ := silent_of_quiet hop w r s hk hs
  exact ⟨w.2, hmove, hf r _ hmove.inv (hw.later hF hrely)⟩

/-- A close that takes what the auction holds of its leader: the settlement,
with `bd` the payment, or the release. -/
theorem wp_closingCall (hF : Carried plan t F) {c : WalletCall} (u : UInt32) (bd hd : ℚ)
    (o : Option ι) {k : Int → Prog ApiSig Unit} (hk : Kept plan w) (hw : Owns plan t F i x w)
    (hrec : x.record = some a) (hclosed : a.status = .auctionClosed)
    (hcloser : ∀ v, plan.closer i = some v → v = t)
    (heffect : ∀ w, Kept plan w → w.cover i = x.cover → a ∈ w.store.auctions → a.auctionId = i →
      c.users w.store.users = adjustWallet u bd hd w.store.users ∧
        Covered (w.cover.add i u hd) (adjustWallet u bd hd w.store.users) w.store.auctions)
    (hpay : ∀ v, c.payment v = if v = u then bd else 0) (hbd : hd ≤ bd)
    (hcalls : ∀ a₀ ∈ readRec plan.first.auctions i, x.calls ++ [c] <+: callsBetween a₀ a)
    (ho : o = some t ∨ o = none ∧ ∀ a₀ ∈ readRec plan.first.auctions i,
      AtRest a₀ a (x.afterCall u hd [c]))
    (hf : ∀ r w, Kept plan w → (o = some t → Owns plan t F i (x.afterCall u hd [c]) w) →
      (o = none → Rest t F w) → (booksLogic plan).wp t Q (k r) w) :
    (booksLogic plan).wp t Q (.call (.wallet (.close i) c) k) w := by
  have hnot : ¬ x.IsOpen := by
    rintro ⟨y, hy, hopen⟩
    obtain rfl : a = y := Option.some.inj (hrec.symm.trans hy)
    rw [hclosed] at hopen
    cases hopen
  refine Logic.wp_call (P := Owns plan t F i x) (fun _ _ _ _ hrely h => h.later hF hrely) hk hw
    (fun _ _ h => point_of_closed h hnot trivial) ?_
  intro w r s hk hw _ hs
  have hread := hw.record.trans hrec
  obtain ⟨hmem, hid⟩ := hk.mem_of_record hread
  obtain ⟨husers, hcovered⟩ := heffect w hk (congrArg Account.cover hw.account) hmem hid
  have hcall : (closeCall i ⟨.wallet (.close i) c, r⟩).toList = [c] := by simp [closeCall]
  have hlog : closeCalls i (World.log w) = x.calls := congrArg Account.calls hw.account
  obtain ⟨htouch, hmove⟩ := moves_wallet (o := o) hk hs hread hw.owner (.inr rfl) husers hcovered
    (.inl ⟨rfl, hpay⟩) hcloser
    (fun v _ j _ n _ hopen => by
      have hne : n ≠ i := fun he => hnot (by rw [← hw.account, ← he]; exact hopen)
      rw [if_neg hne]
      linarith)
    (by rw [hcall, hlog]; exact hcalls) (by rw [hcall, hw.account]; exact ho)
  have hacc : account plan (s, w.2.afterCall i u hd o) i =
      (account plan w i).afterCall u hd (closeCall i ⟨.wallet (.close i) c, r⟩).toList :=
    account_afterCall w hs
  rw [hcall, hw.account] at hacc
  exact ⟨_, hmove, hf r _ hmove.inv
    (fun he => hw.step hF htouch (by rw [← he]; exact Function.update_self ..) hacc)
    (fun he => hw.leave hF htouch (by rw [← he]; exact Function.update_self ..))⟩

/-! ## the close itself -/

/-- An auction that is open was open. -/
theorem AtRest.opened (h : AtRest a₀ a x) (hopen : a.status = .auctionOpen) :
    a₀.status = .auctionOpen := by
  rcases h.status with hs | ⟨hs, -⟩
  · exact hs ▸ hopen
  · exact hs

/-- A complete close leaves the account at rest. -/
theorem AtRest.close (h : AtRest a₀ a x) (hopen : a.status = .auctionOpen) {cover : UInt32 → ℚ}
    (hcover : ∀ v, v ≠ 0 → cover v = 0) {calls : List WalletCall}
    (hcalls : calls = (a.withStatus .auctionClosed).closingCalls) :
    AtRest a₀ (a.withStatus .auctionClosed)
      { record := some (a.withStatus .auctionClosed)
        cover := cover
        placed := x.placed
        calls := calls } where
  record := rfl
  cover v hv := by simp [Auction.heldFor, hcover v hv]
  calls := by simp [callsBetween, h.opened hopen, hcalls]
  status := .inr ⟨h.opened hopen, rfl⟩
  bids := by
    have hbids := h.bids
    conv_lhs => rw [hbids]
    rfl
  increasing := h.increasing

/-- The cover of an open auction: what its leader has bid, and nothing of
others. -/
theorem AtRest.cover_leader (h : AtRest a₀ a x) (hopen : a.status = .auctionOpen)
    (hleader : a.highestBidderId ≠ 0) : x.cover a.highestBidderId = a.currentBid := by
  rw [h.cover _ hleader, Auction.heldFor, if_pos ⟨hopen, rfl⟩]

theorem AtRest.cover_other (h : AtRest a₀ a x) {v : UInt32} (hv : v ≠ 0)
    (hne : v ≠ a.highestBidderId) : x.cover v = 0 := by
  rw [h.cover v hv, Auction.heldFor, if_neg fun hc => hne hc.2.symm]

/-- What is left of the leader's cover after the close has taken it. -/
theorem AtRest.cover_taken (h : AtRest a₀ a x) (hopen : a.status = .auctionOpen)
    (hleader : a.highestBidderId ≠ 0) {v : UInt32} (hv : v ≠ 0) :
    (if v = a.highestBidderId then x.cover v + -a.currentBid else x.cover v) = 0 := by
  by_cases hv' : v = a.highestBidderId
  · rw [if_pos hv', hv', h.cover_leader hopen hleader, add_neg_cancel]
  · rw [if_neg hv', h.cover_other hv hv']

theorem AtRest.calls_nil (h : AtRest a₀ a x) (hopen : a.status = .auctionOpen) : x.calls = [] := by
  rw [h.calls, callsBetween, if_neg fun hc => hc.2 hopen]

section Tail

variable (hF : Carried plan t F) (hopen : a.status = .auctionOpen)
  (hcloser : ∀ v, plan.closer a.auctionId = some v → v = t)
  (hfirst : ∃ a₀, a₀ ∈ readRec plan.first.auctions a.auctionId)
  (hrest : ∀ a₀ ∈ readRec plan.first.auctions a.auctionId, AtRest a₀ a x)

include hF hopen hcloser hfirst hrest

/-- A close that pays the seller, after the writing of `CLOSED`. -/
theorem wp_settle (hsettles : (a.withStatus .auctionClosed).Settles)
    {k : Prog ApiSig Unit} (hk : Kept plan w) (hw : Owns plan t F a.auctionId
      { x with record := some (a.withStatus .auctionClosed) } w)
    (hf : ∀ w, Kept plan w → Rest t F w → (booksLogic plan).wp t Q k w) :
    (booksLogic plan).wp t Q
      (.call (.wallet (.close a.auctionId) (.settlePayment a.highestBidderId a.currentBid))
        fun _ => .call (.wallet (.close a.auctionId) (.creditWallet a.sellerId a.currentBid))
          fun _ => k) w := by
  obtain ⟨a₀, ha₀⟩ := hfirst
  have hx := hrest a₀ ha₀
  have hpos : 0 < a.currentBid :=
    hk.covered.bid_pos (a.withStatus .auctionClosed) (hk.mem_of_record hw.record).1
  have hleader : a.highestBidderId ≠ 0 := hsettles.1
  have hcalls : (a.withStatus .auctionClosed).closingCalls =
      [.settlePayment a.highestBidderId a.currentBid, .creditWallet a.sellerId a.currentBid] :=
    if_pos hsettles
  have hbetween (a₁ : Auction) (ha₁ : a₁ ∈ readRec plan.first.auctions a.auctionId) :
      callsBetween a₁ (a.withStatus .auctionClosed) =
        [.settlePayment a.highestBidderId a.currentBid, .creditWallet a.sellerId a.currentBid] := by
    simp [callsBetween, (hrest a₁ ha₁).opened hopen, hcalls]
  refine wp_closingCall hF a.highestBidderId (-a.currentBid) (-a.currentBid) (some t) hk hw rfl rfl
    hcloser ?_ (fun v => by simp [WalletCall.payment, eq_comm]) le_rfl (fun a₁ ha₁ => ?_) (.inl rfl)
    fun _ w hk hw _ => ?_
  · intro w hk hcover hmem hid
    obtain ⟨y, hy, hyid⟩ := hk.covered.leader_mem _ hmem hleader
    have hle : a.currentBid ≤ w.cover (a.withStatus .auctionClosed).auctionId y.userId := by
      rw [hyid, hid, hcover]
      exact (hx.cover_leader hopen hleader).ge
    obtain ⟨husers, -, hcovered⟩ := hk.covered.settle hy hmem hle
    rw [hid, hyid] at hcovered
    rw [hyid] at husers
    exact ⟨husers, hcovered⟩
  · rw [hbetween a₁ ha₁, hx.calls_nil hopen]
    exact ⟨_, rfl⟩
  refine wp_closingCall hF a.sellerId a.currentBid 0 none hk (hw rfl) rfl rfl hcloser
    ?_ (fun v => by simp [WalletCall.payment, eq_comm]) hpos.le (fun a₁ ha₁ => ?_)
    (.inr ⟨rfl, fun a₁ ha₁ => ?_⟩) fun _ w hk _ hw => hf w hk (hw rfl)
  · intro w hk _ hmem hid
    obtain ⟨y, hy, hyid⟩ := hk.covered.seller_mem _ hmem
    have hpos := hk.covered.bid_pos _ hmem
    have hle := hk.covered.hold_le y hy
    have hstays : y.walletHold ≤ y.walletBalance + a.currentBid := by
      simp only [Auction.withStatus_currentBid] at hpos
      linarith
    obtain ⟨husers, -, hcovered⟩ := hk.covered.credit hy hstays
    rw [hyid] at husers hcovered
    rw [Cover.add_zero]
    exact ⟨husers, hcovered⟩
  · rw [hbetween a₁ ha₁]
    simp [Account.afterCall, hx.calls_nil hopen]
  · refine (hrest a₁ ha₁).close hopen (fun v hv => ?_) ?_
    · simp only [Account.afterCall, add_zero, ite_self]
      exact hx.cover_taken hopen hleader hv
    · simp [Account.afterCall, hcalls, hx.calls_nil hopen]

/-- A close that gives the leader's hold back. -/
theorem wp_giveBack (hsettles : ¬ (a.withStatus .auctionClosed).Settles)
    (hleader : a.highestBidderId ≠ 0) {k : Prog ApiSig Unit} (hk : Kept plan w)
    (hw : Owns plan t F a.auctionId { x with record := some (a.withStatus .auctionClosed) } w)
    (hf : ∀ w, Kept plan w → Rest t F w → (booksLogic plan).wp t Q k w) :
    (booksLogic plan).wp t Q
      (.call (.wallet (.close a.auctionId) (.releaseHold a.highestBidderId a.currentBid))
        fun _ => k) w := by
  obtain ⟨a₀, ha₀⟩ := hfirst
  have hx := hrest a₀ ha₀
  have hpos : 0 < a.currentBid :=
    hk.covered.bid_pos (a.withStatus .auctionClosed) (hk.mem_of_record hw.record).1
  have hcalls : (a.withStatus .auctionClosed).closingCalls =
      [.releaseHold a.highestBidderId a.currentBid] := by
    rw [Auction.closingCalls, if_neg hsettles]
    exact if_pos hleader
  refine wp_closingCall hF a.highestBidderId 0 (-a.currentBid) none hk hw rfl rfl hcloser ?_
    (fun v => by simp [WalletCall.payment]) (neg_nonpos.mpr hpos.le) (fun a₁ ha₁ => ?_)
    (.inr ⟨rfl, fun a₁ ha₁ => ?_⟩)
    fun _ w hk _ hw => hf w hk (hw rfl)
  · intro w hk hcover hmem hid
    obtain ⟨y, hy, hyid⟩ := hk.covered.leader_mem _ hmem hleader
    have hle : a.currentBid ≤ w.cover (a.withStatus .auctionClosed).auctionId y.userId := by
      rw [hyid, hid, hcover]
      exact (hx.cover_leader hopen hleader).ge
    obtain ⟨husers, -, hcovered⟩ :=
      hk.covered.release hy hmem (hk.covered.bid_pos _ hmem).le hle
    rw [hid, hyid] at hcovered
    rw [hyid] at husers
    exact ⟨husers, hcovered⟩
  · simp [callsBetween, (hrest a₁ ha₁).opened hopen, hcalls, hx.calls_nil hopen]
  · refine (hrest a₁ ha₁).close hopen (fun v hv => hx.cover_taken hopen hleader hv) ?_
    simp [hcalls, hx.calls_nil hopen]

end Tail

/-- **A close** of an auction that is still as the thread has seen it. -/
theorem wp_closeAuctionInternal (hF : Carried plan t F) (hopen : a.status = .auctionOpen)
    (hentitled : ∃ j ∈ plan.jobs t, j.Closes a.auctionId)
    (hcloser : ∀ v, plan.closer a.auctionId = some v → v = t) {f : Auction → Prog ApiSig Unit}
    (hk : Kept plan w) (hw : Rest t F w)
    (hseen : plan.closer a.auctionId = some t → readRec w.store.auctions a.auctionId = some a)
    (hf : ∀ r w, Kept plan w →
      Rest t (fun w => F w ∧ ¬ (account plan w a.auctionId).IsOpen) w →
      (booksLogic plan).wp t Q (f r) w) :
    (booksLogic plan).wp t Q (closeAuctionInternal a >>= f) w := by
  have hF' := hF.andClosed a.auctionId
  have hquiet {p : Prog ApiSig Auction}
      (hp : p.Respects ApiOp.Quiet (fun _ _ => True) fun _ => True) (w : World ι)
      (hk : Kept plan w)
      (hw : Rest t (fun w => F w ∧ ¬ (account plan w a.auctionId).IsOpen) w) :
      (booksLogic plan).wp t Q (p >>= f) w :=
    wp_quiet hp (stable_rest hF') (fun _ h => h.free) hk hw fun r w hk hw => hf r w hk hw
  simp only [closeAuctionInternal, writeAuction, logTxn, wallet, Prog.bind_call, Prog.bind_pure]
  refine Logic.wp_call (P := fun w => Rest t F w ∧ (plan.closer a.auctionId = some t →
      readRec (World.store w).auctions a.auctionId = some a)) ?_ hk ⟨hw, hseen⟩
    (fun _ _ h => point_of_free h.1.free fun _ => hentitled) ?_
  · rintro w w' _ _ hrely ⟨hw, hseen⟩
    refine ⟨hw.later hF hrely, fun hc => ?_⟩
    exact (congrArg Account.record (hrely.closer _ hc).2).trans (hseen hc)
  · rintro w r s hk ⟨hw, hseen⟩ hadm hs
    have hsame : (a.withStatus .auctionClosed).withStatus .auctionOpen = a := by rw [← hopen]; rfl
    obtain ⟨hread, hown⟩ : readRec (World.store w).auctions a.auctionId = some a ∧
        World.owner w a.auctionId = none := by
      rcases hadm _ rfl rfl with hc | ⟨hread, hown⟩
      · refine ⟨hseen hc, ?_⟩
        rcases hk.closer _ _ hc with ho | ho
        · exact ho
        · exact absurd ho (hw.free _)
      · rw [hsame] at hread
        exact ⟨hread, hown⟩
    have hrest (a₀ : Auction) (ha₀ : a₀ ∈ readRec plan.first.auctions a.auctionId) :
        AtRest a₀ a (account plan w a.auctionId) := by
      obtain ⟨a', h⟩ := hk.atRest _ a₀ ha₀ hown
      obtain rfl : a' = a := Option.some.inj (h.record.symm.trans hread)
      exact h
    have hfirst := hk.exists_first hread
    have hmem := (hk.mem_of_record hread).1
    have hcalls : closeCalls a.auctionId (World.log w) = [] := by
      obtain ⟨a₀, ha₀⟩ := hfirst
      exact (hrest a₀ ha₀).calls_nil hopen
    have hnone (h0 : a.highestBidderId = 0) (a₀ : Auction)
        (ha₀ : a₀ ∈ readRec plan.first.auctions a.auctionId) :
          AtRest a₀ (a.withStatus .auctionClosed)
          { account plan w a.auctionId with record := some (a.withStatus .auctionClosed) } := by
      refine (hrest a₀ ha₀).close hopen
        (fun v hv => (hrest a₀ ha₀).cover_other hv fun he => hv (he.trans h0)) ?_
      simp [account, hcalls, Auction.closingCalls, Auction.Settles, h0]
    have hstep (o : Option ι) (ho : o = some t ∨ o = none ∧ a.highestBidderId = 0) :=
      moves_writeAuction (o := o) hk hs hread hopen rfl (.inr hown) rfl
        (hk.covered.leader_mem a hmem) (hk.covered.bid_pos a hmem) hcloser
        (fun a₀ ha₀ => by rw [hcalls]; exact List.nil_prefix) (ho.imp id fun h => ⟨h.1, hnone h.2⟩)
        (fun _ hc => by cases hc) (.inl rfl)
    have hclosed {o : Option ι} (hacc : account plan (s, w.2.ownedBy a.auctionId o) a.auctionId =
        { account plan w a.auctionId with record := some (a.withStatus .auctionClosed) }) :
        ¬ (account plan (s, w.2.ownedBy a.auctionId o) a.auctionId).IsOpen := by
      rw [hacc]
      rintro ⟨y, hy, hyopen⟩
      obtain rfl := Option.some.inj hy
      cases hyopen
    by_cases h0 : a.highestBidderId = 0
    · obtain ⟨htouch, hmove, hacc⟩ := hstep none (.inr ⟨rfl, h0⟩)
      refine ⟨_, hmove, ?_⟩
      have hnot : ¬ (a.withStatus .auctionClosed).Settles := fun h => h.1 h0
      simp only [hnot, if_false, releaseLeader, Auction.withStatus_highestBidderId, h0, ne_eq,
        not_true_eq_false, Prog.pure_eq, Prog.bind_pure]
      exact hquiet (by simp [notifyAuctionClosed, pushNotification, ApiOp.Quiet]) _ hmove.inv
        { hw.touch hF htouch (Function.update_self ..) with
          carried := ⟨hF w _ htouch.onward hw.carried, hclosed hacc⟩ }
    · obtain ⟨htouch, hmove, hacc⟩ := hstep (some t) (.inl rfl)
      refine ⟨_, hmove, ?_⟩
      have howns : Owns plan t (fun w => F w ∧ ¬ (account plan w a.auctionId).IsOpen) a.auctionId
          { account plan w a.auctionId with record := some (a.withStatus .auctionClosed) }
          (s, w.2.ownedBy a.auctionId (some t)) :=
        { hw.own hF htouch (Function.update_self ..) hacc with
          carried := ⟨hF w _ htouch.onward hw.carried, hclosed hacc⟩ }
      by_cases hset : (a.withStatus .auctionClosed).Settles
      · simp only [hset, if_true, markWinningBids, Prog.bind_call, Prog.bind_pure]
        refine wp_closingQuiet hF' trivial hmove.inv howns (hacc ▸ hclosed hacc) fun _ w hk hw => ?_
        refine wp_settle hF' hopen hcloser hfirst hrest hset hk hw fun w hk hw => ?_
        refine wp_quietCall trivial (stable_rest hF') (fun _ h => h.free) hk hw fun _ w hk hw => ?_
        exact hquiet (by simp [notifyAuctionWon, notifyAuctionClosed, pushNotification,
          ApiOp.Quiet]) w hk hw
      · simp only [hset, if_false, releaseLeader, Auction.withStatus_highestBidderId, ne_eq, h0,
          not_false_eq_true, if_true, wallet, Prog.bind_call, Prog.bind_pure]
        refine wp_giveBack hF' hopen hcloser hfirst hrest hset h0 hmove.inv howns
          fun w hk hw => ?_
        exact hquiet (by simp [notifyAuctionClosed, pushNotification, ApiOp.Quiet]) w hk hw

/-! ## the closers -/

/-- The job has closed what it may close. -/
def Job.Done (plan : Plan ι) (w : World ι) : Job → Prop
  | .close _ req requester => ∀ a₀ ∈ readRec plan.first.auctions req.auctionId,
      (a₀.sellerId = requester.userId ∨ requester.role = roleAdmin) →
        ¬ (account plan w req.auctionId).IsOpen
  | .timerClose id => ¬ (account plan w id).IsOpen
  | _ => True

/-- What is done stays done. -/
theorem Job.Done.later {w w' : World ι} {j : Job} (h : j.Done plan w) (hf : Final plan w w') :
    j.Done plan w' := by
  cases j with
  | close clientFd req requester => exact fun a₀ ha₀ hp hopen => h a₀ ha₀ hp (hf.isOpen hopen)
  | timerClose id => exact fun hopen => h (hf.isOpen hopen)
  | _ => trivial

variable (hF : Carried plan t F)

include hF

/-- So it may be carried along. -/
theorem Carried.andDone (j : Job) : Carried plan t fun w => F w ∧ j.Done plan w :=
  fun w w' h hw => ⟨hF w w' h hw.1, hw.2.later h.final⟩

omit hF in
theorem not_isOpen_of_record {o : Option Auction} (hr : readRec w.store.auctions i = o)
    (h : ∀ a ∈ o, a.status ≠ .auctionOpen) : ¬ (account plan w i).IsOpen := by
  rintro ⟨a, ha, hopen⟩
  exact h a (hr ▸ ha) hopen

/-- The body of the timer's second loop. -/
theorem wp_timerClose {id : UInt32} (hentitled : ∃ j ∈ plan.jobs t, j.Closes id)
    (hcloser : ∀ v, plan.closer id = some v → v = t)
    {k : Prog ApiSig Unit} (hk : Kept plan w) (hw : Rest t F w)
    (hf : ∀ w, Kept plan w → Rest t (fun w => F w ∧ (Job.timerClose id).Done plan w) w →
      (booksLogic plan).wp t Q k w) :
    (booksLogic plan).wp t Q (timerClose id >>= fun _ => k) w := by
  have hF' := hF.andClosed id
  simp only [timerClose, readAuction, Prog.bind_call, Prog.bind_pure]
  refine wp_read trivial (fun _ => rfl) (stable_rest hF) (fun _ h => h.free) hk hw
    fun w hk hw => ?_
  have hread : readRec w.store.auctions id =
      (Api.exec (.sys (.readAuction id)) w.store).1 := rfl
  cases hr : (Api.exec (.sys (.readAuction id)) w.store).1 with
  | none =>
      exact hf w hk { hw with
        carried := ⟨hw.carried, not_isOpen_of_record (hread.trans hr) (by simp)⟩ }
  | some a =>
      by_cases hopen : a.status = .auctionOpen
      · obtain rfl : a.auctionId = id := (hk.mem_of_record (hread.trans hr)).2
        simp only [hopen, ne_eq, not_true_eq_false, if_false, Prog.bind_assoc]
        refine wp_closeAuctionInternal hF hopen hentitled hcloser hk hw (fun _ => hread.trans hr)
          fun _ w hk hw => ?_
        exact wp_quietCall trivial (stable_rest hF') (fun _ h => h.free) hk hw
          fun _ w hk hw => hf w hk hw
      · simp only [ne_eq, hopen, not_false_eq_true, if_true, Prog.pure_eq, Prog.bind_pure]
        exact hf w hk { hw with
          carried := ⟨hw.carried, not_isOpen_of_record (hread.trans hr) (by simpa using hopen)⟩ }

/-- One pass of the timer. -/
theorem wp_timerPass (hentitled : ∀ i, ∃ j ∈ plan.jobs t, j.Closes i)
    (hcloser : ∀ i v, plan.closer i = some v → v = t)
    (hQ : ∀ w, Kept plan w → Rest t F w → Q w) (hk : Kept plan w) (hw : Rest t F w) :
    (booksLogic plan).wp t Q timerPass w := by
  have hloop (ids : List UInt32) (w : World ι) (hk : Kept plan w) (hw : Rest t F w) :
      (booksLogic plan).wp t Q (closeExpired ids) w := by
    induction ids generalizing w with
    | nil => exact wp_end hF hQ hk hw
    | cons id ids ih =>
        exact wp_timerClose hF (hentitled id) (hcloser id) hk hw fun w hk hw =>
          ih w hk { hw with carried := hw.carried.1 }
  simp only [timerPass, time, scanAuctions, Prog.bind_call, Prog.bind_pure]
  refine wp_quietCall trivial (stable_rest hF) (fun _ h => h.free) hk hw fun _ w hk hw => ?_
  refine wp_quietCall trivial (stable_rest hF) (fun _ h => h.free) hk hw fun r w hk hw => ?_
  cases r with
  | none => exact wp_end hF hQ hk hw
  | some l => exact hloop _ w hk hw

/-- A close on request. -/
theorem wp_handleCloseAuction {clientFd : Int} {req : CloseAuctionPayload} {requester : User}
    (hentitled : ∃ j ∈ plan.jobs t, j.Closes req.auctionId)
    (hcloser : ∀ v, plan.closer req.auctionId = some v → v = t)
    (hQ : ∀ w, Kept plan w →
      Rest t (fun w => F w ∧ (Job.close clientFd req requester).Done plan w) w → Q w)
    (hk : Kept plan w) (hw : Rest t F w) :
    (booksLogic plan).wp t Q (handleCloseAuction clientFd req requester) w := by
  have hdone := hF.andDone (.close clientFd req requester)
  have hsend (type : MessageType) (status : ErrCode) (payload : Payload) (w : World ι)
      (hk : Kept plan w)
      (hw : Rest t (fun w => F w ∧ (Job.close clientFd req requester).Done plan w) w) :
      (booksLogic plan).wp t Q (sendMsg clientFd type status payload) w :=
    wp_quietEnd hdone ⟨trivial, fun _ _ => trivial⟩ hQ hk hw
  simp only [handleCloseAuction, readAuction, Prog.bind_call, Prog.bind_pure]
  refine wp_read trivial (fun _ => rfl) (stable_rest hF) (fun _ h => h.free) hk hw
    fun w hk hw => ?_
  have hread : readRec w.store.auctions req.auctionId =
      (Api.exec (.sys (.readAuction req.auctionId)) w.store).1 := rfl
  cases hr : (Api.exec (.sys (.readAuction req.auctionId)) w.store).1 with
  | none =>
      exact hsend _ _ _ w hk { hw with
        carried := ⟨hw.carried, fun _ _ _ =>
          not_isOpen_of_record (hread.trans hr) (by simp)⟩ }
  | some a =>
      have hseller (a₀ : Auction) (ha₀ : a₀ ∈ readRec plan.first.auctions req.auctionId) :
          a.sellerId = a₀.sellerId := by
        have hfixed := hk.fixed_eq req.auctionId
        rw [hread, hr, Option.mem_def.mp ha₀] at hfixed
        exact congrArg Prod.snd (Option.some.inj hfixed)
      by_cases hperm : a.sellerId ≠ requester.userId ∧ requester.role ≠ roleAdmin
      · simp only [hperm, ne_eq, not_false_eq_true, and_self, if_true]
        refine hsend _ _ _ w hk { hw with carried := ⟨hw.carried, fun a₀ ha₀ hp => ?_⟩ }
        rw [← hseller a₀ ha₀] at hp
        exact (hp.elim hperm.1 hperm.2).elim
      · by_cases hopen : a.status = .auctionOpen
        · obtain hid : a.auctionId = req.auctionId := (hk.mem_of_record (hread.trans hr)).2
          simp only [hperm, hopen, ne_eq, not_true_eq_false, if_false]
          rw [← hid] at hcloser hentitled
          refine wp_closeAuctionInternal hF hopen hentitled hcloser hk hw
            (fun _ => by rw [hid]; exact hread.trans hr) fun _ w hk hw => ?_
          refine wp_quietEnd hdone (by simp [ApiOp.Quiet]) hQ hk { hw with
            carried := ⟨hw.carried.1, fun _ _ _ => by rw [← hid]; exact hw.carried.2⟩ }
        · simp only [hperm, ne_eq, hopen, not_false_eq_true, if_true, if_false]
          exact hsend _ _ _ w hk { hw with
            carried := ⟨hw.carried, fun _ _ _ =>
              not_isOpen_of_record (hread.trans hr) (by simpa using hopen)⟩ }

end Closer

end OnlineAuction
