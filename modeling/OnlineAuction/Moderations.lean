import OnlineAuction.Dispute
import OnlineAuction.Lib.Conduct
import OnlineAuction.Threads
import OnlineAuction.WalletEffect

/-!
# OnlineAuction.Moderations

The requests about the disputes of an auction, side by side.

Both handlers look at a status in a private copy and write later: `handle_file_dispute`
the next record of the file and the auction, `handle_resolve_dispute` the dispute it has
read, and then the wallets.  `Moderation.conduct` is what they do in terms of what they
remember.
-/

namespace OnlineAuction

/-- A request about a dispute. -/
inductive Moderation
  | file (clientFd : Int) (req : FileDisputePayload) (u : User)
  | resolve (clientFd : Int) (req : ResolveDisputePayload) (moderator : User)

/-- Its program. -/
def Moderation.prog : Moderation → Prog ApiSig Unit
  | .file clientFd req u => handleFileDispute clientFd req u
  | .resolve clientFd req moderator => handleResolveDispute clientFd req moderator

/-- A dispute as it was filed. -/
def Dispute.filed (d : Dispute) : Dispute :=
  { d with resolvedByUserId := 0, resolution := .zero _, status := .disputeOpen, resolvedAt := 0 }

@[simp] theorem Dispute.filed_disputeId (d : Dispute) : d.filed.disputeId = d.disputeId := rfl

@[simp] theorem Dispute.filed_auctionId (d : Dispute) : d.filed.auctionId = d.auctionId := rfl

section Filed

variable {d d' : Dispute}

/-- The identifier was given with the filing. -/
theorem Dispute.disputeId_of_filed (h : d.filed = d'.filed) : d.disputeId = d'.disputeId := by
  rw [← d.filed_disputeId, h, d'.filed_disputeId]

/-- And so was the auction. -/
theorem Dispute.auctionId_of_filed (h : d.filed = d'.filed) : d.auctionId = d'.auctionId := by
  rw [← d.filed_auctionId, h, d'.filed_auctionId]

end Filed

/-! ## what a request does -/

/-- What a request remembers: the dispute it has read, the one it has written and the one
it has told of, and whether it has credited anybody. -/
structure Handled where
  seen : Option Dispute
  written : Option Dispute
  told : Option Dispute
  paid : Bool

/-- The dispute that a call has read. -/
@[simp] def disputeRead : Event ApiSig → Option Dispute
  | ⟨.sys (.readDispute _), r⟩ => r
  | _ => none

@[simp] def disputeWritten : ApiOp → Option Dispute
  | .sys (.writeDispute d) => some d
  | _ => none

/-- The dispute that a client is told of. -/
@[simp] def disputeTold : ApiOp → Option Dispute
  | .sys (.send _ ⟨.msgResolveDisputeResp, .errOk, .dispute d⟩) => some d
  | _ => none

/-- The amount that a call credits to a user. -/
@[simp] def creditOf : ApiOp → Option (UInt32 × ℚ)
  | .wallet _ (.creditWallet id amount) => some (id, amount)
  | _ => none

/-- Only `write_dispute` writes a dispute. -/
theorem disputeWritten_eq_some {op : ApiOp} {d : Dispute} (h : disputeWritten op = some d) :
    op = .sys (.writeDispute d) := by
  unfold disputeWritten at h
  split at h
  · rw [Option.some.inj h]
  · cases h

/-- A dispute is told by the answer to its resolution. -/
theorem disputeTold_eq_some {op : ApiOp} {d : Dispute} (h : disputeTold op = some d) :
    ∃ fd, op = .sys (.send fd ⟨.msgResolveDisputeResp, .errOk, .dispute d⟩) := by
  unfold disputeTold at h
  split at h
  · exact ⟨_, by rw [Option.some.inj h]⟩
  · cases h

/-- Only `credit_wallet` credits. -/
theorem creditOf_eq_some {op : ApiOp} {c : UInt32 × ℚ} (h : creditOf op = some c) :
    ∃ site, op = .wallet site (.creditWallet c.1 c.2) := by
  unfold creditOf at h
  split at h
  · rw [← Option.some.inj h]
    exact ⟨_, rfl⟩
  · cases h

@[simp] def Handled.note (g : Handled) (e : Event ApiSig) : Handled where
  seen := (disputeRead e).or g.seen
  written := (disputeWritten e.1).or g.written
  told := (disputeTold e.1).or g.told
  paid := g.paid || (creditOf e.1).any fun c => decide (0 < c.2)

/-- What a request writes to the file of disputes: a new record, or its decision over the
record it has read. -/
@[simp] def Moderation.Decides (m : Moderation) (auctionId : UInt32) (g : Handled) (d : Dispute) :
    Prop :=
  match m with
  | .file _ _ _ => d.auctionId = auctionId ∧ d.filed = d
  | .resolve _ req _ => (∃ d₀ ∈ g.seen, d.filed = d₀.filed) ∧ d.disputeId = req.disputeId ∧
      DisputeStatus.ofCode req.newStatus = some d.status ∧ d.status ≠ .disputeOpen

/-- What a request about the auction `a` calls next. -/
@[simp] def Moderation.Calls (m : Moderation) (a : Auction) (g : Handled) (op : ApiOp) : Prop :=
  match op with
  | .sys (.writeDispute d) => g.written = none ∧ m.Decides a.auctionId g d
  | .sys (.readDispute id) => ∃ fd req u, m = .resolve fd req u ∧ id = req.disputeId
  | .sys (.writeAuction b) => ∃ status, b = a.withStatus status
  | .wallet _ c => (∃ fd req u, m = .resolve fd req u) ∧
      (∃ id amount, c = .creditWallet id amount) ∧
      ∀ id amount, c = .creditWallet id amount → 0 < amount →
        g.paid = false ∧ ∃ d ∈ g.written, d.status = .disputeResolved
  | .sys (.send _ ⟨.msgResolveDisputeResp, .errOk, .dispute d⟩) => g.written = some d
  | _ => True

/-- What it counts on: the auction is there, and a dispute is about it. -/
@[simp] def Moderation.Answers (a : Auction) (op : ApiOp) (r : op.Res) : Prop :=
  match op, r with
  | .sys (.readAuction id), r => id = a.auctionId → ∃ status, r = some (a.withStatus status)
  | .sys (.readDispute id), r => ∀ d ∈ (r : Option Dispute), d.disputeId = id ∧
      d.auctionId = a.auctionId
  | _, _ => True

def Moderation.conduct (m : Moderation) (a : Auction) : Conduct ApiSig Handled where
  first := ⟨none, none, none, false⟩
  note := Handled.note
  pre := m.Calls a
  post _ := Moderation.Answers a

section Programs

variable {m : Moderation} {a : Auction} {g : Handled}

@[simp] theorem moderation_pre (o : ApiOp) : (m.conduct a).pre g o = m.Calls a g o := rfl

@[simp] theorem moderation_post (o : ApiOp) (r : o.Res) :
    (m.conduct a).post g o r = Moderation.Answers a o r := rfl

@[simp] theorem moderation_note (e : Event ApiSig) : (m.conduct a).note g e = g.note e := rfl

/-- `handle_file_dispute` writes a dispute about a closed auction and marks the auction. -/
theorem keeps_file {req : FileDisputePayload} (hreq : req.auctionId = a.auctionId) (clientFd : Int)
    (u : User) : ((Moderation.file clientFd req u).conduct a).Keeps (fun _ _ => True)
      (handleFileDispute clientFd req u) ⟨none, none, none, false⟩ := by
  simp only [handleFileDispute, readAuction, Prog.bind_call, Prog.bind_pure]
  refine ⟨trivial, fun r hr => ?_⟩
  obtain ⟨status, rfl⟩ := hr hreq
  by_cases hstatus : status = .auctionClosed
  · simp [hstatus, hreq, Dispute.filed]
    exact fun _ _ _ _ => ⟨_, rfl⟩
  · simp [hstatus]

/-- The seller is credited after the winner, but only a negative amount when the winner was
credited a positive one. -/
theorem keeps_refund {fd : Int} {req : ResolveDisputePayload} {moderator : User} {d : Dispute}
    {status : AuctionStatus} {Q : Unit → Handled → Prop} (hpaid : g.paid = false)
    (hwritten : g.written = some d) (hstatus : d.status = .disputeResolved)
    (hQ : ∀ paid, Q () { g with paid := paid }) :
    ((Moderation.resolve fd req moderator).conduct a).Keeps Q
      (refund d (a.withStatus status)) g := by
  simp only [refund, logTxn, wallet, readUser, Prog.bind_call, Prog.bind_pure, Conduct.keeps_call,
    moderation_pre, moderation_note, Handled.note]
  refine ⟨trivial, fun _ _ => ⟨?_, fun _ _ => ⟨trivial, fun r _ => ?_⟩⟩⟩
  · simp [hwritten, hstatus, hpaid]
  · cases r with
    | none => simpa using hQ _
    | some seller =>
        by_cases hcovered : a.currentBid ≤ seller.walletBalance
        · simp only [Auction.withStatus_currentBid, Auction.withStatus_sellerId, ge_iff_le,
            hcovered, if_true, Conduct.keeps_call, moderation_pre, moderation_note, Handled.note]
          refine ⟨?_, fun _ _ => hQ _⟩
          simp only [Moderation.Calls, WalletCall.creditWallet.injEq]
          refine ⟨⟨_, _, _, rfl⟩, ⟨_, _, rfl, rfl⟩, ?_⟩
          rintro _ _ ⟨-, rfl⟩ hpos
          have hneg : a.currentBid < 0 := by linarith
          simp [hpaid, hwritten, hstatus, hneg.le]
        · simp only [Auction.withStatus_currentBid, ge_iff_le, hcovered, if_false,
            Conduct.keeps_call, moderation_note, Handled.note]
          exact ⟨trivial, fun _ _ => hQ _⟩

/-- The conclusion of a dispute that was written pays once at most. -/
theorem keeps_conclude {fd : Int} {req : ResolveDisputePayload} {moderator : User} {d : Dispute}
    {status : AuctionStatus} {Q : Unit → Handled → Prop} (hpaid : g.paid = false)
    (hwritten : g.written = some d) (hQ : ∀ paid, Q () { g with paid := paid }) :
    ((Moderation.resolve fd req moderator).conduct a).Keeps Q
      (concludeDispute d (a.withStatus status)) g := by
  unfold concludeDispute
  split
  · rename_i hstatus
    exact keeps_refund hpaid hwritten hstatus hQ
  · simpa [hpaid] using ⟨⟨_, rfl⟩, hQ false⟩

/-- `handle_resolve_dispute` tells the dispute that it has written. -/
theorem keeps_resolve (clientFd : Int) (req : ResolveDisputePayload) (moderator : User) :
    ((Moderation.resolve clientFd req moderator).conduct a).Keeps (fun _ g => g.told = g.written)
      (handleResolveDispute clientFd req moderator) ⟨none, none, none, false⟩ := by
  unfold handleResolveDispute
  split
  · simp
  · simp
  · rename_i newStatus hopen hcode
    simp only [readDispute, Prog.bind_call, Prog.bind_pure, Conduct.keeps_call]
    refine ⟨by simp, fun r hr => ?_⟩
    cases r with
    | none => simp
    | some d =>
        by_cases hstatus : d.status = .disputeOpen
        · obtain ⟨hid, hauction⟩ := hr d rfl
          simp [hstatus, hcode, Dispute.filed]
          intro now
          refine ⟨⟨hid, hopen⟩, fun r hr => ?_⟩
          obtain ⟨status, rfl⟩ := hr hauction
          simp only [Conduct.keeps_bind]
          refine keeps_conclude rfl rfl fun paid => ?_
          simp
        · simp [hstatus]

end Programs

end OnlineAuction
