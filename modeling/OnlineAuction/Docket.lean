import OnlineAuction.Models
import Mathlib.Logic.Function.Basic
import Mathlib.Tactic.Common

/-!
# OnlineAuction.Docket

What an auction house with a complaints desk is for, one lot and one dispute at a
time.

A `Docket` shows for every lot its status and whether a sale at this moment would
be paid, and for every dispute the lot it is about and its status.  `Step` lists
what may happen; the entries it makes in the log are the closings, the settlements
and the refunds.  `Orderly` is the invariant that ties disputes to lots, `Tally`
says what the log of a whole run holds, and `Later` what no later step takes back.
-/

namespace OnlineAuction

/-- A lot: `sold` when a close would be paid. -/
structure Lot where
  status : AuctionStatus
  sold : Bool
  deriving DecidableEq

structure Docket (α δ : Type) where
  lot : α → Option Lot
  dispute : δ → Option (α × DisputeStatus)

inductive Entry (α : Type)
  | closed (i : α)
  | settled (i : α)
  | refunded (i : α)
  deriving DecidableEq

namespace Docket

variable {α δ : Type}

/-! ## what is kept -/

/-- The status of a lot. -/
def lotStatus (k : Docket α δ) (i : α) : Option AuctionStatus := (k.lot i).map Lot.status

/-- The status of a dispute. -/
def disputeStatus (k : Docket α δ) (j : δ) : Option DisputeStatus := (k.dispute j).map Prod.snd

/-- A dispute that has not been rejected keeps its lot in dispute, and there is one
at most. -/
structure Orderly (k : Docket α δ) : Prop where
  disputed : ∀ j i s, k.dispute j = some (i, s) → s ≠ .disputeRejected →
    ∃ x, k.lot i = some x ∧ x.status = .auctionDisputed
  unique : ∀ j j' i s s', k.dispute j = some (i, s) → k.dispute j' = some (i, s') →
    s ≠ .disputeRejected → s' ≠ .disputeRejected → j = j'

variable {k k' k'' : Docket α δ} {es es' : List (Entry α)} {i : α} {j : δ} {x : Lot}

/-- A lot that is not in dispute has only rejected disputes. -/
theorem Orderly.rejected (h : k.Orderly) (hi : ∀ x, k.lot i = some x → x.status ≠ .auctionDisputed)
    {s : DisputeStatus} (hj : k.dispute j = some (i, s)) : s = .disputeRejected := by
  by_contra hs
  obtain ⟨x, hx, hstatus⟩ := h.disputed j i s hj hs
  exact hi x hx hstatus

/-- The lot has been closed. -/
def Left (k : Docket α δ) (i : α) : Prop := ∃ x, k.lot i = some x ∧ x.status ≠ .auctionOpen

/-- The lot has been closed, and was sold. -/
def LeftSold (k : Docket α δ) (i : α) : Prop :=
  ∃ x, k.lot i = some x ∧ x.status ≠ .auctionOpen ∧ x.sold = true

/-- A dispute about the lot has been granted. -/
def Granted (k : Docket α δ) (i : α) : Prop := ∃ j, k.dispute j = some (i, .disputeResolved)

/-- A lot with an open dispute has no granted one. -/
theorem Orderly.not_granted (h : k.Orderly) (hj : k.dispute j = some (i, .disputeOpen)) :
    ¬ k.Granted i := by
  rintro ⟨j', hj'⟩
  obtain rfl := h.unique j j' i _ _ hj hj' (by decide) (by decide)
  simp [hj] at hj'

/-- A lot that has been closed is not opened again, and a dispute that has been
decided stays as it is. -/
structure Later (k k' : Docket α δ) : Prop where
  closed : ∀ i x, k.lot i = some x → x.status ≠ .auctionOpen →
    ∃ x', k'.lot i = some x' ∧ x'.status ≠ .auctionOpen ∧ x'.sold = x.sold
  decided : ∀ j i s, k.dispute j = some (i, s) → s ≠ .disputeOpen → k'.dispute j = some (i, s)

/-- A docket is later than itself. -/
theorem Later.refl (k : Docket α δ) : Later k k where
  closed _ x hi hx := ⟨x, hi, hx, rfl⟩
  decided _ _ _ hj _ := hj

/-- Later is transitive. -/
theorem Later.trans (h : Later k k') (h' : Later k' k'') : Later k k'' where
  closed i x hi hx := by
    obtain ⟨x', hi', hx', hsold⟩ := h.closed i x hi hx
    obtain ⟨x'', hi'', hx'', hsold'⟩ := h'.closed i x' hi' hx'
    exact ⟨x'', hi'', hx'', hsold'.trans hsold⟩
  decided j i s hj hs := h'.decided j i s (h.decided j i s hj hs) hs

/-- The lot of a granted dispute stays in dispute, and no other is open. -/
theorem Later.resolved (h : Later k k') (hk' : k'.Orderly)
    (hj : k.dispute j = some (i, .disputeResolved)) :
    (∃ x, k'.lot i = some x ∧ x.status = .auctionDisputed) ∧
      ∀ j', k'.dispute j' ≠ some (i, .disputeOpen) := by
  have hkept := h.decided j i _ hj (by decide)
  refine ⟨hk'.disputed j i _ hkept (by decide), fun j' hopen => ?_⟩
  obtain rfl := hk'.unique j j' i _ _ hkept hopen (by decide) (by decide)
  simp [hkept] at hopen

/-! ## steps -/

def setLot [DecidableEq α] (k : Docket α δ) (i : α) (x : Lot) : Docket α δ :=
  { k with lot := Function.update k.lot i (some x) }

def setDispute [DecidableEq δ] (k : Docket α δ) (j : δ) (i : α) (x : DisputeStatus) :
    Docket α δ :=
  { k with dispute := Function.update k.dispute j (some (i, x)) }

section Lookup

variable (k : Docket α δ) (i i' : α) (j j' : δ)

/-- The lot that was set is there, and the others stay. -/
@[simp, grind =] theorem setLot_lot [DecidableEq α] (x : Lot) :
    (k.setLot i x).lot i' = if i' = i then some x else k.lot i' := Function.update_apply ..

/-- Setting a lot leaves the disputes. -/
@[simp, grind =] theorem setLot_dispute [DecidableEq α] (x : Lot) :
    (k.setLot i x).dispute j = k.dispute j := rfl

/-- Setting a dispute leaves the lots. -/
@[simp, grind =] theorem setDispute_lot [DecidableEq δ] (x : DisputeStatus) :
    (k.setDispute j i x).lot i' = k.lot i' := rfl

/-- The dispute that was set is there, and the others stay. -/
@[simp, grind =] theorem setDispute_dispute [DecidableEq δ] (x : DisputeStatus) :
    (k.setDispute j i x).dispute j' = if j' = j then some (i, x) else k.dispute j' :=
  Function.update_apply ..

end Lookup

variable [DecidableEq α] [DecidableEq δ]

inductive Step (k : Docket α δ) : List (Entry α) → Docket α δ → Prop
  | stay : Step k [] k
  | create {i : α} {sold : Bool} (hi : k.lot i = none) :
      Step k [] (k.setLot i ⟨.auctionOpen, sold⟩)
  | bid {i : α} {x : Lot} {sold : Bool} (hi : k.lot i = some x) (hx : x.status = .auctionOpen) :
      Step k [] (k.setLot i ⟨.auctionOpen, sold⟩)
  | close {i : α} {x : Lot} (hi : k.lot i = some x) (hx : x.status = .auctionOpen) :
      Step k ((if x.sold then [.settled i] else []) ++ [.closed i])
        (k.setLot i ⟨.auctionClosed, x.sold⟩)
  | file {i : α} {j : δ} {x : Lot} (hi : k.lot i = some x) (hx : x.status = .auctionClosed)
      (hj : k.dispute j = none) :
      Step k [] ((k.setLot i ⟨.auctionDisputed, x.sold⟩).setDispute j i .disputeOpen)
  | reject {i : α} {j : δ} {x : Lot} (hi : k.lot i = some x)
      (hj : k.dispute j = some (i, .disputeOpen)) :
      Step k [] ((k.setLot i ⟨.auctionClosed, x.sold⟩).setDispute j i .disputeRejected)
  | refund {i : α} {j : δ} (hj : k.dispute j = some (i, .disputeOpen)) :
      Step k [.refunded i] (k.setDispute j i .disputeResolved)

/-! ## step lemmas -/

omit [DecidableEq δ] in
/-- What happens to a lot that is not in dispute leaves the desk alone. -/
theorem Orderly.setLot (h : k.Orderly)
    (hi : ∀ x, k.lot i = some x → x.status ≠ .auctionDisputed) (x : Lot) :
      (k.setLot i x).Orderly where
  disputed j i' s hj hs := by
    have hne : i' ≠ i := by
      rintro rfl
      exact hs (h.rejected hi hj)
    simpa [hne] using h.disputed j i' s hj hs
  unique := h.unique

/-- A lot without an open or granted dispute may be taken to the desk. -/
theorem Orderly.file (h : k.Orderly) (hi : k.lot i = some x) (hx : x.status = .auctionClosed)
    (j : δ) : ((k.setLot i ⟨.auctionDisputed, x.sold⟩).setDispute j i .disputeOpen).Orderly := by
  have hrej {j' : δ} {s : DisputeStatus} (hj' : k.dispute j' = some (i, s)) :
      s = .disputeRejected := h.rejected (by simp [hi, hx]) hj'
  constructor
  · intro j' i' s hj' hs
    have hdisputed := h.disputed j' i' s
    grind
  · intro j₁ j₂ i' s₁ s₂ h₁ h₂ hs₁ hs₂
    have hunique := h.unique j₁ j₂ i' s₁ s₂
    grind

/-- A rejected dispute was the only one that kept its lot in dispute. -/
theorem Orderly.reject (h : k.Orderly) (hj : k.dispute j = some (i, .disputeOpen)) (x : Lot) :
    ((k.setLot i x).setDispute j i .disputeRejected).Orderly := by
  constructor
  · intro j' i' s hj' hs
    have hdisputed := h.disputed j' i' s
    have hunique := h.unique j' j i' s .disputeOpen
    grind
  · intro j₁ j₂ i' s₁ s₂ h₁ h₂ hs₁ hs₂
    have hunique := h.unique j₁ j₂ i' s₁ s₂
    grind

omit [DecidableEq α] in
/-- Granting an open dispute keeps the docket in order. -/
theorem Orderly.refund (h : k.Orderly) (hj : k.dispute j = some (i, .disputeOpen)) :
    (k.setDispute j i .disputeResolved).Orderly := by
  constructor
  · intro j' i' s hj' hs
    have hdisputed := h.disputed j' i' s
    have hopen := h.disputed j i .disputeOpen hj
    grind
  · intro j₁ j₂ i' s₁ s₂ h₁ h₂ hs₁ hs₂
    have hunique := h.unique j₁ j₂ i'
    grind

/-- **Step lemma** for the invariant. -/
theorem Orderly.step (h : k.Orderly) (hstep : Step k es k') : k'.Orderly := by
  cases hstep with
  | stay => exact h
  | create hi => exact h.setLot (by simp [hi]) _
  | bid hi hx | close hi hx => exact h.setLot (by simp [hi, hx]) _
  | file hi hx => exact h.file hi hx _
  | reject hi hj => exact h.reject hj _
  | refund hj => exact h.refund hj

/-- **Step lemma** for what is final. -/
theorem Step.later (h : Step k es k') : Later k k' := by
  cases h with
  | stay => exact .refl k
  | _ => constructor <;> grind

/-! ## the moves of one lot and one dispute -/

inductive LotMove : Option AuctionStatus → Option AuctionStatus → Prop
  | stays (x : Option AuctionStatus) : LotMove x x
  | created : LotMove none (some .auctionOpen)
  | closed : LotMove (some .auctionOpen) (some .auctionClosed)
  | disputed : LotMove (some .auctionClosed) (some .auctionDisputed)
  | restored : LotMove (some .auctionDisputed) (some .auctionClosed)

inductive DisputeMove : Option DisputeStatus → Option DisputeStatus → Prop
  | stays (x : Option DisputeStatus) : DisputeMove x x
  | filed : DisputeMove none (some .disputeOpen)
  | resolved : DisputeMove (some .disputeOpen) (some .disputeResolved)
  | rejected : DisputeMove (some .disputeOpen) (some .disputeRejected)

/-- A step moves the status of a lot as statuses move. -/
theorem Step.lotMove (h : Step k es k') (hk : k.Orderly) (i : α) :
    LotMove (k.lotStatus i) (k'.lotStatus i) := by
  unfold lotStatus
  cases h with
  | stay => exact .stays _
  | @create i' sold hi =>
      by_cases hii : i = i'
      · subst hii
        simpa [hi] using LotMove.created
      · simpa [hii] using LotMove.stays _
  | @bid i' x sold hi hx =>
      by_cases hii : i = i'
      · subst hii
        simpa [hi, hx] using LotMove.stays _
      · simpa [hii] using LotMove.stays _
  | @close i' x hi hx =>
      by_cases hii : i = i'
      · subst hii
        simpa [hi, hx] using LotMove.closed
      · simpa [hii] using LotMove.stays _
  | @file i' j x hi hx hj =>
      by_cases hii : i = i'
      · subst hii
        simpa [hi, hx] using LotMove.disputed
      · simpa [hii] using LotMove.stays _
  | @reject i' j x hi hj =>
      by_cases hii : i = i'
      · subst hii
        obtain ⟨y, hy, hstatus⟩ := hk.disputed j i _ hj (by decide)
        simpa [hy, hstatus] using LotMove.restored
      · simpa [hii] using LotMove.stays _
  | refund => simpa using LotMove.stays _

/-- And that of a dispute. -/
theorem Step.disputeMove (h : Step k es k') (j : δ) :
    DisputeMove (k.disputeStatus j) (k'.disputeStatus j) := by
  unfold disputeStatus
  cases h with
  | @file i j' x hi hx hj =>
      by_cases hjj : j = j'
      · subst hjj
        simpa [hj] using DisputeMove.filed
      · simpa [hjj] using DisputeMove.stays _
  | @reject i j' x hi hj =>
      by_cases hjj : j = j'
      · subst hjj
        simpa [hj] using DisputeMove.rejected
      · simpa [hjj] using DisputeMove.stays _
  | @refund i j' hj =>
      by_cases hjj : j = j'
      · subst hjj
        simpa [hj] using DisputeMove.resolved
      · simpa [hjj] using DisputeMove.stays _
  | _ => simpa using DisputeMove.stays _

/-! ## the log -/

open Classical in
/-- `1` for what holds. -/
noncomputable def once (p : Prop) : Nat := if p then 1 else 0

theorem once_eq (p : Prop) [Decidable p] : once p = if p then 1 else 0 := by
  unfold once
  congr

/-- The log of a run: one closing for each lot that has been closed, one settlement
if it was sold, and one refund if a dispute was granted. -/
structure Tally (es : List (Entry α)) (k : Docket α δ) : Prop where
  closed : ∀ i, es.count (.closed i) = once (k.Left i)
  settled : ∀ i, es.count (.settled i) = once (k.LeftSold i)
  refunded : ∀ i, es.count (.refunded i) = once (k.Granted i)

/-- The log of a step: a lot is closed when it leaves `AUCTION_OPEN`, and settled
if it was sold then. -/
theorem Step.log (h : Step k es k') (hk : k.Orderly) (i : α) :
    es.count (.closed i) =
      once (k.lotStatus i = some .auctionOpen ∧ k'.lotStatus i ≠ some .auctionOpen) ∧
    es.count (.settled i) = once (∃ x, k.lot i = some x ∧ x.status = .auctionOpen ∧
      x.sold = true ∧ k'.lotStatus i ≠ some .auctionOpen) ∧
    es.count (.refunded i) = once (k'.Granted i ∧ ¬ k.Granted i) := by
  classical
  simp only [once_eq, lotStatus]
  cases h with
  | stay => simp; grind
  | create hi => simp [Granted]; grind
  | bid hi hx => simp [Granted]; grind
  | @close i' x hi hx =>
      by_cases hii : i = i'
      · subst hii
        by_cases hsold : x.sold = true <;> simp [Granted, hi, hx, hsold]
      · cases x.sold <;> simp [Granted, hii, Ne.symm hii] <;> grind
  | file hi hx => simp [Granted]; grind
  | reject hi hj =>
      obtain ⟨x, hx, hstatus⟩ := hk.disputed _ _ _ hj (by decide)
      simp [Granted]
      grind
  | @refund i' j hj =>
      by_cases hii : i = i'
      · subst hii
        have hnone := hk.not_granted hj
        have hnow : (k.setDispute j i .disputeResolved).Granted i := ⟨j, by simp⟩
        simp [hnone, hnow]
        grind
      · simp [Granted, Ne.symm hii]
        grind

/-- A lot is closed as it was. -/
theorem Step.sold (h : Step k es k') {x x' : Lot} (hi : k.lot i = some x)
    (hi' : k'.lot i = some x') (hx' : x'.status ≠ .auctionOpen) : x'.sold = x.sold := by
  cases h <;> grind

omit [DecidableEq α] [DecidableEq δ] in
/-- A lot is left when it has a status other than OPEN. -/
theorem left_iff : k.Left i ↔ ∃ s, k.lotStatus i = some s ∧ s ≠ .auctionOpen := by
  simp [Left, lotStatus]

/-- A lot that is left was so, or leaves with this move. -/
theorem LotMove.left_iff {x y : Option AuctionStatus} (h : LotMove x y) :
    (∃ s, y = some s ∧ s ≠ .auctionOpen) ↔
      (∃ s, x = some s ∧ s ≠ .auctionOpen) ∨ x = some .auctionOpen ∧ y ≠ some .auctionOpen := by
  cases h <;> grind

/-- The lots that are closed in a step are those that leave `AUCTION_OPEN`. -/
theorem Step.left_iff (h : Step k es k') (hk : k.Orderly) (i : α) :
    k'.Left i ↔ k.Left i ∨
      k.lotStatus i = some .auctionOpen ∧ k'.lotStatus i ≠ some .auctionOpen := by
  rw [Docket.left_iff, Docket.left_iff]
  exact (h.lotMove hk i).left_iff

/-- A lot that is left sold was so, or leaves sold with this step. -/
theorem Step.leftSold_iff (h : Step k es k') (hk : k.Orderly) (i : α) :
    k'.LeftSold i ↔ k.LeftSold i ∨ ∃ x, k.lot i = some x ∧ x.status = .auctionOpen ∧
      x.sold = true ∧ k'.lotStatus i ≠ some .auctionOpen := by
  have hleft := h.left_iff hk i
  constructor
  · rintro ⟨x', hi', hx', hsold⟩
    rcases hleft.mp ⟨x', hi', hx'⟩ with ⟨x, hi, hx⟩ | ⟨hopen, hclosed⟩
    · exact .inl ⟨x, hi, hx, h.sold hi hi' hx' ▸ hsold⟩
    · obtain ⟨x, hi, hx⟩ := Option.map_eq_some_iff.mp hopen
      exact .inr ⟨x, hi, hx, h.sold hi hi' hx' ▸ hsold, hclosed⟩
  · rintro (⟨x, hi, hx, hsold⟩ | ⟨x, hi, hx, hsold, hclosed⟩)
    · obtain ⟨x', hi', hx', heq⟩ := h.later.closed i x hi hx
      exact ⟨x', hi', hx', heq ▸ hsold⟩
    · obtain ⟨x', hi', hx'⟩ := hleft.mpr (.inr ⟨by simp [lotStatus, hi, hx], hclosed⟩)
      exact ⟨x', hi', hx', h.sold hi hi' hx' ▸ hsold⟩

/-- **Step lemma** for the log of a run. -/
theorem Tally.step (h : Tally es k) (hstep : Step k es' k') (hk : k.Orderly) :
    Tally (es ++ es') k' := by
  classical
  have hlog := hstep.log hk
  constructor
  · intro i
    rw [List.count_append, h.closed, (hlog i).1, once_eq, once_eq, once_eq]
    simp only [hstep.left_iff hk]
    grind [Left, lotStatus]
  · intro i
    rw [List.count_append, h.settled, (hlog i).2.1, once_eq, once_eq, once_eq]
    simp only [hstep.leftSold_iff hk]
    grind [LeftSold]
  · intro i
    have hkept : k.Granted i → k'.Granted i := fun ⟨j, hj⟩ =>
      ⟨j, hstep.later.decided j i _ hj (by decide)⟩
    rw [List.count_append, h.refunded, (hlog i).2.2]
    grind [once_eq]

end Docket

end OnlineAuction
