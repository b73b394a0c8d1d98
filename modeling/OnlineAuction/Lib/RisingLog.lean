import Mathlib.Order.Basic
import Mathlib.Data.List.Induction

/-!
# OnlineAuction.Lib.RisingLog

A log of offers, each of which exceeds the ones before it.

`Rising start log` says that every offer exceeds `start` and the offers before it;
`topOffer start log` is the last offer, or `start` when there is none, and `topBidder log`
is who made it.  An offer above the top keeps the log rising (`Rising.append`), and the top
is the largest one (`Rising.le_top`).
-/

namespace OnlineAuction

variable {ι α : Type}

/-- The last offer, `start` when there is none. -/
def topOffer (start : α) (log : List (ι × α)) : α := (log.getLast?.map Prod.snd).getD start

/-- Who made the last offer. -/
def topBidder (log : List (ι × α)) : Option ι := log.getLast?.map Prod.fst

@[simp] theorem topOffer_nil (start : α) : topOffer start ([] : List (ι × α)) = start := rfl

/-- The last offer is the top one. -/
@[simp] theorem topOffer_append (start : α) (log : List (ι × α)) (x : ι × α) :
    topOffer start (log ++ [x]) = x.2 := by
  simp [topOffer]

@[simp] theorem topBidder_nil : topBidder ([] : List (ι × α)) = none := rfl

/-- It is the last bidder's. -/
@[simp] theorem topBidder_append (log : List (ι × α)) (x : ι × α) :
    topBidder (log ++ [x]) = some x.1 := by
  simp [topBidder]

variable [Preorder α]

/-- Every offer exceeds the start and the offers before it. -/
structure Rising (start : α) (log : List (ι × α)) : Prop where
  above : ∀ x ∈ log, start < x.2
  increasing : (log.map Prod.snd).Pairwise (· < ·)

variable {start : α} {log : List (ι × α)} {x : ι × α}

theorem rising_nil : Rising start ([] : List (ι × α)) where
  above := by simp
  increasing := List.Pairwise.nil

/-- No offer exceeds the last one. -/
theorem Rising.le_top (h : Rising start log) (hx : x ∈ log) : x.2 ≤ topOffer start log := by
  induction log using List.reverseRecOn with
  | nil => cases hx
  | append_singleton log y _ =>
      rw [topOffer_append]
      rcases List.mem_append.mp hx with hx | hx
      · have hpair := h.increasing
        rw [List.map_append, List.pairwise_append] at hpair
        exact (hpair.2.2 _ (List.mem_map_of_mem hx) y.2 (by simp)).le
      · rw [List.mem_singleton.mp hx]

/-- The top offer is not below the start. -/
theorem Rising.start_le_top (h : Rising start log) : start ≤ topOffer start log := by
  induction log using List.reverseRecOn with
  | nil => exact le_rfl
  | append_singleton log y _ =>
      rw [topOffer_append]
      exact (h.above y (by simp)).le

/-- An offer above the last one keeps the log rising. -/
theorem Rising.append (h : Rising start log) (hx : topOffer start log < x.2) :
    Rising start (log ++ [x]) := by
  constructor
  · intro y hy
    rcases List.mem_append.mp hy with hy | hy
    · exact h.above y hy
    · rw [List.mem_singleton.mp hy]
      exact h.start_le_top.trans_lt hx
  · rw [List.map_append, List.pairwise_append]
    refine ⟨h.increasing, List.pairwise_singleton _ _, fun a ha b hb => ?_⟩
    obtain ⟨y, hy, rfl⟩ := List.mem_map.mp ha
    obtain rfl : b = x.2 := by simpa using hb
    exact (h.le_top hy).trans_lt hx

end OnlineAuction
