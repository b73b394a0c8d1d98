import Mathlib.Logic.Function.Basic
import Mathlib.Tactic.Common

/-!
# OnlineAuction.Lib.Ring

Windows on a ring of slots.

The positions of a ring with `n` slots are numbers modulo `n`.  A window is the contents of some
slots in a row, which may wrap around: it loses its head when its start moves on (`window_succ`),
and it grows at its end when the slot behind it is written, as long as it does not fill the ring
(`window_push`).
-/

namespace OnlineAuction

variable {α : Type} {slots : Nat → α} {n i j k : Nat} {x : α}

/-- The contents of the `k` slots from position `i` on. -/
def window (slots : Nat → α) (n : Nat) : Nat → Nat → List α
  | _, 0 => []
  | i, k + 1 => slots (i % n) :: window slots n (i + 1) k

@[simp] theorem window_zero : window slots n i 0 = [] := rfl

@[simp] theorem length_window : (window slots n i k).length = k := by
  induction k generalizing i with
  | zero => rfl
  | succ k ih => rw [window, List.length_cons, ih]

/-- Only the position modulo `n` matters. -/
theorem window_congr (h : i % n = j % n) : window slots n i k = window slots n j k := by
  induction k generalizing i j with
  | zero => rfl
  | succ k ih =>
      have hnext : (i + 1) % n = (j + 1) % n := by rw [Nat.add_mod, h, ← Nat.add_mod]
      rw [window, window, h, ih hnext]

/-- The first slot, and the window from the next one on. -/
theorem window_succ (hi : i < n) :
    window slots n i (k + 1) = slots i :: window slots n ((i + 1) % n) k := by
  rw [window, Nat.mod_eq_of_lt hi, window_congr (Nat.mod_mod (i + 1) n)]

/-- The last slot comes behind the window without it. -/
theorem window_succ_last :
    window slots n i (k + 1) = window slots n i k ++ [slots ((i + k) % n)] := by
  induction k generalizing i with
  | zero => rfl
  | succ k ih =>
      rw [window, ih, window, List.cons_append, show i + 1 + k = i + (k + 1) by omega]

/-- Positions less than a whole turn apart are different slots. -/
theorem mod_ne_of_lt {m : Nat} (hm : m < k) (hk : k < n) : (i + m) % n ≠ (i + k) % n := by
  intro h
  have hsub : (i + k - (i + m)) % n = 0 := Nat.sub_mod_eq_zero_of_mod_eq h.symm
  rw [show i + k - (i + m) = k - m by omega, Nat.mod_eq_of_lt (by omega)] at hsub
  omega

/-- What is written outside of a window does not matter to it. -/
theorem window_update_of_ne (h : ∀ m, m < k → (i + m) % n ≠ j) :
    window (Function.update slots j x) n i k = window slots n i k := by
  induction k generalizing i with
  | zero => rfl
  | succ k ih =>
      have hfirst : i % n ≠ j := h 0 (Nat.succ_pos k)
      have hrest : ∀ m, m < k → (i + 1 + m) % n ≠ j := by
        intro m hm
        rw [show i + 1 + m = i + (m + 1) by omega]
        exact h (m + 1) (Nat.succ_lt_succ hm)
      rw [window, window, Function.update_of_ne hfirst, ih hrest]

/-- Writing the slot behind a window that does not fill the ring lengthens the window. -/
theorem window_push (hk : k < n) :
    window (Function.update slots ((i + k) % n) x) n i (k + 1) = window slots n i k ++ [x] := by
  rw [window_succ_last, window_update_of_ne fun m hm => mod_ne_of_lt hm hk, Function.update_self]

end OnlineAuction
