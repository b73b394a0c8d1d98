import OnlineAuction.Lib.Prog

/-!
# OnlineAuction.Lib.SigSum

Programs that make the calls of two signatures.

A program over one of them is one over both (`Prog.inl`, `Prog.inr`).  Run against two
handlers side by side it does what it does against its own, and leaves the state of the
other as it is (`run_inl`, `run_inr`).
-/

namespace OnlineAuction

/-- The calls of both signatures. -/
abbrev Sig.sum (S T : Sig) : Sig where
  Op := S.Op ⊕ T.Op
  Res
    | .inl o => S.Res o
    | .inr o => T.Res o

namespace Prog

variable {S T : Sig} {α : Type} {σ τ : Type}

/-- A program that makes calls of the first signature only. -/
def inl (p : Prog S α) : Prog (S.sum T) α := p.subst fun o => .call (.inl o) .pure

/-- A program that makes calls of the second signature only. -/
def inr (p : Prog T α) : Prog (S.sum T) α := p.subst fun o => .call (.inr o) .pure

/-- A sequence of calls of the left signature. -/
theorem inl_bind {β : Type} (p : Prog S α) (f : α → Prog S β) :
    (p >>= f).inl (T := T) = p.inl >>= fun a => (f a).inl := subst_bind _ p f

/-- Two meanings side by side: each call is given its own state. -/
def Handler.sum (h : Handler S σ) (h' : Handler T τ) : Handler (S.sum T) (σ × τ)
  | .inl o, s => ((h o s.1).1, (h o s.1).2, s.2)
  | .inr o, s => ((h' o s.2).1, s.1, (h' o s.2).2)

variable (h : Handler S σ) (h' : Handler T τ)

/-- Calls of the left signature leave the right state. -/
@[simp] theorem run_inl (p : Prog S α) (s : σ × τ) :
    run (Handler.sum h h') p.inl s = ((run h p s.1).1, (run h p s.1).2, s.2) := by
  induction p generalizing s with
  | pure a => rfl
  | call o k ih => exact ih (h o s.1).1 ((h o s.1).2, s.2)

/-- And the other way round. -/
@[simp] theorem run_inr (p : Prog T α) (s : σ × τ) :
    run (Handler.sum h h') p.inr s = ((run h' p s.2).1, s.1, (run h' p s.2).2) := by
  induction p generalizing s with
  | pure a => rfl
  | call o k ih => exact ih (h' o s.2).1 (s.1, (h' o s.2).2)

end Prog

end OnlineAuction
