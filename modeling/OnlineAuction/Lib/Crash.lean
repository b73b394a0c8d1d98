import OnlineAuction.Lib.Prog

/-!
# OnlineAuction.Lib.Crash

Programs that are cut off.

A call may write several times to what outlives the process, and a crash may come
between any two writes.  `Prog.writes` lists the states after each write of a program,
given those after each write of a call, and `Prog.crashed` is what a crash after `n` of
them leaves.  `crashed_keeps` is the invariant rule; `crashed_succ` peels off a call that
writes once.
-/

namespace OnlineAuction

/-! ## records rewritten one by one -/

section Rewrites

variable {α : Type} (p : α → Bool) (f : α → α)

/-- The lists that arise when the elements that satisfy `p` are replaced, from the first
to the last. -/
def rewrites : List α → List (List α)
  | [] => []
  | x :: l => if p x then (f x :: l) :: (rewrites l).map (f x :: ·) else (rewrites l).map (x :: ·)

end Rewrites

namespace Prog

section Crash

variable {S : Sig} {α σ : Type} (h : Handler S σ) (during : (o : S.Op) → σ → List σ)

/-- The states after each write of a program. -/
def writes : Prog S α → σ → List σ
  | .pure _, _ => []
  | .call o k, s => during o s ++ writes (k (h o s).1) (h o s).2

/-- The state that a crash after `n` writes leaves; one that writes less often has ended. -/
def crashed (n : Nat) (p : Prog S α) (s : σ) : σ :=
  ((s :: writes h during p s)[n]?).getD (run h p s).2

variable {h during} {o : S.Op} {k : S.Res o → Prog S α} {p : Prog S α} {s : σ} {P : σ → Prop}

theorem crashed_zero : crashed h during 0 p s = s := rfl

/-- A call that writes once, and the crash comes after it. -/
theorem crashed_succ (hwrite : during o s = [(h o s).2]) (n : Nat) :
    crashed h during (n + 1) (.call o k) s = crashed h during n (k (h o s).1) (h o s).2 := by
  rw [crashed, crashed, writes, hwrite]
  rfl

/-- **Invariant rule**: what every write and every call keeps holds after the crash. -/
theorem crashed_keeps (hcall : ∀ o s, P s → P (h o s).2)
    (hduring : ∀ o s, P s → ∀ s' ∈ during o s, P s') (hs : P s) (n : Nat) :
    P (crashed h during n p s) := by
  have hwrites : (∀ s' ∈ writes h during p s, P s') ∧ P (run h p s).2 := by
    induction p generalizing s with
    | pure a => exact ⟨fun _ h => (List.not_mem_nil h).elim, hs⟩
    | call o k ih =>
        obtain ⟨hrest, hend⟩ := ih _ (hcall o s hs)
        refine ⟨fun s' hs' => ?_, hend⟩
        rcases List.mem_append.mp hs' with hs' | hs'
        · exact hduring o s hs s' hs'
        · exact hrest s' hs'
  unfold crashed
  cases hn : (s :: writes h during p s)[n]? with
  | none => exact hwrites.2
  | some s' =>
      rcases List.mem_cons.mp (List.mem_of_getElem? hn) with rfl | hs'
      · exact hs
      · exact hwrites.1 s' hs'

end Crash

end Prog

end OnlineAuction
