import Mathlib.Tactic.Common

/-!
# OnlineAuction.Lib.Prog

Sequential programs over a signature of calls.

A program either returns or makes one call and continues with its answer
(`Prog`), so that a call is the unit of atomicity and a program is written
once for every meaning of its calls:

* `run` executes a program alone, against a handler of the calls;
* `trace` lists the calls that such an execution makes, with their answers;
* `subst` replaces every call by a program of a lower signature.

The predicates at the end (`Respects`, `Soon`, `Must`) speak about the calls that
a program can still make, whatever the answers: they are what an invariant of
interleaved programs is made of (`OnlineAuction.Lib.Machine`).  `Returns` is what a
program returns after the calls that it has made.
-/

namespace OnlineAuction

/-- A signature: the calls a program may make and the type of each answer. -/
structure Sig where
  Op : Type
  Res : Op → Type

/-- A program over the calls of `S`: a value, or a call and what to do with
its answer. -/
inductive Prog (S : Sig) (α : Type) : Type
  | pure (a : α)
  | call (op : S.Op) (k : S.Res op → Prog S α)

/-- One call together with the answer it got. -/
abbrev Event (S : Sig) : Type := (op : S.Op) × S.Res op

namespace Prog

variable {S T : Sig} {α β γ : Type}

/-! ## sequencing -/

/-- Run `p`, then `f` on its result. -/
protected def bind : Prog S α → (α → Prog S β) → Prog S β
  | .pure a, f => f a
  | .call op k, f => .call op fun r => (k r).bind f

instance : Monad (Prog S) where
  pure := .pure
  bind := Prog.bind

@[simp] theorem bind_of_pure (a : α) (f : α → Prog S β) : (Prog.pure a).bind f = f a := rfl

@[simp] theorem bind_of_call (o : S.Op) (k : S.Res o → Prog S α) (f : α → Prog S β) :
    (Prog.call o k).bind f = .call o fun r => (k r).bind f := rfl

/-- The program that makes one call and returns its answer. -/
def op (o : S.Op) : Prog S (S.Res o) := .call o .pure

@[simp] theorem pure_eq (a : α) : (Pure.pure a : Prog S α) = .pure a := rfl

@[simp] theorem bind_pure (a : α) (f : α → Prog S β) : (Prog.pure a >>= f) = f a := rfl

@[simp] theorem bind_call (o : S.Op) (k : S.Res o → Prog S α) (f : α → Prog S β) :
    (Prog.call o k >>= f) = .call o fun r => k r >>= f := rfl

@[simp] theorem bind_op (o : S.Op) (f : S.Res o → Prog S β) :
    (Prog.op o >>= f) = .call o f := rfl

/-- Branches are sequenced each by itself. -/
theorem ite_bind {c : Prop} [Decidable c] (p q : Prog S α) (f : α → Prog S β) :
    ((if c then p else q) >>= f) = if c then p >>= f else q >>= f := by
  split <;> rfl

/-- Sequencing is associative. -/
theorem bind_assoc (p : Prog S α) (f : α → Prog S β) (g : β → Prog S γ) :
    ((p >>= f) >>= g) = p >>= fun a => f a >>= g := by
  induction p with
  | pure a => rfl
  | call o k ih => simp only [bind_call, ih]

/-- Returning what a program returns adds nothing. -/
theorem bind_pure_right (p : Prog S α) : (p >>= Prog.pure) = p := by
  induction p with
  | pure a => rfl
  | call o k ih => simp only [bind_call, ih]

instance : LawfulMonad (Prog S) :=
  LawfulMonad.mk' _ (fun p => bind_pure_right p) (fun _ _ => rfl)
    (fun p f g => bind_assoc p f g)

/-! ## running a program alone -/

/-- A meaning of the calls: what each answers and does to the state. -/
abbrev Handler (S : Sig) (σ : Type) : Type := (op : S.Op) → σ → S.Res op × σ

section Run

variable {σ : Type} (h : Handler S σ)

/-- Execute a program without interruption. -/
def run : Prog S α → σ → α × σ
  | .pure a, s => (a, s)
  | .call o k, s => run (k (h o s).1) (h o s).2

/-- The calls of an uninterrupted execution, in order, with their answers. -/
def trace : Prog S α → σ → List (Event S)
  | .pure _, _ => []
  | .call o k, s => ⟨o, (h o s).1⟩ :: trace (k (h o s).1) (h o s).2

@[simp] theorem run_pure (a : α) (s : σ) : run h (.pure a) s = (a, s) := rfl

/-- A run begins with the first call. -/
@[simp] theorem run_call (o : S.Op) (k : S.Res o → Prog S α) (s : σ) :
    run h (.call o k) s = run h (k (h o s).1) (h o s).2 := rfl

@[simp] theorem run_op (o : S.Op) (s : σ) : run h (Prog.op o) s = h o s := rfl

/-- A sequence is run one after the other. -/
@[simp] theorem run_bind (p : Prog S α) (f : α → Prog S β) (s : σ) :
    run h (p >>= f) s = run h (f (run h p s).1) (run h p s).2 := by
  induction p generalizing s with
  | pure a => rfl
  | call o k ih => simp only [bind_call, run_call, ih]

/-- A run takes one of the branches. -/
@[simp] theorem run_ite {c : Prop} [Decidable c] (p q : Prog S α) (s : σ) :
    run h (if c then p else q) s = if c then run h p s else run h q s := by
  split <;> rfl

@[simp] theorem trace_pure (a : α) (s : σ) : trace h (.pure a : Prog S α) s = [] := rfl

/-- The trace begins with the first call and its answer. -/
@[simp] theorem trace_call (o : S.Op) (k : S.Res o → Prog S α) (s : σ) :
    trace h (.call o k) s = ⟨o, (h o s).1⟩ :: trace h (k (h o s).1) (h o s).2 := rfl

@[simp] theorem trace_op (o : S.Op) (s : σ) :
    trace h (Prog.op o) s = [⟨o, (h o s).1⟩] := rfl

/-- The trace of a sequence is one after the other. -/
@[simp] theorem trace_bind (p : Prog S α) (f : α → Prog S β) (s : σ) :
    trace h (p >>= f) s =
      trace h p s ++ trace h (f (run h p s).1) (run h p s).2 := by
  induction p generalizing s with
  | pure a => rfl
  | call o k ih => simp only [bind_call, trace_call, run_call, ih, List.cons_append]

end Run

/-! ## implementing calls by programs -/

/-- Replace every call of a program by the program that implements it. -/
def subst (impl : (o : S.Op) → Prog T (S.Res o)) : Prog S α → Prog T α
  | .pure a => .pure a
  | .call o k => impl o >>= fun r => subst impl (k r)

section Subst

variable (impl : (o : S.Op) → Prog T (S.Res o))

@[simp] theorem subst_pure (a : α) : subst impl (.pure a) = .pure a := rfl

/-- A call is replaced by its implementation. -/
@[simp] theorem subst_call (o : S.Op) (k : S.Res o → Prog S α) :
    subst impl (.call o k) = impl o >>= fun r => subst impl (k r) := rfl

/-- Branches are implemented each by itself. -/
theorem subst_ite {c : Prop} [Decidable c] (p q : Prog S α) :
    subst impl (if c then p else q) = if c then subst impl p else subst impl q := by
  split <;> rfl

/-- So are the parts of a sequence. -/
theorem subst_bind (p : Prog S α) (f : α → Prog S β) :
    subst impl (p >>= f) = subst impl p >>= fun a => subst impl (f a) := by
  induction p with
  | pure a => rfl
  | call o k ih => simp only [bind_call, subst_call, ih, bind_assoc]

/-- Calls implemented by themselves. -/
theorem subst_self (p : Prog S α) : subst (fun o => .call o .pure) p = p := by
  induction p with
  | pure a => rfl
  | call o k ih => simp only [subst_call, bind_call, bind_pure, ih]

/-- A program means the same before and after its calls are implemented, when
each implementation, run alone, does what the call does. -/
theorem run_subst {σ : Type} (hS : Handler S σ) (hT : Handler T σ)
    (himpl : ∀ o s, run hT (impl o) s = hS o s) (p : Prog S α) (s : σ) :
    run hT (subst impl p) s = run hS p s := by
  induction p generalizing s with
  | pure a => rfl
  | call o k ih => simp only [subst_call, run_bind, himpl, ih, run_call]

end Subst

/-! ## predicates on the calls still to come -/

/-- Every call of the program satisfies `pre`, as long as every answer
satisfies `post`; the result then satisfies `Q`. -/
def Respects (pre : S.Op → Prop) (post : (o : S.Op) → S.Res o → Prop) :
    Prog S α → (α → Prop) → Prop
  | .pure a, Q => Q a
  | .call o k, Q => pre o ∧ ∀ r, post o r → Respects pre post (k r) Q

section Respects

variable {pre : S.Op → Prop} {post : (o : S.Op) → S.Res o → Prop}

@[simp] theorem respects_pure {Q : α → Prop} (a : α) :
    Respects pre post (.pure a) Q ↔ Q a := Iff.rfl

/-- The first call satisfies `pre`, and the rest does for the answers to expect. -/
@[simp] theorem respects_call {Q : α → Prop} (o : S.Op) (k : S.Res o → Prog S α) :
    Respects pre post (.call o k) Q ↔
      pre o ∧ ∀ r, post o r → Respects pre post (k r) Q := Iff.rfl

/-- What is asked of the rest is what the first part ends with. -/
@[simp] theorem respects_bind {R : β → Prop} (p : Prog S α) (f : α → Prog S β) :
    Respects pre post (p >>= f) R ↔
      Respects pre post p fun a => Respects pre post (f a) R := by
  induction p with
  | pure a => rfl
  | call o k ih => simp only [bind_call, respects_call, ih]

/-- Both branches are needed, each under its condition. -/
@[simp] theorem respects_ite {c : Prop} [Decidable c] {R : α → Prop} (p q : Prog S α) :
    Respects pre post (if c then p else q) R ↔
      (c → Respects pre post p R) ∧ (¬ c → Respects pre post q R) := by
  by_cases hc : c <;> simp [hc]

/-- The result may be weakened. -/
theorem Respects.mono {Q R : α → Prop} {p : Prog S α}
    (h : Respects pre post p Q) (hQR : ∀ a, Q a → R a) : Respects pre post p R := by
  induction p with
  | pure a => exact hQR a h
  | call o k ih => exact ⟨h.1, fun r hr => ih r (h.2 r hr)⟩

/-- The rule for sequences. -/
theorem Respects.bind {Q : α → Prop} {R : β → Prop} {p : Prog S α} {f : α → Prog S β}
    (h : Respects pre post p Q) (hf : ∀ a, Q a → Respects pre post (f a) R) :
    Respects pre post (p >>= f) R := by
  induction p with
  | pure a => exact hf a h
  | call o k ih => exact ⟨h.1, fun r hr => ih r (h.2 r hr)⟩

/-- A contract may ask for less and promise more. -/
theorem Respects.weaken {pre' : S.Op → Prop} {post' : (o : S.Op) → S.Res o → Prop}
    (hpre : ∀ o, pre o → pre' o) (hpost : ∀ o r, post' o r → post o r)
    {Q : α → Prop} {p : Prog S α} (h : Respects pre post p Q) : Respects pre' post' p Q := by
  induction p with
  | pure a => exact h
  | call o k ih => exact ⟨hpre o h.1, fun r hr => ih r (h.2 r (hpost o r hr))⟩

/-- Calls may be implemented by programs that keep to the same contract. -/
theorem Respects.subst {T : Sig} {preT : T.Op → Prop} {postT : (o : T.Op) → T.Res o → Prop}
    {impl : (o : S.Op) → Prog T (S.Res o)}
    (himpl : ∀ o, pre o → Respects preT postT (impl o) (post o))
    {Q : α → Prop} {p : Prog S α} (hp : Respects pre post p Q) :
    Respects preT postT (p.subst impl) Q := by
  induction p with
  | pure a => exact hp
  | call o k ih => exact (himpl o hp.1).bind fun r hr => ih r (hp.2 r hr)

/-- A contract of the calls is a contract of the programs that make them, run
alone: the invariant `I` is kept and the result is as promised. -/
theorem Respects.run {σ : Type} {h : Handler S σ} {I : σ → Prop}
    (hsound : ∀ o s, I s → pre o → I (h o s).2 ∧ post o (h o s).1)
    {Q : α → Prop} {p : Prog S α} (hp : Respects pre post p Q) {s : σ} (hs : I s) :
    I (Prog.run h p s).2 ∧ Q (Prog.run h p s).1 := by
  induction p generalizing s with
  | pure a => exact ⟨hs, hp⟩
  | call o k ih =>
      obtain ⟨hI, hpost⟩ := hsound o s hs hp.1
      exact ih _ (hp.2 _ hpost) hI

/-- Every call of a program that runs alone keeps the contract. -/
theorem Respects.of_mem_trace {σ : Type} {h : Handler S σ} {I : σ → Prop}
    (hsound : ∀ o s, I s → pre o → I (h o s).2 ∧ post o (h o s).1)
    {Q : α → Prop} {p : Prog S α} (hp : Respects pre post p Q) {s : σ} (hs : I s) {e : Event S}
    (he : e ∈ trace h p s) : pre e.1 := by
  induction p generalizing s with
  | pure a => cases he
  | call o k ih =>
      obtain ⟨hI, hpost⟩ := hsound o s hs hp.1
      rcases List.mem_cons.mp he with rfl | he
      · exact hp.1
      · exact ih _ (hp.2 _ hpost) hI he

end Respects

/-- Some answers take the program to a call that satisfies `P`, before any that
satisfies `stop`. -/
def Soon (stop P : S.Op → Prop) : Prog S α → Prop
  | .pure _ => False
  | .call o k => P o ∨ ¬ stop o ∧ ∃ r, Soon stop P (k r)

/-- No call is left at the end. -/
@[simp] theorem soon_pure {stop P : S.Op → Prop} (a : α) :
    ¬ Soon stop P (.pure a : Prog S α) := id

/-- The call is reached at once or past calls that do not stop. -/
@[simp] theorem soon_call {stop P : S.Op → Prop} (o : S.Op) (k : S.Res o → Prog S α) :
    Soon stop P (.call o k) ↔ P o ∨ ¬ stop o ∧ ∃ r, Soon stop P (k r) := Iff.rfl

/-- What is reached may be weakened. -/
theorem Soon.mono {stop P P' : S.Op → Prop} {p : Prog S α} (h : Soon stop P p)
    (hP : ∀ o, P o → P' o) : Soon stop P' p := by
  induction p with
  | pure a => exact h
  | call o k ih => exact h.imp (hP o) fun ⟨hstop, r, hr⟩ => ⟨hstop, r, ih r hr⟩

/-- A call that a program can come to keeps the contract of the program. -/
theorem Soon.exists_pre {stop P pre : S.Op → Prop} {p : Prog S α} {Q : α → Prop}
    (h : Soon stop P p) (hp : Respects pre (fun _ _ => True) p Q) : ∃ o, P o ∧ pre o := by
  induction p with
  | pure a => exact absurd h (soon_pure a)
  | call o k ih =>
      rcases h with ho | ⟨-, r, hr⟩
      · exact ⟨o, ho, hp.1⟩
      · exact ih r hr (hp.2 r trivial)

/-- Whatever the answers, the program still makes a call that satisfies `P`. -/
def Must (P : S.Op → Prop) : Prog S α → Prop
  | .pure _ => False
  | .call o k => P o ∨ ∀ r, Must P (k r)

/-- At the end nothing need be called. -/
@[simp] theorem must_pure {P : S.Op → Prop} (a : α) : ¬ Must P (.pure a : Prog S α) := id

/-- A call is certain if it comes at once or after every answer. -/
@[simp] theorem must_call {P : S.Op → Prop} (o : S.Op) (k : S.Res o → Prog S α) :
    Must P (.call o k) ↔ P o ∨ ∀ r, Must P (k r) := Iff.rfl

/-- What comes later does not matter. -/
theorem Must.bind {P : S.Op → Prop} {p : Prog S α} (h : Must P p) (f : α → Prog S β) :
    Must P (p >>= f) := by
  induction p with
  | pure a => exact absurd h (must_pure a)
  | call o k ih => exact h.imp id fun hk r => ih r (hk r)

/-- A call that must come does come when the program runs alone. -/
theorem Must.exists_trace {σ : Type} {h : Handler S σ} {P : S.Op → Prop} {p : Prog S α}
    (hp : Must P p) (s : σ) : ∃ e ∈ trace h p s, P e.1 := by
  induction p generalizing s with
  | pure a => exact absurd hp (must_pure a)
  | call o k ih =>
      rcases hp with ho | hk
      · exact ⟨⟨o, (h o s).1⟩, List.mem_cons_self .., ho⟩
      · obtain ⟨e, he, hP⟩ := ih _ (hk (h o s).1) (h o s).2
        exact ⟨e, List.mem_cons_of_mem _ he, hP⟩

/-- The program returns `a` after these calls, which are answered so. -/
inductive Returns : Prog S α → List (Event S) → α → Prop
  | pure {a : α} : Returns (.pure a) [] a
  | call {o : S.Op} {k : S.Res o → Prog S α} {r : S.Res o} {es : List (Event S)} {a : α}
      (h : Returns (k r) es a) : Returns (.call o k) (⟨o, r⟩ :: es) a

/-- A program whose answer is not used. -/
theorem Returns.of_bind_pure {p : Prog S α} {b : β} {es : List (Event S)} {c : β}
    (h : Returns (p >>= fun _ => .pure b) es c) : ∃ a, Returns p es a := by
  induction p generalizing es with
  | pure a =>
      cases h
      exact ⟨a, .pure⟩
  | call o k ih =>
      cases h with
      | @call _ _ r _ _ h =>
          obtain ⟨a, ha⟩ := ih r h
          exact ⟨a, .call ha⟩

end Prog

end OnlineAuction
