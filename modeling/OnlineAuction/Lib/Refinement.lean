import OnlineAuction.Lib.RelyGuarantee

/-!
# OnlineAuction.Lib.Refinement

Threads whose calls are implemented by programs.

A call of the signature `S` may be one step of a *high* machine, or be
implemented by a program that takes many steps of a *low* machine, interleaved
with those of other threads.  A `Coupling` says how the states of the two
machines correspond and what a thread may rely on while it is inside an
implementation.  The high machine is carried along as ghost state: an
implementation is right (`Coupling.Implements`) when somewhere between its first
step and its last the high machine can make the call, with the same answer.

`Coupling.Refines` says the same of programs, which the high machine may run in
several steps, with what a thread knows before and after.  Judgements are composed
with `Refines.bind` and come down to single calls (`Refines.stutter`,
`Refines.commit`).

`Coupling.run` is the rule: when all calls of all programs are implemented, every
run of the low machine is matched by a run of the high one (`run_refines` for
programs).  Where a call is one step in both machines, `Simulates` is enough.
-/

namespace OnlineAuction

/-- Two machines and how their states correspond. -/
structure Coupling (S T : Sig) (ι σ τ : Type) where
  high : System S ι σ
  low : System T ι τ
  rel : τ → σ → Prop
  rely : ι → τ → τ → Prop
  rely_refl : ∀ t s, rely t s s
  rely_trans : ∀ {t s s' s''}, rely t s s' → rely t s' s'' → rely t s s''

namespace Coupling

variable {S T : Sig} {ι σ τ : Type} [DecidableEq ι] (C : Coupling S T ι σ τ)
  (c₀ : Config S ι σ)

/-- The high machine is where the low one corresponds to, after a run. -/
structure Inv (w : τ × Config S ι σ) : Prop where
  reach : Reach C.high c₀ w.2
  rel : C.rel w.1 w.2.shared

/-- The others leave the thread where it is. -/
structure Rely (t : ι) (w w' : τ × Config S ι σ) : Prop where
  low : C.rely t w.1 w'.1
  prog : w'.2.prog t = w.2.prog t
  queue : w'.2.queue t = w.2.queue t

/-- The logic of the low machine, in which the high one is ghost state. -/
def logic : Logic T ι τ (Config S ι σ) where
  sys := C.low
  inv := C.Inv c₀
  rely := C.Rely
  guar _ _ := True
  adm _ _ _ := True
  node _ _ _ := True
  rely_refl _ _ := ⟨C.rely_refl _ _, rfl, rfl⟩
  rely_trans h h' := ⟨C.rely_trans h.low h'.low, h'.prog.trans h.prog, h'.queue.trans h.queue⟩
  guar_refl _ := trivial
  guar_trans _ _ := trivial

/-- In the high machine, the thread has `p` to do and then `ps`. -/
structure At (t : ι) (p : Prog S Unit) (ps : List (Prog S Unit)) (w : τ × Config S ι σ) :
    Prop where
  prog : w.2.prog t = p
  queue : w.2.queue t = ps

/-- The program `q` implements the call `o`: whoever begins `q` before the high
machine has made the call ends it after, with the same answer. -/
def Implements (o : S.Op) (q : Prog T (S.Res o)) : Prop :=
  ∀ (t : ι) (k : S.Res o → Prog S Unit) (ps : List (Prog S Unit)) (Q : τ × Config S ι σ → Prop)
    (f : S.Res o → Prog T Unit) (w : τ × Config S ι σ), C.Inv c₀ w → At t (.call o k) ps w →
    (∀ r w, C.Inv c₀ w → At t (k r) ps w → (C.logic c₀).wp t Q (f r) w) →
    (C.logic c₀).wp t Q (q >>= f) w

section Rules

variable {C} {c₀} {t : ι} {p : Prog S Unit} {ps : List (Prog S Unit)}
  {w w' : τ × Config S ι σ} {o : S.Op} {k : S.Res o → Prog S Unit}

omit [DecidableEq ι] in
theorem At.later (h : At t p ps w) (hrely : C.Rely t w w') : At t p ps w' :=
  ⟨hrely.prog.trans h.prog, hrely.queue.trans h.queue⟩

theorem stable_at : (C.logic c₀).Stable t (At t p ps) := fun _ _ _ _ hrely h => h.later hrely

/-- The low machine moves, and the high one does not. -/
theorem moves_stutter {s : τ} (hinv : C.Inv c₀ w) (hrel : C.rel s w.2.shared)
    (hrely : ∀ u, u ≠ t → C.rely u w.1 s) : (C.logic c₀).Moves t w (s, w.2) where
  inv := ⟨hinv.reach, hrel⟩
  guar := trivial
  rely u hu := ⟨hrely u hu, rfl, rfl⟩

/-- The low machine moves, and the high one makes the call. -/
theorem moves_commit {s : τ} {r : S.Res o} {x : σ} (hinv : C.Inv c₀ w)
    (hat : At t (.call o k) ps w) (hstep : C.high.step t o w.2.shared = some (r, x))
    (hrel : C.rel s x) (hrely : ∀ u, u ≠ t → C.rely u w.1 s) :
    (C.logic c₀).Moves t w (s, w.2.goOn t (k r) x) ∧ At t (k r) ps (s, w.2.goOn t (k r) x) :=
  ⟨{ inv := ⟨.tail hinv.reach (.call hat.prog trivial hstep), hrel⟩
     guar := trivial
     rely := fun u hu => ⟨hrely u hu, by simp [hu], rfl⟩ },
    ⟨by simp, hat.queue⟩⟩

end Rules

/-! ## programs that are implemented by programs -/

/-- An assertion of thread `t` about the low machine that the others leave true. -/
def Stays (t : ι) (P : τ → Prop) : Prop := ∀ s s', C.rely t s s' → P s → P s'

/-- From where `P` holds, the low program `q` makes what the high program `p` makes, in any
company; then `R` holds of the two results. -/
def Refines {α β : Type} (t : ι) (P : τ → Prop) (p : Prog S α) (q : Prog T β)
    (R : α → β → τ → Prop) : Prop :=
  ∀ (f : α → Prog S Unit) (ps : List (Prog S Unit)) (Q : τ × Config S ι σ → Prop)
    (g : β → Prog T Unit) (w : τ × Config S ι σ), C.Inv c₀ w → At t (p >>= f) ps w → P w.1 →
    (∀ a b w, C.Inv c₀ w → At t (f a) ps w → R a b w.1 → (C.logic c₀).wp t Q (g b) w) →
    (C.logic c₀).wp t Q (q >>= g) w

section Programs

variable {C} {c₀} {α β γ δ κ : Type} {t : ι} {P P' : τ → Prop} {p : Prog S α} {q : Prog T β}
  {R R' : α → β → τ → Prop} {R'' : γ → δ → τ → Prop} {o : T.Op} {m : S.Op}

theorem Refines.pure {a : α} {b : β} (h : ∀ s, P s → R a b s) :
    C.Refines c₀ t P (.pure a) (.pure b) R :=
  fun _ _ _ _ w hinv hat hP hg => hg a b w hinv hat (h _ hP)

theorem Refines.bind (h : C.Refines c₀ t P p q R) {f : α → Prog S γ} {g : β → Prog T δ}
    (hf : ∀ a b, C.Refines c₀ t (R a b) (f a) (g b) R'') :
    C.Refines c₀ t P (p >>= f) (q >>= g) R'' := by
  intro f' ps Q g' w hinv hat hP hg
  rw [Prog.bind_assoc] at hat ⊢
  exact h _ ps Q _ w hinv hat hP fun a b w hinv hat hR => hf a b f' ps Q g' w hinv hat hR hg

theorem Refines.conseq (h : C.Refines c₀ t P p q R) (hP : ∀ s, P' s → P s)
    (hR : ∀ a b s, R a b s → R' a b s) : C.Refines c₀ t P' p q R' :=
  fun f ps Q g w hinv hat hP' hg =>
    h f ps Q g w hinv hat (hP _ hP') fun a b w hinv hat hab => hg a b w hinv hat (hR _ _ _ hab)

theorem Refines.exists {P : κ → τ → Prop} (h : ∀ x, C.Refines c₀ t (P x) p q R) :
    C.Refines c₀ t (fun s => ∃ x, P x s) p q R :=
  fun f ps Q g w hinv hat ⟨x, hx⟩ hg => h x f ps Q g w hinv hat hx hg

/-- A fact that is known from the beginning. -/
theorem Refines.assume {φ : Prop} (h : φ → C.Refines c₀ t P p q R) :
    C.Refines c₀ t (fun s => φ ∧ P s) p q R :=
  fun f ps Q g w hinv hat hP hg => h hP.1 f ps Q g w hinv hat hP.2 hg

/-- **Step rule**: at a call of the low program, the high one waits or makes its next call. -/
theorem Refines.step (hstays : C.Stays t P) {g : T.Res o → Prog T β}
    (h : ∀ s x r s', C.rel s x → P s → C.low.step t o s = some (r, s') →
      (∀ u, u ≠ t → C.rely u s s') ∧
      ((C.rel s' x ∧ ∃ P', P' s' ∧ C.Refines c₀ t P' p (g r) R) ∨
        ∃ o' k a x', p = .call o' k ∧ C.high.step t o' x = some (a, x') ∧ C.rel s' x' ∧
          ∃ P', P' s' ∧ C.Refines c₀ t P' (k a) (g r) R)) :
    C.Refines c₀ t P p (.call o g) R := by
  intro f ps Q g' w hinv hat hP hg
  refine Logic.wp_call (P := fun w => At t (p >>= f) ps w ∧ P w.1) ?_ hinv ⟨hat, hP⟩
    (fun _ _ _ => trivial) ?_
  · exact fun _ _ _ _ hrely hw => ⟨hw.1.later hrely, hstays _ _ hrely.low hw.2⟩
  · rintro w r s hinv ⟨hat, hP⟩ - hs
    obtain ⟨hrely, ⟨hrel, P', hP', hrest⟩ | ⟨o', k, a, x', rfl, hstep, hrel, P', hP', hrest⟩⟩ :=
      h w.1 w.2.shared r s hinv.rel hP hs
    · have hmove := moves_stutter hinv hrel hrely
      exact ⟨w.2, hmove, hrest f ps Q g' _ hmove.inv ⟨hat.prog, hat.queue⟩ hP' hg⟩
    · obtain ⟨hmove, hat'⟩ := moves_commit hinv hat hstep hrel hrely
      exact ⟨_, hmove, hrest f ps Q g' _ hmove.inv hat' hP' hg⟩

/-- A call that the high machine does not see. -/
theorem Refines.stutter (hstays : C.Stays t P) {R : Unit → T.Res o → τ → Prop}
    (h : ∀ s x r s', C.rel s x → P s → C.low.step t o s = some (r, s') →
      (∀ u, u ≠ t → C.rely u s s') ∧ C.rel s' x ∧ R () r s') :
    C.Refines c₀ t P (.pure ()) (.call o .pure) R := by
  refine .step hstays fun s x r s' hrel hP hs => ?_
  obtain ⟨hrely, hrel', hR⟩ := h s x r s' hrel hP hs
  exact ⟨hrely, .inl ⟨hrel', R () r, hR, .pure fun _ => id⟩⟩

/-- A call that is one step in both machines. -/
theorem Refines.commit (hstays : C.Stays t P) {R : S.Res m → T.Res o → τ → Prop}
    (h : ∀ s x r s', C.rel s x → P s → C.low.step t o s = some (r, s') →
      (∀ u, u ≠ t → C.rely u s s') ∧
        ∃ a x', C.high.step t m x = some (a, x') ∧ C.rel s' x' ∧ R a r s') :
    C.Refines c₀ t P (.call m .pure) (.call o .pure) R := by
  refine .step hstays fun s x r s' hrel hP hs => ?_
  obtain ⟨hrely, a, x', hstep, hrel', hR⟩ := h s x r s' hrel hP hs
  exact ⟨hrely, .inr ⟨m, .pure, a, x', rfl, hstep, hrel', R a r, hR, .pure fun _ => id⟩⟩

/-- An implemented call, as a program. -/
theorem Implements.refines {q : Prog T (S.Res m)} (h : C.Implements c₀ m q) (t : ι) :
    C.Refines c₀ t (fun _ => True) (.call m .pure) q fun a b _ => a = b ∧ True :=
  fun f ps Q g w hinv hat _ hg =>
    h t f ps Q g w hinv hat fun r w hinv hat => hg r r w hinv hat ⟨rfl, trivial⟩

/-- A program each of whose calls is a program in both machines. -/
theorem Refines.subst {U : Sig} {high : (o : U.Op) → Prog S (U.Res o)}
    {low : (o : U.Op) → Prog T (U.Res o)} {N : U.Op → Prop} {I : τ → Prop}
    (h : ∀ o, N o → C.Refines c₀ t I (high o) (low o) fun a b s => a = b ∧ I s)
    {p : Prog U α} (hp : p.Respects N (fun _ _ => True) fun _ => True) :
    C.Refines c₀ t I (p.subst high) (p.subst low) fun a b s => a = b ∧ I s := by
  induction p with
  | pure a => exact .pure fun _ hI => ⟨rfl, hI⟩
  | call o k ih =>
      refine (h o hp.1).bind fun a b => ?_
      intro f ps Q g w hinv hat hR hg
      obtain ⟨rfl, hI⟩ := hR
      exact ih a (hp.2 a trivial) f ps Q g w hinv hat hI hg

/-- What the thread has still to do in the two machines; between two programs it satisfies
`I`. -/
def Idle (I : ι → τ → Prop) (queue : ι → List (Prog S Unit)) (queue' : ι → List (Prog T Unit))
    (t : ι) (qs : List (Prog T Unit)) (w : τ × Config S ι σ) : Prop :=
  ∃ n, qs = (queue' t).drop n ∧ At t (.pure ()) ((queue t).drop n) w ∧ I t w.1

/-- **Run rule** for programs: a run of the low machine is matched by a run of the high one, in
which each thread that is between two programs is between the same. -/
theorem run_refines {I : ι → τ → Prop} {x : σ} {s : τ} {queue : ι → List (Prog S Unit)}
    {queue' : ι → List (Prog T Unit)} {d : Config T ι τ} (hI : ∀ t, C.Stays t (I t))
    (hprogs : ∀ t, List.Forall₂ (fun p q => C.Refines (.start x queue) t (I t) p q
      fun _ _ => I t) (queue t) (queue' t))
    (henv : ∀ s x s', C.rel s x → C.low.env s s' →
      (∃ x', C.high.env x x' ∧ C.rel s' x') ∧ ∀ t, C.rely t s s')
    (hrel : C.rel s x) (hstart : ∀ t, I t s) (h : Reach C.low (.start s queue') d) :
    ∃ e, Reach C.high (.start x queue) e ∧ C.rel d.shared e.shared ∧
      ∀ t, d.prog t = .pure () → e.prog t = .pure () ∧ I t d.shared ∧
        ∃ n, d.queue t = (queue' t).drop n ∧ e.queue t = (queue t).drop n := by
  have hfits : (C.logic (.start x queue)).Fits anyStep := {
    adm := fun _ _ _ _ _ _ _ _ _ => trivial
    env := fun w s' hinv hs => by
      obtain ⟨⟨x', hx, hrel'⟩, hrely⟩ := henv w.1 w.2.shared s' hinv.rel hs
      exact ⟨{ w.2 with shared := x' }, ⟨.tail hinv.reach (.env hx), hrel'⟩, trivial,
        fun u => ⟨hrely u, rfl, rfl⟩⟩ }
  have hbegins : (C.logic (.start x queue)).Begins (Idle I queue queue') := by
    rintro t q qs w hinv ⟨n, hqs, hat, hIt⟩
    have hcons := List.forall₂_drop n (hprogs t)
    rw [← hqs] at hcons
    obtain ⟨p, ps, hpq, -, hps⟩ := List.forall₂_cons_right_iff.mp hcons
    rw [hps] at hat
    have hnext {γ : Type} {l : List γ} {c : γ} {cs : List γ} (hl : c :: cs = l.drop n) :
        cs = l.drop (n + 1) := by
      rw [← List.drop_drop, ← hl]
      rfl
    have hinv' : C.Inv (.start x queue) (w.1, w.2.begin t p ps) :=
      ⟨.tail hinv.reach (.begin hat.prog hat.queue), hinv.rel⟩
    refine ⟨w.2.begin t p ps, ⟨hinv', trivial, fun u hu => ?_⟩, ?_⟩
    · exact ⟨C.rely_refl _ _, by simp [hu], by simp [hu]⟩
    · have hwp := hpq .pure ps (Idle I queue queue' t qs) .pure (w.1, w.2.begin t p ps) hinv'
        ⟨by rw [Prog.bind_pure_right]; simp, by simp⟩ hIt ?_
      · rwa [Prog.bind_pure_right] at hwp
      · rintro ⟨⟩ ⟨⟩ w hinv hat hIt
        refine Logic.wp_pure (P := fun w => At t (.pure ()) ps w ∧ I t w.1) ?_ hinv ⟨hat, hIt⟩
          (fun _ _ _ => trivial) fun w _ hw => ⟨n + 1, hnext hqs, ?_, hw.2⟩
        · exact fun _ _ _ _ hrely hw => ⟨hw.1.later hrely, hI t _ _ hrely.low hw.2⟩
        · exact hnext hps.symm ▸ hw.1
  have hholds : (C.logic (.start x queue)).Holds (Idle I queue queue') (.start s queue')
      (.start x queue) := by
    refine .start ⟨.refl, hrel⟩ ?_ (fun _ _ _ _ => trivial)
      fun t => ⟨0, rfl, ⟨rfl, rfl⟩, hstart t⟩
    rintro t w w' _ _ hrely ⟨n, hqs, hat, hIt⟩
    exact ⟨n, hqs, hat.later hrely, hI t _ _ hrely.low hIt⟩
  obtain ⟨e, he, -⟩ := hholds.run hfits hbegins h
  refine ⟨e, he.inv.reach, he.inv.rel, fun t ht => ?_⟩
  obtain ⟨n, hqs, hat, hIt⟩ := he.quiet ht
  exact ⟨hat.prog, hIt, n, hqs, hat.queue⟩

/-- **Run rule**: a run of the low machine is matched by a run of the high one,
in which each thread that is between two programs is between the same. -/
theorem run {impl : (o : S.Op) → Prog T (S.Res o)} {N : S.Op → Prop} {x : σ} {s : τ}
    {queue : ι → List (Prog S Unit)} {d : Config T ι τ}
    (himpl : ∀ o, N o → C.Implements (.start x queue) o (impl o))
    (henv : ∀ s x s', C.rel s x → C.low.env s s' →
      (∃ x', C.high.env x x' ∧ C.rel s' x') ∧ ∀ t, C.rely t s s')
    (hprogs : ∀ t, ∀ p ∈ queue t, Prog.Respects N (fun _ _ => True) p fun _ => True)
    (hrel : C.rel s x)
    (h : Reach C.low (.start s fun t => (queue t).map (Prog.subst impl)) d) :
    ∃ e, Reach C.high (.start x queue) e ∧ C.rel d.shared e.shared ∧
      ∀ t, d.prog t = .pure () →
        e.prog t = .pure () ∧ d.queue t = (e.queue t).map (Prog.subst impl) := by
  obtain ⟨e, hreach, hrel, hquiet⟩ := run_refines (I := fun _ _ => True) (fun _ _ _ _ _ => trivial)
    (fun t => List.forall₂_map_right_iff.mpr (List.forall₂_same.mpr fun p hp => by
      have hsubst := Refines.subst (t := t) (fun o ho => (himpl o ho).refines t) (hprogs t p hp)
      rw [Prog.subst_self] at hsubst
      exact hsubst.conseq (fun _ => id) fun _ _ _ _ => trivial))
    henv hrel (fun _ => trivial) h
  refine ⟨e, hreach, hrel, fun t ht => ?_⟩
  obtain ⟨hprog, -, n, hlow, hhigh⟩ := hquiet t ht
  exact ⟨hprog, by rw [hlow, hhigh, List.map_drop]⟩

end Programs

end Coupling

/-! ## calls that are matched one by one -/

section Simulation

variable {S : Sig} {ι σ τ : Type} [DecidableEq ι] {M : System S ι σ} {N : System S ι τ}
  {R : σ → τ → Prop}

/-- Every call of `M` is matched by the same call of `N`, with the same answer. -/
structure Simulates (M : System S ι σ) (N : System S ι τ) (R : σ → τ → Prop) : Prop where
  step : ∀ t op s r s' x, R s x → M.step t op s = some (r, s') →
    ∃ x', N.step t op x = some (r, x') ∧ R s' x'
  env : ∀ s s' x, R s x → M.env s s' → ∃ x', N.env x x' ∧ R s' x'

omit [DecidableEq ι] in
/-- The logs of the two are the same. -/
theorem Simulates.logged (h : Simulates M N R) :
    Simulates M.logged N.logged fun s x => R s.1 x.1 ∧ x.2 = s.2 where
  step := by
    intro t op s r s' x hR hstep
    obtain ⟨hstep, hlog⟩ := System.logged_step.mp hstep
    obtain ⟨x', hx', hR'⟩ := h.step t op s.1 r s'.1 x.1 hR.1 hstep
    refine ⟨(x', s'.2), System.logged_step.mpr ⟨hx', ?_⟩, hR', rfl⟩
    rw [hR.2, hlog]
  env := by
    intro s s' x hR henv
    obtain ⟨x', hx', hR'⟩ := h.env s.1 s'.1 x.1 hR.1 henv.1
    refine ⟨(x', s'.2), ⟨hx', ?_⟩, hR', rfl⟩
    rw [hR.2, henv.2]

omit [DecidableEq ι] in
/-- A system does the same while it keeps a log. -/
theorem simulates_logged (M : System S ι σ) : Simulates M M.logged fun s x => x.1 = s where
  step t op _ r s' x hR hstep :=
    ⟨(s', x.2 ++ [(t, ⟨op, r⟩)]), System.logged_step.mpr ⟨hR ▸ hstep, rfl⟩, rfl⟩
  env _ s' x hR henv := ⟨(s', x.2), ⟨hR ▸ henv, rfl⟩, rfl⟩

/-- **Run rule**: the same programs run on `N`, step for step. -/
theorem Simulates.reach (h : Simulates M N R) {c d : Config S ι σ} (hrun : Reach M c d) {x : τ}
    (hx : R c.shared x) :
    ∃ y, Reach N ⟨x, c.prog, c.queue⟩ ⟨y, d.prog, d.queue⟩ ∧ R d.shared y := by
  induction hrun with
  | refl => exact ⟨x, .refl, hx⟩
  | tail _ hstep ih =>
      obtain ⟨y, hreach, hy⟩ := ih
      cases hstep with
      | begin hidle hq => exact ⟨y, .tail hreach (.begin hidle hq), hy⟩
      | call hp _ hs =>
          obtain ⟨y', hy', hR⟩ := h.step _ _ _ _ _ y hy hs
          exact ⟨y', .tail hreach (.call hp trivial hy'), hR⟩
      | env hs =>
          obtain ⟨y', hy', hR⟩ := h.env _ _ y hy hs
          exact ⟨y', .tail hreach (.env hy'), hR⟩

end Simulation

end OnlineAuction
