import OnlineAuction.Lib.Machine

/-!
# OnlineAuction.Lib.RelyGuarantee

A proof rule for threads that interfere.

What is known of the shared state is said with the help of ghost state, that
no program sees: a world is a shared state and a ghost state.  A `Logic` says
what holds of every world between two steps (`inv`), what the steps of the
others may do to a world as one thread sees it (`rely`), and what any step may
do to it (`guar`).  `wp t Q p` is then the weakest precondition under which
thread `t` can run the rest `p` of its program in any company and end with
`Q`: at each call it must show that its step keeps the invariant, for some new
ghost state, and that every other thread may rely on it.

Runs may be restricted to steps under a condition.  That condition may speak
of where the other threads are, and a thread does not see that; so each thread
says at each point of its program what that point means for the world
(`node`), and `Logic.Fits` asks that the condition, together with what the
points mean, gives what the proofs of the programs assume of their steps
(`adm`).

`Logic.run` is the rule: if each thread's programs have been proved, the
invariant holds along every run, and `guar` relates any two of its worlds.
-/

namespace OnlineAuction

/-- What the threads of a machine agree on. -/
structure Logic (S : Sig) (ι σ γ : Type) where
  sys : System S ι σ
  inv : σ × γ → Prop
  rely : ι → σ × γ → σ × γ → Prop
  guar : σ × γ → σ × γ → Prop
  adm : ι → S.Op → σ × γ → Prop
  node : ι → Prog S Unit → σ × γ → Prop
  rely_refl : ∀ t w, rely t w w
  rely_trans : ∀ {t u v w}, rely t u v → rely t v w → rely t u w
  guar_refl : ∀ w, guar w w
  guar_trans : ∀ {u v w}, guar u v → guar v w → guar u w

namespace Logic

variable {S : Sig} {ι σ γ : Type} {L : Logic S ι σ γ}

variable (L) in
/-- A step of thread `t` from one world to another that the others accept. -/
structure Moves (t : ι) (w w' : σ × γ) : Prop where
  inv : L.inv w'
  guar : L.guar w w'
  rely : ∀ u, u ≠ t → L.rely u w w'

/-- A world in which nothing happens. -/
theorem Moves.refl {t : ι} {w : σ × γ} (h : L.inv w) : L.Moves t w w :=
  ⟨h, L.guar_refl w, fun u _ => L.rely_refl u w⟩

variable (L) in
/-- The weakest precondition of the rest of thread `t`'s program. -/
def wp (t : ι) (Q : σ × γ → Prop) : Prog S Unit → σ × γ → Prop
  | .pure a, w => ∀ w', L.inv w' → L.rely t w w' → L.node t (.pure a) w' ∧ Q w'
  | .call o k, w => ∀ w', L.inv w' → L.rely t w w' → L.node t (.call o k) w' ∧
      ∀ r s, L.adm t o w' → L.sys.step t o w'.1 = some (r, s) →
        ∃ g, L.Moves t w' (s, g) ∧ wp t Q (k r) (s, g)

variable {t : ι} {Q : σ × γ → Prop} {w w' : σ × γ}

/-- What the others do does not hurt. -/
theorem wp_later {p : Prog S Unit} (h : L.wp t Q p w) (hrely : L.rely t w w') :
    L.wp t Q p w' := by
  cases p with
  | pure a => exact fun w'' hinv hr => h w'' hinv (L.rely_trans hrely hr)
  | call o k => exact fun w'' hinv hr => h w'' hinv (L.rely_trans hrely hr)

/-- What the point of the program means for the world. -/
theorem wp_node {p : Prog S Unit} (h : L.wp t Q p w) (hinv : L.inv w) : L.node t p w := by
  cases p with
  | pure a => exact (h w hinv (L.rely_refl t w)).1
  | call o k => exact (h w hinv (L.rely_refl t w)).1

theorem wp_mono {Q' : σ × γ → Prop} {p : Prog S Unit} (h : L.wp t Q p w)
    (hQ : ∀ w, L.inv w → Q w → Q' w) : L.wp t Q' p w := by
  induction p generalizing w with
  | pure a => exact fun w' hinv hr => (h w' hinv hr).imp id (hQ w' hinv)
  | call o k ih =>
      intro w' hinv hr
      obtain ⟨hnode, hstep⟩ := h w' hinv hr
      refine ⟨hnode, fun r s hadm hs => ?_⟩
      obtain ⟨g, hmove, hk⟩ := hstep r s hadm hs
      exact ⟨g, hmove, ih r hk⟩

/-- An assertion of thread `t` that the others cannot make false. -/
def Stable (L : Logic S ι σ γ) (t : ι) (P : σ × γ → Prop) : Prop :=
  ∀ w w', L.inv w → L.inv w' → L.rely t w w' → P w → P w'

/-- What neither the others nor the thread can make false is kept. -/
theorem wp_frame {P : σ × γ → Prop} (hstable : L.Stable t P)
    (hguar : ∀ w w', L.guar w w' → P w → P w') {p : Prog S Unit} (h : L.wp t Q p w)
    (hinv : L.inv w) (hP : P w) : L.wp t (fun w => Q w ∧ P w) p w := by
  induction p generalizing w with
  | pure a =>
      intro w' hinv' hrely
      obtain ⟨hnode, hQ⟩ := h w' hinv' hrely
      exact ⟨hnode, hQ, hstable w w' hinv hinv' hrely hP⟩
  | call o k ih =>
      intro w' hinv' hrely
      obtain ⟨hnode, hstep⟩ := h w' hinv' hrely
      refine ⟨hnode, fun r s hadm hs => ?_⟩
      obtain ⟨g, hmove, hk⟩ := hstep r s hadm hs
      exact ⟨g, hmove, ih r hk hmove.inv
        (hguar _ _ hmove.guar (hstable w w' hinv hinv' hrely hP))⟩

/-- The rule for a call: a stable assertion before it, and what its step does
to a world that satisfies the assertion. -/
theorem wp_call {P : σ × γ → Prop} {o : S.Op} {k : S.Res o → Prog S Unit}
    (hstable : L.Stable t P) (hinv : L.inv w) (hP : P w)
    (hnode : ∀ w, L.inv w → P w → L.node t (.call o k) w)
    (hstep : ∀ w r s, L.inv w → P w → L.adm t o w → L.sys.step t o w.1 = some (r, s) →
      ∃ g, L.Moves t w (s, g) ∧ L.wp t Q (k r) (s, g)) : L.wp t Q (.call o k) w := by
  intro w' hinv' hrely
  have hP' := hstable w w' hinv hinv' hrely hP
  exact ⟨hnode w' hinv' hP', fun r s hadm hs => hstep w' r s hinv' hP' hadm hs⟩

/-- The rule for the end of a program. -/
theorem wp_pure {P : σ × γ → Prop} {a : Unit} (hstable : L.Stable t P) (hinv : L.inv w)
    (hP : P w) (hnode : ∀ w, L.inv w → P w → L.node t (.pure a) w)
    (hQ : ∀ w, L.inv w → P w → Q w) : L.wp t Q (.pure a) w := by
  intro w' hinv' hrely
  have hP' := hstable w w' hinv hinv' hrely hP
  exact ⟨hnode w' hinv' hP', hQ w' hinv' hP'⟩

/-! ## silent calls -/

/-- A call that changes nothing that anyone, the caller included, looks at. -/
def Silent (L : Logic S ι σ γ) (t : ι) (o : S.Op) : Prop :=
  ∀ w r s, L.inv w → L.sys.step t o w.1 = some (r, s) →
    L.Moves t w (s, w.2) ∧ L.rely t w (s, w.2)

/-- A program that makes only silent calls keeps a stable assertion. -/
theorem wp_silent {α : Type} {N : S.Op → Prop} {P : σ × γ → Prop}
    (hN : ∀ o, N o → L.Silent t o) (hstable : L.Stable t P)
    (hnode : ∀ o (k : S.Res o → Prog S Unit) w, N o → L.inv w → P w → L.node t (.call o k) w)
    {p : Prog S α} (hp : p.Respects N (fun _ _ => True) fun _ => True)
    {f : α → Prog S Unit} (hf : ∀ a w, L.inv w → P w → L.wp t Q (f a) w)
    (hinv : L.inv w) (hP : P w) : L.wp t Q (p >>= f) w := by
  induction p generalizing w with
  | pure a => exact hf a w hinv hP
  | call o k ih =>
      refine wp_call hstable hinv hP (fun w => hnode o _ w hp.1) ?_
      intro w r s hinv hP _ hs
      obtain ⟨hmove, hrely⟩ := hN o hp.1 w r s hinv hs
      have hP' := hstable w (s, w.2) hinv hmove.inv hrely hP
      exact ⟨w.2, hmove, ih r (hp.2 r trivial) hmove.inv hP'⟩

/-! ## soundness -/

/-- The condition `ok` on the steps of a run gives what the proofs assume, and
the environment is harmless. -/
structure Fits (L : Logic S ι σ γ) (ok : Config S ι σ → ι → S.Op → Prop) : Prop where
  adm : ∀ (c : Config S ι σ) (g : γ) (t : ι) (o : S.Op) (k : S.Res o → Prog S Unit),
    L.inv (c.shared, g) → (∀ u, L.node u (c.prog u) (c.shared, g)) →
    c.prog t = .call o k → ok c t o → L.adm t o (c.shared, g)
  env : ∀ w s, L.inv w → L.sys.env w.1 s →
    ∃ g, L.inv (s, g) ∧ L.guar w (s, g) ∧ ∀ u, L.rely u w (s, g)

/-- Every thread's rest is proved, with the ghost state `g`; a thread between
two programs satisfies `idle` of what it has still to do. -/
structure Holds (L : Logic S ι σ γ) (idle : ι → List (Prog S Unit) → σ × γ → Prop)
    (c : Config S ι σ) (g : γ) : Prop where
  inv : L.inv (c.shared, g)
  wp : ∀ t, L.wp t (idle t (c.queue t)) (c.prog t) (c.shared, g)

variable {ok : Config S ι σ → ι → S.Op → Prop}
  {idle : ι → List (Prog S Unit) → σ × γ → Prop} {c d : Config S ι σ} {g : γ}

/-- Threads that have not begun hold when they are ready to. -/
theorem Holds.start {s : σ} {queue : ι → List (Prog S Unit)} (hinv : L.inv (s, g))
    (hidle : ∀ t, L.Stable t (idle t (queue t)))
    (hnode : ∀ t w, L.inv w → idle t (queue t) w → L.node t (.pure ()) w)
    (h : ∀ t, idle t (queue t) (s, g)) : L.Holds idle (.start s queue) g where
  inv := hinv
  wp t := wp_pure (hidle t) hinv (h t) (hnode t) fun _ _ => id

/-- Between its programs a thread satisfies `idle`. -/
theorem Holds.quiet (h : L.Holds idle c g) {t : ι} (ht : c.prog t = .pure ()) :
    idle t (c.queue t) (c.shared, g) := by
  have hwp := h.wp t
  rw [ht] at hwp
  exact (hwp _ h.inv (L.rely_refl t _)).2

variable [DecidableEq ι]

/-- What is to be proved of each program: whenever a thread may begin it, it
can, perhaps with a change of the ghost state. -/
def Begins (L : Logic S ι σ γ) (idle : ι → List (Prog S Unit) → σ × γ → Prop) : Prop :=
  ∀ t p ps w, L.inv w → idle t (p :: ps) w →
    ∃ g, L.Moves t w (w.1, g) ∧ L.wp t (idle t ps) p (w.1, g)

/-- **Step lemma**: threads whose programs are proved stay so. -/
theorem Holds.step (hfits : L.Fits ok) (hbegin : L.Begins idle)
    (h : L.Holds idle c g) (hstep : Step L.sys ok c d) :
    ∃ g', L.Holds idle d g' ∧ L.guar (c.shared, g) (d.shared, g') := by
  cases hstep with
  | @begin t p ps hidle hq =>
      have hnext := h.quiet hidle
      rw [hq] at hnext
      obtain ⟨g', hmove, hp⟩ := hbegin t p ps _ h.inv hnext
      refine ⟨g', ⟨hmove.inv, fun u => ?_⟩, hmove.guar⟩
      by_cases hu : u = t
      · subst hu
        simpa using hp
      · simpa [hu] using wp_later (h.wp u) (hmove.rely u hu)
  | @call t o k r s hp hok hs =>
      have hadm := hfits.adm c g t o k h.inv (fun u => wp_node (h.wp u) h.inv) hp hok
      have ht := h.wp t
      rw [hp] at ht
      obtain ⟨g', hmove, hk⟩ := (ht _ h.inv (L.rely_refl t _)).2 r s hadm hs
      refine ⟨g', ⟨hmove.inv, fun u => ?_⟩, hmove.guar⟩
      by_cases hu : u = t
      · subst hu
        simpa using hk
      · simpa [hu] using wp_later (h.wp u) (hmove.rely u hu)
  | env hs =>
      obtain ⟨g', hinv, hguar, hrely⟩ := hfits.env (c.shared, g) _ h.inv hs
      exact ⟨g', ⟨hinv, fun u => wp_later (h.wp u) (hrely u)⟩, hguar⟩

/-- **Run lemma**: the proofs of the programs hold along every run. -/
theorem Holds.run (hfits : L.Fits ok) (hbegin : L.Begins idle)
    (h : L.Holds idle c g) (hrun : Run L.sys ok c d) :
    ∃ g', L.Holds idle d g' ∧ L.guar (c.shared, g) (d.shared, g') := by
  induction hrun with
  | refl => exact ⟨g, h, L.guar_refl _⟩
  | tail _ hstep ih =>
      obtain ⟨g', h', hguar⟩ := ih
      obtain ⟨g'', h'', hguar'⟩ := h'.step hfits hbegin hstep
      exact ⟨g'', h'', L.guar_trans hguar hguar'⟩

end Logic

end OnlineAuction
