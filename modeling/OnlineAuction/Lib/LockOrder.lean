import OnlineAuction.Lib.Conduct
import Mathlib.Data.List.Pairwise
import Mathlib.Data.Set.Basic

/-!
# OnlineAuction.Lib.LockOrder

Locks that are taken in the order of their ranks.

A `Locking` says which calls of a signature take and release a lock, which
calls wait for something else, and the rank of each lock.
`Locking.Tidy` is the discipline of a program: it takes a lock only above those
it holds, releases only what it holds, holds nothing where it waits, and ends
with nothing.  `Locking.system` runs such programs over any shared state, with
any answers of the other calls.

`Run.ordered` says that the discipline is kept in every interleaving, and
`Ordered.not_deadlocked` that no threads ever wait for each other.
-/

namespace OnlineAuction

/-- What a call is for the locks. -/
inductive LockCall (L : Type)
  | acquire (l : L)
  | release (l : L)
  | plain

/-- The locks of a signature of calls. -/
structure Locking (S : Sig) (L : Type) where
  use : S.Op → LockCall L
  waits : S.Op → Prop
  rank : L → Nat

/-- The owner of each lock, and the rest of the shared state. -/
structure Owned (L ι ρ : Type) where
  owner : L → Option ι
  rest : ρ

namespace Locking

variable {S : Sig} {L ι ρ α β : Type} [DecidableEq L] (K : Locking S L)

/-! ## the discipline -/

/-- The locks held after a call. -/
def held (g : List L) (o : S.Op) : List L :=
  match K.use o with
  | .acquire l => l :: g
  | .release l => g.erase l
  | .plain => g

/-- The calls allowed to a program that holds the locks `g`. -/
def Allows (g : List L) (o : S.Op) : Prop :=
  match K.use o with
  | .acquire l => ∀ m ∈ g, K.rank m < K.rank l
  | .release l => l ∈ g
  | .plain => K.waits o → g = []

/-- A thread remembers the locks it holds. -/
def conduct : Conduct S (List L) where
  first := []
  note g e := K.held g e.1
  pre := K.Allows
  post _ _ _ := True

/-- The program keeps to the discipline and ends with the locks it started
with. -/
def Balanced (p : Prog S α) (g : List L) : Prop := K.conduct.Keeps (fun _ g' => g' = g) p g

/-- The same of a program that starts and ends with no lock. -/
def Tidy (p : Prog S α) : Prop := K.Balanced p []

section Balanced

variable {K} {g : List L} {o : S.Op} {k : S.Res o → Prog S α} {l : L}

@[simp] theorem balanced_pure (a : α) : K.Balanced (.pure a) g := rfl

theorem Balanced.bind {p : Prog S α} {f : α → Prog S β} (h : K.Balanced p g)
    (hf : ∀ a, K.Balanced (f a) g) : K.Balanced (p >>= f) g := by
  unfold Balanced
  rw [Conduct.keeps_bind]
  exact h.mono fun a g' hg => by rw [hg]; exact hf a

/-- A call that neither takes nor releases a lock. -/
theorem Balanced.plain (huse : K.use o = .plain) (hw : K.waits o → g = [])
    (hk : ∀ r, K.Balanced (k r) g) : K.Balanced (.call o k) g := by
  refine ⟨?_, fun r _ => ?_⟩
  · simpa [conduct, Allows, huse] using hw
  · have hheld : K.conduct.note g ⟨o, r⟩ = g := by simp [conduct, held, huse]
    rw [hheld]
    exact hk r

/-- A section: what is between an acquisition and the releases that end it. -/
theorem Balanced.acquire (huse : K.use o = .acquire l) (hrank : ∀ m ∈ g, K.rank m < K.rank l)
    (hk : ∀ r, K.conduct.Keeps (fun _ g' => g' = g) (k r) (l :: g)) :
    K.Balanced (.call o k) g := by
  refine ⟨?_, fun r _ => ?_⟩
  · simpa [conduct, Allows, huse] using hrank
  · have hheld : K.conduct.note g ⟨o, r⟩ = l :: g := by simp [conduct, held, huse]
    rw [hheld]
    exact hk r

/-- A release that ends a section. -/
theorem keeps_release (huse : K.use o = .release l) (hk : ∀ r, K.Balanced (k r) g) :
    K.conduct.Keeps (fun _ g' => g' = g) (.call o k) (l :: g) := by
  refine ⟨?_, fun r _ => ?_⟩
  · simp [conduct, Allows, huse]
  · have hheld : K.conduct.note (l :: g) ⟨o, r⟩ = g := by simp [conduct, held, huse]
    rw [hheld]
    exact hk r

/-- A program that holds a lock comes to its release before it waits for
anything else. -/
theorem soon_release {stop : S.Op → Prop} {p : Prog S α} [∀ o, Nonempty (S.Res o)]
    (hstop : ∀ o, stop o → K.use o = .plain ∧ K.waits o)
    (h : K.conduct.Keeps (fun _ g => g = []) p g) (hl : l ∈ g) :
    p.Soon stop fun o => K.use o = .release l := by
  induction p generalizing g with
  | pure a =>
      have hg : g = [] := h
      rw [hg] at hl
      cases hl
  | call o k ih =>
      by_cases huse : K.use o = .release l
      · exact .inl huse
      · refine .inr ⟨fun ho => ?_, Classical.ofNonempty, ih _ (h.2 _ trivial) ?_⟩
        · have hallow := h.1
          obtain ⟨hplain, hwaits⟩ := hstop o ho
          simp only [conduct, Allows, hplain] at hallow
          rw [hallow hwaits] at hl
          cases hl
        · simp only [conduct, held]
          split
          · exact List.mem_cons_of_mem _ hl
          · next m hm =>
              refine (List.mem_erase_of_ne ?_).mpr hl
              rintro rfl
              exact huse hm
          · exact hl

end Balanced

/-! ## the system -/

/-- Threads that make the calls of `S` over a shared state: to take a lock in
use is to wait; what the calls answer and do otherwise is `raw`. -/
def system (raw : ι → (o : S.Op) → ρ → S.Res o × ρ) (env : ρ → ρ → Prop) :
    System S ι (Owned L ι ρ) where
  step t o s :=
    match K.use o with
    | .acquire l =>
        if (s.owner l).isSome then none
        else some ((raw t o s.rest).1, ⟨Function.update s.owner l (some t), (raw t o s.rest).2⟩)
    | .release l =>
        some ((raw t o s.rest).1, ⟨Function.update s.owner l none, (raw t o s.rest).2⟩)
    | .plain => some ((raw t o s.rest).1, ⟨s.owner, (raw t o s.rest).2⟩)
  env s s' := s'.owner = s.owner ∧ env s.rest s'.rest

variable {K}

/-- What a call does to the owners of the locks. -/
theorem system_step_owner {raw : ι → (o : S.Op) → ρ → S.Res o × ρ} {env : ρ → ρ → Prop}
    {t : ι} {o : S.Op} {s s' : Owned L ι ρ} {r : S.Res o}
    (h : (K.system raw env).step t o s = some (r, s')) :
    (∃ l, K.use o = .acquire l ∧ s.owner l = none ∧
        s'.owner = Function.update s.owner l (some t)) ∨
      (∃ l, K.use o = .release l ∧ s'.owner = Function.update s.owner l none) ∨
      (K.use o = .plain ∧ s'.owner = s.owner) := by
  simp only [system] at h
  split at h
  · next l huse =>
      split at h
      · contradiction
      · next hfree =>
          obtain ⟨-, rfl⟩ := Prod.mk.inj (Option.some.inj h)
          exact .inl ⟨l, huse, by simpa using hfree, rfl⟩
  · next l huse =>
      obtain ⟨-, rfl⟩ := Prod.mk.inj (Option.some.inj h)
      exact .inr (.inl ⟨l, huse, rfl⟩)
  · next huse =>
      obtain ⟨-, rfl⟩ := Prod.mk.inj (Option.some.inj h)
      exact .inr (.inr ⟨huse, rfl⟩)

/-! ## the invariant -/

variable (K)

/-- The locks that `t` owns are `g`, from the highest rank down, and what is
left of its program keeps to the discipline. -/
structure Holds (c : Config S ι (Owned L ι ρ)) (t : ι) (g : List L) : Prop where
  sorted : g.Pairwise fun l m => K.rank m < K.rank l
  owner_iff : ∀ l, c.shared.owner l = some t ↔ l ∈ g
  keeps : K.conduct.Keeps (fun _ g => g = []) (c.prog t) g

/-- Every thread keeps to the discipline. -/
def Ordered (c : Config S ι (Owned L ι ρ)) : Prop :=
  ∀ t, (∃ g, K.Holds c t g) ∧ ∀ p ∈ c.queue t, K.Tidy p

variable {K} {c d : Config S ι (Owned L ι ρ)} {t u : ι} {g : List L}

theorem Holds.nodup (h : K.Holds c t g) : g.Nodup :=
  h.sorted.imp fun hlt heq => (heq ▸ hlt).false

/-- A thread that goes on without the locks changing hands, or begins a program. -/
theorem Holds.frame (h : K.Holds c t g) (hprog : d.prog t = c.prog t)
    (howner : ∀ l, d.shared.owner l = some t ↔ c.shared.owner l = some t) : K.Holds d t g :=
  ⟨h.sorted, fun l => (howner l).trans (h.owner_iff l), by rw [hprog]; exact h.keeps⟩

/-- The owners after a lock was taken. -/
theorem owner_update_some {owner : L → Option ι} {l m : L} :
    Function.update owner l (some t) m = some t ↔ m = l ∨ owner m = some t := by
  by_cases hm : m = l <;> simp [Function.update, hm]

/-- The owners after a lock was released. -/
theorem owner_update_none {owner : L → Option ι} {l m : L} :
    Function.update owner l none m = some t ↔ m ≠ l ∧ owner m = some t := by
  by_cases hm : m = l <;> simp [Function.update, hm]

variable [DecidableEq ι]

/-- What the thread that makes a call holds after it. -/
theorem Holds.call {raw : ι → (o : S.Op) → ρ → S.Res o × ρ} {env : ρ → ρ → Prop}
    {o : S.Op} {k : S.Res o → Prog S Unit} {r : S.Res o} {s : Owned L ι ρ} (h : K.Holds c t g)
    (hp : c.prog t = .call o k) (hs : (K.system raw env).step t o c.shared = some (r, s)) :
    K.Holds (c.goOn t (k r) s) t (K.held g o) := by
  have hk := h.keeps
  rw [hp] at hk
  refine ⟨?_, fun m => ?_, ?_⟩
  · have hallow := hk.1
    simp only [conduct, Allows] at hallow
    unfold held
    split
    · next l huse => rw [huse] at hallow; exact h.sorted.cons hallow
    · exact h.sorted.sublist List.erase_sublist
    · exact h.sorted
  · rw [Config.goOn_shared]
    rcases system_step_owner hs with ⟨l, huse, -, howner⟩ | ⟨l, huse, howner⟩ | ⟨huse, howner⟩
    · rw [howner, owner_update_some, h.owner_iff]
      simp [held, huse]
    · rw [howner, owner_update_none, h.owner_iff]
      simp [held, huse, h.nodup.mem_erase_iff]
    · rw [howner, h.owner_iff]
      simp [held, huse]
  · rw [Config.goOn_prog, Function.update_self]
    exact hk.2 r trivial

/-- A call of another thread takes no lock of this one: a lock is taken when
it is free and released by its owner. -/
theorem Holds.call_of_ne {raw : ι → (o : S.Op) → ρ → S.Res o × ρ} {env : ρ → ρ → Prop}
    {o : S.Op} {k : S.Res o → Prog S Unit} {r : S.Res o} {s : Owned L ι ρ} {g' : List L}
    (h : K.Holds c u g) (hne : u ≠ t) (ht : K.Holds c t g') (hp : c.prog t = .call o k)
    (hs : (K.system raw env).step t o c.shared = some (r, s)) :
    K.Holds (c.goOn t (k r) s) u g := by
  refine h.frame (by simp [hne]) fun m => ?_
  rw [Config.goOn_shared]
  rcases system_step_owner hs with ⟨l, huse, hfree, howner⟩ | ⟨l, huse, howner⟩ | ⟨huse, howner⟩
  · rw [howner, Function.update_apply]
    split
    · next hm => rw [hm, hfree]; simp [Ne.symm hne]
    · rfl
  · have hk := ht.keeps
    rw [hp] at hk
    have hmine : c.shared.owner l = some t := by
      have hallow := hk.1
      simp only [conduct, Allows, huse] at hallow
      exact (ht.owner_iff l).mpr hallow
    rw [howner, Function.update_apply]
    split
    · next hm => rw [hm, hmine]; simp [Ne.symm hne]
    · rfl
  · rw [howner]

theorem Ordered.step {raw : ι → (o : S.Op) → ρ → S.Res o × ρ} {env : ρ → ρ → Prop}
    {ok : Config S ι (Owned L ι ρ) → ι → S.Op → Prop} (h : K.Ordered c)
    (hstep : Step (K.system raw env) ok c d) : K.Ordered d := by
  intro u
  obtain ⟨⟨g, hg⟩, hqueue⟩ := h u
  cases hstep with
  | @begin t p ps hidle hq =>
      by_cases hu : u = t
      · subst hu
        have hk := hg.keeps
        rw [hidle] at hk
        rw [hq] at hqueue
        refine ⟨⟨[], .nil, fun l => ?_, ?_⟩, fun q hmem => ?_⟩
        · rw [Config.begin_shared, hg.owner_iff, hk]
        · rw [Config.begin_prog, Function.update_self]
          exact hqueue p (by simp)
        · refine hqueue q ?_
          simp only [Config.begin_queue, Function.update_self] at hmem
          exact List.mem_cons_of_mem _ hmem
      · exact ⟨⟨g, hg.frame (by simp [hu]) fun l => Iff.rfl⟩, by simpa [hu] using hqueue⟩
  | @call t o k r s hp hok hs =>
      refine ⟨?_, hqueue⟩
      by_cases hu : u = t
      · subst hu
        exact ⟨_, hg.call hp hs⟩
      · obtain ⟨g', hg'⟩ := (h t).1
        exact ⟨g, hg.call_of_ne hu hg' hp hs⟩
  | @env s hs =>
      exact ⟨⟨g, hg.frame rfl fun l => by rw [hs.1]⟩, hqueue⟩

/-- **The discipline is kept** in every interleaving of programs that keep to
it, when no lock is in use at first. -/
theorem Ordered.of_run {raw : ι → (o : S.Op) → ρ → S.Res o × ρ} {env : ρ → ρ → Prop}
    {ok : Config S ι (Owned L ι ρ) → ι → S.Op → Prop} {s : ρ}
    {queue : ι → List (Prog S Unit)} (hqueue : ∀ t, ∀ p ∈ queue t, K.Tidy p)
    (h : Run (K.system raw env) ok (.start ⟨fun _ => none, s⟩ queue) d) : K.Ordered d := by
  refine h.inv (fun c d hc hstep => hc.step hstep) fun t => ⟨⟨[], .nil, ?_, rfl⟩, hqueue t⟩
  simp [Config.start]

/-! ## what the discipline gives -/

section Consequences

variable {o : S.Op} {k : S.Res o → Prog S Unit} {l m : L}

omit [DecidableEq ι]

/-- A thread that is through with its program holds no lock. -/
theorem Ordered.idle (h : K.Ordered c) (hp : c.prog t = .pure ()) :
    c.shared.owner l ≠ some t := by
  obtain ⟨⟨g, hg⟩, -⟩ := h t
  have hk : g = [] := by simpa [hp] using hg.keeps
  rw [Ne, hg.owner_iff, hk]
  exact List.not_mem_nil

/-- A lock is only asked for above all those held. -/
theorem Ordered.acquire (h : K.Ordered c) (hp : c.prog t = .call o k)
    (huse : K.use o = .acquire l) (hm : c.shared.owner m = some t) : K.rank m < K.rank l := by
  obtain ⟨⟨g, hg⟩, -⟩ := h t
  have hk := hg.keeps
  rw [hp] at hk
  have hallow := hk.1
  simp only [conduct, Allows, huse] at hallow
  exact hallow m ((hg.owner_iff m).mp hm)

/-- Only what is held is released. -/
theorem Ordered.release (h : K.Ordered c) (hp : c.prog t = .call o k)
    (huse : K.use o = .release l) : c.shared.owner l = some t := by
  obtain ⟨⟨g, hg⟩, -⟩ := h t
  have hk := hg.keeps
  rw [hp] at hk
  have hallow := hk.1
  simp only [conduct, Allows, huse] at hallow
  exact (hg.owner_iff l).mpr hallow

/-- Nothing is held while a thread waits for something else than a lock. -/
theorem Ordered.waits (h : K.Ordered c) (hp : c.prog t = .call o k)
    (huse : K.use o = .plain) (hw : K.waits o) : c.shared.owner l ≠ some t := by
  obtain ⟨⟨g, hg⟩, -⟩ := h t
  have hk := hg.keeps
  rw [hp] at hk
  have hallow := hk.1
  simp only [conduct, Allows, huse] at hallow
  rw [Ne, hg.owner_iff, hallow hw]
  exact List.not_mem_nil

/-- A thread never holds two locks of one rank. -/
theorem Ordered.eq_of_rank (h : K.Ordered c) (hl : c.shared.owner l = some t)
    (hm : c.shared.owner m = some t) (hrank : K.rank l = K.rank m) : l = m := by
  obtain ⟨⟨g, hg⟩, -⟩ := h t
  rw [hg.owner_iff] at hl hm
  by_contra hne
  have hranks : g.Pairwise fun l m => K.rank l ≠ K.rank m := hg.sorted.imp Nat.ne_of_gt
  have : Std.Symm fun l m => K.rank l ≠ K.rank m := ⟨fun _ _ => Ne.symm⟩
  exact hranks.forall hl hm hne hrank

/-! ## deadlocks -/

/-- Thread `t` asks for a lock that `u` owns. -/
def WaitsFor (K : Locking S L) (c : Config S ι (Owned L ι ρ)) (t u : ι) : Prop :=
  ∃ o k l, c.prog t = .call o k ∧ K.use o = .acquire l ∧ c.shared.owner l = some u

/-- Each of these threads waits for another one of them, or for itself. -/
def Deadlocked (K : Locking S L) (c : Config S ι (Owned L ι ρ)) (T : Set ι) : Prop :=
  T.Nonempty ∧ ∀ t ∈ T, ∃ u ∈ T, K.WaitsFor c t u

/-- Along a chain of threads that wait for each other the ranks of the locks
they wait for grow. -/
theorem Ordered.rank_unbounded (h : K.Ordered c) {T : Set ι} (hT : K.Deadlocked c T) (n : Nat) :
    ∃ t ∈ T, ∃ o k l, c.prog t = .call o k ∧ K.use o = .acquire l ∧ n ≤ K.rank l := by
  induction n with
  | zero =>
      obtain ⟨t, ht⟩ := hT.1
      obtain ⟨u, -, o, k, l, hp, huse, -⟩ := hT.2 t ht
      exact ⟨t, ht, o, k, l, hp, huse, Nat.zero_le _⟩
  | succ n ih =>
      obtain ⟨t, ht, o, k, l, hp, huse, hn⟩ := ih
      obtain ⟨u, hu, o', k', l', hp', huse', howner⟩ := hT.2 t ht
      obtain ⟨v, -, o'', k'', l'', hp'', huse'', -⟩ := hT.2 u hu
      -- the lock that `t` waits for is the same in both descriptions of its call
      have hl : l' = l := by
        rw [hp] at hp'
        cases hp'
        rw [huse] at huse'
        exact (LockCall.acquire.inj huse').symm
      have hlt := h.acquire hp'' huse'' (hl ▸ howner)
      exact ⟨u, hu, o'', k'', l'', hp'', huse'', by omega⟩

/-- **No threads ever wait for each other**, when the ranks are bounded. -/
theorem Ordered.not_deadlocked (h : K.Ordered c) {N : Nat} (hN : ∀ l, K.rank l ≤ N) (T : Set ι) :
    ¬ K.Deadlocked c T := by
  intro hT
  obtain ⟨t, -, o, k, l, -, -, hle⟩ := h.rank_unbounded hT (N + 1)
  have := hN l
  omega

end Consequences

/-! ## implementing calls -/

omit [DecidableEq ι] in
/-- A program keeps to the discipline after its calls are implemented, when
each implementation does with the locks what a conduct of the calls says. -/
theorem keeps_subst {T : Sig} {γ : Type} {C : Conduct S γ} {K : Locking T L}
    {impl : (o : S.Op) → Prog T (S.Res o)} {locks : γ → List L}
    (himpl : ∀ g o, C.pre g o → K.conduct.Keeps
      (fun r g' => C.post g o r ∧ g' = locks (C.note g ⟨o, r⟩)) (impl o) (locks g))
    {Q : α → γ → Prop} {p : Prog S α} {g : γ} (hp : C.Keeps Q p g) :
    K.conduct.Keeps (fun a g' => ∃ g, Q a g ∧ g' = locks g) (p.subst impl) (locks g) := by
  induction p generalizing g with
  | pure a => exact ⟨g, hp, rfl⟩
  | call o k ih =>
      rw [Prog.subst_call, Conduct.keeps_bind]
      refine (himpl g o hp.1).mono fun r g' hr => ?_
      rw [hr.2]
      exact ih r (hp.2 r hr.1)

end Locking

end OnlineAuction
