import OnlineAuction.BooksSteps

/-!
# OnlineAuction.BooksRules

Rules for the programs that keep the books.

Between two movements of money a thread is at `Rest`; while it moves money for
an auction it `Owns` the account.  Along the way it carries an assertion about
what it has done so far, which neither the others nor its own bids and closes
disturb (`Carried`).
-/

namespace OnlineAuction

variable {ι : Type} {plan : Plan ι} {t : ι}

/-! ## what a thread carries along -/

/-- What the other threads, and the thread itself except by a deposit, leave to
be relied on. -/
structure Onward (plan : Plan ι) (t : ι) (w w' : World ι) : Prop where
  final : Final plan w w'
  deposited : ∀ u, plan.depositor u = some t → depositedIn w'.log u = depositedIn w.log u

/-- The assertion only depends on what goes on. -/
def Carried (plan : Plan ι) (t : ι) (F : World ι → Prop) : Prop :=
  ∀ w w', Onward plan t w w' → F w → F w'

section Carry

variable {w w' : World ι} {i : UInt32}

/-- The steps of others lead onward. -/
theorem Rely.onward (h : Rely plan t w w') : Onward plan t w w' := ⟨h.final, h.deposited⟩

/-- So do those that change nothing. -/
theorem Unchanged.onward (h : Unchanged plan w w') : Onward plan t w w' :=
  ⟨h.final, fun u _ => h.deposited u⟩

/-- And those on one auction. -/
theorem Touches.onward (h : Touches plan t i w w') : Onward plan t w w' :=
  ⟨h.guar, fun u _ => h.deposited u⟩

end Carry

/-- The thread is between two movements of money. -/
structure Rest (t : ι) (F : World ι → Prop) (w : World ι) : Prop where
  carried : F w
  free : Free t w

/-- The thread is moving money for auction `i`, whose account is `x`. -/
structure Owns (plan : Plan ι) (t : ι) (F : World ι → Prop) (i : UInt32) (x : Account)
    (w : World ι) : Prop where
  carried : F w
  owner : w.owner i = some t
  only : ∀ j, w.owner j = some t → j = i
  account : account plan w i = x

section Assertions

variable {F : World ι → Prop} (hF : Carried plan t F) {w w' : World ι} {i : UInt32}
  {x x' : Account}

include hF

/-- A thread at rest stays so. -/
theorem Rest.onward (h : Rest t F w) (ho : Onward plan t w w')
    (howner : ∀ j, w'.owner j = some t → w.owner j = some t) : Rest t F w' :=
  ⟨hF w w' ho h.carried, fun j hj => h.free j (howner j hj)⟩

/-- In particular while others move. -/
theorem Rest.later (h : Rest t F w) (hrely : Rely plan t w w') : Rest t F w' :=
  h.onward hF hrely.onward hrely.owner

/-- A thread at rest takes an auction. -/
theorem Rest.own (h : Rest t F w) (ht : Touches plan t i w w') (ho : w'.owner i = some t)
    (hx : OnlineAuction.account plan w' i = x) : Owns plan t F i x w' where
  carried := hF w w' ht.onward h.carried
  owner := ho
  only j hj := by
    by_contra hne
    exact h.free j ((ht.others j hne).2 ▸ hj)
  account := hx

/-- Or changes one without keeping it. -/
theorem Rest.touch (h : Rest t F w) (ht : Touches plan t i w w') (ho : w'.owner i = none) :
    Rest t F w' where
  carried := hF w w' ht.onward h.carried
  free j hj := by
    by_cases hji : j = i
    · subst hji
      exact absurd (ho.symm.trans hj) (by simp)
    · exact h.free j ((ht.others j hji).2 ▸ hj)

/-- What a thread owns stays its own while others move. -/
theorem Owns.later (h : Owns plan t F i x w) (hrely : Rely plan t w w') :
    Owns plan t F i x w' := by
  obtain ⟨ho, ha⟩ := hrely.owned i h.owner
  exact ⟨hF w w' hrely.onward h.carried, ho, fun j hj => h.only j (hrely.owner j hj),
    ha.trans h.account⟩

/-- It makes a step on the auction that it owns. -/
theorem Owns.step (h : Owns plan t F i x w) (ht : Touches plan t i w w')
    (ho : w'.owner i = some t) (hx : OnlineAuction.account plan w' i = x') :
    Owns plan t F i x' w' where
  carried := hF w w' ht.onward h.carried
  owner := ho
  only j hj := by
    by_contra hne
    exact hne (h.only j ((ht.others j hne).2 ▸ hj))
  account := hx

/-- And leaves it. -/
theorem Owns.leave (h : Owns plan t F i x w) (ht : Touches plan t i w w')
    (ho : w'.owner i = none) : Rest t F w' where
  carried := hF w w' ht.onward h.carried
  free j hj := by
    by_cases hji : j = i
    · subst hji
      exact absurd (ho.symm.trans hj) (by simp)
    · exact hji (h.only j ((ht.others j hji).2 ▸ hj))

end Assertions

/-! ## rules for programs -/

section Rules

variable {Q P : World ι → Prop} {w : World ι}

/-- A quiet call needs no right. -/
theorem ApiOp.Quiet.entitled {op : ApiOp} (h : op.Quiet) (k : op.Res → Prog ApiSig Unit) :
    Entitled plan t (.call op k) := by
  cases op with
  | wallet site c => trivial
  | sys op =>
      cases op with
      | writeAuction a => exact h.elim
      | _ => trivial

/-- A thread that owns nothing may be anywhere it is entitled to be. -/
theorem point_of_free (h : Free t w) {p : Prog ApiSig Unit} (hp : Entitled plan t p) :
    Point plan t p w := ⟨fun i hi => absurd hi (h i), hp⟩

/-- Quiet programs keep a stable assertion. -/
theorem wp_quiet {α : Type} {p : Prog ApiSig α} {f : α → Prog ApiSig Unit}
    (hp : p.Respects ApiOp.Quiet (fun _ _ => True) fun _ => True)
    (hstable : (booksLogic plan).Stable t P) (hfree : ∀ w, P w → Free t w)
    (hk : Kept plan w) (hP : P w)
    (hf : ∀ a w, Kept plan w → P w → (booksLogic plan).wp t Q (f a) w) :
    (booksLogic plan).wp t Q (p >>= f) w :=
  Logic.wp_silent (N := ApiOp.Quiet) (fun _ h => silent_of_quiet h) hstable
    (fun _ _ _ hN _ h => point_of_free (hfree _ h) (hN.entitled _)) hp hf hk hP

/-- The rule for a quiet call. -/
theorem wp_quietCall {op : ApiOp} {k : op.Res → Prog ApiSig Unit} (hop : op.Quiet)
    (hstable : (booksLogic plan).Stable t P) (hfree : ∀ w, P w → Free t w)
    (hk : Kept plan w) (hP : P w)
    (hf : ∀ r w, Kept plan w → P w → (booksLogic plan).wp t Q (k r) w) :
    (booksLogic plan).wp t Q (.call op k) w :=
  wp_quiet (p := Prog.op op) ⟨hop, fun _ _ => trivial⟩ hstable hfree hk hP hf

/-- A call that reads answers what is stored. -/
theorem wp_read {op : ApiOp} {k : op.Res → Prog ApiSig Unit} (hop : op.Quiet)
    (hread : ∀ s, (Api.exec op s).2 = s)
    (hstable : (booksLogic plan).Stable t P) (hfree : ∀ w, P w → Free t w)
    (hk : Kept plan w) (hP : P w)
    (hf : ∀ w, Kept plan w → P w →
      (booksLogic plan).wp t Q (k (Api.exec op w.store).1) w) :
    (booksLogic plan).wp t Q (.call op k) w := by
  refine Logic.wp_call hstable hk hP (fun _ _ h => point_of_free (hfree _ h) (hop.entitled _)) ?_
  intro w r s hk hP _ hs
  obtain ⟨hmove, hrely⟩ := silent_of_quiet hop w r s hk hs
  obtain ⟨-, hr, hstore, -⟩ := apiMachine_logged_step.mp hs
  have hnext := hf (s, w.2) hmove.inv (hstable w _ hk hmove.inv hrely hP)
  rw [World.store, hstore, hread] at hnext
  exact ⟨w.2, hmove, hr ▸ hnext⟩

variable {F : World ι → Prop} (hF : Carried plan t F)

include hF

/-- Being at rest is stable. -/
theorem stable_rest : (booksLogic plan).Stable t (Rest t F) :=
  fun _ _ _ _ hrely h => h.later hF hrely

/-- The end of a job. -/
theorem wp_end (hQ : ∀ w, Kept plan w → Rest t F w → Q w) (hk : Kept plan w)
    (hw : Rest t F w) : (booksLogic plan).wp t Q (.pure ()) w :=
  Logic.wp_pure (stable_rest hF) hk hw (fun _ _ h => point_of_free h.free trivial) hQ

/-- A job may end with quiet calls. -/
theorem wp_quietEnd {p : Prog ApiSig Unit}
    (hp : p.Respects ApiOp.Quiet (fun _ _ => True) fun _ => True)
    (hQ : ∀ w, Kept plan w → Rest t F w → Q w) (hk : Kept plan w) (hw : Rest t F w) :
    (booksLogic plan).wp t Q p w := by
  rw [← Prog.bind_pure_right p]
  exact wp_quiet hp (stable_rest hF) (fun _ h => h.free) hk hw fun _ _ hk hw =>
    wp_end hF hQ hk hw

/-- The semaphore is freed at rest. -/
theorem wp_unlockSem {i : UInt32} {k : Unit → Prog ApiSig Unit} (hk : Kept plan w)
    (hw : Rest t F w) (hsem : w.held (auctionSem i) = some t)
    (hf : ∀ w, Kept plan w → Rest t F w → (booksLogic plan).wp t Q (k ()) w) :
    (booksLogic plan).wp t Q (.call (.sys (.unlock (auctionSem i))) k) w := by
  refine Logic.wp_call (P := fun w => Rest t F w ∧ World.held w (auctionSem i) = some t)
    (fun _ _ _ _ hrely h => ⟨h.1.later hF hrely, hrely.sem _ h.2⟩) hk ⟨hw, hsem⟩
    (fun _ _ h => point_of_free h.1.free trivial) ?_
  rintro w r s hk ⟨hw, hsem⟩ _ hs
  obtain ⟨hu, hmove⟩ := moves_unlock hk hsem hw.free hs
  exact ⟨w.2, hmove, hf _ hmove.inv (hw.onward hF hu.onward fun _ h => h)⟩

end Rules

/-! ## what the books give a thread -/

section Facts

variable {F : World ι → Prop} {w : World ι} {i : UInt32} {a : Auction} {x : Account}

/-- The auction that a thread owns is stored as it has it. -/
theorem Owns.record (h : Owns plan t F i x w) : readRec w.store.auctions i = x.record :=
  congrArg Account.record h.account

/-- A thread that owns an auction is on its way to append the bid. -/
theorem point_of_must {p : Prog ApiSig Unit} (h : Owns plan t F i x w)
    (hb : ∃ j ∈ plan.jobs t, ∃ u, j.Bids i u) (hp : p.Must (Appends i)) (he : Entitled plan t p) :
    Point plan t p w := by
  refine ⟨fun j hj _ => ?_, he⟩
  obtain rfl := h.only j hj
  exact ⟨hb, hp⟩

/-- Users do not go away. -/
theorem Kept.exists_user (hk : Kept plan w) {u : UInt32}
    (h : ∃ y ∈ plan.first.users, y.userId = u) : ∃ y ∈ w.store.users, y.userId = u := by
  rw [← List.mem_map, hk.userIds, List.mem_map]
  exact h

/-- The fixed fields of an auction stay. -/
theorem Kept.fixed_eq (hk : Kept plan w) (i : UInt32) :
    (readRec w.store.auctions i).map Auction.fixed =
      (readRec plan.first.auctions i).map Auction.fixed := by
  simp only [readRec, ← List.getElem?_map, hk.fixed]

/-- No auction is created. -/
theorem Kept.exists_first (hk : Kept plan w) (ha : readRec w.store.auctions i = some a) :
    ∃ a₀, a₀ ∈ readRec plan.first.auctions i := by
  have hfixed := hk.fixed_eq i
  rw [ha, Option.map_some] at hfixed
  obtain ⟨a₀, ha₀, -⟩ := Option.map_eq_some_iff.mp hfixed.symm
  exact ⟨a₀, ha₀⟩

end Facts

end OnlineAuction
