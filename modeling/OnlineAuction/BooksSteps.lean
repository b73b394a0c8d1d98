import OnlineAuction.Books

/-!
# OnlineAuction.BooksSteps

What the calls do to the books.

A quiet call changes nothing that the books are about (`moves_of_quiet`).  Any
other call touches one account at most (`Touches`), and the threads that do not
own it do not notice; what is left to show of such a call is that the account
it touches is in order (`Kept.touch`).
-/

namespace OnlineAuction

variable {ι : Type} {plan : Plan ι} {t : ι}

/-! ## the log and the bids -/

section Log

variable {log : List (ι × Event ApiSig)} {e : Event ApiSig} {i : UInt32}

/-- One more event adds at most one wallet call of a close. -/
theorem closeCalls_append :
    closeCalls i (log ++ [(t, e)]) = closeCalls i log ++ (closeCall i e).toList := by
  simp only [closeCalls, List.filterMap_append, List.filterMap_cons, List.filterMap_nil]
  cases closeCall i e <;> rfl

theorem closeCalls_append_of_none (h : closeCall i e = none) :
    closeCalls i (log ++ [(t, e)]) = closeCalls i log := by
  simp [closeCalls_append, h]

/-- Events that close nothing pay nothing. -/
theorem paid_append (h : ∀ j, closeCall j e = none) : paid (log ++ [(t, e)]) = paid log := by
  funext j u
  simp [paid, closeCalls_append_of_none (h j)]

/-- One more event adds what it deposits. -/
theorem depositedIn_append (u : UInt32) :
    depositedIn (log ++ [(t, e)]) u = depositedIn log u + depositOf u e := by
  simp [depositedIn]

/-- A wallet call that closes an auction changes one entry of what has been
paid. -/
theorem paid_append_close {c : WalletCall} {r : Int} {u : UInt32} {bd : ℚ}
    (h : ∀ x, c.payment x = if x = u then bd else 0) :
    paid (log ++ [(t, ⟨.wallet (.close i) c, r⟩)]) = (paid log).add i u bd := by
  funext j x
  simp only [paid, closeCalls_append, Cover.add]
  by_cases hj : i = j
  · subst hj
    by_cases hx : x = u <;> simp [closeCall, h, hx]
  · have hj' : ¬ (j = i ∧ x = u) := fun hc => hj hc.1.symm
    simp [closeCall, hj, hj']

variable {n : Nat} {bids : List Bid} {b : Bid}

/-- A bid that is appended is placed on its auction. -/
theorem placedOn_append (h : n ≤ bids.length) :
    placedOn n i (bids ++ [b]) =
      placedOn n i bids ++ if b.auctionId = i then [(b.bidderId, b.amount)] else [] := by
  simp only [placedOn, List.drop_append_of_le_length h, List.filter_append, List.map_append]
  by_cases hb : b.auctionId = i <;> simp [hb]

/-- Marking bids does not change what was bid. -/
theorem placedOn_markWinning (a u : UInt32) :
    placedOn n i (markWinning a u bids) = placedOn n i bids := by
  have hmark (b : Bid) : let b' := if b.auctionId = a ∧ b.bidderId = u then
      { b with isWinning := true } else b
      b'.auctionId = b.auctionId ∧ (b'.bidderId, b'.amount) = (b.bidderId, b.amount) := by
    by_cases h : b.auctionId = a ∧ b.bidderId = u <;> simp [h]
  simp only [placedOn, markWinning, ← List.map_drop, List.filter_map, List.map_map]
  refine congrArg₂ List.map (funext fun b => (hmark b).2) (List.filter_congr fun b _ => ?_)
  simp only [Function.comp, (hmark b).1]

/-- Marking keeps the number of bids. -/
theorem length_markWinning (a u : UInt32) : (markWinning a u bids).length = bids.length := by
  simp [markWinning]

end Log

/-! ## quiet calls -/

/-- The call does nothing that the books are about. -/
def ApiOp.Quiet : ApiOp → Prop
  | .sys (.writeUser _) | .sys (.writeAuction _) | .sys (.appendBid _)
  | .sys (.lock (.auctionSem _)) | .sys (.unlock (.auctionSem _)) | .wallet _ _ => False
  | _ => True

/-- The world is the same as far as the books go. -/
structure Unchanged (plan : Plan ι) (w w' : World ι) : Prop where
  users : w'.store.users = w.store.users
  auctions : w'.store.auctions = w.store.auctions
  bids_length : w'.store.bids.length = w.store.bids.length
  placed : ∀ n i, placedOn n i w'.store.bids = placedOn n i w.store.bids
  calls : ∀ i, closeCalls i w'.log = closeCalls i w.log
  deposited : ∀ u, depositedIn w'.log u = depositedIn w.log u
  books : w'.2 = w.2

section Unchanged

variable {w w' : World ι}

/-- Where nothing changes the accounts are the same. -/
theorem Unchanged.account (h : Unchanged plan w w') (i : UInt32) :
    account plan w' i = account plan w i := by
  simp only [OnlineAuction.account, World.cover, h.auctions, h.placed, h.calls, h.books]

/-- So is what a user has left. -/
theorem Unchanged.slack (h : Unchanged plan w w') (i u : UInt32) :
    slack w' i u = slack w i u := by
  simp only [OnlineAuction.slack, World.cover, h.users, h.books]

/-- So is what was paid. -/
theorem Unchanged.paid (h : Unchanged plan w w') : paid w'.log = paid w.log := by
  funext i u
  simp only [OnlineAuction.paid, h.calls]

/-- And what is final. -/
theorem Unchanged.final (h : Unchanged plan w w') : Final plan w w' := fun i _ => by
  rw [h.account]
  exact ⟨rfl, rfl⟩

/-- A thread whose semaphores are left alone notices nothing. -/
theorem Unchanged.rely (h : Unchanged plan w w') {u : ι}
    (hsem : ∀ n, w.held (.auctionSem n) = some u → w'.held (.auctionSem n) = some u) :
    Rely plan u w w' where
  final := h.final
  owned i hi := ⟨by rw [World.owner, h.books]; exact hi, h.account i⟩
  owner i hi := by rw [World.owner, h.books] at hi; exact hi
  closer i _ := ⟨by rw [World.owner, h.books], h.account i⟩
  sem := hsem
  slack _ _ i u _ _ := by rw [h.slack]
  deposited u _ := h.deposited u

/-- Such a step keeps the invariant, if it frees no semaphore that is needed. -/
theorem Unchanged.kept (h : Unchanged plan w w') (hk : Kept plan w)
    (hsem : ∀ n u, w.held (.auctionSem n) = some u →
      (∃ i, auctionSem i = .auctionSem n ∧ w.owner i = some u) →
      w'.held (.auctionSem n) = some u) : Kept plan w' where
  covered := by rw [World.cover, h.books, h.users, h.auctions]; exact hk.covered
  balance := by rw [h.users, h.auctions, h.paid]; simpa only [h.deposited] using hk.balance
  userIds := by rw [h.users]; exact hk.userIds
  fixed := by rw [h.auctions]; exact hk.fixed
  bids_le := by rw [h.bids_length]; exact hk.bids_le
  atRest i a₀ ha₀ hi := by
    rw [h.account]
    exact hk.atRest i a₀ ha₀ (by rw [World.owner, h.books] at hi; exact hi)
  calls := by rw [h.auctions]; simpa only [h.calls] using hk.calls
  locked i u hi hopen := by
    rw [h.account] at hopen
    rw [World.owner, h.books] at hi
    exact hsem _ u (hk.locked i u hi hopen) ⟨i, rfl, hi⟩
  closer := by rw [World.owner, h.books]; exact hk.closer
  undeposited u hu := (h.deposited u).trans (hk.undeposited u hu)
  unbid i hi := by rw [h.account]; exact hk.unbid i hi

end Unchanged

section Quiet

variable {op : ApiOp} {r : op.Res} {w : World ι} {s : Shared ι × List (ι × Event ApiSig)}

/-- A quiet call leaves the semaphores. -/
theorem ApiOp.Quiet.sem (h : op.Quiet) {held held' : Lock → Option ι}
    (hl : op.locks t held = some held') (n : UInt32) :
    held' (.auctionSem n) = held (.auctionSem n) := by
  cases op with
  | wallet site c => exact h.elim
  | sys op =>
      cases op with
      | lock l =>
          simp only [ApiOp.locks, SysOp.locks] at hl
          split at hl
          · contradiction
          · obtain rfl := Option.some.inj hl
            cases l <;> first | rfl | exact h.elim
      | unlock l =>
          obtain rfl := Option.some.inj hl
          cases l <;> first | rfl | exact h.elim
      | _ => obtain rfl := Option.some.inj hl; rfl

/-- A system call pays nobody. -/
theorem sameMoney_of_sys {op : SysOp} {r : op.Res}
    (hs : apiMachine.logged.step t (.sys op) w.1 = some (r, s)) :
    (∀ i, closeCalls i s.2 = closeCalls i w.log) ∧ paid s.2 = paid w.log ∧
      ∀ u, depositedIn s.2 u = depositedIn w.log u := by
  rw [(apiMachine_logged_step.mp hs).2.2.2]
  refine ⟨fun i => closeCalls_append_of_none rfl, paid_append fun _ => rfl, fun u => ?_⟩
  rw [depositedIn_append]
  exact add_zero _

/-- A quiet call changes nothing of the books. -/
theorem ApiOp.Quiet.unchanged (h : op.Quiet)
    (hs : apiMachine.logged.step t op w.1 = some (r, s)) : Unchanged plan w (s, w.2) := by
  have hstore := (apiMachine_logged_step.mp hs).2.2.1
  cases op with
  | wallet site c => exact h.elim
  | sys op =>
      obtain ⟨hcalls, -, hdep⟩ := sameMoney_of_sys hs
      cases op with
      | writeUser u => exact h.elim
      | writeAuction a => exact h.elim
      | appendBid b => exact h.elim
      | markWinningBids a u =>
          refine ⟨by rw [World.store, hstore]; rfl, by rw [World.store, hstore]; rfl, ?_, ?_,
            hcalls, hdep, rfl⟩
          · rw [World.store, hstore]; exact length_markWinning a u
          · intro n i; rw [World.store, hstore]; exact placedOn_markWinning a u
      | _ =>
          exact ⟨by rw [World.store, hstore]; rfl, by rw [World.store, hstore]; rfl,
            by rw [World.store, hstore]; rfl, fun _ _ => by rw [World.store, hstore]; rfl,
            hcalls, hdep, rfl⟩

/-- A quiet call is accepted by the others, and its thread notices nothing
either. -/
theorem silent_of_quiet (h : op.Quiet) : (booksLogic plan).Silent t op := by
  intro w r s hk hs
  have hu : Unchanged plan w (s, w.2) := h.unchanged hs
  have hsem (n : UInt32) : s.1.held (.auctionSem n) = w.1.1.held (.auctionSem n) :=
    h.sem (apiMachine_logged_step.mp hs).1 n
  exact ⟨⟨hu.kept hk fun n u hn _ => (hsem n).trans hn, hu.final,
    fun v _ => hu.rely fun n hn => (hsem n).trans hn⟩, hu.rely fun n hn => (hsem n).trans hn⟩

end Quiet

/-! ## semaphores -/

section Semaphores

variable {w : World ι} {s : Shared ι × List (ι × Event ApiSig)} {n : UInt32} {r : Unit}

/-- Thread `t` is not moving money. -/
def Free (t : ι) (w : World ι) : Prop := ∀ i, w.owner i ≠ some t

/-- Nor does taking or freeing a semaphore. -/
theorem unchanged_of_locks {op : SysOp} {r : op.Res}
    (hop : op = .lock (.auctionSem n) ∨ op = .unlock (.auctionSem n))
    (hs : apiMachine.logged.step t (.sys op) w.1 = some (r, s)) : Unchanged plan w (s, w.2) := by
  obtain ⟨hcalls, -, hdep⟩ := sameMoney_of_sys hs
  have hsame : (Store.exec op w.store).2 = w.store := by rcases hop with rfl | rfl <;> rfl
  have hstore : s.1.store = w.store := (apiMachine_logged_step.mp hs).2.2.1.trans hsame
  exact ⟨by rw [World.store, hstore], by rw [World.store, hstore], by rw [World.store, hstore],
    fun _ _ => by rw [World.store, hstore], hcalls, hdep, rfl⟩

/-- Taking a semaphore: nobody has it before, and its thread keeps all it
knows. -/
theorem moves_lock (h : Kept plan w)
    (hs : apiMachine.logged.step t (.sys (.lock (.auctionSem n))) w.1 = some (r, s)) :
    s.1.held (.auctionSem n) = some t ∧ (booksLogic plan).Moves t w (s, w.2) ∧
      Rely plan t w (s, w.2) := by
  have hu : Unchanged plan w (s, w.2) := unchanged_of_locks (.inl rfl) hs
  obtain ⟨hl, -⟩ := apiMachine_logged_step.mp hs
  simp only [ApiOp.locks, SysOp.locks] at hl
  split at hl
  · contradiction
  · next hfree =>
      have hheld := Option.some.inj hl
      have hsem (m : UInt32) (u : ι) (hm : w.held (.auctionSem m) = some u) :
          s.1.held (.auctionSem m) = some u := by
        have hne : Lock.auctionSem m ≠ .auctionSem n := fun he =>
          hfree (by rw [← he]; exact Option.isSome_iff_exists.mpr ⟨u, hm⟩)
        rw [← hheld, Function.update_of_ne hne]
        exact hm
      exact ⟨by rw [← hheld, Function.update_self],
        ⟨hu.kept h fun m u hm _ => hsem m u hm, hu.final,
          fun v _ => hu.rely fun m hm => hsem m v hm⟩,
        hu.rely fun m hm => hsem m t hm⟩

/-- Freeing a semaphore that the thread has, when it is not moving money. -/
theorem moves_unlock (h : Kept plan w) (hsem : w.held (.auctionSem n) = some t) (hfree : Free t w)
    (hs : apiMachine.logged.step t (.sys (.unlock (.auctionSem n))) w.1 = some (r, s)) :
    Unchanged plan w (s, w.2) ∧ (booksLogic plan).Moves t w (s, w.2) := by
  have hu : Unchanged plan w (s, w.2) := unchanged_of_locks (.inr rfl) hs
  have hheld := Option.some.inj (apiMachine_logged_step.mp hs).1
  have hother (m : UInt32) (u : ι) (hut : u ≠ t) (hm : w.held (.auctionSem m) = some u) :
      s.1.held (.auctionSem m) = some u := by
    have hne : Lock.auctionSem m ≠ .auctionSem n := fun he =>
      hut (Option.some.inj (hm.symm.trans (he ▸ hsem)))
    rw [← hheld, Function.update_of_ne hne]
    exact hm
  refine ⟨hu, hu.kept h fun m u hm hi => ?_, hu.final,
    fun v hv => hu.rely fun m hm => hother m v hv hm⟩
  obtain ⟨i, -, hi⟩ := hi
  exact hother m u (fun he => hfree i (he ▸ hi)) hm

end Semaphores

/-! ## calls that touch one account -/

/-- The step of thread `t` touches the account of auction `i` at most, and
only its own money. -/
structure Touches (plan : Plan ι) (t : ι) (i : UInt32) (w w' : World ι) : Prop where
  closer : ∀ u, plan.closer i = some u → u = t
  others : ∀ j, j ≠ i → account plan w' j = account plan w j ∧ w'.owner j = w.owner j
  mine : w.owner i = some t ∨ w.owner i = none
  mine' : w'.owner i = some t ∨ w'.owner i = none
  sem : ∀ n, w'.held (.auctionSem n) = w.held (.auctionSem n)
  final : ¬ (account plan w i).IsOpen →
    (account plan w' i).record = (account plan w i).record ∧
      (account plan w' i).placed = (account plan w i).placed
  slack : ∀ u, u ≠ t → ∀ j ∈ plan.jobs u, ∀ k x, j.Bids k x → (account plan w' k).IsOpen →
    slack w k x ≤ slack w' k x
  deposited : ∀ u, depositedIn w'.log u = depositedIn w.log u

section Touches

variable {w w' : World ι} {i : UInt32}

/-- A step on one auction leaves what is final. -/
theorem Touches.guar (h : Touches plan t i w w') : Final plan w w' := by
  intro j hj
  by_cases hji : j = i
  · subst hji
    exact h.final hj
  · rw [(h.others j hji).1]
    exact ⟨rfl, rfl⟩

/-- The other threads do not mind it. -/
theorem Touches.rely (h : Touches plan t i w w') {u : ι} (hu : u ≠ t) : Rely plan u w w' where
  final := h.guar
  owned j hj := by
    by_cases hji : j = i
    · subst hji
      rcases h.mine with hm | hm
      · exact absurd (Option.some.inj (hj.symm.trans hm)) hu
      · exact absurd (hj.symm.trans hm) (by simp)
    · obtain ⟨ha, ho⟩ := h.others j hji
      exact ⟨ho.trans hj, ha⟩
  owner j hj := by
    by_cases hji : j = i
    · subst hji
      rcases h.mine' with hm | hm
      · exact absurd (Option.some.inj (hj.symm.trans hm)) hu
      · exact absurd (hj.symm.trans hm) (by simp)
    · rw [← (h.others j hji).2]
      exact hj
  closer j hj := by
    have hji : j ≠ i := fun he => hu (h.closer u (he ▸ hj))
    obtain ⟨ha, ho⟩ := h.others j hji
    exact ⟨ho, ha⟩
  sem n hn := (h.sem n).trans hn
  slack := h.slack u hu
  deposited u _ := h.deposited u

/-- What is left to show of a step that touches one account. -/
theorem Kept.touch (hk : Kept plan w) (h : Touches plan t i w w')
    (covered : Covered w'.cover w'.store.users w'.store.auctions)
    (balance : ∀ u ∈ w'.store.users, ∀ u₀ ∈ readRec plan.first.users u.userId,
      u.walletBalance = u₀.walletBalance + depositedIn w'.log u.userId +
        (paid w'.log).total w'.store.auctions u.userId)
    (userIds : w'.store.users.map User.userId = w.store.users.map User.userId)
    (fixed : w'.store.auctions.map Auction.fixed = w.store.auctions.map Auction.fixed)
    (bids_le : w.store.bids.length ≤ w'.store.bids.length)
    (atRest : w'.owner i = none → ∀ a₀ ∈ readRec plan.first.auctions i,
      ∃ a, AtRest a₀ a (account plan w' i))
    (calls : ∀ a₀ ∈ readRec plan.first.auctions i, ∀ a ∈ readRec w'.store.auctions i,
      closeCalls i w'.log <+: callsBetween a₀ a)
    (locked : w'.owner i = some t → (account plan w' i).IsOpen →
      w.held (auctionSem i) = some t)
    (placed : (account plan w' i).placed = (account plan w i).placed ∧
        (∀ a₀, (account plan w i).RecordOf a₀ → (account plan w' i).RecordOf a₀) ∨
      ∃ j ∈ plan.jobs t, ∃ u, j.Bids i u) :
    (booksLogic plan).Moves t w w' where
  inv := {
    covered := covered
    balance := balance
    userIds := userIds.trans hk.userIds
    fixed := fixed.trans hk.fixed
    bids_le := hk.bids_le.trans bids_le
    atRest := fun j a₀ ha₀ hj => by
      by_cases hji : j = i
      · subst hji
        exact atRest hj a₀ ha₀
      · obtain ⟨ha, ho⟩ := h.others j hji
        rw [ha]
        exact hk.atRest j a₀ ha₀ (ho.symm.trans hj)
    calls := fun j a₀ ha₀ a ha => by
      by_cases hji : j = i
      · subst hji
        exact calls a₀ ha₀ a ha
      · have hacc := (h.others j hji).1
        have hcalls : closeCalls j w'.log = closeCalls j w.log := congrArg Account.calls hacc
        have hrecord : readRec w'.store.auctions j = readRec w.store.auctions j :=
          congrArg Account.record hacc
        rw [hcalls]
        exact hk.calls j a₀ ha₀ a (hrecord ▸ ha)
    locked := fun j u hj hopen => by
      refine (h.sem _).trans ?_
      by_cases hji : j = i
      · subst hji
        rcases h.mine' with hm | hm
        · obtain rfl : t = u := Option.some.inj (hm.symm.trans hj)
          exact locked hj hopen
        · exact absurd (hj.symm.trans hm) (by simp)
      · obtain ⟨ha, ho⟩ := h.others j hji
        exact hk.locked j u (ho.symm.trans hj) (ha ▸ hopen)
    closer := fun j u hj => by
      by_cases hji : j = i
      · subst hji
        rw [h.closer u hj]
        exact h.mine'.symm
      · rw [(h.others j hji).2]
        exact hk.closer j u hj
    undeposited := fun u hu => (h.deposited u).trans (hk.undeposited u hu)
    unbid := fun j hj => by
      by_cases hji : j = i
      · subst hji
        rcases placed with ⟨hp, hr⟩ | ⟨b, hb, u, hu⟩
        · obtain ⟨hnil, hrec⟩ := hk.unbid j hj
          exact ⟨hp.trans hnil, fun a₀ ha₀ => hr a₀ (hrec a₀ ha₀)⟩
        · exact absurd hu (hj t b hb u)
      · rw [(h.others j hji).1]
        exact hk.unbid j hj }
  guar := h.guar
  rely _ hu := h.rely hu

end Touches

/-! ## wallets -/

section Wallets

variable {w w' : World ι} {i u : UInt32} {bd hd : ℚ}

/-- What is read of wallets after one has been adjusted. -/
theorem readRec_adjustWallet {users : List User} {id x : UInt32} :
    readRec (adjustWallet id bd hd users) x = (readRec users x).map fun y =>
      if y.userId = id then y.withWallet (y.walletBalance + bd) (y.walletHold + hd) else y := by
  simp [readRec, adjustWallet]

/-- Changing a wallet and an entry of the cover raises the slack of the others,
and that of the user wherever the balance makes up for the hold. -/
theorem slack_le_of_adjust (hnum : Numbered User.userId w.store.users)
    (husers : w'.store.users = adjustWallet u bd hd w.store.users)
    (hcover : w'.cover = w.cover.add i u hd) {k x : UInt32}
    (h : x = u → 0 ≤ bd - if k = i then 0 else hd) : slack w k x ≤ slack w' k x := by
  simp only [slack, husers, hcover, readRec_adjustWallet]
  cases hx : readRec w.store.users x with
  | none => exact le_rfl
  | some y =>
      obtain ⟨-, rfl⟩ := hnum.readRec_eq_some.mp hx
      simp only [Option.map_some]
      by_cases hy : y.userId = u
      · have hle := h hy
        simp only [hy, if_true, User.withWallet_walletBalance, User.withWallet_walletHold,
          Cover.add]
        by_cases hk : k = i
        · simp only [hk, if_true, and_self] at hle ⊢
          linarith
        · simp only [hk, if_false, false_and] at hle ⊢
          linarith
      · simp only [hy, if_false, Cover.add, and_false, le_refl]

/-- Balances after a wallet of the user has changed by what the auction has
paid. -/
theorem Kept.balance_adjust (hk : Kept plan w) {a : Auction}
    (ha : readRec w.store.auctions i = some a)
    (husers : w'.store.users = adjustWallet u bd hd w.store.users)
    (hauctions : w'.store.auctions = w.store.auctions)
    (hdep : ∀ x, depositedIn w'.log x = depositedIn w.log x)
    (hpaid : paid w'.log = (paid w.log).add i u bd) :
    ∀ x ∈ w'.store.users, ∀ x₀ ∈ readRec plan.first.users x.userId,
      x.walletBalance = x₀.walletBalance + depositedIn w'.log x.userId +
        (paid w'.log).total w'.store.auctions x.userId := by
  obtain ⟨hmem, rfl⟩ := hk.covered.auctions_numbered.readRec_eq_some.mp ha
  have hnd := hk.covered.auctions_numbered.nodup
  intro x hx x₀ hx₀
  rw [husers] at hx
  obtain ⟨z, hz, rfl⟩ := List.mem_map.mp hx
  rw [hauctions, hdep, hpaid]
  by_cases hid : z.userId = u
  · rw [if_pos hid] at hx₀ ⊢
    have hbal := hk.balance z hz x₀ hx₀
    simp only [User.withWallet_walletBalance, User.withWallet_userId]
    rw [hid, Cover.total_add_self hnd hmem, ← hid]
    linarith
  · rw [if_neg hid] at hx₀ ⊢
    rw [Cover.total_add_of_ne hid]
    exact hk.balance z hz x₀ hx₀

variable {site : Site} {c : WalletCall} {r : Int} {s : Shared ι × List (ι × Event ApiSig)}
  {a : Auction} {x : Account}

/-- The account after a wallet call that moves `hd` of the user's hold. -/
def Account.afterCall (x : Account) (u : UInt32) (hd : ℚ) (calls : List WalletCall) : Account :=
  { x with
    cover := fun v => if v = u then x.cover v + hd else x.cover v
    calls := x.calls ++ calls }

/-- The books after it, when `o` owns the account from then on. -/
def Books.afterCall (g : Books ι) (i u : UInt32) (hd : ℚ) (o : Option ι) : Books ι :=
  ⟨g.cover.add i u hd, Function.update g.owner i o⟩

/-- What covers the holds of the auction grows by the delta. -/
theorem Cover.add_row {cover : Cover} :
    cover.add i u hd i = fun v => if v = u then cover i v + hd else cover i v := by
  funext v
  simp [Cover.add]

/-- That of the others stays. -/
theorem Cover.add_row_of_ne {cover : Cover} {j : UInt32} (h : j ≠ i) :
    cover.add i u hd j = cover j := by
  funext v
  exact Cover.add_of_ne (.inl h)

/-- A wallet call is entered in the account of its auction. -/
theorem account_afterCall {o : Option ι} (w : World ι)
    (hs : apiMachine.logged.step t (.wallet site c) w.1 = some (r, s)) :
    account plan (s, w.2.afterCall i u hd o) i =
      (account plan w i).afterCall u hd (closeCall i ⟨.wallet site c, r⟩).toList := by
  obtain ⟨-, -, hstore, hlog⟩ := apiMachine_logged_step.mp hs
  simp only [account, Account.afterCall, Books.afterCall, World.store, World.cover, World.log,
    hstore, hlog, exec_wallet_auctions, exec_wallet_bids, closeCalls_append, Cover.add_row]

/-- **A wallet call** for auction `i` of thread `t`, which owns its account:
the wallet of `u` changes by `bd` and `hd`, and so do what has been paid and
the cover. -/
theorem moves_wallet {o : Option ι} (hk : Kept plan w)
    (hs : apiMachine.logged.step t (.wallet site c) w.1 = some (r, s))
    (ha : readRec w.store.auctions i = some a) (hown : w.owner i = some t)
    (hsite : site = .placeBid i ∨ site = .close i)
    (husers : c.users w.store.users = adjustWallet u bd hd w.store.users)
    (hcovered : Covered (w.cover.add i u hd) (adjustWallet u bd hd w.store.users)
      w.store.auctions)
    (hpay : site = .close i ∧ (∀ v, c.payment v = if v = u then bd else 0) ∨
      site = .placeBid i ∧ bd = 0)
    (hcloser : ∀ v, plan.closer i = some v → v = t)
    (hslack : ∀ v, v ≠ t → ∀ j ∈ plan.jobs v, ∀ k, j.Bids k u → (account plan w k).IsOpen →
      0 ≤ bd - if k = i then 0 else hd)
    (hcalls : ∀ a₀ ∈ readRec plan.first.auctions i,
      closeCalls i w.log ++ (closeCall i ⟨.wallet site c, r⟩).toList <+: callsBetween a₀ a)
    (ho : o = some t ∨ o = none ∧ ∀ a₀ ∈ readRec plan.first.auctions i, AtRest a₀ a
      ((account plan w i).afterCall u hd (closeCall i ⟨.wallet site c, r⟩).toList)) :
    Touches plan t i w (s, w.2.afterCall i u hd o) ∧
      (booksLogic plan).Moves t w (s, w.2.afterCall i u hd o) := by
  obtain ⟨hl, -, hstore, hlog⟩ := apiMachine_logged_step.mp hs
  have hauctions : s.1.store.auctions = w.store.auctions := by rw [hstore, exec_wallet_auctions]
  have hbids : s.1.store.bids = w.store.bids := by rw [hstore, exec_wallet_bids]
  have husers' : s.1.store.users = adjustWallet u bd hd w.store.users := by
    rw [hstore, exec_wallet_users, husers]
  have hnone (j : UInt32) (hj : j ≠ i) : closeCall j ⟨.wallet site c, r⟩ = none := by
    rcases hsite with rfl | rfl <;> simp [closeCall, hj.symm]
  have hacc : account plan (s, w.2.afterCall i u hd o) i =
      (account plan w i).afterCall u hd (closeCall i ⟨.wallet site c, r⟩).toList :=
    account_afterCall w hs
  have hother (j : UInt32) (hj : j ≠ i) :
      account plan (s, w.2.afterCall i u hd o) j = account plan w j := by
    simp only [account, Books.afterCall, World.store, World.cover, World.log, hauctions, hbids,
      hlog, closeCalls_append_of_none (hnone j hj), Cover.add_row_of_ne hj]
  have hopen (k : UInt32) (h : (account plan (s, w.2.afterCall i u hd o) k).IsOpen) :
      (account plan w k).IsOpen := by
    change ∃ a ∈ readRec s.1.store.auctions k, _ at h
    rw [hauctions] at h
    exact h
  have hdep (v : UInt32) : depositedIn s.2 v = depositedIn w.log v := by
    rw [hlog, depositedIn_append]
    rcases hsite with rfl | rfl <;> exact add_zero _
  have hpaid : paid s.2 = (paid w.log).add i u bd := by
    rw [hlog]
    rcases hpay with ⟨rfl, hpay⟩ | ⟨rfl, rfl⟩
    · exact paid_append_close hpay
    · rw [Cover.add_zero]
      exact paid_append fun _ => rfl
  have htouch : Touches plan t i w (s, w.2.afterCall i u hd o) := {
    closer := hcloser
    others := fun j hj => ⟨hother j hj, Function.update_of_ne hj _ _⟩
    mine := .inl hown
    mine' := by
      simp only [World.owner, Books.afterCall, Function.update_self]
      exact ho.imp id And.left
    sem := fun n => congrFun (Option.some.inj hl).symm _
    final := fun _ => by rw [hacc]; exact ⟨rfl, rfl⟩
    slack := fun v hv j hj k y hb hk' => by
      refine slack_le_of_adjust hk.covered.users_numbered husers' rfl fun he => ?_
      exact hslack v hv j hj k (he ▸ hb) (hopen k hk')
    deposited := hdep }
  refine ⟨htouch, hk.touch htouch (by rw [hauctions, husers']; exact hcovered)
    (hk.balance_adjust ha husers' hauctions hdep hpaid)
    (by rw [husers', map_userId_adjustWallet]) (by rw [hauctions]) (by rw [hbids]) ?_ ?_ ?_
    (.inl (by rw [hacc]; exact ⟨rfl, fun _ h => h⟩))⟩
  · intro hnone a₀ ha₀
    simp only [World.owner, Books.afterCall, Function.update_self] at hnone
    rcases ho with rfl | ⟨-, hrest⟩
    · cases hnone
    · exact ⟨a, hacc ▸ hrest a₀ ha₀⟩
  · intro a₀ ha₀ b hb
    rw [hauctions] at hb
    obtain rfl : a = b := Option.some.inj (ha.symm.trans hb)
    rw [World.log, hlog, closeCalls_append]
    exact hcalls a₀ ha₀
  · exact fun _ h => hk.locked i t hown (hopen i h)

end Wallets

/-! ## records and bids -/

section Records

variable {w : World ι} {i : UInt32} {a x : Auction} {b : Bid} {r : Int} {o : Option ι}
  {s : Shared ι × List (ι × Event ApiSig)}

/-- The books when `o` owns the account of `i` from now on. -/
def Books.ownedBy (g : Books ι) (i : UInt32) (o : Option ι) : Books ι :=
  { g with owner := Function.update g.owner i o }

/-- A record that is read is stored under its identifier. -/
theorem Kept.mem_of_record (hk : Kept plan w) (ha : readRec w.store.auctions i = some a) :
    a ∈ w.store.auctions ∧ a.auctionId = i :=
  hk.covered.auctions_numbered.readRec_eq_some.mp ha

/-- The account of an open auction is open. -/
theorem isOpen_of_record (ha : readRec w.store.auctions i = some a)
    (hopen : a.status = .auctionOpen) : (account plan w i).IsOpen := ⟨a, ha, hopen⟩

/-- **Writing the record** of an open auction, when the account is the thread's
or nobody's. -/
theorem moves_writeAuction (hk : Kept plan w)
    (hs : apiMachine.logged.step t (.sys (.writeAuction x)) w.1 = some (r, s))
    (ha : readRec w.store.auctions i = some a) (hopen : a.status = .auctionOpen)
    (hid : x.auctionId = i) (hmine : w.owner i = some t ∨ w.owner i = none)
    (hseller : x.sellerId = a.sellerId)
    (hleader : x.highestBidderId ≠ 0 → ∃ u ∈ w.store.users, u.userId = x.highestBidderId)
    (hpos : 0 < x.currentBid) (hcloser : ∀ v, plan.closer i = some v → v = t)
    (hcalls : ∀ a₀ ∈ readRec plan.first.auctions i, closeCalls i w.log <+: callsBetween a₀ x)
    (ho : o = some t ∨ o = none ∧ ∀ a₀ ∈ readRec plan.first.auctions i,
      AtRest a₀ x { account plan w i with record := some x })
    (hlock : o = some t → x.status = .auctionOpen → w.held (auctionSem i) = some t)
    (hchange : x = a.withStatus x.status ∨ ∃ j ∈ plan.jobs t, ∃ u, j.Bids i u) :
    Touches plan t i w (s, w.2.ownedBy i o) ∧
      (booksLogic plan).Moves t w (s, w.2.ownedBy i o) ∧
      account plan (s, w.2.ownedBy i o) i = { account plan w i with record := some x } := by
  obtain ⟨hl, -, hstore, -⟩ := apiMachine_logged_step.mp hs
  obtain ⟨hmem, rfl⟩ := hk.mem_of_record ha
  obtain ⟨hwrite, hcovered⟩ := hk.covered.writeAuction (x := x) hmem hid
    (hseller ▸ hk.covered.seller_mem a hmem) hleader hpos
  have hauctions : s.1.store.auctions = overwrite Auction.auctionId x w.store.auctions := by
    rw [hstore]
    exact hwrite
  have husers : s.1.store.users = w.store.users := by rw [hstore]; rfl
  have hbids : s.1.store.bids = w.store.bids := by rw [hstore]; rfl
  obtain ⟨hclose, hpaid, hdep⟩ := sameMoney_of_sys hs
  have hread (j : UInt32) : readRec s.1.store.auctions j =
      if a.auctionId = j then some x else readRec w.store.auctions j := by
    rw [hstore, ← hid]
    exact readRec_writeRec (by rw [hid, ha]; rfl)
  have hacc : account plan (s, w.2.ownedBy a.auctionId o) a.auctionId =
      { account plan w a.auctionId with record := some x } := by
    simp only [account, World.store, World.cover, World.log, Books.ownedBy, hread, hbids, hclose,
      if_true]
  have hother (j : UInt32) (hj : j ≠ a.auctionId) :
      account plan (s, w.2.ownedBy a.auctionId o) j = account plan w j := by
    simp only [account, World.store, World.cover, World.log, Books.ownedBy, hread, hbids, hclose,
      hj.symm, if_false]
  have htouch : Touches plan t a.auctionId w (s, w.2.ownedBy a.auctionId o) := {
    closer := hcloser
    others := fun j hj => ⟨hother j hj, Function.update_of_ne hj _ _⟩
    mine := hmine
    mine' := by
      simp only [World.owner, Books.ownedBy, Function.update_self]
      exact ho.imp id And.left
    sem := fun n => congrFun (Option.some.inj hl).symm _
    final := fun hc => absurd (isOpen_of_record ha hopen) hc
    slack := fun v hv j hj k y hb hk' => by
      simp only [slack, World.store, World.cover, Books.ownedBy, husers, le_refl]
    deposited := hdep }
  refine ⟨htouch, hk.touch htouch ?_ ?_ (by rw [husers]) ?_ (by rw [hbids]) ?_ ?_ ?_
    (hchange.imp (fun hx => ?_) id), hacc⟩
  · rw [husers, hauctions]
    exact hcovered
  · intro u hu u₀ hu₀
    rw [husers] at hu
    rw [hauctions, hdep, hpaid, Cover.total_overwrite]
    exact hk.balance u hu u₀ hu₀
  · rw [hauctions, overwrite, List.map_map]
    refine List.map_congr_left fun z hz => ?_
    simp only [Function.comp]
    split
    · next he =>
        obtain rfl := hk.covered.auctions_numbered.eq_of_id hz hmem (he.trans hid)
        simp only [Auction.fixed, hid, hseller]
    · rfl
  · intro hnone a₀ ha₀
    simp only [World.owner, Books.ownedBy, Function.update_self] at hnone
    rcases ho with rfl | ⟨-, hrest⟩
    · cases hnone
    · exact ⟨x, hacc ▸ hrest a₀ ha₀⟩
  · intro a₀ ha₀ y hy
    rw [hread, if_pos rfl] at hy
    obtain rfl : x = y := Option.some.inj hy
    rw [World.log, hclose]
    exact hcalls a₀ ha₀
  · intro hnone hx
    simp only [World.owner, Books.ownedBy, Function.update_self] at hnone
    rw [hacc] at hx
    obtain ⟨y, hy, hxopen⟩ := hx
    obtain rfl : x = y := Option.some.inj hy
    exact hlock hnone hxopen
  · rw [hacc]
    refine ⟨rfl, fun a₀ hrecord₀ => ?_⟩
    obtain ⟨status, hrecord⟩ := hrecord₀
    obtain rfl : a = a₀.withStatus status := Option.some.inj (ha.symm.trans hrecord)
    exact ⟨x.status, congrArg some hx⟩

/-- **Appending a bid** on an open auction whose account the thread owns. -/
theorem moves_appendBid (hk : Kept plan w)
    (hs : apiMachine.logged.step t (.sys (.appendBid b)) w.1 = some (r, s))
    (ha : readRec w.store.auctions i = some a) (hopen : a.status = .auctionOpen)
    (hid : b.auctionId = i) (hown : w.owner i = some t)
    (hcloser : ∀ v, plan.closer i = some v → v = t)
    (hb : ∃ j ∈ plan.jobs t, ∃ u, j.Bids i u)
    (hrest : ∀ a₀ ∈ readRec plan.first.auctions i, AtRest a₀ a
      { account plan w i with placed := (account plan w i).placed ++ [(b.bidderId, b.amount)] }) :
    Touches plan t i w (s, w.2.ownedBy i none) ∧
      (booksLogic plan).Moves t w (s, w.2.ownedBy i none) := by
  obtain ⟨hl, -, hstore, -⟩ := apiMachine_logged_step.mp hs
  have hauctions : s.1.store.auctions = w.store.auctions := by rw [hstore]; rfl
  have husers : s.1.store.users = w.store.users := by rw [hstore]; rfl
  have hbids : s.1.store.bids = w.store.bids ++ [b] := by rw [hstore]; rfl
  obtain ⟨hclose, hpaid, hdep⟩ := sameMoney_of_sys hs
  have hacc : account plan (s, w.2.ownedBy i none) i =
      { account plan w i with
        placed := (account plan w i).placed ++ [(b.bidderId, b.amount)] } := by
    simp only [account, World.store, World.cover, World.log, Books.ownedBy, hauctions, hbids,
      hclose, placedOn_append hk.bids_le, hid, if_true]
  have hother (j : UInt32) (hj : j ≠ i) :
      account plan (s, w.2.ownedBy i none) j = account plan w j := by
    have hne : b.auctionId ≠ j := fun he => hj (he.symm.trans hid)
    simp only [account, World.store, World.cover, World.log, Books.ownedBy, hauctions, hbids,
      hclose, placedOn_append hk.bids_le, hne, if_false, List.append_nil]
  have htouch : Touches plan t i w (s, w.2.ownedBy i none) := {
    closer := hcloser
    others := fun j hj => ⟨hother j hj, Function.update_of_ne hj _ _⟩
    mine := .inl hown
    mine' := .inr (Function.update_self _ _ _)
    sem := fun n => congrFun (Option.some.inj hl).symm _
    final := fun hc => absurd (isOpen_of_record ha hopen) hc
    slack := fun v hv j hj k y hb hk' => by
      simp only [slack, World.store, World.cover, Books.ownedBy, husers, le_refl]
    deposited := hdep }
  refine ⟨htouch, hk.touch htouch ?_ ?_ (by rw [husers]) (by rw [hauctions]) ?_ ?_ ?_ ?_ (.inr hb)⟩
  · rw [husers, hauctions]
    exact hk.covered
  · intro u hu u₀ hu₀
    rw [husers] at hu
    rw [hauctions, hdep, hpaid]
    exact hk.balance u hu u₀ hu₀
  · rw [hbids, List.length_append]
    omega
  · exact fun _ a₀ ha₀ => ⟨a, hacc ▸ hrest a₀ ha₀⟩
  · intro a₀ ha₀ y hy
    rw [hauctions] at hy
    rw [World.log, hclose]
    exact hk.calls i a₀ ha₀ y hy
  · intro hnone
    simp [World.owner, Books.ownedBy] at hnone

/-- **Taking over an account** that nobody owns, under the semaphore, in the
step of a quiet call. -/
theorem moves_own {op : ApiOp} {r : op.Res} (hk : Kept plan w) (hop : op.Quiet)
    (hs : apiMachine.logged.step t op w.1 = some (r, s)) (hown : w.owner i = none)
    (hsem : w.held (auctionSem i) = some t) (hcloser : ∀ v, plan.closer i = some v → v = t) :
    Touches plan t i w (s, w.2.ownedBy i (some t)) ∧
      (booksLogic plan).Moves t w (s, w.2.ownedBy i (some t)) ∧
      ∀ j, account plan (s, w.2.ownedBy i (some t)) j = account plan w j := by
  have hu : Unchanged plan w (s, w.2) := hop.unchanged hs
  have hacc (j : UInt32) : account plan (s, w.2.ownedBy i (some t)) j = account plan w j :=
    (Unchanged.account hu j :)
  have htouch : Touches plan t i w (s, w.2.ownedBy i (some t)) := {
    closer := hcloser
    others := fun j hj => ⟨hacc j, Function.update_of_ne hj _ _⟩
    mine := .inr hown
    mine' := .inl (Function.update_self _ _ _)
    sem := fun n => hop.sem (apiMachine_logged_step.mp hs).1 n
    final := fun _ => by rw [hacc]; exact ⟨rfl, rfl⟩
    slack := fun v hv j hj k y hb hk' => (Unchanged.slack hu k y).ge
    deposited := hu.deposited }
  have hkept := ((silent_of_quiet hop) w r s hk hs).1.inv
  refine ⟨htouch, hk.touch htouch hkept.covered hkept.balance (congrArg _ hu.users)
    (congrArg _ hu.auctions) hu.bids_length.ge ?_ ?_ (fun _ _ => hsem)
    (.inl (by rw [hacc]; exact ⟨rfl, fun _ h => h⟩)), hacc⟩
  · intro hnone
    simp [World.owner, Books.ownedBy] at hnone
  · exact hkept.calls i

end Records

/-! ## deposits -/

section Deposits

variable {w : World ι} {u : User} {amount : ℚ} {r : Int} {s : Shared ι × List (ι × Event ApiSig)}

/-- **A deposit** of a positive amount succeeds, and only the depositor's
thread has to know. -/
theorem moves_deposit (hk : Kept plan w)
    (hs : apiMachine.logged.step t (.wallet .deposit (.creditWallet u.userId amount)) w.1 =
      some (r, s)) (hu : u ∈ w.store.users) (hpos : 0 < amount)
    (hdepositor : plan.depositor u.userId = some t) :
    r = 0 ∧ (booksLogic plan).Moves t w (s, w.2) ∧ Final plan w (s, w.2) ∧
      ∀ x, depositedIn s.2 x = depositedIn w.log x + if u.userId = x then amount else 0 := by
  obtain ⟨hl, hr, hstore, hlog⟩ := apiMachine_logged_step.mp hs
  have hhold := hk.covered.hold_le u hu
  have hstays : u.walletHold ≤ u.walletBalance + amount := by linarith
  obtain ⟨husers, hres, hcovered⟩ := hk.covered.credit hu hstays
  have hauctions : s.1.store.auctions = w.store.auctions := by rw [hstore, exec_wallet_auctions]
  have hbids : s.1.store.bids = w.store.bids := by rw [hstore, exec_wallet_bids]
  have husers' : s.1.store.users = adjustWallet u.userId amount 0 w.store.users := by
    rw [hstore, exec_wallet_users, husers]
  have hclose (j : UInt32) : closeCalls j s.2 = closeCalls j w.log := by
    rw [hlog]
    exact closeCalls_append_of_none rfl
  have hpaid : paid s.2 = paid w.log := by
    rw [hlog]
    exact paid_append fun _ => rfl
  have hdep (x : UInt32) :
      depositedIn s.2 x = depositedIn w.log x + if u.userId = x then amount else 0 := by
    rw [hlog, depositedIn_append]
    rfl
  have hacc (j : UInt32) : account plan (s, w.2) j = account plan w j := by
    simp only [account, World.store, World.cover, World.log, hauctions, hbids, hclose]
  have hfinal : Final plan w (s, w.2) := fun j _ => by rw [hacc]; exact ⟨rfl, rfl⟩
  have hsem (n : UInt32) : s.1.held (.auctionSem n) = w.held (.auctionSem n) :=
    congrFun (Option.some.inj hl).symm _
  refine ⟨?_, ⟨?_, hfinal, fun v hv => ?_⟩, hfinal, hdep⟩
  · rw [← hr, exec_wallet_result, hres]
  · exact {
      covered := by rw [husers', hauctions]; exact hcovered
      balance := fun y hy y₀ hy₀ => by
        rw [husers'] at hy
        obtain ⟨z, hz, rfl⟩ := List.mem_map.mp hy
        rw [hauctions, hdep, hpaid]
        by_cases hid : z.userId = u.userId
        · rw [if_pos hid] at hy₀ ⊢
          have hbal := hk.balance z hz y₀ hy₀
          simp only [User.withWallet_walletBalance, User.withWallet_userId, hid, if_true] at hbal ⊢
          linarith
        · rw [if_neg hid] at hy₀ ⊢
          rw [if_neg fun he => hid he.symm, add_zero]
          exact hk.balance z hz y₀ hy₀
      userIds := by rw [husers', map_userId_adjustWallet]; exact hk.userIds
      fixed := by rw [hauctions]; exact hk.fixed
      bids_le := by rw [hbids]; exact hk.bids_le
      atRest := fun j a₀ ha₀ hj => by rw [hacc]; exact hk.atRest j a₀ ha₀ hj
      calls := by rw [hauctions]; simpa only [World.log, hclose] using hk.calls
      locked := fun j v hj hopen => (hsem _).trans (hk.locked j v hj (hacc j ▸ hopen))
      closer := hk.closer
      undeposited := fun x hx => by
        have hne : u.userId ≠ x := fun he => by
          rw [he, hx] at hdepositor
          cases hdepositor
        rw [World.log, hdep, if_neg hne, add_zero]
        exact hk.undeposited x hx
      unbid := fun j hj => by rw [hacc]; exact hk.unbid j hj }
  · exact {
      final := hfinal
      owned := fun j hj => ⟨hj, hacc j⟩
      owner := fun j hj => hj
      closer := fun j _ => ⟨rfl, hacc j⟩
      sem := fun n hn => (hsem n).trans hn
      slack := fun j _ k y _ _ => by
        refine slack_le_of_adjust (i := k) hk.covered.users_numbered husers'
          (by rw [Cover.add_zero]) fun _ => ?_
        simpa using hpos.le
      deposited := fun x hx => by
        have hne : u.userId ≠ x := fun he =>
          hv (Option.some.inj (hx.symm.trans (he ▸ hdepositor)))
        change depositedIn s.2 x = _
        rw [hdep, if_neg hne, add_zero] }

end Deposits

end OnlineAuction
