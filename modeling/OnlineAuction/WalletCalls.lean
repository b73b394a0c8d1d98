import Mathlib.Algebra.Group.Prod
import OnlineAuction.Accounting
import OnlineAuction.WalletSafety

/-!
# OnlineAuction.WalletCalls

Wallet functions called one after another.

Each of the four functions either refuses and changes nothing or adds its delta to the two
wallet fields of its user, except that a hold which would become negative is raised to zero.  On
sound wallets the guards refuse nothing but a `place_hold` for want of funds and a
`settle_payment` of more than is held, so that the wallets are the sums of what was done
(`callsExact_of_home`).  A record is written back where its own identifier says, so the users of
the calls have to be where theirs say.
-/

namespace OnlineAuction

/-! ## what the calls should do -/

def WalletCall.amount : WalletCall → ℚ
  | .placeHold _ amount | .releaseHold _ amount | .settlePayment _ amount
  | .creditWallet _ amount => amount

/-- What a call is to add to the balance and to the hold. -/
def WalletCall.delta : WalletCall → ℚ × ℚ
  | .placeHold _ amount => (0, amount)
  | .releaseHold _ amount => (0, -amount)
  | .settlePayment _ amount => (-amount, -amount)
  | .creditWallet _ amount => (amount, 0)

/-- The calls in order, and what each of them answers. -/
def callAll : List WalletCall → Prog SysSig (List Int)
  | [] => pure []
  | c :: cs => do
      let result ← c.prog
      let results ← callAll cs
      pure (result :: results)

/-- Something holds of each call: of the store before it, its answer and the store after it. -/
def EachCall (P : WalletCall → Store → Int → Store → Prop) : List WalletCall → Store → Prop
  | [], _ => True
  | c :: cs, s =>
      P c s (Prog.run Store.exec c.prog s).1 (Prog.run Store.exec c.prog s).2 ∧
        EachCall P cs (Prog.run Store.exec c.prog s).2

/-- What a call answers about an existing user. -/
def WalletCall.Decides (c : WalletCall) (u : User) (result : Int) (after : Option User) : Prop :=
  match c with
  | .placeHold _ amount => result = 0 ↔ amount ≤ u.walletBalance - u.walletHold
  | .releaseHold _ _ | .creditWallet _ _ => result = 0
  | .settlePayment _ amount => amount ≤ u.walletHold → result = 0 ∧
      ∃ w, after = some w ∧ w.walletBalance - w.walletHold = u.walletBalance - u.walletHold

/-- A call that answers `-1` changes nothing; one that answers `0` changes the two wallet fields
of its user; and which of them it is depends on the user's wallet. -/
structure CallExact (c : WalletCall) (users : List User) (result : Int) (users' : List User) :
    Prop where
  answer : result = 0 ∨ result = -1
  refused : result = -1 → users' = users
  done : result = 0 → ∃ u balance hold, readRec users c.userId = some u ∧
    users' = users.set (recPos c.userId) (u.withWallet balance hold)
  decides : ∀ u, readRec users c.userId = some u → c.Decides u result (readRec users' c.userId)

/-- A release or a settlement is of no more than is held. -/
def WalletCall.WithinHold (c : WalletCall) (users : List User) : Prop :=
  match c with
  | .placeHold _ _ | .creditWallet _ _ => True
  | .releaseHold id amount | .settlePayment id amount =>
      ∀ u, readRec users id = some u → amount ≤ u.walletHold

/-- The sum of the deltas of a user's calls that were answered `0`. -/
def doneDelta (id : UInt32) (cs : List WalletCall) (results : List Int) : ℚ × ℚ :=
  (((cs.zip results).filter fun x => x.1.userId = id ∧ x.2 = 0).map fun x => x.1.delta).sum

/-- Each call is exact, and the wallets are the sums of what was done unless a release or a
settlement is of more than is held. -/
structure CallsExact (cs : List WalletCall) (s : Store) : Prop where
  each : EachCall (fun c s result s' => CallExact c s.users result s'.users) cs s
  sums : EachCall (fun c s _ _ => c.WithinHold s.users) cs s → ∀ id u,
    readRec s.users id = some u → ∃ w,
      readRec (Prog.run Store.exec (callAll cs) s).2.users id = some w ∧
        (w.walletBalance, w.walletHold) = (u.walletBalance, u.walletHold) +
          doneDelta id cs (Prog.run Store.exec (callAll cs) s).1

/-! ## one call -/

section Call

variable {c : WalletCall} {users : List User} {u v : User} {s : Store} {id : UInt32}

/-- The record at the position of a user is the user's own. -/
def AtHome (users : List User) (id : UInt32) : Prop :=
  ∀ u, readRec users id = some u → u.userId = id

theorem run_wallet_users (c : WalletCall) (s : Store) :
    (Prog.run Store.exec c.prog s).2.users = c.users s.users := exec_wallet_users s .deposit c

theorem run_wallet_result (c : WalletCall) (s : Store) :
    (Prog.run Store.exec c.prog s).1 = c.result s.users := exec_wallet_result s .deposit c

/-- A call that goes through writes the record of its user. -/
theorem WalletCall.users_of_home (hhome : AtHome users c.userId)
    (hread : readRec users c.userId = some u) (happly : c.apply u = some v) :
    c.users users = users.set (recPos c.userId) v ∧ c.result users = 0 := by
  have hwritten : c.written (readRec users c.userId) = some v := by rw [hread]; exact happly
  have hlt : recPos c.userId < users.length := (List.getElem?_eq_some_iff.mp hread).1
  refine ⟨?_, by rw [WalletCall.result, hwritten]; rfl⟩
  rw [WalletCall.users, hwritten]
  dsimp only
  rw [c.apply_userId happly, hhome u hread, writeRec, writeAt_of_lt hlt]

/-- What a call does, when its user is at home. -/
theorem WalletCall.cases_of_home (hhome : AtHome users c.userId) :
    (c.users users = users ∧ c.result users = -1 ∧
        ∀ u, readRec users c.userId = some u → c.apply u = none) ∨
      ∃ u v, readRec users c.userId = some u ∧ c.apply u = some v ∧
        c.users users = users.set (recPos c.userId) v ∧ c.result users = 0 := by
  cases hread : readRec users c.userId with
  | none =>
      obtain ⟨husers, hresult⟩ := WalletCall.users_of_missing hread
      exact .inl ⟨husers, hresult, nofun⟩
  | some u =>
      cases happly : c.apply u with
      | none =>
          obtain ⟨husers, hresult⟩ := WalletCall.users_of_refused hread happly
          refine .inl ⟨husers, hresult, fun w hw => ?_⟩
          rwa [← Option.some.inj hw]
      | some v =>
          obtain ⟨husers, hresult⟩ := WalletCall.users_of_home hhome hread happly
          exact .inr ⟨u, v, rfl, happly, husers, hresult⟩

/-- The record of another user is read as before. -/
theorem readRec_set (hread : readRec users c.userId = some u) (id : UInt32) :
    readRec (users.set (recPos c.userId) v) id =
      if c.userId = id then some v else readRec users id := by
  have hlt : recPos c.userId < users.length := (List.getElem?_eq_some_iff.mp hread).1
  rw [readRec, List.getElem?_set]
  by_cases hid : c.userId = id
  · rw [if_pos (congrArg recPos hid), if_pos hlt, if_pos hid]
  · rw [if_neg fun he => hid (recPos_inj.mp he), if_neg hid]
    rfl

/-- When a call goes through. -/
def WalletCall.Guarded (c : WalletCall) (u : User) : Prop :=
  match c with
  | .placeHold _ amount => (c.apply u).isSome ↔ amount ≤ u.walletBalance - u.walletHold
  | .releaseHold _ _ | .creditWallet _ _ => (c.apply u).isSome
  | .settlePayment _ amount => amount ≤ u.walletHold → c.apply u =
      some (u.withWallet (u.walletBalance - amount) (u.walletHold - amount))

/-- The guards on a sound wallet. -/
theorem WalletCall.guarded_of_walletOk (hok : u.WalletOk) (hpos : 0 < c.amount) :
    c.Guarded u := by
  obtain ⟨hhold, hle⟩ := hok
  cases c with
  | placeHold id amount =>
      dsimp only [WalletCall.amount, WalletCall.Guarded, WalletCall.apply] at hpos ⊢
      by_cases hfits : amount ≤ u.walletBalance - u.walletHold
      · rw [if_neg (not_lt.mpr hfits), walletDelta_of_le (by linarith) (by linarith)]
        simp [hfits]
      · rw [if_pos (not_le.mp hfits)]
        simp [hfits]
  | releaseHold id amount =>
      dsimp only [WalletCall.amount, WalletCall.Guarded, WalletCall.apply] at hpos ⊢
      have hmax : max (u.walletHold + -amount) 0 ≤ u.walletBalance :=
        max_le (by linarith) (by linarith)
      rw [walletDelta_eq, if_neg (by linarith), if_neg (not_lt.mpr (by linarith))]
      rfl
  | settlePayment id amount =>
      dsimp only [WalletCall.amount, WalletCall.Guarded, WalletCall.apply] at hpos ⊢
      intro hfits
      rw [walletDelta_of_le (by linarith) (by linarith), sub_eq_add_neg, sub_eq_add_neg]
  | creditWallet id amount =>
      dsimp only [WalletCall.amount, WalletCall.Guarded, WalletCall.apply] at hpos ⊢
      rw [walletDelta_of_le (by linarith) (by linarith)]
      rfl

/-- A call that takes no more than is held adds its delta. -/
theorem WalletCall.apply_withinHold (hok : u.WalletOk) (hpos : 0 < c.amount)
    (hread : readRec users c.userId = some u) (hwithin : c.WithinHold users)
    (happly : c.apply u = some v) :
    v = u.withWallet (u.walletBalance + c.delta.1) (u.walletHold + c.delta.2) := by
  have hdelta {bd hd : ℚ} (h : walletDelta u bd hd = some v) (hnonneg : 0 ≤ u.walletHold + hd) :
      v = u.withWallet (u.walletBalance + bd) (u.walletHold + hd) := by
    rw [(walletDelta_eq_some h).1, max_eq_left hnonneg]
  have hhold := hok.1
  cases c with
  | placeHold id amount =>
      dsimp only [WalletCall.apply, WalletCall.amount, WalletCall.delta] at happly hpos ⊢
      split at happly
      · cases happly
      · exact hdelta happly (by linarith)
  | releaseHold id amount =>
      have hle := hwithin u hread
      dsimp only [WalletCall.delta]
      exact hdelta happly (by linarith)
  | settlePayment id amount =>
      have hle := hwithin u hread
      dsimp only [WalletCall.delta]
      exact hdelta happly (by linarith)
  | creditWallet id amount =>
      dsimp only [WalletCall.delta]
      exact hdelta happly (by linarith)

/-- **One call** is exact, on sound wallets. -/
theorem callExact_of_home (hok : ∀ u ∈ users, u.WalletOk) (hpos : 0 < c.amount)
    (hhome : AtHome users c.userId) : CallExact c users (c.result users) (c.users users) := by
  rcases WalletCall.cases_of_home hhome with
    ⟨husers, hresult, hrefused⟩ | ⟨u, v, hread, happly, husers, hresult⟩
  · rw [husers, hresult]
    refine ⟨.inr rfl, fun _ => rfl, nofun, fun u hread => ?_⟩
    have happly := hrefused u hread
    have hguards := WalletCall.guarded_of_walletOk (hok u (List.mem_of_getElem? hread)) hpos
    cases c with
    | placeHold id amount =>
        refine iff_of_false nofun fun hfits => ?_
        have hsome := hguards.mpr hfits
        rw [happly] at hsome
        cases hsome
    | releaseHold id amount | creditWallet id amount =>
        dsimp only [WalletCall.Guarded] at hguards
        rw [happly] at hguards
        cases hguards
    | settlePayment id amount =>
        intro hfits
        rw [hguards hfits] at happly
        cases happly
  · rw [husers, hresult]
    obtain ⟨⟨balance, hold, hwallet⟩, -⟩ := c.apply_eq_some happly
    refine ⟨.inl rfl, nofun, fun _ => ⟨u, balance, hold, hread, by rw [hwallet]⟩, fun w hw => ?_⟩
    obtain rfl : u = w := Option.some.inj (hread.symm.trans hw)
    have hguards := WalletCall.guarded_of_walletOk (hok u (List.mem_of_getElem? hread)) hpos
    cases c with
    | placeHold id amount => exact iff_of_true rfl (hguards.mp (by rw [happly]; rfl))
    | releaseHold id amount => exact rfl
    | settlePayment id amount =>
        intro hfits
        refine ⟨rfl, v, by rw [readRec_set hread, if_pos rfl], ?_⟩
        rw [hguards hfits] at happly
        obtain rfl := Option.some.inj happly
        simp
    | creditWallet id amount => exact rfl

/-- A call keeps the wallets sound, and everybody at home. -/
theorem kept_of_home (hok : ∀ u ∈ users, u.WalletOk) (hhome : AtHome users c.userId) :
    (∀ u ∈ c.users users, u.WalletOk) ∧ (AtHome users id → AtHome (c.users users) id) := by
  rcases WalletCall.cases_of_home hhome with
    ⟨husers, -, -⟩ | ⟨u, v, hread, happly, husers, -⟩
  · rw [husers]
    exact ⟨hok, fun h => h⟩
  · rw [husers]
    refine ⟨fun w hw => ?_, fun hid w hw => ?_⟩
    · rcases List.mem_or_eq_of_mem_set hw with hw | rfl
      · exact hok w hw
      · exact (c.apply_eq_some happly).2
    · rw [readRec_set hread] at hw
      split at hw
      · next heq =>
          obtain rfl := Option.some.inj hw
          rw [c.apply_userId happly, hhome u hread, heq]
      · exact hid w hw

/-- What a call adds to a wallet, when it takes no more than is held. -/
theorem wallet_of_home (hok : ∀ u ∈ users, u.WalletOk) (hpos : 0 < c.amount)
    (hhome : AtHome users c.userId) (hwithin : c.WithinHold users)
    (hread : readRec users id = some u) :
    ∃ w, readRec (c.users users) id = some w ∧ (w.walletBalance, w.walletHold) =
      (u.walletBalance, u.walletHold) +
        if c.userId = id ∧ c.result users = 0 then c.delta else 0 := by
  rcases WalletCall.cases_of_home hhome with
    ⟨husers, hresult, -⟩ | ⟨x, v, hx, happly, husers, hresult⟩
  · refine ⟨u, by rw [husers, hread], ?_⟩
    rw [hresult, if_neg (by simp), add_zero]
  · rw [husers, hresult]
    by_cases hid : c.userId = id
    · obtain rfl : x = u := by rw [hid, hread] at hx; exact (Option.some.inj hx).symm
      refine ⟨v, by rw [readRec_set hx, if_pos hid], ?_⟩
      rw [if_pos ⟨hid, rfl⟩, WalletCall.apply_withinHold (hok x (List.mem_of_getElem? hx)) hpos hx
        hwithin happly]
      rfl
    · refine ⟨u, by rw [readRec_set hx, if_neg hid, hread], ?_⟩
      rw [if_neg fun h => hid h.1, add_zero]

end Call

/-! ## any number of calls -/

section Calls

variable {c : WalletCall} {cs : List WalletCall} {s : Store} {id : UInt32}

theorem doneDelta_cons (id : UInt32) (result : Int) (results : List Int) :
    doneDelta id (c :: cs) (result :: results) =
      (if c.userId = id ∧ result = 0 then c.delta else 0) + doneDelta id cs results := by
  rw [doneDelta, List.zip_cons_cons, List.filter_cons]
  by_cases h : c.userId = id ∧ result = 0
  · simp [h, doneDelta]
  · simp [h, doneDelta]

/-- **Wallet functions** called in any order are exact, on sound wallets of users who are at
home. -/
theorem callsExact_of_home (hok : ∀ u ∈ s.users, u.WalletOk) (hpos : ∀ c ∈ cs, 0 < c.amount)
    (hhome : ∀ c ∈ cs, AtHome s.users c.userId) : CallsExact cs s := by
  induction cs generalizing s with
  | nil => exact ⟨trivial, fun _ id u hread => ⟨u, hread, by simp [doneDelta]⟩⟩
  | cons c cs ih =>
      have hc : AtHome s.users c.userId := hhome c (List.mem_cons_self ..)
      have hcpos : 0 < c.amount := hpos c (List.mem_cons_self ..)
      have husers := run_wallet_users c s
      have hresult := run_wallet_result c s
      have hrest : CallsExact cs (Prog.run Store.exec c.prog s).2 := by
        refine ih ?_ (fun d hd => hpos d (List.mem_cons_of_mem _ hd)) fun d hd => ?_
        · rw [husers]
          have hkept : _ ∧ (AtHome s.users c.userId → _) := kept_of_home hok hc
          exact hkept.1
        · rw [husers]
          exact (kept_of_home hok hc).2 (hhome d (List.mem_cons_of_mem _ hd))
      refine ⟨⟨?_, hrest.each⟩, fun hwithin id u hread => ?_⟩
      · dsimp only
        rw [husers, hresult]
        exact callExact_of_home hok hcpos hc
      · obtain ⟨x, hx, hwallet⟩ := wallet_of_home hok hcpos hc hwithin.1 hread
        rw [← husers] at hx
        obtain ⟨w, hw, hsum⟩ := hrest.sums hwithin.2 id x hx
        refine ⟨w, by simpa [callAll] using hw, ?_⟩
        rw [hsum, hwallet, add_assoc]
        simp [callAll, doneDelta_cons, hresult]

end Calls

/-- A bid of user `3` is settled and the seller is credited; user `9` does not exist. -/
theorem callsExact_of_home_market :
    CallsExact [.placeHold 3 60, .placeHold 3 50, .settlePayment 3 60, .creditWallet 1 60,
      .releaseHold 9 1] Store.market := by
  refine callsExact_of_home (fun u hu => ?_) (by simp [WalletCall.amount]) fun c hc u hu => ?_
  · simp only [Store.market, List.mem_cons, List.not_mem_nil, or_false] at hu
    rcases hu with rfl | rfl | rfl <;> norm_num [User.WalletOk, User.sample]
  · simp only [List.mem_cons, List.not_mem_nil, or_false] at hc
    rcases hc with rfl | rfl | rfl | rfl | rfl <;> cases hu <;> rfl

/-- User `1` does not exist, but at that position is a record of user `2`: crediting user `1`
succeeds, and writes a second record for user `2`. -/
theorem not_callsExact : ¬ ∀ (s : Store) (cs : List WalletCall), (∀ u ∈ s.users, u.WalletOk) →
    (∀ c ∈ cs, 0 < c.amount) → CallsExact cs s := by
  intro h
  have hok : (User.sample 2 roleBidder 100 0).WalletOk := by norm_num [User.WalletOk, User.sample]
  have hexact := h { Store.market with users := [.sample 2 roleBidder 100 0] } [.creditWallet 1 5]
    (by simpa using hok) (by simp [WalletCall.amount])
  obtain ⟨u, balance, hold, -, husers⟩ := hexact.each.1.done (by decide +kernel)
  have hlength := congrArg List.length husers
  rw [List.length_set] at hlength
  revert hlength
  decide +kernel

end OnlineAuction
