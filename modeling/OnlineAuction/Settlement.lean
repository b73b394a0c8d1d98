import OnlineAuction.BidLog

/-!
# OnlineAuction.Settlement

A close that settles, whatever the wallets hold.

`close_auction_internal` looks at neither what `settle_payment` answers nor what
`credit_wallet` answers, so the seller is credited when the winner's wallet refuses, and the
winner pays when the seller's does.  `allOrNothing_iff` says for which wallets the money
moves from the one to the other or not at all.
-/

namespace OnlineAuction

/-! ## what a call does to the balances -/

/-- What a call adds to the balance. -/
def WalletCall.income : WalletCall → ℚ
  | .settlePayment _ amount => -amount
  | .creditWallet _ amount => amount
  | _ => 0

/-- No guard refuses the call. -/
def WalletCall.Passes (c : WalletCall) (users : List User) : Prop :=
  (c.written (readRec users c.userId)).isSome = true

instance (c : WalletCall) (users : List User) : Decidable (c.Passes users) :=
  inferInstanceAs (Decidable (_ = _))

/-- The balance and the hold of a user. -/
def walletOf (users : List User) (id : UInt32) : Option (ℚ × ℚ) :=
  (readRec users id).map fun u => (u.walletBalance, u.walletHold)

/-- The balance of a user. -/
def balanceOf (users : List User) (id : UInt32) : Option ℚ :=
  (readRec users id).map User.walletBalance

section Calls

variable {users : List User} {u v : User} {c : WalletCall} {balanceDelta holdDelta : ℚ}

/-- The guards of `apply_wallet_delta`. -/
theorem isSome_walletDelta : (walletDelta u balanceDelta holdDelta).isSome ↔
    0 ≤ u.walletBalance + balanceDelta ∧
      u.walletHold + holdDelta ≤ u.walletBalance + balanceDelta := by
  rw [walletDelta_eq]
  split
  · next hneg => simp [not_le.mpr hneg]
  · next hnonneg =>
      split
      · next hhold =>
          have hlt : u.walletBalance + balanceDelta < u.walletHold + holdDelta := by
            rcases lt_max_iff.mp hhold with h | h
            · exact h
            · exact absurd h hnonneg
          simp [not_le.mpr hlt]
      · next hhold =>
          have hle := max_le_iff.mp (not_lt.mp hhold)
          simp [not_lt.mp hnonneg, hle.1]

theorem WalletCall.apply_income (h : c.apply u = some v) :
    v.walletBalance = u.walletBalance + c.income := by
  have hbalance {bd hd : ℚ} (h : walletDelta u bd hd = some v) :
      v.walletBalance = u.walletBalance + bd := by rw [(walletDelta_eq_some h).1]; rfl
  cases c with
  | placeHold id amount =>
      simp only [WalletCall.apply] at h
      split at h
      · cases h
      · exact hbalance h
  | _ => exact hbalance h

theorem WalletCall.users_of_not_passes (h : ¬ c.Passes users) : c.users users = users := by
  rw [Passes, Bool.not_eq_true, Option.isSome_eq_false_iff, Option.isNone_iff_eq_none] at h
  rw [WalletCall.users, h]

/-- A call that passes replaces the record of its user. -/
theorem WalletCall.Passes.exists_users (h : c.Passes users) (hnum : Numbered User.userId users) :
    ∃ u ∈ users, u.userId = c.userId ∧ ∃ v, c.apply u = some v ∧ v.userId = c.userId ∧
      c.users users = overwrite User.userId v users := by
  obtain ⟨v, hv⟩ := Option.isSome_iff_exists.mp h
  obtain ⟨u, hu, happly⟩ := Option.bind_eq_some_iff.mp hv
  obtain ⟨hmem, hid⟩ := hnum.readRec_eq_some.mp hu
  exact ⟨u, hmem, hid, v, happly, (c.apply_userId happly).trans hid,
    (WalletCall.users_eq hnum hmem hid happly).1⟩

/-- What a call does to each balance. -/
theorem WalletCall.balanceOf_users (hnum : Numbered User.userId users) (c : WalletCall)
    (id : UInt32) : balanceOf (c.users users) id =
      (balanceOf users id).map (· + if id = c.userId ∧ c.Passes users then c.income else 0) := by
  by_cases hpass : c.Passes users
  · obtain ⟨u, hu, hid, v, happly, hvid, husers⟩ := hpass.exists_users hnum
    have hread := hnum.readRec_overwrite (x := v) hu (hvid.trans hid.symm) id
    rw [husers, balanceOf, balanceOf, hread, hvid]
    by_cases hself : id = c.userId
    · have hold : readRec users id = some u := hnum.readRec_eq_some.mpr ⟨hu, hid.trans hself.symm⟩
      simp [hself, hpass, hself ▸ hold, c.apply_income happly]
    · simp [hself, Function.comp_def]
  · rw [c.users_of_not_passes hpass]
    simp [hpass]

/-- What it does to their sum. -/
theorem WalletCall.totalBalance_users (hnum : Numbered User.userId users) (c : WalletCall) :
    totalBalance (c.users users) =
      totalBalance users + if c.Passes users then c.income else 0 := by
  by_cases hpass : c.Passes users
  · obtain ⟨u, hu, hid, v, happly, hvid, husers⟩ := hpass.exists_users hnum
    have hsum := sum_map_overwrite User.walletBalance hnum.nodup hu (hvid.trans hid.symm)
    rw [husers, if_pos hpass, totalBalance, totalBalance]
    rw [c.apply_income happly] at hsum
    linarith
  · rw [c.users_of_not_passes hpass, if_neg hpass, add_zero]

end Calls

/-! ## the settlement -/

section Settlement

variable (a : Auction) (users users' : List User)

/-- What the settlement means to add to a balance. -/
def Auction.moved (id : UInt32) : ℚ :=
  (if id = a.sellerId then a.currentBid else 0) - if id = a.highestBidderId then a.currentBid else 0

/-- The amount has moved from the winner to the seller, or no wallet has changed; and the sum
of the balances is what it was. -/
def AllOrNothing : Prop :=
  ((∀ id, balanceOf users' id = (balanceOf users id).map (· + a.moved id)) ∨
      ∀ id, walletOf users' id = walletOf users id) ∧
    totalBalance users' = totalBalance users

/-- The guards of `settle_payment` pass: the winner's balance covers the amount and the
hold. -/
def Auction.PaidBy (u : User) : Prop :=
  a.currentBid ≤ u.walletBalance ∧ u.walletHold ≤ u.walletBalance

instance (u : User) : Decidable (a.PaidBy u) := inferInstanceAs (Decidable (_ ∧ _))

/-- The winner exists and can pay. -/
def Auction.WinnerPays : Prop := ∃ u, readRec users a.highestBidderId = some u ∧ a.PaidBy u

/-- What `credit_wallet` finds of a record: that of the winner has paid. -/
def Auction.paidCopy (u : User) : User :=
  if u.userId = a.highestBidderId ∧ a.PaidBy u then
    u.withWallet (u.walletBalance - a.currentBid) (max (u.walletHold - a.currentBid) 0)
  else u

/-- The seller exists and the guards of `credit_wallet` pass. -/
def Auction.SellerReceives : Prop :=
  ∃ u, readRec users a.sellerId = some u ∧ 0 ≤ (a.paidCopy u).walletBalance + a.currentBid ∧
    (a.paidCopy u).walletHold ≤ (a.paidCopy u).walletBalance + a.currentBid

variable {a users}

theorem settles_passes_iff :
    (WalletCall.settlePayment a.highestBidderId a.currentBid).Passes users ↔
      a.WinnerPays users := by
  rw [WalletCall.Passes, Auction.WinnerPays, WalletCall.userId, WalletCall.written]
  cases readRec users a.highestBidderId with
  | none => simp
  | some u =>
      simp only [Option.bind_some, WalletCall.apply, isSome_walletDelta, Auction.PaidBy]
      constructor
      · exact fun h => ⟨u, rfl, by linarith [h.1], by linarith [h.2]⟩
      · rintro ⟨_, ⟨⟩, h⟩
        exact ⟨by linarith [h.1], by linarith [h.2]⟩

/-- The record of a user after `settle_payment`. -/
theorem readRec_settled (hnum : Numbered User.userId users) (id : UInt32) :
    readRec ((WalletCall.settlePayment a.highestBidderId a.currentBid).users users) id =
      (readRec users id).map a.paidCopy := by
  have hother {w : User} (hw : w ∈ users) (hne : ¬ (w.userId = a.highestBidderId ∧ a.PaidBy w)) :
      a.paidCopy w = w := if_neg hne
  by_cases hpass : (WalletCall.settlePayment a.highestBidderId a.currentBid).Passes users
  · obtain ⟨u, hu, hid, v, happly, hvid, husers⟩ := hpass.exists_users hnum
    obtain ⟨u', hu', hpaid⟩ := settles_passes_iff.mp hpass
    obtain rfl : u = u' :=
      Option.some.inj ((hnum.readRec_eq_some.mpr ⟨hu, hid⟩).symm.trans hu')
    rw [husers, hnum.readRec_overwrite hu (hvid.trans hid.symm) id, hvid]
    split
    · next hself =>
        rw [hself, show readRec users (WalletCall.settlePayment a.highestBidderId
          a.currentBid).userId = some u from hu', Option.map_some, Auction.paidCopy,
          if_pos ⟨hid, hpaid⟩, (walletDelta_eq_some happly).1]
        simp only [sub_eq_add_neg]
    · next hself =>
        cases hread : readRec users id with
        | none => rfl
        | some w =>
            obtain ⟨hw, hwid⟩ := hnum.readRec_eq_some.mp hread
            rw [Option.map_some, hother hw fun h => hself (hwid.symm.trans h.1)]
  · rw [WalletCall.users_of_not_passes hpass]
    cases hread : readRec users id with
    | none => rfl
    | some w =>
        obtain ⟨hw, hwid⟩ := hnum.readRec_eq_some.mp hread
        rw [Option.map_some, hother hw]
        rintro ⟨hleader, hpaid⟩
        exact hpass (settles_passes_iff.mpr ⟨w, by rw [← hleader, hwid, hread], hpaid⟩)

theorem credits_passes_iff (hnum : Numbered User.userId users) :
    (WalletCall.creditWallet a.sellerId a.currentBid).Passes
        ((WalletCall.settlePayment a.highestBidderId a.currentBid).users users) ↔
      a.SellerReceives users := by
  have hread := readRec_settled (a := a) hnum a.sellerId
  rw [WalletCall.Passes, Auction.SellerReceives, WalletCall.userId, WalletCall.written, hread]
  cases readRec users a.sellerId with
  | none => simp
  | some u => simp [WalletCall.apply, isSome_walletDelta]

theorem users_closeAuctionInternal (s : Store) (a : Auction) :
    (Prog.run Api.exec (closeAuctionInternal a) s).2.users = usersAfter a.closingCalls s.users := by
  have hview : s.view (fun _ => none) = s.view fun _ => none := rfl
  exact congrArg View.users (does_closeAuctionInternal hview a).view

/-- **Settlement**: a close that settles moves the amount from the winner to the seller or
changes no wallet, and keeps the sum of the balances, exactly when the amount is zero or the
guards of the one wallet pass when those of the other do. -/
theorem allOrNothing_iff (s : Store) (hnum : Numbered User.userId s.users) (a : Auction)
    (hsettles : a.Settles) :
    AllOrNothing a s.users (Prog.run Api.exec (closeAuctionInternal a) s).2.users ↔
      a.currentBid = 0 ∨ (a.WinnerPays s.users ↔ a.SellerReceives s.users) := by
  rw [users_closeAuctionInternal, Auction.closingCalls, if_pos hsettles, usersAfter_cons,
    usersAfter_cons, usersAfter_nil, ← settles_passes_iff, ← credits_passes_iff hnum]
  generalize hpay : WalletCall.settlePayment a.highestBidderId a.currentBid = pay
  generalize hcredit : WalletCall.creditWallet a.sellerId a.currentBid = credit
  have hpayIncome : pay.income = -a.currentBid := by rw [← hpay]; rfl
  have hcreditIncome : credit.income = a.currentBid := by rw [← hcredit]; rfl
  have hpayUser : pay.userId = a.highestBidderId := by rw [← hpay]; rfl
  have hcreditUser : credit.userId = a.sellerId := by rw [← hcredit]; rfl
  have hnum' : Numbered User.userId (pay.users s.users) :=
    hnum.congr (map_userId_walletUsers hnum pay)
  have htotal := credit.totalBalance_users hnum'
  rw [pay.totalBalance_users hnum, hpayIncome, hcreditIncome] at htotal
  have hbalance (id : UInt32) := credit.balanceOf_users hnum' id
  simp only [pay.balanceOf_users hnum, Option.map_map, hpayIncome, hcreditIncome, hpayUser,
    hcreditUser] at hbalance
  have hmoved (hmove : ∀ id, (if id = a.highestBidderId ∧ pay.Passes s.users then -a.currentBid
      else 0) + (if id = a.sellerId ∧ credit.Passes (pay.users s.users) then a.currentBid else 0) =
        a.moved id) (id : UInt32) : balanceOf (credit.users (pay.users s.users)) id =
          (balanceOf s.users id).map (· + a.moved id) := by
    rw [hbalance, ← hmove]
    refine congrArg (fun f => (balanceOf s.users id).map f) (funext fun b => ?_)
    simp only [Function.comp, add_assoc]
  constructor
  · rintro ⟨-, hkept⟩
    rw [htotal] at hkept
    by_cases hpass : pay.Passes s.users <;> by_cases hpass' : credit.Passes (pay.users s.users)
    · exact .inr (by simp [hpass, hpass'])
    · rw [if_pos hpass, if_neg hpass'] at hkept
      exact .inl (by linarith)
    · rw [if_neg hpass, if_pos hpass'] at hkept
      exact .inl (by linarith)
    · exact .inr (by simp [hpass, hpass'])
  · rintro (hzero | hiff)
    · refine ⟨.inl (hmoved fun id => ?_), ?_⟩
      · simp [Auction.moved, hzero]
      · rw [htotal, hzero]
        simp
    · by_cases hpass : pay.Passes s.users
      · have hpass' := hiff.mp hpass
        refine ⟨.inl (hmoved fun id => ?_), ?_⟩
        · simp only [hpass, hpass', and_true, Auction.moved]
          split <;> split <;> ring
        · rw [htotal, if_pos hpass, if_pos hpass']
          ring
      · have hpass' : ¬ credit.Passes (pay.users s.users) := fun h => hpass (hiff.mpr h)
        rw [credit.users_of_not_passes hpass', pay.users_of_not_passes hpass]
        exact ⟨.inr fun _ => rfl, rfl⟩

end Settlement

/-! ## a winner who cannot pay -/

/-- An open auction that the second user leads. -/
def shortAuction : Auction :=
  ⟨1, .zero _, .zero _, 1, 100, 0, 150, 2, .auctionOpen, 1000, 1060, 1, false⟩

/-- Its seller and the leader with this balance. -/
def shortStore (balance : ℚ) : Store :=
  { Store.seeded adminSha256Hex 0 1000 with
    users := [⟨1, .zero _, .zero _, .zero _, roleAuctioneer, accountActive, 20, 0, 0, 0, false⟩,
      ⟨2, .zero _, .zero _, .zero _, roleBidder, accountActive, balance, 150, 0, 0, false⟩]
    auctions := [shortAuction] }

/-- The leader can pay. -/
theorem allOrNothing_iff_paid : AllOrNothing shortAuction (shortStore 200).users
    (Prog.run Api.exec (closeAuctionInternal shortAuction) (shortStore 200)).2.users := by
  refine (allOrNothing_iff (shortStore 200) (by decide +kernel) shortAuction (by decide)).mpr
    (.inr ⟨fun _ => ?_, fun _ => ?_⟩)
  · exact ⟨_, rfl, by decide +kernel, by decide +kernel⟩
  · exact ⟨_, rfl, by decide +kernel, by decide +kernel⟩

/-- The leader cannot, and the seller is credited all the same. -/
theorem not_allOrNothing :
    ¬ ∀ s : Store, Numbered User.userId s.users → ∀ a : Auction, a.Settles →
      AllOrNothing a s.users (Prog.run Api.exec (closeAuctionInternal a) s).2.users := by
  intro h
  have hkept := (h (shortStore 50) (by decide +kernel) shortAuction (by decide)).2
  exact absurd hkept (by decide +kernel)

end OnlineAuction
