import OnlineAuction.Wallet
import Mathlib.Tactic.Linarith

/-!
# OnlineAuction.WalletEffect

What a wallet function does, as one step.

`WalletCall.apply` is the new record that a call makes of the user's record,
or `none` when it refuses; `exec_wallet` says that executing the program of a
call amounts to that: on refusal the users are as before and the call answers
`-1`, otherwise only the user's record is rewritten and the call answers `0`.
-/

namespace OnlineAuction

/-! ## the new record -/

namespace WalletCall

/-- The user whose wallet a call is about. -/
def userId : WalletCall → UInt32
  | .placeHold id _ | .releaseHold id _ | .settlePayment id _ | .creditWallet id _ => id

/-- The record that a call writes, `none` when it refuses. -/
def apply : WalletCall → User → Option User
  | .placeHold _ amount, u =>
      if amount > u.walletBalance - u.walletHold then none else walletDelta u 0 amount
  | .releaseHold _ amount, u => walletDelta u 0 (-amount)
  | .settlePayment _ amount, u => walletDelta u (-amount) (-amount)
  | .creditWallet _ amount, u => walletDelta u amount 0

/-- The lines that a call adds to the log, given what it read: `place_hold`
logs nothing when it finds no record or not enough funds. -/
def lines : WalletCall → Option User → List LogLine
  | .placeHold id amount, some u =>
      if amount > u.walletBalance - u.walletHold then [] else [.hold id amount]
  | .placeHold _ _, none => []
  | .releaseHold id amount, _ => [.release id amount]
  | .settlePayment id amount, _ => [.settle id amount]
  | .creditWallet id amount, _ => [.credit id amount]

/-- The record that a call writes, given what it read. -/
def written (c : WalletCall) (r : Option User) : Option User := r.bind c.apply

end WalletCall

/-- The raised hold is a maximum. -/
theorem walletDelta_eq (u : User) (balanceDelta holdDelta : ℚ) :
    walletDelta u balanceDelta holdDelta =
      if u.walletBalance + balanceDelta < 0 then none
      else if u.walletBalance + balanceDelta < max (u.walletHold + holdDelta) 0 then none
      else some (u.withWallet (u.walletBalance + balanceDelta)
        (max (u.walletHold + holdDelta) 0)) := by
  have hmax : (if u.walletHold + holdDelta < 0 then 0 else u.walletHold + holdDelta) =
      max (u.walletHold + holdDelta) 0 := by
    split
    · next hlt => rw [max_eq_right hlt.le]
    · next hge => rw [max_eq_left (not_lt.mp hge)]
  simp only [walletDelta, hmax, gt_iff_lt]

/-- What `apply_wallet_delta` makes of a record when its guards let it. -/
theorem walletDelta_eq_some {u v : User} {balanceDelta holdDelta : ℚ}
    (h : walletDelta u balanceDelta holdDelta = some v) :
    v = u.withWallet (u.walletBalance + balanceDelta) (max (u.walletHold + holdDelta) 0) ∧
      0 ≤ v.walletHold ∧ v.walletHold ≤ v.walletBalance := by
  rw [walletDelta_eq] at h
  split at h
  · contradiction
  · split at h
    · contradiction
    · next hle =>
        obtain rfl := Option.some.inj h
        exact ⟨rfl, le_max_right _ _, not_lt.mp hle⟩

/-- No guard refuses a delta after which `0 ≤ hold ≤ balance`, and the hold is
not raised. -/
theorem walletDelta_of_le {u : User} {balanceDelta holdDelta : ℚ}
    (h0 : 0 ≤ u.walletHold + holdDelta)
    (hle : u.walletHold + holdDelta ≤ u.walletBalance + balanceDelta) :
    walletDelta u balanceDelta holdDelta =
      some (u.withWallet (u.walletBalance + balanceDelta) (u.walletHold + holdDelta)) := by
  rw [walletDelta_eq, max_eq_left h0, if_neg (not_lt.mpr (h0.trans hle)),
    if_neg (not_lt.mpr hle)]

/-- A call writes the record it read with new wallet fields, and these satisfy
`0 ≤ hold ≤ balance` whatever was read. -/
theorem WalletCall.apply_eq_some {c : WalletCall} {u v : User} (h : c.apply u = some v) :
    (∃ balance hold, v = u.withWallet balance hold) ∧
      0 ≤ v.walletHold ∧ v.walletHold ≤ v.walletBalance := by
  have key : ∀ {bd hd}, walletDelta u bd hd = some v →
      (∃ balance hold, v = u.withWallet balance hold) ∧
        0 ≤ v.walletHold ∧ v.walletHold ≤ v.walletBalance := fun hw =>
    ⟨⟨_, _, (walletDelta_eq_some hw).1⟩, (walletDelta_eq_some hw).2⟩
  cases c with
  | placeHold id amount =>
      simp only [WalletCall.apply] at h
      split at h
      · contradiction
      · exact key h
  | releaseHold id amount => exact key h
  | settlePayment id amount => exact key h
  | creditWallet id amount => exact key h

/-- A wallet call keeps the identifier. -/
theorem WalletCall.apply_userId {c : WalletCall} {u v : User} (h : c.apply u = some v) :
    v.userId = u.userId := by
  obtain ⟨⟨b, hd, rfl⟩, -⟩ := c.apply_eq_some h
  rfl

/-! ## executing a call -/

/-- The users after a call. -/
def WalletCall.users (c : WalletCall) (l : List User) : List User :=
  match c.written (readRec l c.userId) with
  | some v => writeRec .zero l v.userId v
  | none => l

/-- What a call answers. -/
def WalletCall.result (c : WalletCall) (l : List User) : Int :=
  if (c.written (readRec l c.userId)).isSome then 0 else -1

section Exec

variable (s : Store)

/-- The store after `write_user`. -/
def Store.putUser (v : User) : Store :=
  { s.create .users with users := writeRec .zero s.users v.userId v }

/-- The store after lines are added to the log. -/
def Store.putLines (lines : List LogLine) : Store := { s with txnLog := s.txnLog ++ lines }

/-- The body of the wallet functions writes the record or answers -1. -/
theorem run_applyWalletDelta (id : UInt32) (bd hd : ℚ) :
    Prog.run Store.exec (applyWalletDelta id bd hd) s =
      match (readRec s.users id).bind fun u => walletDelta u bd hd with
      | some v => (0, s.putUser v)
      | none => (-1, s) := by
  simp only [applyWalletDelta, Sys.readUser, Prog.bind_call, Prog.bind_pure, Prog.run_call,
    Store.exec]
  cases readRec s.users id with
  | none => rfl
  | some u =>
      simp only [Option.bind_some]
      cases walletDelta u bd hd <;> rfl

/-- The wallet functions without a check log the line in any case. -/
theorem run_lockedDelta (id : UInt32) (bd hd : ℚ) (line : LogLine) :
    Prog.run Store.exec (lockedDelta id bd hd line) s =
      match (readRec s.users id).bind fun u => walletDelta u bd hd with
      | some v => (0, (s.putUser v).putLines [line])
      | none => (-1, s.putLines [line]) := by
  simp only [lockedDelta, Sys.lock, Sys.unlock, Sys.logTxn, Prog.bind_call, Prog.bind_pure,
    Prog.run_call, Prog.run_bind, Store.exec, run_applyWalletDelta]
  cases (readRec s.users id).bind fun u => walletDelta u bd hd <;> rfl

/-- `place_hold` logs its line unless the funds are short. -/
theorem run_placeHold (id : UInt32) (amount : ℚ) :
    Prog.run Store.exec (placeHold id amount) s =
      match (WalletCall.placeHold id amount).written (readRec s.users id) with
      | some v => (0, (s.putUser v).putLines
          ((WalletCall.placeHold id amount).lines (readRec s.users id)))
      | none => (-1, s.putLines
          ((WalletCall.placeHold id amount).lines (readRec s.users id))) := by
  simp only [placeHold, Sys.lock, Sys.readUser, Sys.unlock, Sys.logTxn, Prog.bind_call,
    Prog.bind_pure, Prog.run_call, Store.exec]
  cases hr : readRec s.users id with
  | none => simp [WalletCall.written, WalletCall.lines, Store.exec, Store.putLines]
  | some u =>
      simp only [WalletCall.written, WalletCall.lines, WalletCall.apply, Option.bind_some]
      split
      · simp [Store.exec, Store.putLines]
      · simp only [Prog.run_bind, run_applyWalletDelta, hr, Option.bind_some]
        cases walletDelta u 0 amount <;> rfl

/-- **A wallet call as one step**: either it refuses, or it rewrites the record
of its user with `apply`. -/
theorem exec_wallet (site : Site) (c : WalletCall) :
    Api.exec (.wallet site c) s =
      match c.written (readRec s.users c.userId) with
      | some v => (0, (s.putUser v).putLines (c.lines (readRec s.users c.userId)))
      | none => (-1, s.putLines (c.lines (readRec s.users c.userId))) := by
  rw [Api.exec_wallet]
  cases c with
  | placeHold id amount => exact run_placeHold s id amount
  | releaseHold id amount => exact run_lockedDelta s id 0 (-amount) (.release id amount)
  | settlePayment id amount => exact run_lockedDelta s id (-amount) (-amount) (.settle id amount)
  | creditWallet id amount => exact run_lockedDelta s id amount 0 (.credit id amount)

/-- What a wallet call answers. -/
@[simp] theorem exec_wallet_result (site : Site) (c : WalletCall) :
    (Api.exec (.wallet site c) s).1 = c.result s.users := by
  rw [exec_wallet, WalletCall.result]
  cases c.written (readRec s.users c.userId) <;> rfl

/-- What it makes of the users. -/
@[simp] theorem exec_wallet_users (site : Site) (c : WalletCall) :
    (Api.exec (.wallet site c) s).2.users = c.users s.users := by
  rw [exec_wallet, WalletCall.users]
  cases c.written (readRec s.users c.userId) <;> rfl

/-- A wallet call leaves everything but the users and the log alone. -/
theorem exec_wallet_frame (site : Site) (c : WalletCall) :
    ∃ users txnLog present, (Api.exec (.wallet site c) s).2 =
      { s with users := users, txnLog := txnLog, present := present } := by
  rw [exec_wallet]
  cases c.written (readRec s.users c.userId) with
  | none => exact ⟨s.users, _, s.present, rfl⟩
  | some v => exact ⟨_, _, _, rfl⟩

/-- It leaves the auctions alone. -/
@[simp] theorem exec_wallet_auctions (site : Site) (c : WalletCall) :
    (Api.exec (.wallet site c) s).2.auctions = s.auctions := by
  obtain ⟨_, _, _, h⟩ := exec_wallet_frame s site c
  rw [h]

/-- It leaves the bids alone. -/
@[simp] theorem exec_wallet_bids (site : Site) (c : WalletCall) :
    (Api.exec (.wallet site c) s).2.bids = s.bids := by
  obtain ⟨_, _, _, h⟩ := exec_wallet_frame s site c
  rw [h]

/-- It leaves the disputes alone. -/
@[simp] theorem exec_wallet_disputes (site : Site) (c : WalletCall) :
    (Api.exec (.wallet site c) s).2.disputes = s.disputes := by
  obtain ⟨_, _, _, h⟩ := exec_wallet_frame s site c
  rw [h]

/-- It leaves the registry alone. -/
@[simp] theorem exec_wallet_registry (site : Site) (c : WalletCall) :
    (Api.exec (.wallet site c) s).2.registry = s.registry := by
  obtain ⟨_, _, _, h⟩ := exec_wallet_frame s site c
  rw [h]

/-- It sends nothing. -/
@[simp] theorem exec_wallet_sent (site : Site) (c : WalletCall) :
    (Api.exec (.wallet site c) s).2.sent = s.sent := by
  obtain ⟨_, _, _, h⟩ := exec_wallet_frame s site c
  rw [h]

@[simp] theorem exec_wallet_clock (site : Site) (c : WalletCall) :
    (Api.exec (.wallet site c) s).2.clock = s.clock := by
  obtain ⟨_, _, _, h⟩ := exec_wallet_frame s site c
  rw [h]

/-- Releasing the hold of a leader is at most a wallet call. -/
theorem releaseLeader_frame (site : Site) (a : Auction) :
    ∃ users txnLog present, (Prog.run Api.exec (releaseLeader site a) s).2 =
      { s with users := users, txnLog := txnLog, present := present } := by
  unfold releaseLeader
  split
  · exact exec_wallet_frame s site _
  · exact ⟨s.users, s.txnLog, s.present, rfl⟩

/-- The release of the leader's hold sends nothing. -/
@[simp] theorem run_releaseLeader_sent (site : Site) (a : Auction) :
    (Prog.run Api.exec (releaseLeader site a) s).2.sent = s.sent := by
  obtain ⟨_, _, _, h⟩ := releaseLeader_frame s site a
  rw [h]

@[simp] theorem run_releaseLeader_registry (site : Site) (a : Auction) :
    (Prog.run Api.exec (releaseLeader site a) s).2.registry = s.registry := by
  obtain ⟨_, _, _, h⟩ := releaseLeader_frame s site a
  rw [h]

end Exec

/-! ## on a numbered file -/

section Numbered

variable {users : List User} {u v : User} {c : WalletCall}

/-- On a numbered file a call of an existing user's wallet overwrites that
user's record. -/
theorem WalletCall.users_eq (h : Numbered User.userId users) (hu : u ∈ users)
    (hid : u.userId = c.userId) (hv : c.apply u = some v) :
    c.users users = overwrite User.userId v users ∧ c.result users = 0 := by
  have hread : readRec users c.userId = some u := h.readRec_eq_some.mpr ⟨hu, hid⟩
  have hw : c.written (readRec users c.userId) = some v := by rw [hread]; exact hv
  refine ⟨?_, by rw [WalletCall.result, hw]; rfl⟩
  rw [WalletCall.users, hw]
  exact h.writeRec_eq_overwrite hu (c.apply_userId hv)

/-- A call whose user does not exist changes nothing. -/
theorem WalletCall.users_of_missing (h : readRec users c.userId = none) :
    c.users users = users ∧ c.result users = -1 := by
  simp [WalletCall.users, WalletCall.result, WalletCall.written, h]

/-- A call that refuses changes nothing. -/
theorem WalletCall.users_of_refused (h : readRec users c.userId = some u)
    (hv : c.apply u = none) : c.users users = users ∧ c.result users = -1 := by
  simp [WalletCall.users, WalletCall.result, WalletCall.written, h, hv]

/-- What a call makes of a record of the file. -/
def WalletCall.update (c : WalletCall) (u : User) : User :=
  if u.userId = c.userId then (c.apply u).getD u else u

/-- Whether or not it succeeds, a call keeps the identifier. -/
@[simp] theorem WalletCall.update_userId (c : WalletCall) (u : User) :
    (c.update u).userId = u.userId := by
  unfold update
  split
  · cases h : c.apply u with
    | none => rfl
    | some v => exact c.apply_userId h
  · rfl

/-- And a hold that is not negative stays so. -/
theorem WalletCall.hold_nonneg_update (c : WalletCall) {u : User} (h : 0 ≤ u.walletHold) :
    0 ≤ (c.update u).walletHold := by
  unfold WalletCall.update
  split
  · cases happly : c.apply u with
    | none => exact h
    | some v => exact (c.apply_eq_some happly).2.1
  · exact h

/-- A call that succeeds makes its change. -/
theorem WalletCall.update_of_apply (hid : u.userId = c.userId) (h : c.apply u = some v) :
    c.update u = v := by rw [update, if_pos hid, h, Option.getD_some]

/-- The wallets of other users stay. -/
theorem WalletCall.update_of_ne (h : u.userId ≠ c.userId) : c.update u = u := if_neg h

/-- On a numbered file a call is a change of each record by itself. -/
theorem WalletCall.users_eq_map (h : Numbered User.userId users) (c : WalletCall) :
    c.users users = users.map c.update := by
  have hsame {f : User → User} (hf : ∀ u ∈ users, f u = u) : users = users.map f :=
    (List.map_congr_left hf |>.trans (List.map_id users)).symm
  cases hread : readRec users c.userId with
  | none =>
      rw [(users_of_missing hread).1]
      refine hsame fun u hu => update_of_ne fun hid => ?_
      rw [h.readRec_eq_some.mpr ⟨hu, hid⟩] at hread
      cases hread
  | some u =>
      obtain ⟨hu, hid⟩ := h.readRec_eq_some.mp hread
      have heq {w : User} (hw : w ∈ users) (hwid : w.userId = c.userId) : w = u :=
        h.eq_of_id hw hu (hwid.trans hid.symm)
      cases happly : c.apply u with
      | none =>
          rw [(users_of_refused hread happly).1]
          refine hsame fun w hw => ?_
          by_cases hwid : w.userId = c.userId
          · rw [update, if_pos hwid, heq hw hwid, happly, Option.getD_none]
          · exact update_of_ne hwid
      | some v =>
          rw [(users_eq h hu hid happly).1, overwrite]
          refine List.map_congr_left fun w hw => ?_
          rw [c.apply_userId happly, hid, update]
          split
          · next hwid => rw [heq hw hwid, happly, Option.getD_some]
          · rfl

end Numbered

end OnlineAuction
