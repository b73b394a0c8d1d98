import OnlineAuction.Accounting
import OnlineAuction.FileReach

/-!
# OnlineAuction.FileSections

The critical sections of the data files.

Every C file has mutexes of its own, so that two threads exclude each other from
a data file only when they reach it through the same C file.
`exclusive_of_run` says when that is enough: when nobody enters a file from one C
file while the request that another thread is at goes through a second one, and
so in all runs of threads whose work reaches no file from two C files; any two C
files that reach one data file let two threads into it (`bothInside_iff`).
-/

namespace OnlineAuction

section Sections

variable {ι ρ : Type} {c d : Config LockSig ι (Owned LockId ι ρ)} {t u : ι}

/-- Thread `t` is between lock and unlock of a function on `f`. -/
def InFile (c : Config LockSig ι (Owned LockId ι ρ)) (t : ι) (f : DataFile) : Prop :=
  ∃ unit, c.shared.owner (.mtx unit f) = some t

/-- No two threads are inside functions on one file. -/
def ExclusivePerFile (c : Config LockSig ι (Owned LockId ι ρ)) : Prop :=
  ∀ f t u, InFile c t f → InFile c u f → t = u

/-! ## the conditions -/

/-- A thread that reads a message is between two requests. -/
def LockOp.Reads (o : LockOp) : Prop := ∃ fd, o = .recvMsg fd

/-- The request that thread `t` is at, the clean-up of its connection or its pass
of the timer goes through a function on `f` in `unit`: before `t` reads another
message it can come to the release of that mutex. -/
def AtWork (c : Config LockSig ι (Owned LockId ι ρ)) (t : ι) (unit : TransUnit)
    (f : DataFile) : Prop :=
  (c.prog t).Soon LockOp.Reads fun o => o = LockOp.release (.mtx unit f)

/-- A thread enters `f` from one C file only while no other thread is at a request
that goes through another C file on `f`. -/
def EntersApart (c : Config LockSig ι (Owned LockId ι ρ)) (t : ι) (o : LockOp) : Prop :=
  ∀ unit f, o = .acquire (.mtx unit f) → ∀ u, u ≠ t → ∀ unit', AtWork c u unit' f → unit' = unit

/-- The works of different threads reach no data file from different C files. -/
def WorksApart (duties : ι → List Duty) : Prop :=
  ∀ t u, t ≠ u → ∀ x ∈ workSections (duties t), ∀ y ∈ workSections (duties u),
    x.2 = y.2 → x.1 = y.1

instance [Fintype ι] [DecidableEq ι] (duties : ι → List Duty) : Decidable (WorksApart duties) :=
  inferInstanceAs (Decidable (∀ t u, t ≠ u → ∀ x ∈ workSections (duties t),
    ∀ y ∈ workSections (duties u), x.2 = y.2 → x.1 = y.1))

/-! ## who is inside a file -/

instance (o : LockOp) : Nonempty o.Res := by
  cases o with
  | access op => cases op <;> infer_instance
  | _ => infer_instance

variable [DecidableEq ι] {raw : ι → (o : LockOp) → ρ → o.Res × ρ} {env : ρ → ρ → Prop}
  {ok : Config LockSig ι (Owned LockId ι ρ) → ι → LockOp → Prop}
  {unit unit' : TransUnit} {f : DataFile}

theorem eq_acquire {o : LockOp} {l : LockId} (h : serverLocks.use o = .acquire l) :
    o = .acquire l := by
  cases o with
  | acquire m => rw [LockCall.acquire.inj h]
  | _ => cases h

theorem eq_release {o : LockOp} {l : LockId} (h : serverLocks.use o = .release l) :
    o = .release l := by
  cases o with
  | release m => rw [LockCall.release.inj h]
  | _ => cases h

omit [DecidableEq ι] in
/-- Who is inside a file is at a request that goes through it: no message is read
before the mutex is released. -/
theorem atWork_of_owner (h : serverLocks.Ordered c)
    (howner : c.shared.owner (.mtx unit f) = some t) : AtWork c t unit f := by
  obtain ⟨⟨g, hg⟩, -⟩ := h t
  have hreads : ∀ o : LockOp, o.Reads → serverLocks.use o = .plain ∧ serverLocks.waits o := by
    rintro o ⟨fd, rfl⟩
    exact ⟨rfl, .inl trivial⟩
  have hheld := (hg.owner_iff _).mp howner
  exact (Locking.soon_release hreads hg.keeps hheld).mono fun o => eq_release

omit [DecidableEq ι] in
/-- Threads are still apart when who comes into a file finds nobody else inside. -/
theorem ExclusivePerFile.of_inFile (hc : ExclusivePerFile c)
    (hin : ∀ f u, InFile d u f → InFile c u f ∨ u = t ∧ ∀ w, InFile c w f → w = t) :
    ExclusivePerFile d := by
  intro f u w hu hw
  rcases hin f u hu with hu' | ⟨rfl, hall⟩
  · rcases hin f w hw with hw' | ⟨rfl, hall⟩
    · exact hc f u w hu' hw'
    · exact hall u hu'
  · rcases hin f w hw with hw' | ⟨rfl, -⟩
    · exact (hall w hw').symm
    · rfl

/-- **One step** keeps the threads apart when it meets the condition. -/
theorem ExclusivePerFile.step (hc : ExclusivePerFile c) (hordered : serverLocks.Ordered c)
    (h : Step (serverLocks.system raw env) EntersApart c d) : ExclusivePerFile d := by
  cases h with
  | begin hidle hq => exact hc
  | @call t o k r s hp hok hs =>
      refine hc.of_inFile (t := t) fun f u hu => ?_
      obtain ⟨unit, hu⟩ := hu
      rw [Config.goOn_shared] at hu
      rcases Locking.system_step_owner hs with
        ⟨l, huse, hfree, howner⟩ | ⟨l, -, howner⟩ | ⟨-, howner⟩
      · rw [howner, Function.update_apply] at hu
        split at hu
        · next heq =>
            subst heq
            refine .inr ⟨(Option.some.inj hu).symm, fun w hw => ?_⟩
            -- whoever is inside by another mutex would be at a request of another C file
            obtain ⟨unit', hw⟩ := hw
            by_contra hne
            have hsame := hok unit f (eq_acquire huse) w hne unit' (atWork_of_owner hordered hw)
            rw [hsame, hfree] at hw
            cases hw
        · exact .inl ⟨unit, hu⟩
      · rw [howner, Locking.owner_update_none] at hu
        exact .inl ⟨unit, hu.2⟩
      · rw [howner] at hu
        exact .inl ⟨unit, hu⟩
  | @env s hs =>
      refine fun f t u ht hu => hc f t u ?_ ?_
      · simpa only [InFile, hs.1] using ht
      · simpa only [InFile, hs.1] using hu

section Works

variable {sha256Hex : List UInt8 → List UInt8} {s₀ : ρ} {duties : ι → List Duty}

/-- The threads take and release no mutex that their works do not list. -/
theorem callsIn_works (h : Run (serverLocks.system raw env) ok
      (.start ⟨fun _ => none, s₀⟩ fun t => (duties t).map (Duty.prog sha256Hex)) d) :
    d.CallsIn fun t => LockOp.Through (workSections (duties t)) := by
  refine h.inv (fun c d hc hstep => hc.step hstep) fun t => ⟨trivial, fun p hp => ?_⟩
  obtain ⟨duty, hduty, rfl⟩ := List.mem_map.mp hp
  exact (duty.through_prog sha256Hex).subset fun x hx =>
    List.mem_flatMap.mpr ⟨duty, hduty, hx⟩

/-- A request goes through sections on the list of the thread's work. -/
theorem mem_workSections_of_atWork (h : Run (serverLocks.system raw env) ok
      (.start ⟨fun _ => none, s₀⟩ fun t => (duties t).map (Duty.prog sha256Hex)) d)
    (hwork : AtWork d t unit f) : (unit, f) ∈ workSections (duties t) := by
  obtain ⟨o, rfl, ho⟩ := hwork.exists_pre (callsIn_works h t).1
  exact ho

/-- Who is inside a file by the mutex of a C file has both on the list of its work. -/
theorem mem_workSections_of_owner (h : Run (serverLocks.system raw env) ok
      (.start ⟨fun _ => none, s₀⟩ fun t => (duties t).map (Duty.prog sha256Hex)) d)
    (howner : d.shared.owner (.mtx unit f) = some t) : (unit, f) ∈ workSections (duties t) := by
  have hordered : serverLocks.Ordered d := Locking.Ordered.of_run (tidy_duties sha256Hex duties) h
  exact mem_workSections_of_atWork h (atWork_of_owner hordered howner)

/-- Threads whose works are apart meet the condition at every call. -/
theorem WorksApart.entersApart (hapart : WorksApart duties)
    (h : Run (serverLocks.system raw env) ok
      (.start ⟨fun _ => none, s₀⟩ fun t => (duties t).map (Duty.prog sha256Hex)) d)
    {o : LockOp} {k : o.Res → Prog LockSig Unit} (hp : d.prog t = .call o k) :
    EntersApart d t o := by
  rintro unit f rfl u hu unit' hwork
  have hcalls := (callsIn_works h t).1
  rw [hp] at hcalls
  exact hapart u t hu _ (mem_workSections_of_atWork h hwork) _ hcalls.1 rfl

end Works

end Sections

/-! ## two threads in one file -/

/-- The C files that reach a data file through functions of `file_io.h`. -/
def DataFile.units : DataFile → List TransUnit
  | .users => [.auth, .bidHandler, .wallet, .dispute, .admin]
  | .auctions => [.bidHandler, .auctionEngine, .dispute]
  | .bids | .feedback => [.bidHandler]
  | .sessions => [.auth, .server]
  | .disputes => [.dispute]
  | .txnLog => [.auth, .auctionEngine, .bidHandler, .wallet, .dispute, .admin]

instance : Fintype DataFile where
  elems := {.users, .auctions, .bids, .sessions, .disputes, .feedback, .txnLog}
  complete f := by cases f <;> decide

theorem mem_units_of_request (m : Request) : ∀ x ∈ m.sections, x.1 ∈ x.2.units := by
  cases m <;> simp [Request.sections, placeBidSections, closeSections, walletSections,
    DataFile.units]

/-- No work reaches a file from any other C file. -/
theorem mem_units_of_work {duties : List Duty} {unit : TransUnit} {f : DataFile}
    (h : (unit, f) ∈ workSections duties) : unit ∈ f.units := by
  have hconversation (messages : List Request) :
      ∀ x ∈ conversationSections messages, x.1 ∈ x.2.units := by
    intro x hx
    rcases List.mem_append.mp hx with hx | hx
    · obtain ⟨m, -, hx⟩ := List.mem_flatMap.mp hx
      exact mem_units_of_request m x hx
    · obtain rfl := List.mem_singleton.mp hx
      decide
  obtain ⟨duty, -, hx⟩ := List.mem_flatMap.mp h
  cases duty with
  | work wakeups messages | converse fd c messages => exact hconversation messages _ hx
  | timer =>
      have hclose : ∀ x ∈ closeSections, x.1 ∈ x.2.units := by decide
      exact hclose _ hx
  | enqueue fd | notify userId type payload => cases hx

/-- A connection of user `id` that sends one message. -/
def asks (id : UInt32) (role : Role) (m : Request) : Duty :=
  .converse id.toNat ⟨true, .sample id role 100 0⟩ [m]

/-- Work by which a thread alone comes into a file from a C file, and the number of
its steps up to there.  The files that one C file reaches are left out. -/
def wayInto : TransUnit → DataFile → Duty × Nat
  | .auth, .users => (.converse 4 .fresh [.login ⟨.zero _, .zero _, []⟩], 3)
  | .bidHandler, .users => (asks 3 roleBidder (.placeBid ⟨1, 20⟩), 7)
  | .wallet, .users => (asks 3 roleBidder .viewBalance, 3)
  | .dispute, .users => (asks 9 roleModerator (.toggleAccount ⟨2, accountInactive⟩), 3)
  | .admin, .users => (asks 9 roleAdmin (.changeRole ⟨3, roleAuctioneer⟩), 3)
  | .bidHandler, .auctions => (asks 3 roleBidder (.placeBid ⟨1, 20⟩), 3)
  | .auctionEngine, .auctions => (asks 1 roleAuctioneer (.closeAuction ⟨1⟩), 3)
  | .dispute, .auctions => (asks 3 roleBidder (.fileDispute ⟨1, .zero _⟩), 3)
  | .auth, .sessions => (asks 3 roleBidder .logout, 4)
  | .server, .sessions => (.converse 4 ⟨true, .sample 2 roleBidder 100 0⟩ [], 3)
  | .auth, .txnLog => (asks 3 roleBidder .logout, 13)
  | .auctionEngine, .txnLog =>
      (asks 1 roleAuctioneer (.createAuction ⟨.zero _, .zero _, 10, 0, 60⟩), 10)
  | .bidHandler, .txnLog => (asks 3 roleBidder (.placeBid ⟨1, 20⟩), 68)
  | .wallet, .txnLog => (asks 3 roleBidder (.deposit ⟨50⟩), 15)
  | .dispute, .txnLog => (asks 9 roleModerator (.toggleAccount ⟨2, accountInactive⟩), 14)
  | .admin, .txnLog => (asks 9 roleAdmin (.changeRole ⟨3, roleAuctioneer⟩), 14)
  | _, _ => (.timer, 0)

/-- Two threads on their way into `f` from two C files, in the market. -/
def twoWaysInto (unit unit' : TransUnit) (f : DataFile) :
    Config LockSig (Fin 2) (Owned LockId (Fin 2) (Store × List Int)) :=
  .start ⟨fun _ => none, .market, []⟩ fun t =>
    [if t = 0 then (wayInto unit f).1 else (wayInto unit' f).1].map (Duty.prog fun _ => [])

/-- The thread with the longer way goes first, since a bid also logs in `wallet.c`. -/
def intoBoth (n m : Nat) : List (Fin 2) :=
  if m ≤ n then List.replicate n 0 ++ List.replicate m 1
  else List.replicate m 1 ++ List.replicate n 0

/-- One after the other they come inside. -/
theorem bothInside_twoWaysInto : ∀ f : DataFile, ∀ unit ∈ f.units, ∀ unit' ∈ f.units,
    unit ≠ unit' →
    let d := (twoWaysInto unit unit' f).after (serverLocks.system (fun _ => LockOp.exec) Eq)
      anyStep (intoBoth (wayInto unit f).2 (wayInto unit' f).2)
    d.shared.owner (.mtx unit f) = some 0 ∧ d.shared.owner (.mtx unit' f) = some 1 := by
  decide +kernel

/-- In some run of two threads both are inside `f`, each from its own C file. -/
def BothInside (unit unit' : TransUnit) (f : DataFile) : Prop :=
  ∃ (duties : Fin 2 → List Duty) (d : Config LockSig (Fin 2) (Owned LockId (Fin 2) _)),
    Reach (serverLocks.system (fun _ => LockOp.exec) Eq) (.start ⟨fun _ => none, .market, []⟩
      fun t => (duties t).map (Duty.prog fun _ => [])) d ∧
    d.shared.owner (.mtx unit f) = some 0 ∧ d.shared.owner (.mtx unit' f) = some 1

/-- **Which C files do not exclude each other**: any two that reach the data file. -/
theorem bothInside_iff {unit unit' : TransUnit} (hne : unit ≠ unit') (f : DataFile) :
    BothInside unit unit' f ↔ unit ∈ f.units ∧ unit' ∈ f.units := by
  constructor
  · rintro ⟨duties, d, h, howner, howner'⟩
    exact ⟨mem_units_of_work (mem_workSections_of_owner h howner),
      mem_units_of_work (mem_workSections_of_owner h howner')⟩
  · rintro ⟨hunit, hunit'⟩
    exact ⟨fun t => [if t = 0 then (wayInto unit f).1 else (wayInto unit' f).1], _,
      Run.after _, bothInside_twoWaysInto f unit hunit unit' hunit' hne⟩

/-! ## exclusion -/

section Exclusion

variable {ι ρ : Type} [DecidableEq ι] {raw : ι → (o : LockOp) → ρ → o.Res × ρ}
  {env : ρ → ρ → Prop}

/-- **Exclusion per file, and when it is lost.**  In a run of the server's threads in
which a file is only entered from one C file while no other thread is at a request that
goes through another C file on it, no two threads are ever inside functions on one
file; threads whose works reach no file from two C files meet that in every run; and
any two C files that reach one file let two threads into it. -/
theorem exclusive_of_run (sha256Hex : List UInt8 → List UInt8) (s₀ : ρ) (duties : ι → List Duty) :
    (∀ d, Run (serverLocks.system raw env) EntersApart
        (.start ⟨fun _ => none, s₀⟩ fun t => (duties t).map (Duty.prog sha256Hex)) d →
      ExclusivePerFile d) ∧
    (WorksApart duties → ∀ d, Reach (serverLocks.system raw env)
        (.start ⟨fun _ => none, s₀⟩ fun t => (duties t).map (Duty.prog sha256Hex)) d →
      ExclusivePerFile d) ∧
    ∀ unit unit' f, unit ≠ unit' →
      (BothInside unit unit' f ↔ unit ∈ f.units ∧ unit' ∈ f.units) := by
  have hstart (t : ι) : ∀ f : DataFile, ¬ InFile (ρ := ρ)
      (.start ⟨fun _ => none, s₀⟩ fun t => (duties t).map (Duty.prog sha256Hex)) t f := by
    rintro f ⟨unit, ht⟩
    cases ht
  have hexclusive : ∀ d, Run (serverLocks.system raw env) EntersApart
      (.start ⟨fun _ => none, s₀⟩ fun t => (duties t).map (Duty.prog sha256Hex)) d →
      ExclusivePerFile d := by
    intro d h
    induction h with
    | refl => exact fun f t u ht => absurd ht (hstart t f)
    | tail hrun hstep ih =>
        exact ih.step (Locking.Ordered.of_run (tidy_duties sha256Hex duties) hrun) hstep
  refine ⟨hexclusive, fun hapart d h => hexclusive d ?_, fun unit unit' f hne =>
    bothInside_iff hne f⟩
  exact h.strengthen fun e he t op k hp => hapart.entersApart he hp

end Exclusion

/-! ### two writers of one record -/

/-- A moderator switches the account of user 2 off, in `dispute.c`, while user 2
deposits, in `wallet.c`. -/
def toggleAndDeposit : Fin 2 → List Duty
  | 0 => [.converse 4 ⟨true, .sample 9 roleModerator 0 0⟩ [.toggleAccount ⟨2, accountInactive⟩]]
  | 1 => [.converse 5 ⟨true, .sample 2 roleBidder 100 10⟩ [.deposit ⟨50⟩]]

/-- The two threads before their first step. -/
def toggleAndDepositStart : Config LockSig (Fin 2) (Owned LockId (Fin 2) (Store × List Int)) :=
  .start ⟨fun _ => none, .market, []⟩ fun t => (toggleAndDeposit t).map (Duty.prog fun _ => [])

/-- Each is about to write the record, and each holds its own file's mutex. -/
theorem not_exclusive_toggleAndDeposit :
    ¬ ∀ d, Reach (serverLocks.system (fun _ => LockOp.exec) Eq) toggleAndDepositStart d →
      ExclusivePerFile d := by
  intro hall
  have hsame : (0 : Fin 2) = 1 :=
    hall _ (Run.after (List.replicate 10 0 ++ List.replicate 11 1)) .users 0 1
      ⟨.dispute, by decide +kernel⟩ ⟨.wallet, by decide +kernel⟩
  exact absurd hsame (by decide)

/-- A thread that has no work yet or is about to read a message. -/
def BetweenRequests (p : Prog LockSig Unit) : Prop :=
  match p with
  | .pure () | .call (.recvMsg _) _ => True
  | .call _ _ => False

instance (p : Prog LockSig Unit) : Decidable (BetweenRequests p) :=
  match p with
  | .pure () => isTrue trivial
  | .call o _ => match o with
      | .recvMsg _ => isTrue trivial
      | .acquire _ | .release _ | .openFile _ | .seekFile _ | .access _ | .queueFull
      | .queueEmpty | .pushFd _ | .popFd | .condWait => isFalse not_false

/-- One request at a time. -/
def OneRequest {σ : Type} (c : Config LockSig (Fin 2) σ) (t : Fin 2) (_ : LockOp) : Prop :=
  ∀ u, u ≠ t → BetweenRequests (c.prog u)

instance {σ : Type} (c : Config LockSig (Fin 2) σ) (t : Fin 2) (o : LockOp) :
    Decidable (OneRequest c t o) :=
  inferInstanceAs (Decidable (∀ u, u ≠ t → BetweenRequests (c.prog u)))

/-- Requests that are served one at a time meet the condition. -/
theorem entersApart_of_oneRequest {ρ : Type} {c : Config LockSig (Fin 2) (Owned LockId (Fin 2) ρ)}
    {t : Fin 2} {o : LockOp} (h : OneRequest c t o) : EntersApart c t o := by
  intro unit f _ u hu unit' hwork
  have hbetween := h u hu
  unfold AtWork at hwork
  cases hp : c.prog u with
  | pure a =>
      rw [hp] at hwork
      cases hwork
  | call o k =>
      rw [hp] at hwork hbetween
      cases o with
      | recvMsg fd =>
          rcases hwork with heq | ⟨hstop, -⟩
          · cases heq
          · exact absurd ⟨fd, rfl⟩ hstop
      | _ => cases hbetween

/-- Two users deposit, and a third one leaves feedback. -/
def depositsAndFeedback : Fin 3 → List Duty
  | 0 => [asks 2 roleBidder (.deposit ⟨50⟩)]
  | 1 => [asks 3 roleBidder (.deposit ⟨20⟩)]
  | 2 => [asks 3 roleBidder (.submitFeedback ⟨1, .zero _⟩)]

/-- The deposit only begins when the moderator's request is through; and deposits and
feedback may be served in any order. -/
theorem exclusive_of_run_toggleThenDeposit :
    (let d := toggleAndDepositStart.after (serverLocks.system (fun _ => LockOp.exec) Eq)
      OneRequest (List.replicate 17 0 ++ List.replicate 11 1)
    ExclusivePerFile d ∧ InFile d 1 .users) ∧
    (let d := (Config.start ⟨fun _ => none, .market, []⟩ fun t =>
        (depositsAndFeedback t).map (Duty.prog fun _ => [])).after
      (serverLocks.system (fun _ => LockOp.exec) Eq) anyStep
      (List.replicate 6 2 ++ List.replicate 5 0 ++ List.replicate 4 1)
    ExclusivePerFile d ∧ InFile d 0 .users ∧ InFile d 2 .feedback) :=
  ⟨⟨(exclusive_of_run (fun _ => []) _ toggleAndDeposit).1 _
      ((Run.after _).weaken fun _ _ _ => entersApart_of_oneRequest), .wallet, by decide +kernel⟩,
    (exclusive_of_run (fun _ => []) _ depositsAndFeedback).2.1 (by decide +kernel) _
      (Run.after _),
    ⟨.wallet, by decide +kernel⟩, .bidHandler, by decide +kernel⟩

end OnlineAuction
