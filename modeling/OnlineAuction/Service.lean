import OnlineAuction.SeedAdmin
import OnlineAuction.Server

/-!
# OnlineAuction.Service

The server as a state machine whose steps are whole requests.

A `Server` is the store together with the locals of `handle_client` for every
open connection.  An `Input` is what can happen next: a client connects, sends a
message or is gone, the timer closes an auction, the clock moves on, or the
process is killed and `main` runs again.  `Server.handle` executes it without
interruption and `Server.calls` lists the calls that are made.

`Serves` are the runs.  Identifiers have 32 bits, so a step needs room for one
more record (`Store.HasRoom`); runs may be restricted further by a condition on
each step.  A conversation with one client and a pass of the timer, as they
stand in the source, are runs of such steps (`run_clientLoop`, `run_timerPass`).
-/

namespace OnlineAuction

/-! ## the state -/

/-- The store and, by file descriptor, the open connections. -/
structure Server where
  store : Store
  conns : Int → Option Conn

/-- The registry of a process that has just started. -/
def emptyRegistry : List RegistryEntry := List.replicate maxRegistry ⟨0, 0, false⟩

/-- A new installation, with no client. -/
def Server.seeded (sha256Hex : List UInt8 → List UInt8) (createdAt now : Int) : Server :=
  ⟨.seeded sha256Hex createdAt now, fun _ => none⟩

/-- What can happen between two requests. -/
inductive Input
  | connect (clientFd : Int)
  | message (clientFd : Int) (m : Request)
  | disconnect (clientFd : Int)
  | timerClose (auctionId : UInt32)
  | clock (now : Int)
  | restart

/-- The kernel gives a new connection a descriptor that is not in use. -/
def Input.Possible (s : Server) : Input → Prop
  | .connect clientFd => 0 < clientFd ∧ s.conns clientFd = none
  | _ => True

instance (s : Server) (i : Input) : Decidable (i.Possible s) := by
  unfold Input.Possible
  split <;> infer_instance

/-- There is an identifier left in each of the files that are addressed by
identifier. -/
structure Store.HasRoom (s : Store) : Prop where
  users : s.users.length < 2 ^ 32 - 1
  auctions : s.auctions.length < 2 ^ 32 - 1
  disputes : s.disputes.length < 2 ^ 32 - 1

instance (s : Store) : Decidable s.HasRoom :=
  decidable_of_iff (s.users.length < 2 ^ 32 - 1 ∧ s.auctions.length < 2 ^ 32 - 1 ∧
      s.disputes.length < 2 ^ 32 - 1)
    ⟨fun ⟨hu, ha, hd⟩ => ⟨hu, ha, hd⟩, fun h => ⟨h.users, h.auctions, h.disputes⟩⟩

/-! ## one step -/

section Steps

variable (sha256Hex : List UInt8 → List UInt8)

/-- What an input does to the store before any call is made: the clock moves,
and a new process starts with an empty registry. -/
def Input.before : Input → Store → Store
  | .clock now, s => { s with clock := now }
  | .restart, s => { s with registry := emptyRegistry }
  | _, s => s

/-- The locals of a connection after a message; `none` once it is closed. -/
def turn (clientFd : Int) (c : Conn) (m : Request) : Prog ApiSig (Option Conn) := do
  let (c, running) ← serve sha256Hex clientFd c m
  if running then pure (some c)
  else do
    cleanUp c
    pure none

/-- The program that an input runs, and the connections after it. -/
def Input.prog (conns : Int → Option Conn) : Input → Prog ApiSig (Int → Option Conn)
  | .connect clientFd => pure (Function.update conns clientFd (some .fresh))
  | .message clientFd m => match conns clientFd with
      | none => pure conns
      | some c => do
          let c ← turn sha256Hex clientFd c m
          pure (Function.update conns clientFd c)
  | .disconnect clientFd => match conns clientFd with
      | none => pure conns
      | some c => do
          cleanUp c
          pure (Function.update conns clientFd none)
  | .timerClose auctionId => do
      OnlineAuction.timerClose auctionId
      pure conns
  | .clock _ => pure conns
  | .restart => pure fun _ => none

/-- The server after an input. -/
def Server.handle (s : Server) (i : Input) : Server :=
  let r := Prog.run Api.exec (i.prog sha256Hex s.conns) (i.before s.store)
  ⟨r.2, r.1⟩

/-- The calls that an input makes, with their answers. -/
def Server.calls (s : Server) (i : Input) : List (Event ApiSig) :=
  Prog.trace Api.exec (i.prog sha256Hex s.conns) (i.before s.store)

/-- A message was written to a connection. -/
def Answered (clientFd : Int) (type : MessageType) (status : ErrCode)
    (calls : List (Event ApiSig)) : Prop :=
  ∃ payload, (⟨.sys (.send clientFd ⟨type, status, payload⟩), ()⟩ : Event ApiSig) ∈ calls

/-- The call writes such a message. -/
def answers (clientFd : Int) (type : MessageType) (status : ErrCode) : Event ApiSig → Bool
  | ⟨.sys (.send fd m), _⟩ => fd == clientFd && m.type == type && m.status == status
  | _ => false

/-- That an answer is among the calls can be computed. -/
theorem answered_iff {clientFd : Int} {type : MessageType} {status : ErrCode}
    {calls : List (Event ApiSig)} :
    Answered clientFd type status calls ↔ calls.any (answers clientFd type status) = true := by
  rw [List.any_eq_true]
  constructor
  · rintro ⟨payload, h⟩
    exact ⟨_, h, by simp [answers]⟩
  · rintro ⟨⟨op, r⟩, h, he⟩
    unfold answers at he
    split at he
    · next fd m _ heq =>
        simp only [Bool.and_eq_true, beq_iff_eq] at he
        obtain ⟨⟨rfl, rfl⟩, rfl⟩ := he
        rw [heq] at h
        exact ⟨m.payload, h⟩
    · cases he

instance {clientFd : Int} {type : MessageType} {status : ErrCode} {calls : List (Event ApiSig)} :
    Decidable (Answered clientFd type status calls) := decidable_of_iff _ answered_iff.symm

/-! ## runs -/

/-- The runs from `s₀` whose steps satisfy `ok`, with all the calls made. -/
inductive Serves (ok : Server → Input → Prop) (s₀ : Server) :
    List (Event ApiSig) → Server → Prop
  | refl : Serves ok s₀ [] s₀
  | step {calls : List (Event ApiSig)} {s : Server} {i : Input} (h : Serves ok s₀ calls s)
      (hroom : s.store.HasRoom) (hpossible : i.Possible s) (hok : ok s i) :
      Serves ok s₀ (calls ++ s.calls sha256Hex i) (s.handle sha256Hex i)

/-- The condition of the unrestricted runs. -/
def anyInput : Server → Input → Prop := fun _ _ => True

instance (s : Server) (i : Input) : Decidable (anyInput s i) := inferInstanceAs (Decidable True)

variable {sha256Hex} {ok : Server → Input → Prop} {s₀ s s' : Server}
  {calls calls' : List (Event ApiSig)}

/-- One run after another. -/
theorem Serves.trans (h : Serves sha256Hex ok s₀ calls s)
    (h' : Serves sha256Hex ok s calls' s') : Serves sha256Hex ok s₀ (calls ++ calls') s' := by
  induction h' with
  | refl => rwa [List.append_nil]
  | step _ hroom hpossible hok ih =>
      rw [← List.append_assoc]
      exact ih.step hroom hpossible hok

/-- The condition of a run may be weakened. -/
theorem Serves.weaken {ok' : Server → Input → Prop} (h : Serves sha256Hex ok s₀ calls s)
    (hok : ∀ s i, ok s i → ok' s i) : Serves sha256Hex ok' s₀ calls s := by
  induction h with
  | refl => exact .refl
  | step _ hroom hpossible hi ih => exact ih.step hroom hpossible (hok _ _ hi)

/-- **Invariant rule** for runs of requests. -/
theorem Serves.inv {P : Server → Prop}
    (hstep : ∀ s i, P s → s.store.HasRoom → i.Possible s → ok s i → P (s.handle sha256Hex i))
    (h : Serves sha256Hex ok s₀ calls s) (hs : P s₀) : P s := by
  induction h with
  | refl => exact hs
  | step _ hroom hpossible hok ih => exact hstep _ _ ih hroom hpossible hok

/-- Several inputs one after the other. -/
def Server.handleAll (sha256Hex : List UInt8 → List UInt8) (s : Server) (is : List Input) :
    Server := is.foldl (Server.handle sha256Hex) s

@[simp] theorem handleAll_nil (s : Server) : s.handleAll sha256Hex [] = s := rfl

/-- One input after the other. -/
@[simp] theorem handleAll_cons (s : Server) (i : Input) (is : List Input) :
    s.handleAll sha256Hex (i :: is) = (s.handle sha256Hex i).handleAll sha256Hex is := rfl

/-- The calls that they make. -/
def Server.callsAll (sha256Hex : List UInt8 → List UInt8) (s : Server) :
    List Input → List (Event ApiSig)
  | [] => []
  | i :: is => s.calls sha256Hex i ++ (s.handle sha256Hex i).callsAll sha256Hex is

/-- Every input of a list is possible and satisfies the condition when its turn
comes. -/
def Scripted (sha256Hex : List UInt8 → List UInt8) (ok : Server → Input → Prop) (s : Server) :
    List Input → Prop
  | [] => True
  | i :: is => (s.store.HasRoom ∧ i.Possible s ∧ ok s i) ∧
      Scripted sha256Hex ok (s.handle sha256Hex i) is

instance Scripted.decidable [∀ s i, Decidable (ok s i)] :
    (s : Server) → (is : List Input) → Decidable (Scripted sha256Hex ok s is)
  | _, [] => inferInstanceAs (Decidable True)
  | s, i :: is =>
      have := Scripted.decidable (s.handle sha256Hex i) is
      inferInstanceAs (Decidable (_ ∧ _))

/-- A login with the first password. -/
def logIn (clientFd : Int) (name : List UInt8) : Input :=
  .message clientFd (.login ⟨.ofBytes _ name, .ofBytes _ adminPassword, []⟩)

/-- The administrator gives a new user the first password, too. -/
def addUser (clientFd : Int) (name : List UInt8) (role : Role) : Input :=
  .message clientFd
    (.addUser ⟨.ofBytes _ name, .ofBytes _ adminPassword, .ofBytes _ name, role, []⟩)

/-- A change of password, to the same one. -/
def changePass (clientFd : Int) : Input :=
  .message clientFd (.changePass ⟨.ofBytes _ adminPassword, .ofBytes _ adminPassword, []⟩)

/-- A change of the first password. -/
def newPass (clientFd : Int) : Input :=
  .message clientFd (.changePass ⟨.ofBytes _ adminPassword, .ofBytes _ otherPassword, []⟩)

/-- The connection that an input is about. -/
def Input.fd : Input → Option Int
  | .connect fd | .message fd _ | .disconnect fd => some fd
  | _ => none

/-- A descriptor that no input is about is not in use. -/
theorem handleAll_conns_none {is : List Input} {fd : Int} (his : ∀ i ∈ is, i.fd ≠ some fd)
    (hs : s.conns fd = none) : (s.handleAll sha256Hex is).conns fd = none := by
  induction is generalizing s with
  | nil => exact hs
  | cons i is ih =>
      refine ih (fun i' hi' => his i' (List.mem_cons_of_mem _ hi')) ?_
      have hi := his i (List.mem_cons_self ..)
      cases i with
      | connect fd' =>
          have hne : fd ≠ fd' := fun h => hi (h ▸ rfl)
          simp [Server.handle, Input.prog, hne, hs]
      | message fd' m | disconnect fd' =>
          have hne : fd ≠ fd' := fun h => hi (h ▸ rfl)
          cases hc : s.conns fd' <;> simp [Server.handle, Input.prog, hc, hne, hs]
      | _ => simp [Server.handle, Input.prog, hs]

/-- A connection that is there has sent something. -/
theorem mem_fds_of_conns {is : List Input} {fd : Int} {c : Conn} (hs : s.conns fd = none)
    (h : (s.handleAll sha256Hex is).conns fd = some c) : fd ∈ is.filterMap Input.fd := by
  by_contra hne
  have hnone : (s.handleAll sha256Hex is).conns fd = none :=
    handleAll_conns_none (fun i hi he => hne (List.mem_filterMap.mpr ⟨i, hi, he⟩)) hs
  rw [hnone] at h
  cases h

/-- A list of inputs is executed by a run. -/
theorem Serves.of_script {is : List Input} (h : Scripted sha256Hex ok s is) :
    Serves sha256Hex ok s (s.callsAll sha256Hex is) (s.handleAll sha256Hex is) := by
  induction is generalizing s with
  | nil => exact .refl
  | cons i is ih =>
      obtain ⟨⟨hroom, hpossible, hok⟩, hrest⟩ := h
      exact Serves.trans (.step .refl hroom hpossible hok) (ih hrest)

/-- A script whose conditions are computed is a run. -/
theorem Serves.of_scripted {is : List Input} (h : Scripted sha256Hex ok s is) :
    ∃ calls, Serves sha256Hex ok s calls (s.handleAll sha256Hex is) := ⟨_, .of_script h⟩

/-- A new installation after a list of inputs. -/
abbrev played (is : List Input) : Server :=
  (Server.seeded adminSha256Hex 0 1000).handleAll adminSha256Hex is

/-- The runs of a new installation. -/
abbrev Plays (ok : Server → Input → Prop) (calls : List (Event ApiSig)) (s : Server) : Prop :=
  Serves adminSha256Hex ok (.seeded adminSha256Hex 0 1000) calls s

/-- The list can be executed. -/
abbrev Playable (ok : Server → Input → Prop) (is : List Input) : Prop :=
  Scripted adminSha256Hex ok (.seeded adminSha256Hex 0 1000) is

/-- A seller, two bidders and the administrator: one auction is open, with three bids on it, one is
closed and disputed, and there is feedback that nobody has read. -/
def marketScript : List Input :=
  [.connect 5, logIn 5 adminName, addUser 5 (ascii "ann") roleBidder,
    addUser 5 (ascii "bob") roleBidder, addUser 5 (ascii "sue") roleAuctioneer,
    .connect 6, logIn 6 (ascii "ann"), .message 6 (.deposit ⟨500⟩),
    .connect 7, logIn 7 (ascii "bob"), .message 7 (.deposit ⟨400⟩),
    .connect 8, logIn 8 (ascii "sue"),
    .message 8 (.createAuction ⟨.ofBytes _ (ascii "lamp"), .zero _, 10, 50, 600⟩),
    .message 8 (.createAuction ⟨.ofBytes _ (ascii "rug"), .zero _, 5, 0, 60⟩),
    .message 6 (.placeBid ⟨1, 20⟩), .message 7 (.placeBid ⟨1, 61 / 2⟩),
    .message 6 (.placeBid ⟨1, 60⟩), .message 7 (.placeBid ⟨2, 15⟩),
    .message 8 (.closeAuction ⟨2⟩), .message 7 (.fileDispute ⟨2, .ofBytes _ (ascii "torn")⟩),
    .message 7 (.submitFeedback ⟨2, .ofBytes _ (ascii "not as shown")⟩)]

end Steps

/-! ## the loops of the source -/

section Loops

variable (sha256Hex : List UInt8 → List UInt8) {conns : Int → Option Conn} {s : Store}
  {clientFd : Int}

/-- Nothing is done for a connection that is closed. -/
theorem handleAll_closed {s : Server} (h : s.conns clientFd = none) (ms : List Request) :
    s.handleAll sha256Hex (ms.map (.message clientFd) ++ [.disconnect clientFd]) = s := by
  induction ms with
  | nil => simp [Server.handle, Input.prog, Input.before, h]
  | cons m ms ih =>
      have hm : s.handle sha256Hex (.message clientFd m) = s := by
        simp [Server.handle, Input.prog, Input.before, h]
      rw [List.map_cons, List.cons_append, handleAll_cons, hm]
      exact ih

/-- The loop of `handle_client`, run alone, is the run of its messages, with the
end of the connection at the end. -/
theorem run_clientLoop (c : Conn) (ms : List Request) :
    (Prog.run Api.exec (clientLoop sha256Hex clientFd c ms) s).2 =
      ((⟨s, Function.update conns clientFd (some c)⟩ : Server).handleAll sha256Hex
        (ms.map (.message clientFd) ++ [.disconnect clientFd])).store := by
  induction ms generalizing c s with
  | nil => simp [clientLoop, Server.handle, Input.prog, Input.before]
  | cons m ms ih =>
      rw [List.map_cons, List.cons_append, handleAll_cons, clientLoop, Prog.run_bind]
      cases hserve : Prog.run Api.exec (serve sha256Hex clientFd c m) s with
      | mk r s' =>
          obtain ⟨c', running⟩ := r
          cases running with
          | true =>
              have hturn : (⟨s, Function.update conns clientFd (some c)⟩ : Server).handle sha256Hex
                  (.message clientFd m) = ⟨s', Function.update conns clientFd (some c')⟩ := by
                simp [Server.handle, Input.prog, Input.before, turn, hserve]
              rw [hturn]
              exact ih c'
          | false =>
              have hturn : (⟨s, Function.update conns clientFd (some c)⟩ : Server).handle sha256Hex
                  (.message clientFd m) =
                  ⟨(Prog.run Api.exec (cleanUp c') s').2, Function.update conns clientFd none⟩ := by
                simp [Server.handle, Input.prog, Input.before, turn, hserve]
              rw [hturn, handleAll_closed sha256Hex (by simp)]
              rfl

theorem handle_timerClose (id : UInt32) :
    (⟨s, conns⟩ : Server).handle sha256Hex (.timerClose id) =
      ⟨(Prog.run Api.exec (timerClose id) s).2, conns⟩ := by
  simp [Server.handle, Input.prog, Input.before]

/-- The auctions that a pass of the timer visits. -/
def timerIds (s : Store) : List UInt32 :=
  ((s.scan .auctions s.auctions).map (expiredIds s.clock)).getD []

/-- A pass of the timer, run alone, is the run of the closes that it makes. -/
theorem run_timerPass :
    (⟨(Prog.run Api.exec timerPass s).2, conns⟩ : Server) =
      (⟨s, conns⟩ : Server).handleAll sha256Hex ((timerIds s).map .timerClose) := by
  have hloop (ids : List UInt32) (s : Store) :
      (⟨(Prog.run Api.exec (closeExpired ids) s).2, conns⟩ : Server) =
        (⟨s, conns⟩ : Server).handleAll sha256Hex (ids.map .timerClose) := by
    induction ids generalizing s with
    | nil => rfl
    | cons id ids ih =>
        rw [closeExpired, Prog.run_bind, ih, List.map_cons, handleAll_cons, handle_timerClose]
  simp only [timerPass, time, scanAuctions, Prog.bind_call, Prog.bind_pure, Prog.run_call,
    Api.exec_sys, Store.exec, timerIds]
  cases s.scan .auctions s.auctions with
  | none => rfl
  | some l => exact hloop (expiredIds s.clock l) s

end Loops

end OnlineAuction
