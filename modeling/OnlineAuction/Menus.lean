import OnlineAuction.Commands
import OnlineAuction.Service

/-!
# OnlineAuction.Menus

The client from its first prompt to its end, and the server that it talks to.

`main` asks for a login until one succeeds and then runs the menu of the user's role, which asks
for a number, performs the function that has it, and asks again until the user logs out.  What is
sent depends on what is typed and on how the logins are answered (`clientMain`).  What the user
asks for is what the server executes, however the network cuts the stream (`served_of_typed`).
-/

namespace OnlineAuction

open Wire Socket

/-! ## the menus -/

/-- `menu_bidder` -/
def menuBidder (choice : Int32) : Option Action :=
  match choice.toInt with
  | 1 => some .viewAuctions
  | 2 => some .bidderPlaceBid
  | 3 => some .bidderBalance
  | 4 => some .bidderDeposit
  | 5 => some .bidderMyBids
  | 6 => some .bidderFeedback
  | 7 => some .bidderFileDispute
  | 8 => some .doChangePassword
  | 9 => some .doLogout
  | _ => none

/-- `menu_auctioneer` -/
def menuAuctioneer (choice : Int32) : Option Action :=
  match choice.toInt with
  | 1 => some .viewAuctions
  | 2 => some .auctioneerCreate
  | 3 => some .auctioneerClose
  | 4 => some .doChangePassword
  | 5 => some .doLogout
  | _ => none

/-- `menu_moderator` -/
def menuModerator (choice : Int32) : Option Action :=
  match choice.toInt with
  | 1 => some .modDisputes
  | 2 => some .modResolve
  | 3 => some .modFeedback
  | 4 => some .modToggle
  | 5 => some .doChangePassword
  | 6 => some .doLogout
  | _ => none

/-- `menu_admin` -/
def menuAdmin (choice : Int32) : Option Action :=
  match choice.toInt with
  | 1 => some .adminAddUser
  | 2 => some .adminListUsers
  | 3 => some .adminChangeRole
  | 4 => some .viewAuctions
  | 5 => some .doChangePassword
  | 6 => some .doLogout
  | _ => none

/-- `switch (me.role)` -/
def menuOf (role : Role) : Option (Int32 → Option Action) :=
  if role = roleBidder then some menuBidder
  else if role = roleAuctioneer then some menuAuctioneer
  else if role = roleModerator then some menuModerator
  else if role = roleAdmin then some menuAdmin
  else none

section Client

variable (stack : (n : Nat) → CharArray n) (atof : List UInt8 → CharArray 8)

/-- The loop of a menu, for so many turns. -/
def menuLoop (items : Int32 → Option Action) : Nat → List UInt8 → List Frame × List UInt8
  | 0, stdin => ([], stdin)
  | turns + 1, stdin =>
      let (choice, stdin) := readInt stack stdin
      match items choice with
      | none => menuLoop items turns stdin
      | some action =>
          let (frame, stdin) := action.perform stack atof stdin
          if action = .doLogout then (frame.toList, stdin)
          else
            let (frames, stdin) := menuLoop items turns stdin
            (frame.toList ++ frames, stdin)

/-- The loop of `main`, over the answers to its logins: the role of the user, if there is one.
`turns` bounds the turns of the menus. -/
def clientMain (turns : Nat) : List (Option Role) → List UInt8 → List Frame
  | [], _ => []
  | answer :: answers, stdin =>
      let (choice, stdin) := readInt stack stdin
      if choice = 1 then
        let (frame, stdin) := doLogin stdin
        match answer.bind menuOf with
        | none => frame.toList ++ clientMain turns answers stdin
        | some items =>
            let (frames, stdin) := menuLoop stack atof items turns stdin
            frame.toList ++ frames ++ clientMain turns answers stdin
      else []

end Client

/-! ## what is typed -/

/-- A turn of a menu: a number, and what follows if the menu has it. -/
structure Turn where
  choice : Int32
  command : Option Command

/-- The menu has the command under this number, and it is not the logout. -/
def Turn.Fits (items : Int32 → Option Action) (t : Turn) : Prop :=
  items t.choice = t.command.map Command.action ∧ items t.choice ≠ some .doLogout

def Turn.typed (t : Turn) : List UInt8 :=
  typedInt t.choice ++ (t.command.elim [] Command.typed)

/-- What is done in the menu of a role; `bye` is the number of the logout. -/
structure Stay where
  role : Role
  turns : List Turn
  bye : Int32

/-- A login, and what is done in the menu if it succeeds. -/
structure Visit where
  username : Line maxUsername
  password : Line maxPassword
  stay : Option Stay

/-- The numbers are those of the menu. -/
def Stay.Fits (s : Stay) : Prop :=
  ∃ items, menuOf s.role = some items ∧ (∀ t ∈ s.turns, t.Fits items) ∧
    items s.bye = some .doLogout

def Stay.typed (s : Stay) : List UInt8 := s.turns.flatMap Turn.typed ++ typedInt s.bye

def Visit.typed (v : Visit) : List UInt8 :=
  typedInt 1 ++ ((Command.login v.username v.password).typed ++ v.stay.elim [] Stay.typed)

/-- What is asked for, in order. -/
def Stay.commands (s : Stay) : List Command := s.turns.filterMap Turn.command ++ [.logout]

def Visit.commands (v : Visit) : List Command :=
  .login v.username v.password :: v.stay.elim [] Stay.commands

/-- The requests that are meant. -/
def requestsOf (atof : List UInt8 → CharArray 8) (visits : List Visit) : List Request :=
  (visits.flatMap Visit.commands).filterMap (Command.request atof)

/-- The frames carry what is meant. -/
structure Carry (atof : List UInt8 → CharArray 8) (cs : List Command) (frames : List Frame) :
    Prop where
  seen : frames.map (fun f => castRequest f.header (.ofBytes recvBuf f.payload)) =
    (cs.filterMap (Command.request atof)).map some
  fits : ∀ f ∈ frames, f.payload.length ≤ recvBuf

section Carrying

variable {stack : (n : Nat) → CharArray n} {atof : List UInt8 → CharArray 8}
  {cs cs' : List Command} {frames frames' : List Frame}

/-- What is carried in two parts of a visit. -/
theorem Carry.append (h : Carry atof cs frames) (h' : Carry atof cs' frames') :
    Carry atof (cs ++ cs') (frames ++ frames') where
  seen := by rw [List.map_append, List.filterMap_append, List.map_append, h.seen, h'.seen]
  fits f hf := (List.mem_append.mp hf).elim (h.fits f) (h'.fits f)

/-- A command that is understood is carried by its frame. -/
theorem Understood.carry {c : Command} {frame : Option Frame} (h : Understood atof c frame) :
    Carry atof [c] frame.toList where
  seen := by
    have hsent := h.sent
    cases frame with
    | none =>
        have hnone : c.request atof = none := by
          simpa [eq_comm (a := false)] using hsent
        simp [hnone]
    | some f =>
        obtain ⟨r, hr⟩ := Option.isSome_iff_exists.mp hsent.symm
        simp [h.seen f rfl, hr]
  fits f hf := h.fits f (Option.mem_toList.mp hf)

/-- **A menu** sends what is asked for, turn by turn, and then the logout. -/
theorem menuLoop_typed (stack : (n : Nat) → CharArray n) {items : Int32 → Option Action}
    (turns : List Turn) (hturns : ∀ t ∈ turns, t.Fits items) {bye : Int32}
    (hbye : items bye = some .doLogout)
    (hfinite : ∀ c ∈ turns.filterMap Turn.command, c.Finite atof) {fuel : Nat}
    (hfuel : turns.length < fuel) (more : List UInt8) : ∃ frames,
    menuLoop stack atof items fuel (turns.flatMap Turn.typed ++ (typedInt bye ++ more)) =
      (frames, more) ∧ Carry atof (turns.filterMap Turn.command ++ [.logout]) frames := by
  induction turns generalizing fuel with
  | nil =>
      obtain ⟨fuel, rfl⟩ := Nat.exists_eq_succ_of_ne_zero (Nat.ne_of_gt hfuel)
      obtain ⟨frame, hperform, hlogout⟩ := sends_meant stack .logout
        (show Command.Finite atof .logout by simp [Command.Finite, Command.amounts]) more
      refine ⟨frame.toList, ?_, hlogout.carry⟩
      simp only [Command.typed, List.nil_append, Command.action] at hperform
      simp only [List.flatMap_nil, List.nil_append, menuLoop, readInt_typedInt, hbye, hperform,
        if_true]
  | cons t turns ih =>
      obtain ⟨fuel, rfl⟩ := Nat.exists_eq_succ_of_ne_zero (Nat.ne_of_gt (Nat.zero_lt_of_lt hfuel))
      obtain ⟨choice, command⟩ := t
      obtain ⟨hitem, hstay⟩ := hturns _ (List.mem_cons_self ..)
      dsimp only at hitem hstay
      have hrest : turns.length < fuel := Nat.lt_of_succ_lt_succ hfuel
      cases command with
      | none =>
          obtain ⟨frames, hloop, hcarry⟩ := ih (fun u hu => hturns u (List.mem_cons_of_mem _ hu))
            (by simpa using hfinite) hrest
          rw [Option.map_none] at hitem
          refine ⟨frames, ?_, by simpa using hcarry⟩
          rw [List.flatMap_cons, List.append_assoc, Turn.typed, List.append_assoc, menuLoop]
          simp only [readInt_typedInt, hitem, Option.elim_none, List.nil_append, hloop]
      | some c =>
          have hcons : (⟨choice, some c⟩ :: turns).filterMap Turn.command =
              c :: turns.filterMap Turn.command := rfl
          rw [hcons] at hfinite ⊢
          obtain ⟨frames, hloop, hcarry⟩ := ih (fun u hu => hturns u (List.mem_cons_of_mem _ hu))
            (fun c hc => hfinite c (List.mem_cons_of_mem _ hc)) hrest
          obtain ⟨frame, hperform, hunderstood⟩ := sends_meant stack c
            (hfinite c (List.mem_cons_self ..))
            (turns.flatMap Turn.typed ++ (typedInt bye ++ more))
          rw [Option.map_some] at hitem
          have hnot : c.action ≠ .doLogout := fun h => hstay (by rw [hitem, h])
          refine ⟨frame.toList ++ frames, ?_, ?_⟩
          · rw [List.flatMap_cons, List.append_assoc, Turn.typed, List.append_assoc, menuLoop]
            simp only [readInt_typedInt, hitem, Option.elim_some, hperform, if_neg hnot, hloop]
          · rw [List.cons_append, ← List.singleton_append]
            exact hunderstood.carry.append hcarry

/-- **The client** sends what is asked for, visit by visit. -/
theorem clientMain_typed (visits : List Visit) (hfits : ∀ v ∈ visits, ∀ s ∈ v.stay, s.Fits)
    (hfinite : ∀ c ∈ visits.flatMap Visit.commands, c.Finite atof) {turns : Nat}
    (hturns : ∀ v ∈ visits, ∀ s ∈ v.stay, s.turns.length < turns) (more : List UInt8) :
    Carry atof (visits.flatMap Visit.commands)
      (clientMain stack atof turns (visits.map fun v => v.stay.map Stay.role)
        (visits.flatMap Visit.typed ++ more)) := by
  induction visits with
  | nil => exact ⟨rfl, by simp [clientMain]⟩
  | cons v visits ih =>
      rw [List.flatMap_cons] at hfinite
      have hrest := ih (fun u hu => hfits u (List.mem_cons_of_mem _ hu))
        (fun c hc => hfinite c (List.mem_append_right _ hc))
        fun u hu => hturns u (List.mem_cons_of_mem _ hu)
      have hv := hfits v (List.mem_cons_self ..)
      have hfuel := hturns v (List.mem_cons_self ..)
      obtain ⟨username, password, stay⟩ := v
      dsimp only at hv hfuel
      rw [List.map_cons, List.flatMap_cons, List.flatMap_cons, Visit.typed, clientMain]
      simp only [List.append_assoc, readInt_typedInt, if_true]
      have hlogin (rest : List UInt8) : SendsMeant stack atof (.login username password) rest :=
        sends_login stack username password rest
      cases stay with
      | none =>
          obtain ⟨frame, hperform, hunderstood⟩ := hlogin (visits.flatMap Visit.typed ++ more)
          simp only [Command.action, Action.perform] at hperform
          simp only [Option.elim_none, List.nil_append, hperform, Option.map_none,
            Option.bind_none]
          exact hunderstood.carry.append hrest
      | some s =>
          obtain ⟨items, hmenu, hitems, hbye⟩ := hv s rfl
          obtain ⟨frame, hperform, hunderstood⟩ :=
            hlogin (s.typed ++ (visits.flatMap Visit.typed ++ more))
          obtain ⟨frames, hloop, hcarry⟩ := menuLoop_typed stack s.turns hitems hbye
            (fun c hc => hfinite c (by
              rw [Visit.commands, Option.elim_some, Stay.commands]
              simp [hc])) (hfuel s rfl) (visits.flatMap Visit.typed ++ more)
          simp only [Command.action, Action.perform] at hperform
          rw [Stay.typed, List.append_assoc] at hperform
          simp only [Option.elim_some, Stay.typed, List.append_assoc, hperform, Option.map_some,
            Option.bind_some, hmenu, hloop]
          exact hunderstood.carry.append (hcarry.append hrest)

end Carrying

/-! ## to the server -/

/-- `send_msg` of the client: a payload is written once. -/
def clientSendMsg (f : Frame) : Prog WireSig Int :=
  .call (.writeHeader f.header) fun n =>
    if n ≠ headerSize then pure (-1)
    else if f.payload = [] then pure 0
    else .call (.writePayload f.payload) fun n => pure (if n ≠ f.payload.length then -1 else 0)

/-- The messages, one after another. -/
def clientSendAll : List Frame → Prog WireSig Unit
  | [] => pure ()
  | f :: fs => do
      let _ ← clientSendMsg f
      clientSendAll fs

/-- The bytes that the client writes, where `write` takes what it is given. -/
def clientBytes (frames : List Frame) : List UInt8 :=
  (Prog.run writeExec (clientSendAll frames) ([], [])).2.1

/-- The client's `send_msg` writes the bytes of the frame. -/
theorem run_clientSendMsg (f : Frame) (stream : List UInt8) :
    Prog.run writeExec (clientSendMsg f) (stream, []) = (0, (stream ++ f.bytes, [])) := by
  rw [clientSendMsg, Prog.run_call]
  by_cases hempty : f.payload = []
  · simp [writeExec, hempty, Frame.bytes]
  · simp [writeExec, hempty, Frame.bytes]

theorem clientBytes_eq (frames : List Frame) : clientBytes frames = frames.flatMap Frame.bytes := by
  have hrun (stream : List UInt8) : (Prog.run writeExec (clientSendAll frames) (stream, [])).2 =
      (stream ++ frames.flatMap Frame.bytes, []) := by
    induction frames generalizing stream with
    | nil => simp [clientSendAll]
    | cons f fs ih =>
        rw [clientSendAll, Prog.run_bind, run_clientSendMsg, ih, List.flatMap_cons,
          List.append_assoc]
  exact congrArg Prod.fst (hrun [])

/-- The messages that arrive whole are the first ones. -/
theorem take_length_complete (n : Nat) (frames : List Frame) :
    frames.take (complete n frames).length = complete n frames := by
  induction frames generalizing n with
  | nil => rfl
  | cons f fs ih =>
      rw [complete]
      split
      · rw [List.length_cons, List.take_succ_cons, ih]
      · rfl

instance decidableHeadersWhole :
    (fs : List Frame) → (segs : List (List UInt8)) → Decidable (HeadersWhole fs segs)
  | [], _ => .isTrue trivial
  | f :: fs, segs =>
      have := decidableHeadersWhole fs (dropBytes f.bytes.length segs)
      inferInstanceAs (Decidable (_ ∧ _))

/-- What is read one by one is read as a list. -/
theorem map_eq_of_map_eq_some {α β : Type} {l : List α} {m : List β} {g : α → Option β}
    {f : α → β} (h : l.map g = m.map some) (hf : ∀ x y, g x = some y → f x = y) : l.map f = m := by
  induction l generalizing m with
  | nil =>
      rw [List.map_nil, eq_comm, List.map_eq_nil_iff] at h
      rw [h, List.map_nil]
  | cons x l ih =>
      cases m with
      | nil => simp at h
      | cons y m =>
          rw [List.map_cons, List.map_cons, List.cons.injEq] at h
          rw [List.map_cons, hf x y h.1, ih h.2]

section Serving

variable {atof : List UInt8 → CharArray 8}
  {sha256Hex : List UInt8 → List UInt8} {decode : MessageHeader → CharArray recvBuf → Request}

/-- **What the user asks for is what the server executes.**  The user types whole lines into the
client, which sends; the connection ends after `n` bytes, which arrive in pieces, each header in
one.  Then the bytes that `handle_client` reads have the effect of the requests that were meant,
in order, as far as they have arrived whole. -/
theorem served_of_typed (stack : (n : Nat) → CharArray n) (turns : Nat) (more : List UInt8)
    (hdecode : ∀ hdr buf r, castRequest hdr buf = some r → decode hdr buf = r)
    (visits : List Visit) (hfits : ∀ v ∈ visits, ∀ s ∈ v.stay, s.Fits)
    (hfinite : ∀ c ∈ visits.flatMap Visit.commands, c.Finite atof)
    (hturns : ∀ v ∈ visits, ∀ s ∈ v.stay, s.turns.length < turns) {frames : List Frame}
    (hframes : frames = clientMain stack atof turns (visits.map fun v => v.stay.map Stay.role)
      (visits.flatMap Visit.typed ++ more))
    {n : Nat} {segs : List (List UInt8)}
    (hsegs : Segmentation ((clientBytes frames).take n) (complete n frames) segs)
    (clientFd : Int) {fuel : Nat} (hfuel : frames.length < fuel) (c : Conn)
    (buf : CharArray recvBuf) (s : Store) :
    (Prog.run (Prog.Handler.sum readExec Api.exec)
        (Socket.handleClient sha256Hex decode clientFd fuel c buf) (segs, s)).2.2 =
      (Prog.run Api.exec (clientLoop sha256Hex clientFd c
        ((requestsOf atof visits).take (complete n frames).length)) s).2 := by
  have hcarry : Carry atof (visits.flatMap Visit.commands) frames := by
    rw [hframes]
    exact clientMain_typed visits hfits hfinite hturns more
  rw [clientBytes_eq] at hsegs
  rw [run_handleClient hsegs hcarry.fits decode clientFd hfuel c buf s]
  have hrequests : (complete n frames).map (fun f => decode f.header
      (.ofBytes recvBuf f.payload)) =
        (requestsOf atof visits).take (complete n frames).length := by
    refine map_eq_of_map_eq_some ?_ fun f r hr => hdecode _ _ r hr
    rw [← take_length_complete n frames, List.map_take, hcarry.seen, List.map_take,
      take_length_complete]
    rfl
  rw [hrequests]

/-- A line of one character. -/
def Line.char {n : Nat} (c : UInt8) (hc : (c ≠ 0 ∧ c ≠ 10) ∧ 2 < n) : Line n :=
  ⟨[c], List.forall_mem_singleton.mpr hc.1, hc.2⟩

/-- A bidder logs in, chooses a number that the menu does not have, bids 5 on the first auction and
logs out. -/
def bidVisit : Visit where
  username := .char 97 (by decide)
  password := .char 98 (by decide)
  stay := some {
    role := roleBidder
    turns := [⟨12, none⟩, ⟨2, some (.placeBid 1 (.char 53 (by decide)))⟩]
    bye := 9 }

/-- The bytes of the `double` 5. -/
def atofFive (_s : List UInt8) : CharArray 8 := .ofBytes 8 [0, 0, 0, 0, 0, 0, 0x14, 0x40]

/-- What is sent. -/
def bidFrames : List Frame :=
  clientMain .zero atofFive 3 [some roleBidder] bidVisit.typed

theorem fits_bidVisit : ∀ v ∈ [bidVisit], ∀ s ∈ v.stay, s.Fits := by
  intro v hv s hs
  obtain rfl := List.mem_singleton.mp hv
  cases hs
  refine ⟨menuBidder, rfl, fun t ht => ?_, rfl⟩
  rcases List.mem_cons.mp ht with rfl | ht
  · exact ⟨rfl, by decide⟩
  · obtain rfl := List.mem_singleton.mp ht
    exact ⟨rfl, by decide⟩

theorem finite_bidVisit : ∀ c ∈ [bidVisit].flatMap Visit.commands, c.Finite atofFive := by
  intro c _ l _
  have hfive : (double (atofFive [])).isSome = true := by decide
  exact hfive

/-- The bytes arrive in two pieces. -/
theorem segmentation_bidFrames : Segmentation ((clientBytes bidFrames).take 148)
    (complete 148 bidFrames)
    [(clientBytes bidFrames).take 50, (clientBytes bidFrames).drop 50] where
  flatten := by decide
  ne_nil := by decide
  headers := by decide

/-- A bidder logs in, bids and logs out. -/
theorem served_of_typed_bid :
    (Prog.run (Prog.Handler.sum readExec Api.exec)
        (Socket.handleClient adminSha256Hex (fun hdr buf => (castRequest hdr buf).getD .other) 4 4
          .fresh (.zero recvBuf))
        ([(clientBytes bidFrames).take 50, (clientBytes bidFrames).drop 50],
          (Server.seeded adminSha256Hex 0 1000).store)).2.2 =
      (Prog.run Api.exec (clientLoop adminSha256Hex 4 .fresh
        ((requestsOf atofFive [bidVisit]).take (complete 148 bidFrames).length))
          (Server.seeded adminSha256Hex 0 1000).store).2 :=
  served_of_typed .zero 3 []
    (fun hdr buf r h => by rw [h, Option.getD_some]) [bidVisit] fits_bidVisit finite_bidVisit
    (by decide) rfl segmentation_bidFrames 4 (by decide) .fresh _ _

end Serving

end OnlineAuction
