import OnlineAuction.Payloads
import OnlineAuction.Typing

/-!
# OnlineAuction.Commands

The requests of `client/client.c`, from the keyboard to the handler.

A function of the client reads some lines into a structure of its own and sends the bytes of that
structure; the server casts them to a structure of the same layout.  `Action.perform` is what the
function does with what is typed, and `Command.request` what the user asks for, so that
`understood` says that the handler sees just that.
-/

namespace OnlineAuction

open Wire ListQueries

/-! ## the structures -/

namespace LoginP
abbrev u : Field 96 := ⟨0, maxUsername, by decide⟩
abbrev p : Field 96 := ⟨32, maxPassword, by decide⟩
end LoginP

namespace ChangePassP
abbrev old : Field 128 := ⟨0, maxPassword, by decide⟩
abbrev nw : Field 128 := ⟨64, maxPassword, by decide⟩
end ChangePassP

-- between the two members there are four bytes that nothing sets
namespace PlaceBidP
abbrev aid : Field 16 := ⟨0, 4, by decide⟩
abbrev amount : Field 16 := ⟨8, 8, by decide⟩
end PlaceBidP

namespace DepositP
abbrev amount : Field 8 := ⟨0, 8, by decide⟩
end DepositP

namespace FeedbackP
abbrev aid : Field 260 := ⟨0, 4, by decide⟩
abbrev msg : Field 260 := ⟨4, maxFeedback, by decide⟩
end FeedbackP

namespace DisputeP
abbrev aid : Field 260 := ⟨0, 4, by decide⟩
abbrev reason : Field 260 := ⟨4, maxDesc, by decide⟩
end DisputeP

namespace CreateP
abbrev item : Field 344 := ⟨0, maxItemName, by decide⟩
abbrev desc : Field 344 := ⟨64, maxDesc, by decide⟩
abbrev start : Field 344 := ⟨320, 8, by decide⟩
abbrev reserve : Field 344 := ⟨328, 8, by decide⟩
abbrev dur : Field 344 := ⟨336, 4, by decide⟩
end CreateP

namespace CloseP
abbrev aid : Field 4 := ⟨0, 4, by decide⟩
end CloseP

namespace ResolveP
abbrev did : Field 264 := ⟨0, 4, by decide⟩
abbrev st : Field 264 := ⟨4, 4, by decide⟩
abbrev res : Field 264 := ⟨8, maxDesc, by decide⟩
end ResolveP

namespace ToggleP
abbrev uid : Field 8 := ⟨0, 4, by decide⟩
abbrev st : Field 8 := ⟨4, 4, by decide⟩
end ToggleP

namespace AddUserP
abbrev u : Field 164 := ⟨0, maxUsername, by decide⟩
abbrev p : Field 164 := ⟨32, maxPassword, by decide⟩
abbrev n : Field 164 := ⟨96, maxName, by decide⟩
abbrev role : Field 164 := ⟨160, 4, by decide⟩
end AddUserP

namespace ChangeRoleP
abbrev uid : Field 8 := ⟨0, 4, by decide⟩
abbrev role : Field 8 := ⟨4, 4, by decide⟩
end ChangeRoleP

/-! ## the functions of the client -/

/-- What `send_msg(type, NULL, 0)` sends. -/
def bareFrame (type : MessageType) : Frame := ⟨type.code, 0, [], empty_fits⟩

/-- What `send_msg(type, &p, sizeof(p))` sends. -/
def structFrame {n : Nat} (type : MessageType) (p : CharArray n) (h : n < 2 ^ 32) : Frame :=
  ⟨type.code, 0, p.val, by rw [p.length_val]; exact h⟩

/-- Storing a 32-bit member. -/
def putInt {size : Nat} (f : Field size) (p : CharArray size) (x : UInt32) : CharArray size :=
  f.set p (toLe 4 x.toNat)

/-- `x <= 0` for a `double`: also for minus infinity, but not for what is no number. -/
def notPositive (x : CharArray 8) : Bool :=
  match double x with
  | some q => q ≤ 0
  | none => ofLe x.val == 0xFFF0000000000000

section Functions

variable (stack : (n : Nat) → CharArray n) (atof : List UInt8 → CharArray 8)
  (stdin : List UInt8)

def doLogin : Option Frame × List UInt8 :=
  let (p, stdin) := readField LoginP.u (.zero 96) stdin
  let (p, stdin) := readField LoginP.p p stdin
  (some (structFrame .msgLoginReq p (by decide)), stdin)

def doChangePassword : Option Frame × List UInt8 :=
  let (p, stdin) := readField ChangePassP.old (.zero 128) stdin
  let (p, stdin) := readField ChangePassP.nw p stdin
  let (confirm, stdin) := readLine (stack maxPassword) stdin
  if strncmpEq maxPassword (ChangePassP.nw.get p).val confirm.val then
    (some (structFrame .msgChangePassReq p (by decide)), stdin)
  else (none, stdin)

def bidderPlaceBid : Option Frame × List UInt8 :=
  let (aid, stdin) := readInt stack stdin
  let p := putInt PlaceBidP.aid (stack 16) aid.toUInt32
  let (amount, stdin) := readDouble stack atof stdin
  let p := PlaceBidP.amount.set p amount.val
  (some (structFrame .msgPlaceBidReq p (by decide)), stdin)

def bidderDeposit : Option Frame × List UInt8 :=
  let (amount, stdin) := readDouble stack atof stdin
  let p := DepositP.amount.set (stack 8) amount.val
  if notPositive amount then (none, stdin)
  else (some (structFrame .msgDepositReq p (by decide)), stdin)

def bidderFeedback : Option Frame × List UInt8 :=
  let (aid, stdin) := readInt stack stdin
  let p := putInt FeedbackP.aid (.zero 260) aid.toUInt32
  let (p, stdin) := readField FeedbackP.msg p stdin
  (some (structFrame .msgSubmitFeedbackReq p (by decide)), stdin)

def bidderFileDispute : Option Frame × List UInt8 :=
  let (aid, stdin) := readInt stack stdin
  let p := putInt DisputeP.aid (.zero 260) aid.toUInt32
  let (p, stdin) := readField DisputeP.reason p stdin
  (some (structFrame .msgFileDisputeReq p (by decide)), stdin)

def auctioneerCreate : Option Frame × List UInt8 :=
  let (p, stdin) := readField CreateP.item (.zero 344) stdin
  let (p, stdin) := readField CreateP.desc p stdin
  let (start, stdin) := readDouble stack atof stdin
  let p := CreateP.start.set p start.val
  let (reserve, stdin) := readDouble stack atof stdin
  let p := CreateP.reserve.set p reserve.val
  let (dur, stdin) := readInt stack stdin
  let p := putInt CreateP.dur p dur.toUInt32
  (some (structFrame .msgCreateAuctionReq p (by decide)), stdin)

def auctioneerClose : Option Frame × List UInt8 :=
  let (aid, stdin) := readInt stack stdin
  let p := putInt CloseP.aid (stack 4) aid.toUInt32
  (some (structFrame .msgCloseAuctionReq p (by decide)), stdin)

def modResolve : Option Frame × List UInt8 :=
  let (did, stdin) := readInt stack stdin
  let p := putInt ResolveP.did (.zero 264) did.toUInt32
  let (choice, stdin) := readInt stack stdin
  let p := putInt ResolveP.st p (if choice = 1 then 1 else 2)
  let (p, stdin) := readField ResolveP.res p stdin
  (some (structFrame .msgResolveDisputeReq p (by decide)), stdin)

def modToggle : Option Frame × List UInt8 :=
  let (uid, stdin) := readInt stack stdin
  let p := putInt ToggleP.uid (stack 8) uid.toUInt32
  let (c, stdin) := readInt stack stdin
  let p := putInt ToggleP.st p
    (if c = 1 then accountActive else if c = 2 then accountInactive else accountBanned)
  (some (structFrame .msgToggleAccountReq p (by decide)), stdin)

def adminAddUser : Option Frame × List UInt8 :=
  let (p, stdin) := readField AddUserP.u (.zero 164) stdin
  let (p, stdin) := readField AddUserP.p p stdin
  let (p, stdin) := readField AddUserP.n p stdin
  let (role, stdin) := readInt stack stdin
  let p := putInt AddUserP.role p role.toUInt32
  (some (structFrame .msgAddUserReq p (by decide)), stdin)

def adminChangeRole : Option Frame × List UInt8 :=
  let (uid, stdin) := readInt stack stdin
  let p := putInt ChangeRoleP.uid (stack 8) uid.toUInt32
  let (role, stdin) := readInt stack stdin
  let p := putInt ChangeRoleP.role p role.toUInt32
  (some (structFrame .msgChangeRoleReq p (by decide)), stdin)

end Functions

/-- The functions that send a request. -/
inductive Action
  | doLogin | doLogout | doChangePassword | viewAuctions
  | bidderPlaceBid | bidderBalance | bidderDeposit | bidderMyBids | bidderFeedback
  | bidderFileDispute
  | auctioneerCreate | auctioneerClose
  | modDisputes | modResolve | modFeedback | modToggle
  | adminAddUser | adminListUsers | adminChangeRole
  deriving DecidableEq

/-- What is sent of what is typed, and what is left of it. -/
def Action.perform (stack : (n : Nat) → CharArray n) (atof : List UInt8 → CharArray 8)
    (stdin : List UInt8) : Action → Option Frame × List UInt8
  | .doLogin => OnlineAuction.doLogin stdin
  | .doLogout => (some (bareFrame .msgLogoutReq), stdin)
  | .doChangePassword => OnlineAuction.doChangePassword stack stdin
  | .viewAuctions => (some (bareFrame .msgViewAuctionsReq), stdin)
  | .bidderPlaceBid => OnlineAuction.bidderPlaceBid stack atof stdin
  | .bidderBalance => (some (bareFrame .msgViewBalanceReq), stdin)
  | .bidderDeposit => OnlineAuction.bidderDeposit stack atof stdin
  | .bidderMyBids => (some (bareFrame .msgViewMyBidsReq), stdin)
  | .bidderFeedback => OnlineAuction.bidderFeedback stack stdin
  | .bidderFileDispute => OnlineAuction.bidderFileDispute stack stdin
  | .auctioneerCreate => OnlineAuction.auctioneerCreate stack atof stdin
  | .auctioneerClose => OnlineAuction.auctioneerClose stack stdin
  | .modDisputes => (some (bareFrame .msgViewDisputesReq), stdin)
  | .modResolve => OnlineAuction.modResolve stack stdin
  | .modFeedback => (some (bareFrame .msgViewFeedbackReq), stdin)
  | .modToggle => OnlineAuction.modToggle stack stdin
  | .adminAddUser => OnlineAuction.adminAddUser stack stdin
  | .adminListUsers => (some (bareFrame .msgListUsersReq), stdin)
  | .adminChangeRole => OnlineAuction.adminChangeRole stack stdin

/-! ## what the user asks for -/

/-- A function with the lines and the numbers that are typed for it. -/
inductive Command
  | login (username : Line maxUsername) (password : Line maxPassword)
  | logout
  | changePassword (old nw confirm : Line maxPassword)
  | viewAuctions
  | placeBid (aid : Int32) (amount : Line 64)
  | balance
  | deposit (amount : Line 64)
  | myBids
  | feedback (aid : Int32) (message : Line maxFeedback)
  | fileDispute (aid : Int32) (reason : Line maxDesc)
  | create (item : Line maxItemName) (desc : Line maxDesc) (start reserve : Line 64) (dur : Int32)
  | close (aid : Int32)
  | disputes
  | resolve (did choice : Int32) (notes : Line maxDesc)
  | viewFeedback
  | toggle (uid choice : Int32)
  | addUser (username : Line maxUsername) (password : Line maxPassword) (fullName : Line maxName)
      (role : Int32)
  | listUsers
  | changeRole (uid role : Int32)

/-- The function that the command is for. -/
def Command.action : Command → Action
  | .login .. => .doLogin
  | .logout => .doLogout
  | .changePassword .. => .doChangePassword
  | .viewAuctions => .viewAuctions
  | .placeBid .. => .bidderPlaceBid
  | .balance => .bidderBalance
  | .deposit .. => .bidderDeposit
  | .myBids => .bidderMyBids
  | .feedback .. => .bidderFeedback
  | .fileDispute .. => .bidderFileDispute
  | .create .. => .auctioneerCreate
  | .close .. => .auctioneerClose
  | .disputes => .modDisputes
  | .resolve .. => .modResolve
  | .viewFeedback => .modFeedback
  | .toggle .. => .modToggle
  | .addUser .. => .adminAddUser
  | .listUsers => .adminListUsers
  | .changeRole .. => .adminChangeRole

/-- What is typed, prompt by prompt. -/
def Command.typed : Command → List UInt8
  | .login username password => username.typed ++ password.typed
  | .changePassword old nw confirm => old.typed ++ (nw.typed ++ confirm.typed)
  | .placeBid aid amount => typedInt aid ++ amount.typed
  | .deposit amount => amount.typed
  | .feedback aid message => typedInt aid ++ message.typed
  | .fileDispute aid reason => typedInt aid ++ reason.typed
  | .create item desc start reserve dur =>
      item.typed ++ (desc.typed ++ (start.typed ++ (reserve.typed ++ typedInt dur)))
  | .close aid => typedInt aid
  | .resolve did choice notes => typedInt did ++ (typedInt choice ++ notes.typed)
  | .toggle uid choice => typedInt uid ++ typedInt choice
  | .addUser username password fullName role =>
      username.typed ++ (password.typed ++ (fullName.typed ++ typedInt role))
  | .changeRole uid role => typedInt uid ++ typedInt role
  | _ => []

/-- The amounts among it. -/
def Command.amounts : Command → List (Line 64)
  | .placeBid _ amount | .deposit amount => [amount]
  | .create _ _ start reserve _ => [start, reserve]
  | _ => []

section Meaning

variable (atof : List UInt8 → CharArray 8)

/-- The amounts are finite. -/
def Command.Finite (c : Command) : Prop := ∀ l ∈ c.amounts, (double (atof l.text)).isSome

/-- The request that is meant; there is none where the client itself refuses the command. -/
def Command.request : Command → Option Request
  | .login username password =>
      some (.login ⟨username.array, password.array, List.replicate 4000 0⟩)
  | .logout => some .logout
  | .changePassword old nw confirm =>
      if nw.text = confirm.text then
        some (.changePass ⟨old.array, nw.array, List.replicate 3968 0⟩)
      else none
  | .viewAuctions => some .viewAuctions
  | .placeBid aid amount =>
      (double (atof amount.text)).map fun q => .placeBid ⟨aid.toUInt32, q⟩
  | .balance => some .viewBalance
  | .deposit amount =>
      (double (atof amount.text)).bind fun q => if q ≤ 0 then none else some (.deposit ⟨q⟩)
  | .myBids => some .viewMyBids
  | .feedback aid message => some (.submitFeedback ⟨aid.toUInt32, message.array⟩)
  | .fileDispute aid reason => some (.fileDispute ⟨aid.toUInt32, reason.array⟩)
  | .create item desc start reserve dur =>
      (double (atof start.text)).bind fun q => (double (atof reserve.text)).map fun q' =>
        .createAuction ⟨item.array, desc.array, q, q', dur.toUInt32⟩
  | .close aid => some (.closeAuction ⟨aid.toUInt32⟩)
  | .disputes => some .viewDisputes
  | .resolve did choice notes =>
      some (.resolveDispute ⟨did.toUInt32, if choice = 1 then 1 else 2, notes.array⟩)
  | .viewFeedback => some .viewFeedback
  | .toggle uid choice =>
      some (.toggleAccount ⟨uid.toUInt32,
        if choice = 1 then accountActive else if choice = 2 then accountInactive
        else accountBanned⟩)
  | .addUser username password fullName role =>
      some (.addUser ⟨username.array, password.array, fullName.array, role.toUInt32,
        toLe 4 role.toUInt32.toNat ++ List.replicate 3932 0⟩)
  | .listUsers => some .listUsers
  | .changeRole uid role => some (.changeRole ⟨uid.toUInt32, role.toUInt32⟩)

end Meaning

/-! ## the handler sees what is meant -/

/-- The frame carries what is meant. -/
structure Understood (atof : List UInt8 → CharArray 8) (c : Command) (frame : Option Frame) :
    Prop where
  sent : frame.isSome = (c.request atof).isSome
  seen : ∀ f, frame = some f →
    castRequest f.header (.ofBytes recvBuf f.payload) = c.request atof
  fits : ∀ f, frame = some f → f.payload.length ≤ recvBuf

section Understanding

variable {stack : (n : Nat) → CharArray n} {atof : List UInt8 → CharArray 8} {m n : Nat}

/-- The bytes of a number that was stored. -/
theorem val_get_putInt {f : Field n} (p : CharArray n) (x : UInt32) (hf : f.width = 4) :
    (f.get (putInt f p x)).val = toLe 4 x.toNat :=
  Field.get_set_self (by rw [length_toLe, hf])

/-- A member that was stored is seen. -/
theorem uint32_putInt {f : Field n} (p : CharArray n) (x : UInt32) (hf : f.width = 4) :
    uint32 (f.get (putInt f p x)) = x :=
  uint32_of_val (val_get_putInt p x hf)

/-- A number that is stored elsewhere does not matter. -/
theorem Field.get_putInt {f g : Field n} {p : CharArray n} {x : UInt32} (hfg : f.Apart g)
    (hg : g.width = 4) : f.get (putInt g p x) = f.get p :=
  Field.get_set_of_apart hfg (by rw [length_toLe, hg])

/-- An array that was stored is seen. -/
theorem Field.get_set_array {f : Field n} {p : CharArray n} (a : CharArray f.width) :
    f.get (f.set p a.val) = a :=
  Subtype.ext (Field.get_set_self a.length_val)

/-- A structure that the server casts to the request that is meant is understood. -/
theorem understood_structFrame (type : MessageType) (p : CharArray n) {c : Command} {r : Request}
    (h : n < 2 ^ 32) (hn : n ≤ recvBuf) (hr : c.request atof = some r)
    (hcast : castRequest (structFrame type p h).header (.ofBytes recvBuf p.val) = some r) :
    Understood atof c (some (structFrame type p h)) where
  sent := by rw [hr]; rfl
  seen f hf := by
    obtain rfl := Option.some.inj hf
    rw [hr]
    exact hcast
  fits f hf := by
    obtain rfl := Option.some.inj hf
    rw [structFrame, p.length_val]
    exact hn

/-- The bytes from the last member on. -/
theorem drop_member {f : Field n} {p : CharArray n} (h : n ≤ m) (hlast : f.offset + f.width = n) :
    (CharArray.ofBytes m p.val).val.drop f.offset =
      (f.get p).val ++ List.replicate (m - n) 0 := by
  have hget : (f.get p).val = p.val.drop f.offset :=
    List.take_of_length_le (by rw [List.length_drop, p.length_val]; omega)
  rw [CharArray.ofBytes_val (by rwa [p.length_val]), p.length_val, hget,
    List.drop_append_of_le_length (by rw [p.length_val]; omega)]

/-- So is a message without one. -/
theorem understood_bareFrame {type : MessageType} {c : Command} {r : Request}
    (hr : c.request atof = some r)
    (hcast : castRequest (bareFrame type).header (.ofBytes recvBuf []) = some r) :
    Understood atof c (some (bareFrame type)) where
  sent := by rw [hr]; rfl
  seen f hf := by
    obtain rfl := Option.some.inj hf
    rw [hr]
    exact hcast
  fits f hf := by
    obtain rfl := Option.some.inj hf
    exact Nat.zero_le _

/-- And so is a command that the client itself refuses. -/
theorem understood_none {c : Command} (hr : c.request atof = none) : Understood atof c none where
  sent := by rw [hr]; rfl
  seen _ hf := by cases hf
  fits _ hf := by cases hf

/-- What a command makes its function send, and what is left of what is typed. -/
abbrev SendsMeant (stack : (n : Nat) → CharArray n) (atof : List UInt8 → CharArray 8) (c : Command)
    (more : List UInt8) : Prop :=
  ∃ frame, c.action.perform stack atof (c.typed ++ more) = (frame, more) ∧ Understood atof c frame

/-- The form of a login. -/
theorem sends_login (stack : (n : Nat) → CharArray n) (username : Line maxUsername)
    (password : Line maxPassword) (more : List UInt8) :
    SendsMeant stack atof (.login username password) more := by
  refine ⟨_, ?_, understood_structFrame .msgLoginReq
    (LoginP.p.set (LoginP.u.set (.zero 96) username.array.val) password.array.val)
    (by decide) (by decide) rfl ?_⟩
  · simp +decide only [Action.perform, Command.action, doLogin, Command.typed, List.append_assoc,
      readField_line, Field.get_zero, Field.get_set_of_apart, CharArray.length_val]
  · simp +decide only [castRequest, structFrame, Frame.header, MessageType.ofCode_code,
      LoginPayload.cast, member_get LoginP.u, member_get LoginP.p, Field.get_set_of_apart,
      Field.get_set_array, CharArray.length_val, drop_ofBytes]
    rfl

/-- That of a change of password, which the client checks against a typing error. -/
theorem sends_changePassword (old nw confirm : Line maxPassword) (more : List UInt8) :
    SendsMeant stack atof (.changePassword old nw confirm) more := by
  have hperform : doChangePassword stack ((Command.changePassword old nw confirm).typed ++ more) =
      if nw.text = confirm.text then
        (some (structFrame .msgChangePassReq (ChangePassP.nw.set (ChangePassP.old.set (.zero 128)
          old.array.val) nw.array.val) (by decide)), more)
      else (none, more) := by
    simp +decide only [doChangePassword, Command.typed, List.append_assoc, readField_line,
      readLine_line, Field.get_zero, Field.get_set_of_apart, Field.get_set_array,
      CharArray.length_val, strncmpEq_iff, cString_array,
      cString_line confirm.not_mem.1 confirm.short]
  by_cases hsame : nw.text = confirm.text
  · rw [if_pos hsame] at hperform
    refine ⟨_, hperform, understood_structFrame _ _
      (r := .changePass ⟨old.array, nw.array, List.replicate 3968 0⟩) (by decide) (by decide)
      (by simp only [Command.request, if_pos hsame]) ?_⟩
    simp +decide only [castRequest, structFrame, Frame.header, MessageType.ofCode_code,
      ChangePassPayload.cast, member_get ChangePassP.old, member_get ChangePassP.nw,
      Field.get_set_of_apart, Field.get_set_array, CharArray.length_val, drop_ofBytes]
    rfl
  · rw [if_neg hsame] at hperform
    exact ⟨none, hperform, understood_none (by simp only [Command.request, if_neg hsame])⟩

/-- That of a bid. -/
theorem sends_placeBid (aid : Int32) (amount : Line 64) (more : List UInt8)
    (hfinite : (Command.placeBid aid amount).Finite atof) :
    SendsMeant stack atof (.placeBid aid amount) more := by
  obtain ⟨q, hq⟩ := Option.isSome_iff_exists.mp (hfinite amount (List.mem_singleton_self _))
  refine ⟨_, ?_, understood_structFrame .msgPlaceBidReq
    (PlaceBidP.amount.set (putInt PlaceBidP.aid (stack 16) aid.toUInt32)
      (atof amount.text).val) (r := .placeBid ⟨aid.toUInt32, q⟩)
    (by decide) (by decide) (by simp only [Command.request, hq, Option.map_some]) ?_⟩
  · simp +decide only [Action.perform, Command.action, bidderPlaceBid, Command.typed,
      List.append_assoc, readInt_typedInt, readDouble_line]
  · simp +decide only [castRequest, structFrame, Frame.header, MessageType.ofCode_code,
      PlaceBidPayload.cast, member_get PlaceBidP.aid, member_get PlaceBidP.amount,
      Field.get_set_of_apart, Field.get_set_array, CharArray.length_val, uint32_putInt, hq]
    rfl

/-- That of a deposit, which must be positive. -/
theorem sends_deposit (amount : Line 64) (more : List UInt8)
    (hfinite : (Command.deposit amount).Finite atof) :
    SendsMeant stack atof (.deposit amount) more := by
  obtain ⟨q, hq⟩ := Option.isSome_iff_exists.mp (hfinite amount (List.mem_singleton_self _))
  have hperform : bidderDeposit stack atof ((Command.deposit amount).typed ++ more) =
      if q ≤ 0 then (none, more)
      else (some (structFrame .msgDepositReq
        (DepositP.amount.set (stack 8) (atof amount.text).val) (by decide)), more) := by
    simp [bidderDeposit, Command.typed, readDouble_line, notPositive, hq]
  by_cases hle : q ≤ 0
  · rw [if_pos hle] at hperform
    exact ⟨none, hperform, understood_none (by simp [Command.request, hq, hle])⟩
  · rw [if_neg hle] at hperform
    refine ⟨_, hperform, understood_structFrame _ _ (r := .deposit ⟨q⟩) (by decide) (by decide)
      (by simp [Command.request, hq, hle]) ?_⟩
    simp +decide only [castRequest, structFrame, Frame.header, MessageType.ofCode_code,
      DepositPayload.cast, member_get DepositP.amount, Field.get_set_array, hq]
    rfl

/-- That of feedback. -/
theorem sends_feedback (aid : Int32) (message : Line maxFeedback) (more : List UInt8) :
    SendsMeant stack atof (.feedback aid message) more := by
  refine ⟨_, ?_, understood_structFrame .msgSubmitFeedbackReq
    (FeedbackP.msg.set (putInt FeedbackP.aid (.zero 260) aid.toUInt32) message.array.val)
    (by decide) (by decide) rfl ?_⟩
  · simp +decide only [Action.perform, Command.action, bidderFeedback, Command.typed,
      List.append_assoc, readInt_typedInt, readField_line, Field.get_zero, Field.get_putInt]
  · simp +decide only [castRequest, structFrame, Frame.header, MessageType.ofCode_code,
      FeedbackPayload.cast, member_get FeedbackP.aid, member_get FeedbackP.msg,
      Field.get_set_of_apart, Field.get_set_array, CharArray.length_val, uint32_putInt]

/-- That of a dispute. -/
theorem sends_fileDispute (aid : Int32) (reason : Line maxDesc) (more : List UInt8) :
    SendsMeant stack atof (.fileDispute aid reason) more := by
  refine ⟨_, ?_, understood_structFrame .msgFileDisputeReq
    (DisputeP.reason.set (putInt DisputeP.aid (.zero 260) aid.toUInt32) reason.array.val)
    (by decide) (by decide) rfl ?_⟩
  · simp +decide only [Action.perform, Command.action, bidderFileDispute, Command.typed,
      List.append_assoc, readInt_typedInt, readField_line, Field.get_zero, Field.get_putInt]
  · simp +decide only [castRequest, structFrame, Frame.header, MessageType.ofCode_code,
      FileDisputePayload.cast, member_get DisputeP.aid, member_get DisputeP.reason,
      Field.get_set_of_apart, Field.get_set_array, CharArray.length_val, uint32_putInt]

/-- That of a new auction. -/
theorem sends_create (item : Line maxItemName) (desc : Line maxDesc) (start reserve : Line 64)
    (dur : Int32) (more : List UInt8)
    (hfinite : (Command.create item desc start reserve dur).Finite atof) :
    SendsMeant stack atof (.create item desc start reserve dur) more := by
  obtain ⟨q, hq⟩ := Option.isSome_iff_exists.mp (hfinite start (by simp [Command.amounts]))
  obtain ⟨q', hq'⟩ := Option.isSome_iff_exists.mp (hfinite reserve (by simp [Command.amounts]))
  refine ⟨_, ?_, understood_structFrame .msgCreateAuctionReq
    (putInt CreateP.dur (CreateP.reserve.set (CreateP.start.set (CreateP.desc.set
      (CreateP.item.set (.zero 344) item.array.val) desc.array.val) (atof start.text).val)
      (atof reserve.text).val) dur.toUInt32)
    (r := .createAuction ⟨item.array, desc.array, q, q', dur.toUInt32⟩)
    (by decide) (by decide) (by simp [Command.request, hq, hq']) ?_⟩
  · simp +decide only [Action.perform, Command.action, auctioneerCreate, Command.typed,
      List.append_assoc, readInt_typedInt, readDouble_line, readField_line, Field.get_zero,
      Field.get_set_of_apart, CharArray.length_val]
  · simp +decide only [castRequest, structFrame, Frame.header, MessageType.ofCode_code,
      CreateAuctionPayload.cast, member_get CreateP.item, member_get CreateP.desc,
      member_get CreateP.start, member_get CreateP.reserve, member_get CreateP.dur,
      Field.get_putInt, Field.get_set_of_apart, Field.get_set_array, CharArray.length_val,
      uint32_putInt, hq, hq']
    rfl

/-- That of a close. -/
theorem sends_close (aid : Int32) (more : List UInt8) :
    SendsMeant stack atof (.close aid) more := by
  refine ⟨_, ?_, understood_structFrame .msgCloseAuctionReq
    (putInt CloseP.aid (stack 4) aid.toUInt32) (by decide) (by decide) rfl ?_⟩
  · simp only [Action.perform, Command.action, auctioneerClose, Command.typed, readInt_typedInt]
  · simp +decide only [castRequest, structFrame, Frame.header, MessageType.ofCode_code,
      CloseAuctionPayload.cast, member_get CloseP.aid, uint32_putInt]

/-- That of a resolution. -/
theorem sends_resolve (did choice : Int32) (notes : Line maxDesc) (more : List UInt8) :
    SendsMeant stack atof (.resolve did choice notes) more := by
  refine ⟨_, ?_, understood_structFrame .msgResolveDisputeReq
    (ResolveP.res.set (putInt ResolveP.st (putInt ResolveP.did (.zero 264) did.toUInt32)
      (if choice = 1 then 1 else 2)) notes.array.val) (by decide) (by decide) rfl ?_⟩
  · simp +decide only [Action.perform, Command.action, modResolve, Command.typed,
      List.append_assoc, readInt_typedInt, readField_line, Field.get_zero, Field.get_putInt]
  · simp +decide only [castRequest, structFrame, Frame.header, MessageType.ofCode_code,
      ResolveDisputePayload.cast, member_get ResolveP.did, member_get ResolveP.st,
      member_get ResolveP.res, Field.get_set_of_apart, Field.get_set_array, CharArray.length_val,
      Field.get_putInt, uint32_putInt]

/-- That of the switching of an account. -/
theorem sends_toggle (uid choice : Int32) (more : List UInt8) :
    SendsMeant stack atof (.toggle uid choice) more := by
  refine ⟨_, ?_, understood_structFrame .msgToggleAccountReq
    (putInt ToggleP.st (putInt ToggleP.uid (stack 8) uid.toUInt32)
      (if choice = 1 then accountActive else if choice = 2 then accountInactive
        else accountBanned)) (by decide) (by decide) rfl ?_⟩
  · simp only [Action.perform, Command.action, modToggle, Command.typed, List.append_assoc,
      readInt_typedInt]
  · simp +decide only [castRequest, structFrame, Frame.header, MessageType.ofCode_code,
      ToggleAccountPayload.cast, member_get ToggleP.uid, member_get ToggleP.st, Field.get_putInt,
      uint32_putInt]

/-- That of a new user. -/
theorem sends_addUser (username : Line maxUsername) (password : Line maxPassword)
    (fullName : Line maxName) (role : Int32) (more : List UInt8) :
    SendsMeant stack atof (.addUser username password fullName role) more := by
  refine ⟨_, ?_, understood_structFrame .msgAddUserReq
    (putInt AddUserP.role (AddUserP.n.set (AddUserP.p.set (AddUserP.u.set (.zero 164)
      username.array.val) password.array.val) fullName.array.val) role.toUInt32)
    (by decide) (by decide) rfl ?_⟩
  · simp +decide only [Action.perform, Command.action, adminAddUser, Command.typed,
      List.append_assoc, readInt_typedInt, readField_line, Field.get_zero, Field.get_set_of_apart,
      CharArray.length_val]
  · simp +decide only [castRequest, structFrame, Frame.header, MessageType.ofCode_code,
      AddUserPayload.cast, member_get AddUserP.u, member_get AddUserP.p, member_get AddUserP.n,
      member_get AddUserP.role, Field.get_putInt, Field.get_set_of_apart, Field.get_set_array,
      CharArray.length_val, uint32_putInt, drop_member (f := AddUserP.role), val_get_putInt]
    rfl

/-- That of a change of role. -/
theorem sends_changeRole (uid role : Int32) (more : List UInt8) :
    SendsMeant stack atof (.changeRole uid role) more := by
  refine ⟨_, ?_, understood_structFrame .msgChangeRoleReq
    (putInt ChangeRoleP.role (putInt ChangeRoleP.uid (stack 8) uid.toUInt32)
      role.toUInt32) (by decide) (by decide) rfl ?_⟩
  · simp only [Action.perform, Command.action, adminChangeRole, Command.typed, List.append_assoc,
      readInt_typedInt]
  · simp +decide only [castRequest, structFrame, Frame.header, MessageType.ofCode_code,
      ChangeRolePayload.cast, member_get ChangeRoleP.uid, member_get ChangeRoleP.role,
      Field.get_putInt, uint32_putInt]

/-- **Every command** is seen as it is meant, and what is typed after it is left for the next. -/
theorem sends_meant (stack : (n : Nat) → CharArray n) (c : Command) (h : c.Finite atof)
    (more : List UInt8) : SendsMeant stack atof c more := by
  cases c with
  | login username password => exact sends_login stack username password more
  | changePassword old nw confirm => exact sends_changePassword old nw confirm more
  | placeBid aid amount => exact sends_placeBid aid amount more h
  | deposit amount => exact sends_deposit amount more h
  | feedback aid message => exact sends_feedback aid message more
  | fileDispute aid reason => exact sends_fileDispute aid reason more
  | create item desc start reserve dur => exact sends_create item desc start reserve dur more h
  | close aid => exact sends_close aid more
  | resolve did choice notes => exact sends_resolve did choice notes more
  | toggle uid choice => exact sends_toggle uid choice more
  | addUser username password fullName role =>
      exact sends_addUser username password fullName role more
  | changeRole uid role => exact sends_changeRole uid role more
  | _ =>
      refine ⟨_, rfl, understood_bareFrame rfl ?_⟩
      simp only [castRequest, bareFrame, Frame.header, MessageType.ofCode_code]

end Understanding

end OnlineAuction
