import OnlineAuction.Lib.Machine
import OnlineAuction.Lib.Memory
import Mathlib.Algebra.Group.Nat.Defs
import Mathlib.Data.List.Basic

/-!
# OnlineAuction.Wire

The bytes of a connection.

`send_msg` and `push_notification` write a frame, a header and then a payload,
with separate calls of `write`; `recv_msg` of the client reads the frames back.
One call of `write` appends its bytes to the stream of the connection, so the
threads that send on one connection are a machine whose shared state is that
stream (`wireMachine`).
-/

namespace OnlineAuction.Wire

/-! ## the header -/

/-- `MessageHeader`. -/
structure MessageHeader where
  type : UInt32
  length : UInt32
  status : UInt32
  deriving DecidableEq

/-- `sizeof(MessageHeader)`. -/
abbrev headerSize : Nat := 12

def MessageHeader.bytes (h : MessageHeader) : List UInt8 :=
  toLe 4 h.type.toNat ++ toLe 4 h.length.toNat ++ toLe 4 h.status.toNat

def MessageHeader.ofBytes (bs : List UInt8) : MessageHeader where
  type := .ofNat (ofLe (bs.take 4))
  length := .ofNat (ofLe ((bs.drop 4).take 4))
  status := .ofNat (ofLe ((bs.drop 8).take 4))

@[simp] theorem MessageHeader.length_bytes (h : MessageHeader) :
    h.bytes.length = headerSize := rfl

/-- A header is read back from its bytes. -/
theorem MessageHeader.ofBytes_bytes (h : MessageHeader) : ofBytes h.bytes = h := by
  have hread (x : UInt32) : UInt32.ofNat (ofLe (toLe 4 x.toNat)) = x := by
    rw [ofLe_toLe, Nat.mod_eq_of_lt (Nat.lt_of_lt_of_eq x.toNat_lt (by decide)),
      UInt32.ofNat_toNat]
  obtain ⟨type, length, status⟩ := h
  change MessageHeader.mk (.ofNat (ofLe (toLe 4 type.toNat))) (.ofNat (ofLe (toLe 4 length.toNat)))
    (.ofNat (ofLe (toLe 4 status.toNat))) = _
  rw [hread, hread, hread]

/-! ## frames -/

/-- What one call sends; the length of the payload is a 32-bit value. -/
structure Frame where
  type : UInt32
  status : UInt32
  payload : List UInt8
  length_lt : payload.length < 2 ^ 32
  deriving DecidableEq

def Frame.header (f : Frame) : MessageHeader :=
  ⟨f.type, .ofNat f.payload.length, f.status⟩

def Frame.bytes (f : Frame) : List UInt8 := f.header.bytes ++ f.payload

theorem Frame.header_length (f : Frame) : f.header.length.toNat = f.payload.length := by
  have hlt := f.length_lt
  simp only [header, UInt32.toNat_ofNat']
  omega

/-! ## sending -/

/-- A call of `write` on the connection. -/
inductive WireOp
  | writeHeader (h : MessageHeader)
  | writePayload (bs : List UInt8)

/-- The bytes that a call writes. -/
def WireOp.bytes : WireOp → List UInt8
  | .writeHeader h => h.bytes
  | .writePayload bs => bs

abbrev WireSig : Sig := ⟨WireOp, fun _ => Int⟩

/-- The loop of `send_msg`: the rest of the payload is written until nothing is
left.  Each turn writes at least one byte, so the length is fuel enough. -/
def sendPayload : Nat → List UInt8 → Prog WireSig Int
  | 0, _ => pure 0
  | fuel + 1, rest =>
      if rest = [] then pure 0
      else .call (.writePayload rest) fun n =>
        if n ≤ 0 then pure (-1) else sendPayload fuel (rest.drop n.toNat)

/-- `send_msg`. -/
def sendMsg (f : Frame) : Prog WireSig Int :=
  .call (.writeHeader f.header) fun n =>
    if n ≠ headerSize then pure (-1) else sendPayload f.payload.length f.payload

/-- `push_notification` from the first `write` on: no lock is held any more. -/
def pushNotification (f : Frame) : Prog WireSig Unit :=
  .call (.writeHeader f.header) fun n =>
    if n < 0 then pure ()
    else if f.payload = [] then pure ()
    else .call (.writePayload f.payload) fun _ => pure ()

/-- A call that sends on the connection. -/
inductive SendCall
  | response (f : Frame)
  | notification (f : Frame)

def SendCall.frame : SendCall → Frame
  | .response f | .notification f => f

def SendCall.prog : SendCall → Prog WireSig Unit
  | .response f => do
      let _ ← sendMsg f
      pure ()
  | .notification f => pushNotification f

/-- Threads that send on one connection: each `write` appends its bytes. -/
def wireMachine {ι : Type} : System WireSig ι (List UInt8) where
  step _ op stream := some (op.bytes.length, stream ++ op.bytes)
  env _ _ := False

/-! ## receiving -/

/-- `recv_msg` of the client: a header, then the payload, as far as the buffer
reaches; what the stream still holds afterwards. -/
def recvMsg (bufSize : Nat) (stream : List UInt8) :
    Option ((MessageHeader × List UInt8) × List UInt8) :=
  if stream.length < headerSize then none
  else
    let hdr := MessageHeader.ofBytes (stream.take headerSize)
    let rest := stream.drop headerSize
    let toRead := if hdr.length = 0 then 0 else min hdr.length.toNat bufSize
    if rest.length < toRead then none
    else some ((hdr, rest.take toRead), rest.drop toRead)

/-- What `n` calls of `recv_msg` receive, as long as they succeed. -/
def recvMsgs (bufSize : Nat) : Nat → List UInt8 → List (MessageHeader × List UInt8)
  | 0, _ => []
  | n + 1, stream => match recvMsg bufSize stream with
      | none => []
      | some (m, rest) => m :: recvMsgs bufSize n rest

section Frames

variable {bufSize n : Nat} {frames : List Frame}

/-- What is received of a frame that may exceed the buffer. -/
theorem recvMsg_frame (f : Frame) (rest : List UInt8) :
    recvMsg bufSize (f.bytes ++ rest) =
      some ((f.header, f.payload.take bufSize), f.payload.drop bufSize ++ rest) := by
  have hto : (if f.header.length = 0 then 0 else min f.header.length.toNat bufSize) =
      min f.payload.length bufSize := by
    rw [← f.header_length]
    split
    · next h0 => simp [h0]
    · rfl
  have htake : (f.bytes ++ rest).take headerSize = f.header.bytes := by
    rw [Frame.bytes, List.append_assoc]
    exact List.take_left' f.header.length_bytes
  have hdrop : (f.bytes ++ rest).drop headerSize = f.payload ++ rest := by
    rw [Frame.bytes, List.append_assoc]
    exact List.drop_left' f.header.length_bytes
  simp only [recvMsg, htake, hdrop, MessageHeader.ofBytes_bytes, hto]
  rw [if_neg (by simp [Frame.bytes]), if_neg (by simp)]
  have hmin : min f.payload.length bufSize ≤ f.payload.length := Nat.min_le_left _ _
  rw [List.take_append_of_le_length hmin, List.drop_append_of_le_length hmin, Nat.min_comm,
    ← List.take_eq_take_min, ← List.drop_eq_drop_min]

/-- A whole frame that fits the buffer is received as it was sent. -/
theorem recvMsg_bytes (f : Frame) (rest : List UInt8) (h : f.payload.length ≤ bufSize) :
    recvMsg bufSize (f.bytes ++ rest) = some ((f.header, f.payload), rest) := by
  rw [recvMsg_frame, List.take_of_length_le h, List.drop_eq_nil_of_le h, List.nil_append]

/-- The frames that fit are received as they were sent. -/
theorem recvMsgs_take (h : ∀ f ∈ frames.take n, f.payload.length ≤ bufSize) :
    recvMsgs bufSize n (frames.flatMap Frame.bytes) =
      (frames.take n).map fun f => (f.header, f.payload) := by
  induction n generalizing frames with
  | zero => simp [recvMsgs]
  | succ n ih =>
      cases frames with
      | nil => simp [recvMsgs, recvMsg]
      | cons f frames =>
          have hf : f.payload.length ≤ bufSize := h f (by simp)
          rw [List.flatMap_cons, recvMsgs, recvMsg_bytes f _ hf]
          have hrest : ∀ g ∈ frames.take n, g.payload.length ≤ bufSize := fun g hg =>
            h g (by simp [hg])
          rw [List.take_succ_cons, List.map_cons, ← ih hrest]

/-- A stream of whole frames is received frame by frame. -/
theorem recvMsgs_flatMap (frames : List Frame) (h : ∀ f ∈ frames, f.payload.length ≤ bufSize)
    (n : Nat) : recvMsgs bufSize n (frames.flatMap Frame.bytes) =
      (frames.map fun f => (f.header, f.payload)).take n := by
  rw [recvMsgs_take fun f hf => h f (List.mem_of_mem_take hf), List.map_take]

end Frames

end OnlineAuction.Wire
