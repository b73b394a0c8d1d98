import OnlineAuction.Server
import OnlineAuction.Wire

/-!
# OnlineAuction.Reception

What the server takes for messages.

`recv_msg` of the server reads a header and then at most as much payload as the buffer of
`handle_client` holds; what is left of a longer payload stays in the stream, and the next
turn of the loop reads its header from there.  `receiveLoop` is the loop on the bytes that a
client sends, and `keepsFraming_iff` says after which frames it is still where a frame
begins.
-/

namespace OnlineAuction.Wire

/-- `sizeof(buf)` in `handle_client`. -/
abbrev recvBuf : Nat := 4096

/-! ## the loop -/

section Loop

variable (sha256Hex : List UInt8 → List UInt8) (decode : MessageHeader × List UInt8 → Request)
  (clientFd : Int)

/-- The loop of `handle_client`: a message is received, then the turn of it is taken.
`decode` is the cast of the buffer that `hdr.type` selects.  Every message takes bytes from
the stream, so the length of the stream is fuel enough. -/
def receiveLoop : Nat → Conn → List UInt8 → Prog ApiSig Unit
  | 0, c, _ => cleanUp c
  | fuel + 1, c, stream => match recvMsg recvBuf stream with
      | none => cleanUp c
      | some (m, rest) => do
          let (c, running) ← serve sha256Hex clientFd c (decode m)
          if running then receiveLoop fuel c rest else cleanUp c

/-- The loop serves the messages that are received, until it is left. -/
theorem receiveLoop_eq (fuel : Nat) (c : Conn) (stream : List UInt8) :
    receiveLoop sha256Hex decode clientFd fuel c stream =
      clientLoop sha256Hex clientFd c ((recvMsgs recvBuf fuel stream).map decode) := by
  induction fuel generalizing c stream with
  | zero => rfl
  | succ fuel ih =>
      unfold receiveLoop recvMsgs
      cases recvMsg recvBuf stream with
      | none => rfl
      | some x =>
          obtain ⟨m, rest⟩ := x
          simp only [List.map_cons, clientLoop, ih]

end Loop

/-! ## frames -/

/-- The stream after `n` messages have been received. -/
def streamAfter (bufSize : Nat) : Nat → List UInt8 → Option (List UInt8)
  | 0, stream => some stream
  | n + 1, stream => match recvMsg bufSize stream with
      | none => none
      | some (_, rest) => streamAfter bufSize n rest

/-- What `n` turns of the loop do to a stream of frames: the headers that they take are
those of the frames, and each turn leaves the stream where a frame begins or the stream
ends. -/
structure KeepsFraming (frames : List Frame) (n : Nat) : Prop where
  headers : (recvMsgs recvBuf n (frames.flatMap Frame.bytes)).map Prod.fst <+:
    frames.map Frame.header
  boundary : ∀ k ≤ n, ∀ rest, streamAfter recvBuf k (frames.flatMap Frame.bytes) = some rest →
    ∃ later, later <:+ frames ∧ rest = later.flatMap Frame.bytes

section Frames

variable {bufSize n : Nat} {f : Frame} {frames : List Frame}

/-- A payload that exceeds the buffer leaves the stream inside its frame. -/
theorem not_boundary (hlong : bufSize < f.payload.length) (first rest : List Frame) :
    ¬ ∃ later, later <:+ first ++ f :: rest ∧
      f.payload.drop bufSize ++ rest.flatMap Frame.bytes = later.flatMap Frame.bytes := by
  rintro ⟨later, hlater, heq⟩
  have hlen := congrArg List.length heq
  rw [List.length_append, List.length_drop] at hlen
  have hframe : f.bytes.length = 12 + f.payload.length := by simp [Frame.bytes]
  have hself : f :: rest <:+ first ++ f :: rest := List.suffix_append first _
  rcases List.suffix_or_suffix_of_suffix hlater hself with hsuf | ⟨before, rfl⟩
  · rcases List.suffix_cons_iff.mp hsuf with rfl | ⟨before, rfl⟩
    · rw [List.flatMap_cons, List.length_append] at hlen
      omega
    · rw [List.flatMap_append, List.length_append] at hlen
      omega
  · rw [List.flatMap_append, List.flatMap_cons, List.length_append, List.length_append] at hlen
    omega

/-- The frames that fit are gone from the stream when they were received. -/
theorem streamAfter_take (h : ∀ f ∈ frames.take n, f.payload.length ≤ bufSize)
    {rest : List UInt8} (hrest : streamAfter bufSize n (frames.flatMap Frame.bytes) = some rest) :
    rest = (frames.drop n).flatMap Frame.bytes := by
  induction n generalizing frames with
  | zero => exact (Option.some.inj hrest).symm
  | succ n ih =>
      cases frames with
      | nil => cases hrest
      | cons f frames =>
          have hf : f.payload.length ≤ bufSize := h f (by simp)
          rw [List.flatMap_cons, streamAfter, recvMsg_frame, List.drop_eq_nil_of_le hf,
            List.nil_append] at hrest
          exact ih (fun g hg => h g (by simp [hg])) hrest

/-- After some frames that fit comes whatever follows them. -/
theorem streamAfter_append (first : List Frame) (h : ∀ f ∈ first, f.payload.length ≤ bufSize)
    (rest : List UInt8) :
    streamAfter bufSize (first.length + n) (first.flatMap Frame.bytes ++ rest) =
      streamAfter bufSize n rest := by
  induction first with
  | nil => simp
  | cons f first ih =>
      have hf : f.payload.length ≤ bufSize := h f (by simp)
      rw [List.length_cons, Nat.add_right_comm, List.flatMap_cons, List.append_assoc, streamAfter,
        recvMsg_frame, List.drop_eq_nil_of_le hf, List.nil_append]
      exact ih fun g hg => h g (by simp [hg])

/-- **Framing of the requests**: the loop takes the headers of the frames for headers, and
each turn leaves the stream at the end of a frame, exactly when none of the frames that it
receives has a payload that exceeds the buffer. -/
theorem keepsFraming_iff (frames : List Frame) (n : Nat) :
    KeepsFraming frames n ↔ ∀ f ∈ frames.take n, f.payload.length ≤ recvBuf := by
  constructor
  · intro h
    by_contra hlong
    have hfind : ((frames.take n).find? fun f => recvBuf < f.payload.length).isSome := by
      simpa using hlong
    obtain ⟨f, hf⟩ := Option.isSome_iff_exists.mp hfind
    obtain ⟨hexceeds, first, rest, htake, hfirst⟩ := List.find?_eq_some_iff_append.mp hf
    have hfits : ∀ g ∈ first, g.payload.length ≤ recvBuf := fun g hg => by
      simpa using hfirst g hg
    have hframes : frames = first ++ f :: (rest ++ frames.drop n) := by
      rw [← List.cons_append, ← List.append_assoc, ← htake, List.take_append_drop]
    have hk : first.length + 1 ≤ n := by
      have hlen := congrArg List.length htake
      simp only [List.length_take, List.length_append, List.length_cons] at hlen
      omega
    refine not_boundary (of_decide_eq_true hexceeds) first (rest ++ frames.drop n) ?_
    rw [← hframes]
    refine h.boundary _ hk _ ?_
    rw [hframes, List.flatMap_append, List.flatMap_cons, streamAfter_append first hfits,
      ← hframes, streamAfter, recvMsg_frame]
    rfl
  · intro h
    constructor
    · rw [recvMsgs_take h, List.map_map]
      exact (List.take_prefix n frames).map _
    · intro k hk rest hrest
      have hfits : ∀ f ∈ frames.take k, f.payload.length ≤ recvBuf := fun f hf =>
        h f (List.take_subset_take_left _ hk hf)
      exact ⟨frames.drop k, List.drop_suffix k frames, streamAfter_take hfits hrest⟩

end Frames

/-! ## a request inside a payload -/

/-- A header of `MSG_LOGOUT_REQ`. -/
def logoutHeader : MessageHeader := ⟨3, 0, 0⟩

/-- A frame of `MSG_SUBMIT_FEEDBACK_REQ` whose payload goes on past the buffer with it. -/
def smuggled : Frame where
  type := 17
  status := 0
  payload := List.replicate recvBuf 0 ++ logoutHeader.bytes
  length_lt := by
    rw [List.length_append, List.length_replicate, MessageHeader.length_bytes]
    decide

/-- The second turn of the loop takes it for a message of the client. -/
theorem not_keepsFraming : ¬ ∀ frames n, KeepsFraming frames n := by
  intro h
  have hdrop : smuggled.payload.drop recvBuf = logoutHeader.bytes :=
    List.drop_left' (List.length_replicate ..)
  have hlogout : recvMsg recvBuf logoutHeader.bytes = some ((logoutHeader, []), []) := by
    decide
  have hheaders := (h [smuggled] 2).headers
  rw [List.flatMap_singleton, ← List.append_nil smuggled.bytes, recvMsgs, recvMsg_frame, hdrop,
    List.append_nil] at hheaders
  simp only [recvMsgs, hlogout] at hheaders
  exact absurd hheaders.length_le (by decide)

end OnlineAuction.Wire
