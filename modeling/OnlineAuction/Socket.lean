import OnlineAuction.Lib.SigSum
import OnlineAuction.Reception
import OnlineAuction.SeedAdmin

/-!
# OnlineAuction.Socket

The server's end of a connection, read by read.

`send_msg` may need several calls of `write` for a payload, and a `read` answers with no
more than has arrived, however much it asks for.  `recvMsg` is `recv_msg` with its loop over
the reads, and `handleClient` is the loop of `handle_client` with its buffer.  What the
stream is cut into does not matter as long as every header arrives whole: the loop then
serves the messages that were sent, each with a buffer that holds its payload and zeros
(`roundTrip_of_segmentation`).
-/

namespace OnlineAuction.Socket

open Wire

/-! ## sending -/

/-- What `write` takes: all of a header and, of a payload, one byte more than the next
number of the list says, if there are as many; everything once the list is used up. -/
def writeExec : Prog.Handler WireSig (List UInt8 × List Nat)
  | .writeHeader h, (stream, accepts) => ((headerSize : Int), (stream ++ h.bytes, accepts))
  | .writePayload bs, (stream, []) => ((bs.length : Int), (stream ++ bs, []))
  | .writePayload bs, (stream, n :: accepts) =>
      ((min (n + 1) bs.length : Nat), (stream ++ bs.take (n + 1), accepts))

/-- Messages sent one after another. -/
def sendAll : List Frame → Prog WireSig Unit
  | [] => pure ()
  | f :: fs => do
      let _ ← Wire.sendMsg f
      sendAll fs

/-- The stream that they leave. -/
def sentBytes (accepts : List Nat) (frames : List Frame) : List UInt8 :=
  (Prog.run writeExec (sendAll frames) ([], accepts)).2.1

section Sending

variable {stream : List UInt8} {accepts : List Nat}

theorem run_sendPayload (fuel : Nat) (rest : List UInt8) (h : rest.length ≤ fuel) :
    ∃ accepts', Prog.run writeExec (sendPayload fuel rest) (stream, accepts) =
      (0, (stream ++ rest, accepts')) := by
  induction fuel generalizing rest stream accepts with
  | zero =>
      obtain rfl := List.length_eq_zero_iff.mp (Nat.le_zero.mp h)
      exact ⟨accepts, by simp [sendPayload]⟩
  | succ fuel ih =>
      by_cases hrest : rest = []
      · exact ⟨accepts, by simp [sendPayload, hrest]⟩
      have hpos : 0 < rest.length := List.length_pos_iff.mpr hrest
      rw [sendPayload, if_neg hrest, Prog.run_call]
      cases accepts with
      | nil =>
          have hlen : ¬ ((rest.length : Int) ≤ 0) := by omega
          simp only [writeExec, hlen, if_false, Int.toNat_natCast, List.drop_length]
          obtain ⟨accepts', heq⟩ : ∃ accepts', Prog.run writeExec (sendPayload fuel [])
              (stream ++ rest, []) = (0, (stream ++ rest ++ [], accepts')) := ih [] (by simp)
          exact ⟨accepts', by rw [heq, List.append_nil]⟩
      | cons n accepts =>
          have hmin : ¬ (((min (n + 1) rest.length : Nat) : Int) ≤ 0) := by omega
          have hleft : rest.drop (min (n + 1) rest.length) = rest.drop (n + 1) := by
            rcases Nat.le_total (n + 1) rest.length with hle | hle
            · rw [Nat.min_eq_left hle]
            · rw [Nat.min_eq_right hle, List.drop_eq_nil_of_le hle, List.drop_length]
          simp only [writeExec, hmin, if_false, Int.toNat_natCast, hleft]
          obtain ⟨accepts', heq⟩ : ∃ accepts', Prog.run writeExec
              (sendPayload fuel (rest.drop (n + 1))) (stream ++ rest.take (n + 1), accepts) =
                (0, (stream ++ rest.take (n + 1) ++ rest.drop (n + 1), accepts')) :=
            ih (rest.drop (n + 1)) (by rw [List.length_drop]; omega)
          exact ⟨accepts', by rw [heq, List.append_assoc, List.take_append_drop]⟩

/-- `send_msg` succeeds, and leaves the bytes of the message. -/
theorem run_sendMsg (f : Frame) :
    ∃ accepts', Prog.run writeExec (Wire.sendMsg f) (stream, accepts) =
      (0, (stream ++ f.bytes, accepts')) := by
  obtain ⟨accepts', heq⟩ : ∃ accepts', Prog.run writeExec
      (sendPayload f.payload.length f.payload) (stream ++ f.header.bytes, accepts) =
        (0, (stream ++ f.header.bytes ++ f.payload, accepts')) := run_sendPayload _ _ le_rfl
  refine ⟨accepts', ?_⟩
  rw [Wire.sendMsg, Prog.run_call]
  simp only [writeExec, ne_eq, not_true_eq_false, if_false]
  rw [heq, Frame.bytes, List.append_assoc]

theorem sentBytes_eq (accepts : List Nat) (frames : List Frame) :
    sentBytes accepts frames = frames.flatMap Frame.bytes := by
  have hrun (stream : List UInt8) (accepts : List Nat) :
      (Prog.run writeExec (sendAll frames) (stream, accepts)).2.1 =
        stream ++ frames.flatMap Frame.bytes := by
    induction frames generalizing stream accepts with
    | nil => simp [sendAll]
    | cons f fs ih =>
        obtain ⟨accepts', heq⟩ : ∃ accepts', Prog.run writeExec (Wire.sendMsg f)
            (stream, accepts) = (0, (stream ++ f.bytes, accepts')) := run_sendMsg f
        rw [sendAll, Prog.run_bind, heq, ih, List.flatMap_cons, List.append_assoc]
  exact hrun [] accepts

end Sending

/-! ## receiving -/

/-- `read(fd, …, n)`; it answers nothing at the end of the stream. -/
inductive ReadOp
  | read (n : Nat)

abbrev ReadSig : Sig := ⟨ReadOp, fun _ => List UInt8⟩

/-- The segments that are still to arrive: a read takes the next one, as far as it asks
for it. -/
def readExec : Prog.Handler ReadSig (List (List UInt8))
  | .read _, [] => ([], [])
  | .read n, seg :: segs =>
      if seg.length ≤ n then (seg, segs) else (seg.take n, seg.drop n :: segs)

/-- The loop of `recv_msg`, with `got` bytes of `toRead` in the buffer.  Each turn reads at
least one byte, so `toRead` is fuel enough. -/
def readPayload {size : Nat} (toRead : Nat) :
    Nat → Nat → CharArray size → Prog ReadSig (Option (CharArray size))
  | 0, _, buf => pure (some buf)
  | fuel + 1, got, buf =>
      if got < toRead then
        .call (.read (toRead - got)) fun bs =>
          if bs = [] then pure none
          else readPayload toRead fuel (got + bs.length) (buf.store got bs)
      else pure (some buf)

/-- `recv_msg`; `none` stands for `-1`. -/
def recvMsg {size : Nat} (buf : CharArray size) :
    Prog ReadSig (Option (MessageHeader × CharArray size)) :=
  .call (.read headerSize) fun bs =>
    if bs.length ≠ headerSize then pure none
    else
      let hdr := MessageHeader.ofBytes bs
      if hdr.length = 0 then pure (some (hdr, buf))
      else do
        let toRead := if hdr.length.toNat < size then hdr.length.toNat else size
        match ← readPayload toRead toRead 0 buf with
        | none => pure none
        | some buf => pure (some (hdr, buf))

/-- `recv_msg` called again and again with one buffer, up to the first `-1`. -/
def recvCalls {size : Nat} :
    Nat → CharArray size → Prog ReadSig (List (Option (MessageHeader × CharArray size)))
  | 0, _ => pure []
  | n + 1, buf => do
      match ← recvMsg buf with
      | none => pure [none]
      | some (hdr, buf) => do
          let rest ← recvCalls n buf
          pure (some (hdr, buf) :: rest)

/-- The type, status and length of a message, and its payload: what the buffer holds of
that length. -/
def contents {size : Nat} (m : MessageHeader × CharArray size) : MessageHeader × List UInt8 :=
  (m.1, m.2.val.take m.1.length.toNat)

/-- The reads of the connection and the calls of the handlers. -/
abbrev SocketSig : Sig := ReadSig.sum ApiSig

/-- `memset(buf, 0, sizeof(buf))`. -/
def memset {size : Nat} (_buf : CharArray size) : CharArray size := .zero size

/-- The loop of `handle_client`.  `decode` is the cast of the buffer that `hdr.type`
selects.  A message takes bytes from the stream, so their number is fuel enough. -/
def handleClient (sha256Hex : List UInt8 → List UInt8)
    (decode : MessageHeader → CharArray recvBuf → Request) (clientFd : Int) :
    Nat → Conn → CharArray recvBuf → Prog SocketSig Unit
  | 0, c, _ => Prog.inr (cleanUp c)
  | fuel + 1, c, buf => do
      let buf := memset buf
      match ← Prog.inl (recvMsg buf) with
      | none => Prog.inr (cleanUp c)
      | some (hdr, buf) => do
          let (c, running) ← Prog.inr (serve sha256Hex clientFd c (decode hdr buf))
          if running then handleClient sha256Hex decode clientFd fuel c buf
          else Prog.inr (cleanUp c)

/-! ## what is left to arrive -/

/-- The segments after `k` bytes have been read. -/
def dropBytes : Nat → List (List UInt8) → List (List UInt8)
  | _, [] => []
  | k, seg :: segs =>
      if seg.length ≤ k then dropBytes (k - seg.length) segs else seg.drop k :: segs

section Segments

variable {segs : List (List UInt8)} {seg : List UInt8} {k m : Nat}

theorem flatten_dropBytes (k : Nat) (segs : List (List UInt8)) :
    (dropBytes k segs).flatten = segs.flatten.drop k := by
  induction segs generalizing k with
  | nil => simp [dropBytes]
  | cons seg segs ih =>
      rw [dropBytes, List.flatten_cons]
      split
      · next hle => rw [ih, List.drop_append, List.drop_eq_nil_of_le hle, List.nil_append]
      · next hlt =>
          rw [List.flatten_cons, List.drop_append_of_le_length (by omega)]

theorem dropBytes_zero (h : ∀ seg ∈ segs, seg ≠ []) : dropBytes 0 segs = segs := by
  cases segs with
  | nil => rfl
  | cons seg segs =>
      have hpos : 0 < seg.length := List.length_pos_iff.mpr (h seg (List.mem_cons_self ..))
      rw [dropBytes, if_neg (by omega), List.drop_zero]

theorem ne_nil_dropBytes (h : ∀ seg ∈ segs, seg ≠ []) : ∀ seg ∈ dropBytes k segs, seg ≠ [] := by
  induction segs generalizing k with
  | nil => simp [dropBytes]
  | cons seg segs ih =>
      have hrest : ∀ seg ∈ segs, seg ≠ [] := fun x hx => h x (List.mem_cons_of_mem _ hx)
      intro x hx
      rw [dropBytes] at hx
      split at hx
      · exact ih hrest x hx
      · next hlt =>
          rcases List.mem_cons.mp hx with rfl | hx
          · rw [ne_eq, List.drop_eq_nil_iff]
            exact hlt
          · exact hrest x hx

theorem dropBytes_dropBytes : dropBytes m (dropBytes k segs) = dropBytes (k + m) segs := by
  induction segs generalizing k with
  | nil => simp [dropBytes]
  | cons seg segs ih =>
      rw [dropBytes]
      split
      · next hle =>
          rw [ih, dropBytes, if_pos (by omega), show k + m - seg.length =
            k - seg.length + m by omega]
      · next hlt =>
          rw [dropBytes, dropBytes, List.length_drop]
          by_cases hle : seg.length ≤ k + m
          · rw [if_pos (by omega), if_pos hle, show m - (seg.length - k) =
              k + m - seg.length by omega]
          · rw [if_neg (by omega), if_neg hle, List.drop_drop]

/-- A read takes some bytes of what has not arrived yet. -/
theorem exists_read {n : Nat} (h : ∀ seg ∈ segs, seg ≠ []) (hne : segs ≠ []) (hn : 0 < n) :
    ∃ k, 0 < k ∧ k ≤ n ∧ k ≤ segs.flatten.length ∧
      readExec (.read n) segs = (segs.flatten.take k, dropBytes k segs) := by
  cases segs with
  | nil => exact absurd rfl hne
  | cons seg segs =>
      have hpos : 0 < seg.length := List.length_pos_iff.mpr (h seg (List.mem_cons_self ..))
      have hrest : ∀ seg ∈ segs, seg ≠ [] := fun x hx => h x (List.mem_cons_of_mem _ hx)
      rw [List.flatten_cons, List.length_append]
      by_cases hle : seg.length ≤ n
      · refine ⟨seg.length, hpos, hle, by omega, ?_⟩
        rw [readExec, if_pos hle, List.take_left, dropBytes, if_pos le_rfl, Nat.sub_self,
          dropBytes_zero hrest]
      · refine ⟨n, hn, le_rfl, by omega, ?_⟩
        rw [readExec, if_neg hle, List.take_append_of_le_length (by omega), dropBytes, if_neg hle]

end Segments

/-! ## one message -/

section Message

variable {size : Nat} {buf : CharArray size} {segs : List (List UInt8)} {f : Frame}

/-- The loop reads what it needs, however it is cut, or finds the end of the stream. -/
theorem run_readPayload {toRead : Nat} (hsize : toRead ≤ size) (fuel got : Nat)
    (hgot : got ≤ toRead) (hfuel : toRead - got ≤ fuel) (h : ∀ seg ∈ segs, seg ≠ []) :
    Prog.run readExec (readPayload toRead fuel got buf) segs =
      if toRead - got ≤ segs.flatten.length then
        (some (buf.store got (segs.flatten.take (toRead - got))), dropBytes (toRead - got) segs)
      else (none, []) := by
  induction fuel generalizing got buf segs with
  | zero =>
      obtain rfl : got = toRead := by omega
      simp [readPayload, dropBytes_zero h]
  | succ fuel ih =>
      rw [readPayload]
      by_cases hdone : got < toRead
      case neg =>
        obtain rfl : got = toRead := by omega
        simp [dropBytes_zero h]
      rw [if_pos hdone, Prog.run_call]
      by_cases hne : segs = []
      · subst hne
        have hmore : ¬ toRead - got ≤ 0 := by omega
        simp [readExec, hmore]
      obtain ⟨k, hk, hkn, hkl, hread⟩ := exists_read h hne (Nat.sub_pos_of_lt hdone)
      have htake : (segs.flatten.take k).length = k := by rw [List.length_take]; omega
      have hbs : segs.flatten.take k ≠ [] := List.length_pos_iff.mp (by omega)
      rw [hread]
      simp only [hbs, if_false, htake]
      rw [ih (got + k) (by omega) (by omega) (ne_nil_dropBytes h), flatten_dropBytes,
        List.length_drop, dropBytes_dropBytes,
        show k + (toRead - (got + k)) = toRead - got by omega]
      by_cases henough : toRead - got ≤ segs.flatten.length
      · rw [if_pos (by omega), if_pos henough]
        have hroom : got + (segs.flatten.take k).length +
            ((segs.flatten.drop k).take (toRead - (got + k))).length ≤ size := by
          rw [htake, List.length_take, List.length_drop]
          omega
        have hstore := CharArray.store_append (b := buf) hroom
        rw [htake, ← List.take_add, show k + (toRead - (got + k)) = toRead - got by omega] at hstore
        rw [hstore]
      · rw [if_neg (by omega), if_neg henough]

/-- A header that arrives whole is followed by the message as the stream holds it. -/
theorem run_recvMsg (h : ∀ seg ∈ segs, seg ≠ []) (harrives : headerSize ≤ (segs.headD []).length) :
    Prog.run readExec (recvMsg buf) segs =
      match Wire.recvMsg size segs.flatten with
      | none => (none, [])
      | some ((hdr, payload), _) =>
          (some (hdr, buf.store 0 payload), dropBytes (headerSize + payload.length) segs) := by
  have hne : segs ≠ [] := by
    rintro rfl
    simp at harrives
  have hlen : headerSize ≤ segs.flatten.length := by
    cases segs with
    | nil => exact absurd rfl hne
    | cons seg segs =>
        rw [List.flatten_cons, List.length_append]
        exact harrives.trans (Nat.le_add_right _ _)
  have hread : readExec (.read headerSize) segs =
      (segs.flatten.take headerSize, dropBytes headerSize segs) := by
    cases segs with
    | nil => exact absurd rfl hne
    | cons seg segs =>
        have hseg : headerSize ≤ seg.length := harrives
        have hrest : ∀ seg ∈ segs, seg ≠ [] := fun x hx => h x (List.mem_cons_of_mem _ hx)
        rw [readExec, List.flatten_cons, List.take_append_of_le_length hseg, dropBytes]
        rcases Nat.eq_or_lt_of_le hseg with heq | hlt
        · rw [if_pos heq.ge, if_pos heq.ge, heq, List.take_length, Nat.sub_self,
            dropBytes_zero hrest]
        · rw [if_neg (by omega), if_neg (by omega)]
  have htake : (segs.flatten.take headerSize).length = headerSize := by
    rw [List.length_take]
    omega
  have hwhole : ¬ segs.flatten.length < headerSize := Nat.not_lt.mpr hlen
  simp only [recvMsg, Prog.run_call, hread, htake, Wire.recvMsg, hwhole, ne_eq, not_true_eq_false,
    if_false]
  by_cases hzero : (MessageHeader.ofBytes (segs.flatten.take headerSize)).length = 0
  · simp [hzero]
  · have hto : (if (MessageHeader.ofBytes (segs.flatten.take headerSize)).length.toNat < size then
        (MessageHeader.ofBytes (segs.flatten.take headerSize)).length.toNat else size) =
        min (MessageHeader.ofBytes (segs.flatten.take headerSize)).length.toNat size := by
      split <;> omega
    simp only [hzero, if_false, hto]
    generalize min (MessageHeader.ofBytes (segs.flatten.take headerSize)).length.toNat size =
      toRead at hto
    have hsize : toRead ≤ size := by
      rw [← hto]
      split <;> omega
    rw [Prog.run_bind, run_readPayload hsize toRead 0 (Nat.zero_le _) (Nat.sub_le ..)
      (ne_nil_dropBytes h), flatten_dropBytes, Nat.sub_zero, dropBytes_dropBytes]
    by_cases henough : toRead ≤ (segs.flatten.drop headerSize).length
    · have hpayload : ((segs.flatten.drop headerSize).take toRead).length = toRead := by
        rw [List.length_take]
        omega
      simp only [henough, if_true, Nat.not_lt.mpr henough, if_false, hpayload, Prog.run_pure,
        Prog.pure_eq]
    · simp only [henough, if_false, Nat.lt_of_not_le henough, if_true, Prog.run_pure, Prog.pure_eq]

/-- A header that does not arrive whole is an error. -/
theorem run_recvMsg_short (h : ∀ seg ∈ segs, seg ≠ [])
    (hshort : (segs.headD []).length < headerSize) :
    (Prog.run readExec (recvMsg buf) segs).1 = none := by
  have hread : (readExec (.read headerSize) segs).1 = segs.headD [] := by
    cases segs with
    | nil => rfl
    | cons seg segs =>
        have hseg : seg.length ≤ headerSize := Nat.le_of_lt hshort
        rw [readExec, if_pos hseg]
        rfl
  have hne : (segs.headD []).length ≠ headerSize := Nat.ne_of_lt hshort
  rw [recvMsg, Prog.run_call, hread, if_pos hne]
  rfl

/-- A message that fits the buffer is received as it was sent. -/
theorem run_recvMsg_frame (h : ∀ seg ∈ segs, seg ≠ [])
    (harrives : headerSize ≤ (segs.headD []).length) {rest : List UInt8}
    (hflatten : segs.flatten = f.bytes ++ rest) (hfits : f.payload.length ≤ size) :
    Prog.run readExec (recvMsg buf) segs =
      (some (f.header, buf.store 0 f.payload), dropBytes f.bytes.length segs) := by
  have hlen : f.bytes.length = headerSize + f.payload.length := by
    rw [Frame.bytes, List.length_append, MessageHeader.length_bytes]
  rw [run_recvMsg h harrives, hflatten, recvMsg_bytes f rest hfits, hlen]

/-- A message that fits the buffer and is cut is an error. -/
theorem run_recvMsg_cut (h : ∀ seg ∈ segs, seg ≠ []) (hfits : f.payload.length ≤ size) {n : Nat}
    (hflatten : segs.flatten = f.bytes.take n) (hcut : n < f.bytes.length) :
    (Prog.run readExec (recvMsg buf) segs).1 = none := by
  rcases Nat.lt_or_ge (segs.headD []).length headerSize with hshort | harrives
  · exact run_recvMsg_short h hshort
  have hlen : f.bytes.length = headerSize + f.payload.length := by
    rw [Frame.bytes, List.length_append, MessageHeader.length_bytes]
  have hn : headerSize ≤ n := by
    have hhead : (segs.headD []).length ≤ segs.flatten.length := by
      cases segs with
      | nil => simp
      | cons seg segs => simp
    rw [hflatten, List.length_take] at hhead
    omega
  have hheader : (f.bytes.take n).take headerSize = f.header.bytes := by
    rw [List.take_take, Nat.min_eq_left hn, Frame.bytes]
    exact List.take_left' f.header.length_bytes
  have hto : (if f.header.length = 0 then 0 else min f.header.length.toNat size) =
      f.payload.length := by
    rw [← f.header_length] at hfits ⊢
    split
    · next h0 => rw [h0]; rfl
    · exact Nat.min_eq_left hfits
  have hnone : Wire.recvMsg size (f.bytes.take n) = none := by
    simp only [Wire.recvMsg, hheader, MessageHeader.ofBytes_bytes, hto]
    rw [if_neg (by rw [List.length_take]; omega),
      if_pos (by rw [List.length_drop, List.length_take]; omega)]
  rw [run_recvMsg h harrives, hflatten, hnone]

end Message

/-! ## many messages -/

/-- The messages that a stream cut after `n` bytes holds whole. -/
def complete : Nat → List Frame → List Frame
  | _, [] => []
  | n, f :: fs => if f.bytes.length ≤ n then f :: complete (n - f.bytes.length) fs else []

/-- Every header of the messages is in one of the segments. -/
def HeadersWhole : List Frame → List (List UInt8) → Prop
  | [], _ => True
  | f :: fs, segs =>
      headerSize ≤ (segs.headD []).length ∧ HeadersWhole fs (dropBytes f.bytes.length segs)

/-- A stream is cut into segments that leave the headers of these messages whole. -/
structure Segmentation (stream : List UInt8) (frames : List Frame) (segs : List (List UInt8)) :
    Prop where
  flatten : segs.flatten = stream
  ne_nil : ∀ seg ∈ segs, seg ≠ []
  headers : HeadersWhole frames segs

/-- The stream of the messages ends after `n` bytes. -/
abbrev CutStream (frames : List Frame) (n : Nat) (segs : List (List UInt8)) : Prop :=
  Segmentation ((frames.flatMap Frame.bytes).take n) (complete n frames) segs

section Messages

variable {n : Nat} {f : Frame} {frames : List Frame} {segs : List (List UInt8)}

/-- A stream that is not cut holds all of the messages. -/
theorem complete_of_le (h : (frames.flatMap Frame.bytes).length ≤ n) :
    complete n frames = frames := by
  induction frames generalizing n with
  | nil => rfl
  | cons f fs ih =>
      rw [List.flatMap_cons, List.length_append] at h
      rw [complete, if_pos (by omega), ih (by omega)]

/-- The segments after the first message. -/
theorem CutStream.tail (h : CutStream (f :: frames) n segs) (hn : f.bytes.length ≤ n) :
    CutStream frames (n - f.bytes.length) (dropBytes f.bytes.length segs) where
  flatten := by
    rw [flatten_dropBytes, h.flatten, List.flatMap_cons, List.drop_take, List.drop_left]
  ne_nil := ne_nil_dropBytes h.ne_nil
  headers := by
    have hheaders := h.headers
    rw [complete, if_pos hn] at hheaders
    exact hheaders.2

/-- What `recv_msg` makes of the first message, which may be cut, or missing. -/
theorem CutStream.run_recvMsg {size : Nat} (h : CutStream frames n segs) (buf : CharArray size)
    (hfits : ∀ f ∈ frames, f.payload.length ≤ size) :
    (Prog.run readExec (recvMsg buf) segs).1 =
        (complete n frames).head?.map (fun f => (f.header, buf.store 0 f.payload)) ∧
      ∀ f fs, frames = f :: fs → f.bytes.length ≤ n →
        (Prog.run readExec (recvMsg buf) segs).2 = dropBytes f.bytes.length segs := by
  cases frames with
  | nil =>
      have hsegs : segs.flatten = [] := by rw [h.flatten, List.flatMap_nil, List.take_nil]
      have hnil : segs = [] := by
        cases segs with
        | nil => rfl
        | cons seg segs =>
            exact absurd (List.append_eq_nil_iff.mp hsegs).1 (h.ne_nil seg (List.mem_cons_self ..))
      refine ⟨run_recvMsg_short h.ne_nil ?_, by simp⟩
      simp [hnil]
  | cons f fs =>
      have hf : f.payload.length ≤ size := hfits f (List.mem_cons_self ..)
      by_cases hn : f.bytes.length ≤ n
      · have hflatten : segs.flatten =
            f.bytes ++ (fs.flatMap Frame.bytes).take (n - f.bytes.length) := by
          rw [h.flatten, List.flatMap_cons, List.take_append, List.take_of_length_le hn]
        have hheaders := h.headers
        rw [complete, if_pos hn] at hheaders
        have hrun : Prog.run readExec (recvMsg buf) segs = _ :=
          run_recvMsg_frame h.ne_nil hheaders.1 hflatten hf
        rw [hrun, complete, if_pos hn]
        refine ⟨rfl, ?_⟩
        rintro f' fs' ⟨⟩ _
        rfl
      · have hflatten : segs.flatten = f.bytes.take n := by
          rw [h.flatten, List.flatMap_cons, List.take_append_of_le_length (by omega)]
        refine ⟨?_, ?_⟩
        · rw [run_recvMsg_cut h.ne_nil hf hflatten (Nat.lt_of_not_le hn), complete, if_neg hn]
          rfl
        · rintro f' fs' ⟨⟩ hle
          exact absurd hle hn

/-- What a message that has been received holds. -/
theorem contents_store {size : Nat} (buf : CharArray size) (h : f.payload.length ≤ size) :
    contents (f.header, buf.store 0 f.payload) = (f.header, f.payload) := by
  have hput : (buf.store 0 f.payload).val = f.payload ++ buf.val.drop f.payload.length := by
    rw [CharArray.val_store (by omega), List.take_zero, List.nil_append, Nat.zero_add]
  rw [contents, hput, f.header_length, List.take_left]

/-- A message that is received in a cleared buffer is followed by zeros. -/
theorem store_memset {size : Nat} (buf : CharArray size) {bs : List UInt8}
    (h : bs.length ≤ size) : (memset buf).store 0 bs = .ofBytes size bs := by
  refine Subtype.ext ?_
  have hzero : (memset buf).val = List.replicate size 0 := by
    change ([] ++ List.replicate size (0 : UInt8)).take size = _
    rw [List.nil_append, List.take_replicate, Nat.min_self]
  have hof : (CharArray.ofBytes size bs).val = bs ++ List.replicate (size - bs.length) 0 := by
    change (bs ++ List.replicate size 0).take size = _
    rw [List.take_append, List.take_of_length_le h, List.take_replicate,
      Nat.min_eq_left (Nat.sub_le ..)]
  rw [CharArray.val_store (by omega), hzero, hof, List.take_zero, List.nil_append, Nat.zero_add,
    List.drop_replicate]

/-- `recv_msg` called again and again answers with the messages that arrive whole, and then
with `-1`. -/
theorem run_recvCalls {size : Nat} (h : CutStream frames n segs)
    (hfits : ∀ f ∈ frames, f.payload.length ≤ size) (k : Nat) (buf : CharArray size) :
    (Prog.run readExec (recvCalls k buf) segs).1.map (Option.map contents) =
      ((complete n frames).map (fun f : Frame => some (f.header, f.payload)) ++ [none]).take k := by
  induction frames generalizing n segs k buf with
  | nil =>
      cases k with
      | zero => rfl
      | succ k =>
          have hrecv := (h.run_recvMsg buf hfits).1
          rw [recvCalls, Prog.run_bind, hrecv]
          simp [complete]
  | cons f fs ih =>
      cases k with
      | zero => rfl
      | succ k =>
          obtain ⟨hrecv, hrest⟩ := h.run_recvMsg buf hfits
          rw [recvCalls, Prog.run_bind, hrecv]
          by_cases hn : f.bytes.length ≤ n
          · rw [hrest f fs rfl hn]
            simp only [complete, hn, if_true, List.head?_cons, Option.map_some, Prog.run_bind,
              Prog.pure_eq, Prog.run_pure, List.map_cons, List.cons_append, List.take_succ_cons]
            rw [ih (h.tail hn) (fun g hg => hfits g (List.mem_cons_of_mem _ hg)),
              contents_store buf (hfits f (List.mem_cons_self ..))]
          · simp [complete, hn]

/-- The loop of `handle_client` serves the messages that arrive whole. -/
theorem run_handleClient {sha256Hex : List UInt8 → List UInt8} (h : CutStream frames n segs)
    (hfits : ∀ f ∈ frames, f.payload.length ≤ recvBuf)
    (decode : MessageHeader → CharArray recvBuf → Request) (clientFd : Int) {fuel : Nat}
    (hfuel : frames.length < fuel) (c : Conn) (buf : CharArray recvBuf) (s : Store) :
    (Prog.run (Prog.Handler.sum readExec Api.exec)
        (handleClient sha256Hex decode clientFd fuel c buf) (segs, s)).2.2 =
      (Prog.run Api.exec (clientLoop sha256Hex clientFd c ((complete n frames).map fun f =>
        decode f.header (.ofBytes recvBuf f.payload))) s).2 := by
  induction frames generalizing n segs fuel c buf s with
  | nil =>
      obtain ⟨fuel, rfl⟩ := Nat.exists_eq_succ_of_ne_zero (Nat.ne_of_gt hfuel)
      have hrecv := (h.run_recvMsg (memset buf) hfits).1
      simp only [handleClient, Prog.run_bind, Prog.run_inl, hrecv, complete, List.head?_nil,
        Option.map_none, Prog.run_inr, List.map_nil, clientLoop]
  | cons f fs ih =>
      obtain ⟨fuel, rfl⟩ := Nat.exists_eq_succ_of_ne_zero (Nat.ne_of_gt (Nat.zero_lt_of_lt hfuel))
      obtain ⟨hrecv, hrest⟩ := h.run_recvMsg (memset buf) hfits
      by_cases hn : f.bytes.length ≤ n
      · have hbuf := store_memset buf (hfits f (List.mem_cons_self ..))
        simp only [handleClient, Prog.run_bind, Prog.run_inl, hrecv, hrest f fs rfl hn, complete,
          hn, if_true, List.head?_cons, Option.map_some, hbuf, Prog.run_inr, List.map_cons,
          clientLoop]
        split
        · exact ih (h.tail hn) (fun g hg => hfits g (List.mem_cons_of_mem _ hg))
            (Nat.lt_of_succ_lt_succ hfuel) _ _ _
        · rw [Prog.run_inr]
      · simp only [handleClient, Prog.run_bind, Prog.run_inl, hrecv, complete, hn, if_false,
          List.head?_nil, Option.map_none, Prog.run_inr, List.map_nil, clientLoop]

end Messages

/-! ## the round trip -/

/-- What the server makes of a stream that ends after `n` bytes: `recv_msg` answers with the
messages that are whole, and then with `-1`, whatever is in its buffer; and `handle_client`
serves exactly them, each from a buffer with its payload followed by zeros, whatever was in
it before. -/
structure RoundTrip (sha256Hex : List UInt8 → List UInt8) (frames : List Frame) (n : Nat)
    (segs : List (List UInt8)) : Prop where
  all : (frames.flatMap Frame.bytes).length ≤ n → complete n frames = frames
  received : ∀ size, (∀ f ∈ frames, f.payload.length ≤ size) → ∀ k (buf : CharArray size),
    (Prog.run readExec (recvCalls k buf) segs).1.map (Option.map contents) =
      ((complete n frames).map (fun f : Frame => some (f.header, f.payload)) ++ [none]).take k
  served : (∀ f ∈ frames, f.payload.length ≤ recvBuf) → ∀ decode clientFd fuel,
    frames.length < fuel → ∀ c buf s,
    (Prog.run (Prog.Handler.sum readExec Api.exec)
        (handleClient sha256Hex decode clientFd fuel c buf) (segs, s)).2.2 =
      (Prog.run Api.exec (clientLoop sha256Hex clientFd c ((complete n frames).map fun f =>
        decode f.header (.ofBytes recvBuf f.payload))) s).2

/-- **Framing round trip**: what is sent is received, whatever the writes and the reads cut
it into, as long as each header arrives whole. -/
theorem roundTrip_of_segmentation (sha256Hex : List UInt8 → List UInt8) (accepts : List Nat)
    (frames : List Frame) (n : Nat) (segs : List (List UInt8))
    (h : Segmentation ((sentBytes accepts frames).take n) (complete n frames) segs) :
    RoundTrip sha256Hex frames n segs := by
  rw [sentBytes_eq] at h
  exact {
    all := complete_of_le
    received := fun _ hfits k buf => run_recvCalls h hfits k buf
    served := fun hfits decode clientFd _ hfuel c buf s =>
      run_handleClient h hfits decode clientFd hfuel c buf s }

/-- A message without a payload and one with three bytes, of which the last is cut off. -/
theorem roundTrip_of_segmentation_cut :
    let frames : List Frame := [⟨1, 0, [], by decide⟩, ⟨3, 0, [7, 8, 9], by decide⟩]
    RoundTrip adminSha256Hex frames 26
      [[1, 0, 0, 0, 0, 0, 0, 0, 0, 0, 0, 0, 3, 0, 0, 0, 3, 0, 0, 0, 0, 0, 0, 0, 7], [8]] :=
  roundTrip_of_segmentation adminSha256Hex [0] _ 26 _
    ⟨by decide, by decide, ⟨by decide, trivial⟩⟩

end OnlineAuction.Socket
