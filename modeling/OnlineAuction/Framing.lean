import OnlineAuction.Wire
import Mathlib.Data.Fintype.Basic

/-!
# OnlineAuction.Framing

When the frames of a connection stay whole.

No lock is held while a frame is written, so a second sender can write its
header between the header and the payload of the first, and the client then
takes the one for the other.  `headersApart` is the condition that this does
not happen; `frames_whole` is what every run under it leaves on the stream.
-/

namespace OnlineAuction.Wire

variable {ι : Type}

/-- The next call of the program is the payload of a frame. -/
def MidFrame : Prog WireSig Unit → Prop
  | .call (.writePayload _) _ => True
  | _ => False

instance : DecidablePred MidFrame := fun p => match p with
  | .call (.writePayload _) _ => isTrue trivial
  | .call (.writeHeader _) _ | .pure _ => isFalse id

/-- A header is written only when no other thread is inside a frame. -/
def headersApart (c : Config WireSig ι (List UInt8)) (t : ι) : WireOp → Prop
  | .writeHeader _ => ∀ u, u ≠ t → ¬ MidFrame (c.prog u)
  | .writePayload _ => True

instance [Fintype ι] [DecidableEq ι] (c : Config WireSig ι (List UInt8)) (t : ι) (op : WireOp) :
    Decidable (headersApart c t op) := match op with
  | .writeHeader _ => inferInstanceAs (Decidable (∀ u, u ≠ t → ¬ MidFrame (c.prog u)))
  | .writePayload _ => isTrue trivial

/-! ## the programs -/

/-- The program writes the payload of `f` and is done. -/
def SendsPayload (p : Prog WireSig Unit) (f : Frame) : Prop :=
  ∃ k, p = .call (.writePayload f.payload) k ∧ k f.payload.length = .pure ()

/-- The program writes the frame `f` and is done. -/
def Sends (p : Prog WireSig Unit) (f : Frame) : Prop :=
  ∃ k, p = .call (.writeHeader f.header) k ∧
    (f.payload = [] ∧ k headerSize = .pure () ∨
      f.payload ≠ [] ∧ SendsPayload (k headerSize) f)

theorem sendPayload_nil (fuel : Nat) : sendPayload fuel [] = pure 0 := by
  cases fuel <;> rfl

/-- When each `write` takes all bytes, the loop of `send_msg` has one turn. -/
theorem sendPayload_of_ne {f : Frame} (hne : f.payload ≠ []) :
    ∃ k, sendPayload f.payload.length f.payload = .call (.writePayload f.payload) k ∧
      k f.payload.length = pure 0 := by
  obtain ⟨fuel, hfuel⟩ := Nat.exists_eq_succ_of_ne_zero
    (fun h0 => hne (List.length_eq_zero_iff.mp h0))
  rw [hfuel]
  simp only [sendPayload, if_neg hne]
  refine ⟨_, rfl, ?_⟩
  rw [if_neg (by omega), Int.toNat_natCast, ← hfuel, List.drop_length]
  exact sendPayload_nil fuel

/-- Both ways of sending write one frame. -/
theorem SendCall.sends (call : SendCall) : Sends call.prog call.frame := by
  cases call with
  | response f =>
      simp only [SendCall.prog, sendMsg, Prog.bind_call, SendCall.frame]
      refine ⟨_, rfl, ?_⟩
      by_cases hne : f.payload = []
      · exact .inl ⟨hne, by simp [hne, sendPayload]⟩
      · obtain ⟨k, hk, hdone⟩ := sendPayload_of_ne hne
        refine .inr ⟨hne, fun n => k n >>= fun _ => pure (), ?_, by simp [hdone]⟩
        simp [hk]
  | notification f =>
      simp only [SendCall.prog, pushNotification, SendCall.frame]
      refine ⟨_, rfl, ?_⟩
      by_cases hne : f.payload = []
      · exact .inl ⟨hne, by simp [hne]⟩
      · exact .inr ⟨hne, fun _ => pure (), by simp [hne], rfl⟩

/-! ## the invariant -/

/-- The frames of the log that thread `t` sent. -/
def sentBy [DecidableEq ι] (log : List (ι × Frame)) (t : ι) : List Frame :=
  (log.filter fun e => e.1 = t).map Prod.snd

theorem sentBy_append [DecidableEq ι] (log : List (ι × Frame)) (t u : ι) (f : Frame) :
    sentBy (log ++ [(t, f)]) u = sentBy log u ++ if t = u then [f] else [] := by
  by_cases h : t = u <;> simp [sentBy, h]

/-- Thread `t` has the frames `fs` still to send, all of them whole. -/
def Pending (c : Config WireSig ι (List UInt8)) (t : ι) (fs : List Frame) : Prop :=
  ∃ rest : List SendCall, c.queue t = rest.map SendCall.prog ∧
    (c.prog t = .pure () ∧ fs = rest.map SendCall.frame ∨
      ∃ f, Sends (c.prog t) f ∧ fs = f :: rest.map SendCall.frame)

/-- A step of one thread leaves what another has still to send. -/
theorem Pending.congr {c d : Config WireSig ι (List UInt8)} {t : ι} {fs : List Frame}
    (h : Pending c t fs) (hprog : d.prog t = c.prog t) (hqueue : d.queue t = c.queue t) :
    Pending d t fs := by
  obtain ⟨rest, hq, hp⟩ := h
  exact ⟨rest, hqueue.trans hq, by rw [hprog]; exact hp⟩

/-- Thread `t` has written the header of `f`, and has `f` and then `fs` still
to complete. -/
def Inside (c : Config WireSig ι (List UInt8)) (t : ι) (f : Frame) (fs : List Frame) : Prop :=
  ∃ rest : List SendCall, c.queue t = rest.map SendCall.prog ∧
    SendsPayload (c.prog t) f ∧ fs = rest.map SendCall.frame

theorem Inside.midFrame {c : Config WireSig ι (List UInt8)} {t : ι} {f : Frame}
    {fs : List Frame} (h : Inside c t f fs) : MidFrame (c.prog t) := by
  obtain ⟨rest, -, ⟨k, hk, -⟩, -⟩ := h
  rw [hk]
  trivial

/-- The frame of a thread is complete on the stream. -/
theorem stream_snoc {log : List (ι × Frame)} {t : ι} {f : Frame} :
    (log.map Prod.snd).flatMap Frame.bytes ++ f.header.bytes ++ f.payload =
      ((log ++ [(t, f)]).map Prod.snd).flatMap Frame.bytes := by
  simp [Frame.bytes]

variable [DecidableEq ι]

/-- The stream holds the frames of the log, and then at most the header of a
frame that one thread is inside of. -/
inductive Framed (work : ι → List SendCall) (c : Config WireSig ι (List UInt8)) : Prop
  | between (log : List (ι × Frame))
      (hstream : c.shared = (log.map Prod.snd).flatMap Frame.bytes)
      (hwork : ∀ t, ∃ fs, Pending c t fs ∧ sentBy log t ++ fs = (work t).map SendCall.frame)
  | inside (log : List (ι × Frame)) (t : ι) (f : Frame)
      (hstream : c.shared = (log.map Prod.snd).flatMap Frame.bytes ++ f.header.bytes)
      (ht : ∃ fs, Inside c t f fs ∧ sentBy log t ++ f :: fs = (work t).map SendCall.frame)
      (hwork : ∀ u, u ≠ t →
        ∃ fs, Pending c u fs ∧ sentBy log u ++ fs = (work u).map SendCall.frame)

theorem Framed.start (work : ι → List SendCall) :
    Framed work (.start [] fun t => (work t).map SendCall.prog) :=
  .between [] rfl fun t => ⟨_, ⟨work t, rfl, .inl ⟨rfl, rfl⟩⟩, rfl⟩

/-- A thread that begins its next call has the same frames to send. -/
theorem Pending.begin {c : Config WireSig ι (List UInt8)} {t : ι} {fs : List Frame}
    {p : Prog WireSig Unit} {ps : List (Prog WireSig Unit)} (h : Pending c t fs)
    (hidle : c.prog t = .pure ()) (hq : c.queue t = p :: ps) : Pending (c.begin t p ps) t fs := by
  obtain ⟨rest, hrest, ⟨-, rfl⟩ | ⟨f, ⟨k, hk, -⟩, -⟩⟩ := h
  · rw [hq] at hrest
    obtain ⟨call, rest, rfl, rfl, rfl⟩ := List.map_eq_cons_iff.mp hrest.symm
    exact ⟨rest, by simp, .inr ⟨call.frame, by simpa using call.sends, rfl⟩⟩
  · rw [hidle] at hk
    cases hk

/-- What the step of a thread inside no frame does: it completes a frame
without payload, or it gets inside a frame. -/
theorem Pending.call {c : Config WireSig ι (List UInt8)} {t : ι} {fs : List Frame} {op : WireOp}
    {k : Int → Prog WireSig Unit} (h : Pending c t fs) (hp : c.prog t = .call op k)
    (stream : List UInt8) :
    ∃ f gs, fs = f :: gs ∧ op = .writeHeader f.header ∧
      (f.payload = [] ∧ Pending (c.goOn t (k op.bytes.length) stream) t gs ∨
        Inside (c.goOn t (k op.bytes.length) stream) t f gs) := by
  obtain ⟨rest, hrest, ⟨hidle, -⟩ | ⟨f, ⟨k', hk', hdone⟩, rfl⟩⟩ := h
  · rw [hp] at hidle
    cases hidle
  · rw [hp] at hk'
    injection hk' with hop hk
    subst hop
    subst hk
    refine ⟨f, _, rfl, rfl, ?_⟩
    rcases hdone with ⟨hnil, hpure⟩ | ⟨-, hsends⟩
    · exact .inl ⟨hnil, rest, by simpa using hrest, .inl ⟨by simpa [WireOp.bytes] using hpure, rfl⟩⟩
    · exact .inr ⟨rest, by simpa using hrest, by simpa [WireOp.bytes] using hsends, rfl⟩

/-- The frame that a thread is inside of is completed by its next step. -/
theorem Inside.call {c : Config WireSig ι (List UInt8)} {t : ι} {f : Frame} {fs : List Frame}
    {op : WireOp} {k : Int → Prog WireSig Unit} (h : Inside c t f fs)
    (hp : c.prog t = .call op k) (stream : List UInt8) :
    op = .writePayload f.payload ∧
      Pending (c.goOn t (k op.bytes.length) stream) t fs := by
  obtain ⟨rest, hrest, ⟨k', hk', hdone⟩, rfl⟩ := h
  rw [hp] at hk'
  injection hk' with hop hk
  subst hop
  subst hk
  exact ⟨rfl, rest, by simpa using hrest, .inl ⟨by simpa [WireOp.bytes] using hdone, rfl⟩⟩

/-- What the other threads have sent and have to send, when `t` completes a
frame. -/
theorem others_snoc {work : ι → List SendCall} {c d : Config WireSig ι (List UInt8)} {t : ι}
    {log : List (ι × Frame)} {f : Frame}
    (h : ∀ u, u ≠ t → ∃ fs, Pending c u fs ∧ sentBy log u ++ fs = (work u).map SendCall.frame)
    (hd : ∀ u, u ≠ t → d.prog u = c.prog u ∧ d.queue u = c.queue u) (u : ι) (hu : u ≠ t) :
    ∃ fs, Pending d u fs ∧
      sentBy (log ++ [(t, f)]) u ++ fs = (work u).map SendCall.frame := by
  obtain ⟨fs, hpend, hfs⟩ := h u hu
  refine ⟨fs, hpend.congr (hd u hu).1 (hd u hu).2, ?_⟩
  rw [sentBy_append, if_neg (Ne.symm hu), List.append_nil, hfs]

/-- **Step lemma**: a step that begins no frame inside another keeps the stream
framed. -/
theorem Framed.step {work : ι → List SendCall} {c d : Config WireSig ι (List UInt8)}
    (h : Framed work c) (hstep : Step wireMachine headersApart c d) : Framed work d := by
  cases hstep with
  | env hs => exact hs.elim
  | @begin t p ps hidle hq =>
      have hother : ∀ u, u ≠ t → (c.begin t p ps).prog u = c.prog u ∧
          (c.begin t p ps).queue u = c.queue u := fun u hu => by simp [hu]
      cases h with
      | between log hstream hwork =>
          refine .between log hstream fun u => ?_
          obtain ⟨fs, hpend, hfs⟩ := hwork u
          by_cases hu : u = t
          · subst hu
            exact ⟨fs, hpend.begin hidle hq, hfs⟩
          · exact ⟨fs, hpend.congr (hother u hu).1 (hother u hu).2, hfs⟩
      | inside log t' f hstream ht hwork =>
          obtain ⟨fs, hin, hfs⟩ := ht
          have hne : t' ≠ t := by
            rintro rfl
            have := hin.midFrame
            rw [hidle] at this
            exact this
          refine .inside log t' f hstream ⟨fs, ?_, hfs⟩ fun u hu => ?_
          · obtain ⟨rest, hrest, hsends, rfl⟩ := hin
            exact ⟨rest, by rw [(hother t' hne).2]; exact hrest,
              by rw [(hother t' hne).1]; exact hsends, rfl⟩
          · obtain ⟨gs, hpend, hgs⟩ := hwork u hu
            by_cases hut : u = t
            · subst hut
              exact ⟨gs, hpend.begin hidle hq, hgs⟩
            · exact ⟨gs, hpend.congr (hother u hut).1 (hother u hut).2, hgs⟩
  | @call t op k r s hp hok hs =>
      simp only [wireMachine, Option.some.injEq, Prod.mk.injEq] at hs
      obtain ⟨rfl, rfl⟩ := hs
      have hother : ∀ u, u ≠ t →
          (c.goOn t (k op.bytes.length) (c.shared ++ op.bytes)).prog u = c.prog u ∧
          (c.goOn t (k op.bytes.length) (c.shared ++ op.bytes)).queue u = c.queue u :=
        fun u hu => by simp [hu]
      cases h with
      | between log hstream hwork =>
          obtain ⟨fs, hpend, hfs⟩ := hwork t
          obtain ⟨f, gs, rfl, rfl, ⟨hnil, hnext⟩ | hin⟩ := hpend.call hp (c.shared ++ op.bytes)
          · refine .between (log ++ [(t, f)]) ?_ fun u => ?_
            · rw [← stream_snoc, hnil, List.append_nil, Config.goOn_shared, hstream]
              rfl
            · by_cases hu : u = t
              · subst hu
                exact ⟨gs, hnext, by rw [sentBy_append, if_pos rfl, ← hfs]; simp⟩
              · exact others_snoc (fun v _ => hwork v) hother u hu
          · refine .inside log t f ?_ ⟨gs, hin, hfs⟩ fun u hu => ?_
            · rw [Config.goOn_shared, hstream]
              rfl
            · obtain ⟨gs, hpend, hgs⟩ := hwork u
              exact ⟨gs, hpend.congr (hother u hu).1 (hother u hu).2, hgs⟩
      | inside log t' f hstream ht hwork =>
          obtain ⟨fs, hin, hfs⟩ := ht
          by_cases htt : t = t'
          · subst htt
            obtain ⟨rfl, hnext⟩ := hin.call hp (c.shared ++ op.bytes)
            refine .between (log ++ [(t, f)]) ?_ fun u => ?_
            · rw [← stream_snoc, Config.goOn_shared, hstream]
              rfl
            · by_cases hu : u = t
              · subst hu
                exact ⟨fs, hnext, by rw [sentBy_append, if_pos rfl, ← hfs]; simp⟩
              · exact others_snoc hwork hother u hu
          · -- a header here would fall inside the frame of `t'`
            obtain ⟨gs, hpend, -⟩ := hwork t htt
            obtain ⟨g, -, -, rfl, -⟩ := hpend.call hp (c.shared ++ op.bytes)
            exact absurd hin.midFrame (hok t' (Ne.symm htt))

/-! ## every run -/

/-- The stream is a concatenation of whole frames, one for each completed call
and for each thread in the order of its calls, and the client receives
exactly these. -/
def Delivered (work : ι → List SendCall) (bufSize : Nat) (c : Config WireSig ι (List UInt8)) :
    Prop :=
  ∃ log : List (ι × Frame),
    (∀ t, ∃ rest : List SendCall, c.queue t = rest.map SendCall.prog ∧
      sentBy log t ++ rest.map SendCall.frame = (work t).map SendCall.frame) ∧
    c.shared = (log.map Prod.snd).flatMap Frame.bytes ∧
    ∀ n, recvMsgs bufSize n c.shared =
      (log.map fun e => (e.2.header, e.2.payload)).take n

/-- Between the calls a framed stream is delivered. -/
theorem Framed.delivered {work : ι → List SendCall} {c : Config WireSig ι (List UInt8)}
    (h : Framed work c) (hquiet : c.Quiescent) {bufSize : Nat}
    (hbuf : ∀ t, ∀ call ∈ work t, call.frame.payload.length ≤ bufSize) :
    Delivered work bufSize c := by
  cases h with
  | inside log t f hstream ht hwork =>
      obtain ⟨fs, hin, -⟩ := ht
      have hmid := hin.midFrame
      rw [hquiet t] at hmid
      exact hmid.elim
  | between log hstream hwork =>
      have hsent : ∀ t, ∃ rest : List SendCall, c.queue t = rest.map SendCall.prog ∧
          sentBy log t ++ rest.map SendCall.frame = (work t).map SendCall.frame := by
        intro t
        obtain ⟨fs, ⟨rest, hrest, ⟨-, rfl⟩ | ⟨f, ⟨k, hk, -⟩, -⟩⟩, hfs⟩ := hwork t
        · exact ⟨rest, hrest, hfs⟩
        · rw [hquiet t] at hk
          cases hk
      refine ⟨log, hsent, hstream, fun n => ?_⟩
      rw [hstream, recvMsgs_flatMap _ ?_ n, List.map_map]
      · rfl
      · intro f hf
        obtain ⟨⟨t, g⟩, hmem, rfl⟩ := List.mem_map.mp hf
        obtain ⟨rest, -, heq⟩ := hsent t
        have hg : g ∈ (work t).map SendCall.frame := by
          rw [← heq]
          exact List.mem_append_left _
            (List.mem_map.mpr ⟨(t, g), List.mem_filter.mpr ⟨hmem, by simp⟩, rfl⟩)
        obtain ⟨call, hcall, rfl⟩ := List.mem_map.mp hg
        exact hbuf t call hcall

/-- **Framing**: when no header is written inside another sender's frame, the
stream is at the end a concatenation of whole frames, one per call, and the
client receives the messages that were sent. -/
theorem delivered_of_headersApart (work : ι → List SendCall)
    {d : Config WireSig ι (List UInt8)}
    (h : Run wireMachine headersApart (.start [] fun t => (work t).map SendCall.prog) d)
    (hquiet : d.Quiescent) {bufSize : Nat}
    (hbuf : ∀ t, ∀ call ∈ work t, call.frame.payload.length ≤ bufSize) :
    Delivered work bufSize d :=
  (h.inv (fun _ _ => Framed.step) (Framed.start work)).delivered hquiet hbuf

/-! ## a torn frame -/

/-- One thread notifies a client of a closed auction while the client's worker
answers that a bid is too low. -/
def notifyAndAnswer : Fin 2 → List SendCall
  | 0 => [.notification ⟨41, 0, [7, 0, 0, 0], by decide⟩]
  | 1 => [.response ⟨10, 5, [], by decide⟩]

/-- The condition is needed: when the answer is written between the header and
the payload of the notification, the client takes the first bytes of the
answer for the payload. -/
theorem not_delivered :
    ¬ ∀ d, Reach wireMachine (.start [] fun t => (notifyAndAnswer t).map SendCall.prog) d →
      d.Quiescent → Delivered notifyAndAnswer 1024 d := by
  intro h
  obtain ⟨log, hsent, -, hrecv⟩ := h _ (Run.after [0, 1, 0, 1, 0]) (by
    intro t
    match t with
    | 0 => rfl
    | 1 => rfl)
  have hgot : recvMsgs 1024 1 (Config.after wireMachine anyStep
      (.start [] fun t => (notifyAndAnswer t).map SendCall.prog) [0, 1, 0, 1, 0]).shared =
      [(⟨41, 4, 0⟩, [10, 0, 0, 0])] := by decide
  have hfirst := hrecv 1
  rw [hgot] at hfirst
  cases log with
  | nil => simp at hfirst
  | cons e log =>
      obtain ⟨rest, -, hrest⟩ := hsent e.1
      have hmem : e.2 ∈ (notifyAndAnswer e.1).map SendCall.frame := by
        rw [← hrest]
        simp [sentBy]
      have hpayload : ∀ t, ∀ f ∈ (notifyAndAnswer t).map SendCall.frame,
          f.payload ≠ [10, 0, 0, 0] := by decide
      have heq : e.2.payload = [10, 0, 0, 0] := by
        simp only [List.map_cons, List.take_succ_cons, List.cons.injEq, Prod.mk.injEq] at hfirst
        exact hfirst.1.2.symm
      exact hpayload e.1 e.2 hmem heq

/-- A schedule that keeps the headers apart. -/
theorem delivered_notifyAndAnswer :
    Delivered notifyAndAnswer 1024 (Config.after wireMachine headersApart
      (.start [] fun t => (notifyAndAnswer t).map SendCall.prog) [0, 1, 0, 1, 0, 1]) :=
  delivered_of_headersApart notifyAndAnswer (Run.after _)
    (by
      intro t
      match t with
      | 0 => rfl
      | 1 => rfl)
    (by decide)

end OnlineAuction.Wire
