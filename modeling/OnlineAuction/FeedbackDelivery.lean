import OnlineAuction.Accounting
import OnlineAuction.Answers
import OnlineAuction.Footprint
import OnlineAuction.Handlers

/-!
# OnlineAuction.FeedbackDelivery

Which feedback a moderator gets to see.

`handle_view_feedback` reads the file twice: the first pass collects at most 256 records
that are not reviewed, the second marks all of them.  `Server.feedbackStep` says what an
input does to the file and which records are sent (`shown`).  A record is sent exactly once
as long as every view finds at most 256 (`shownOnce_iff`).
-/

namespace OnlineAuction

/-- The records that are not reviewed. -/
def unreviewed (l : List Feedback) : List Feedback := l.filter fun f => !f.reviewed

/-- A record as it was submitted. -/
def Feedback.unmarked (f : Feedback) : Feedback := { f with reviewed := false }

def Feedback.marked (f : Feedback) : Feedback := { f with reviewed := true }

/-- The records in the response to a view. -/
def shownBy : Event ApiSig → List Feedback
  | ⟨.sys (.send _ ⟨.msgViewFeedbackResp, _, .feedback l⟩), _⟩ => l
  | _ => []

def shown (calls : List (Event ApiSig)) : List Feedback := calls.flatMap shownBy

/-- The record that `handle_submit_feedback` appends. -/
def Store.submission (s : Store) (req : FeedbackPayload) (u : User) : Feedback where
  feedbackId := if s.present .feedback then nextRecId s.feedback else 0
  fromUserId := u.userId
  aboutAuctionId := req.auctionId
  message := strncpy (.zero _) req.message.val (maxFeedback - 1)
  submittedAt := s.clock
  reviewed := false

/-- A moderator or an administrator asks for the feedback. -/
def Input.Views (s : Server) (i : Input) : Prop :=
  ∃ fd c, i = .message fd .viewFeedback ∧ s.conns fd = some c ∧ c.authenticated = true ∧
    roleModerator ≤ c.currentUser.role

/-- What an input can do to the file of feedback, and what it can show. -/
inductive FeedbackStep (s : Server) (i : Input) : List Feedback → List Feedback → Prop
  | submits {fd : Int} {c : Conn} {req : FeedbackPayload}
      (hi : i = .message fd (.submitFeedback req)) (hc : s.conns fd = some c)
      (hauth : c.authenticated = true) :
      FeedbackStep s i (s.store.feedback ++ [s.store.submission req c.currentUser]) []
  | views (hi : i.Views s) : FeedbackStep s i (s.store.feedback.map Feedback.marked)
      ((unreviewed s.store.feedback).take 256)
  | quiet (hi : ¬ i.Views s) : FeedbackStep s i s.store.feedback []

section Step

variable {sha256Hex : List UInt8 → List UInt8} {s : Server} {i : Input}

/-- What is shown in two parts of a run. -/
@[simp] theorem shown_append (calls calls' : List (Event ApiSig)) :
    shown (calls ++ calls') = shown calls ++ shown calls' := List.flatMap_append

/-- A program that does not write the feedback leaves it. -/
theorem Within.run_feedback {areas : List Area} {α : Type} {p : Prog ApiSig α} {s : Store}
    (h : Within areas p) (hf : .feedback ∉ areas) :
    (Prog.run Api.exec p s).2.feedback = s.feedback := by
  refine h.run_eq fun op x hop => ?_
  cases op with
  | wallet site c =>
      rw [exec_wallet]
      split <;> rfl
  | sys op =>
      cases op with
      | appendFeedback f | markFeedbackReviewed => simp [ApiOp.In, hf] at hop
      | _ => rfl

/-- A program that does not answer a view shows nothing. -/
theorem Says.shown_eq_nil {types : List MessageType} {α : Type} {p : Prog ApiSig α}
    (h : Says types p) (ht : .msgViewFeedbackResp ∉ types) (s : Store) :
    shown (Prog.trace Api.exec p s) = [] := by
  refine List.flatMap_eq_nil_iff.mpr fun e he => ?_
  unfold shownBy
  split
  · exact absurd (h.mem he) ht
  · rfl

/-- The inputs that neither submit nor view. -/
theorem quiet_prog {α : Type} {areas : List Area} {types : List MessageType}
    {p : Prog ApiSig α} {k : α → Int → Option Conn} (hi : ¬ i.Views s)
    (hprog : i.prog sha256Hex s.conns = p >>= fun r => .pure (k r))
    (hwithin : Within areas p) (hanswers : Says types p) (hf : .feedback ∉ areas)
    (ht : .msgViewFeedbackResp ∉ types) :
    FeedbackStep s i (s.handle sha256Hex i).store.feedback (shown (s.calls sha256Hex i)) := by
  have hbefore : (i.before s.store).feedback = s.store.feedback := by cases i <;> rfl
  have hfeedback : (s.handle sha256Hex i).store.feedback = s.store.feedback := by
    rw [Server.handle, hprog, Prog.run_bind, Prog.run_pure, ← hbefore]
    exact hwithin.run_feedback hf
  have hshown : shown (s.calls sha256Hex i) = [] := by
    rw [Server.calls, hprog, Prog.trace_bind, Prog.trace_pure, List.append_nil]
    exact hanswers.shown_eq_nil ht _
  rw [hfeedback, hshown]
  exact .quiet hi

/-- A message of a connection writes the areas of its request and signs off. -/
theorem within_turn (fd : Int) (c : Conn) (m : Request) :
    Within (m.areas ++ [.sessions, .registry]) (turn sha256Hex fd c m) := by
  have hserve := (within_serve sha256Hex fd c m).subset
    (List.subset_append_left m.areas [.sessions, .registry])
  refine hserve.bind fun r _ => ?_
  obtain ⟨c', running⟩ := r
  cases running with
  | true => exact trivial
  | false =>
      have hclean := (within_cleanUp c').subset
        (List.subset_append_right m.areas [.sessions, .registry])
      simpa [Within] using hclean

/-- Only `view_feedback` views feedback. -/
theorem not_views {fd : Int} {m : Request} (hm : m ≠ .viewFeedback) :
    ¬ (Input.message fd m).Views s := by
  rintro ⟨fd', c, hi, -⟩
  exact hm (Input.message.inj hi).2

/-- A request is refused. -/
def refuse (fd : Int) (c : Conn) (status : ErrCode) : Prog ApiSig (Option Conn) := do
  sendMsg fd .msgError status .empty
  pure (some c)

/-- A refusal writes nothing. -/
theorem within_refuse (fd : Int) (c : Conn) (status : ErrCode) :
    Within [] (refuse fd c status) := by
  simp [Within, refuse, ApiOp.In]

/-- It is answered by an error. -/
theorem says_refuse (fd : Int) (c : Conn) (status : ErrCode) :
    Says [.msgError] (refuse fd c status) := by
  simp [Says, refuse, ApiOp.Says]

/-- Before the login every other request is refused. -/
theorem turn_unauthenticated {fd : Int} {c : Conn} {m : Request} (hauth : c.authenticated = false)
    (hm : ∀ req, m ≠ .login req) : turn sha256Hex fd c m = refuse fd c .errAuthFail := by
  cases m with
  | login req => exact absurd rfl (hm req)
  | _ => simp [turn, serve, hauth, refuse]

/-- The two passes of `handle_view_feedback`. -/
theorem feedback_handleViewFeedback (fd : Int) {s : Store}
    (hfile : s.feedback ≠ [] → s.present .feedback = true) :
    (Prog.run Api.exec (handleViewFeedback fd) s).2.feedback = s.feedback.map Feedback.marked ∧
      shown (Prog.trace Api.exec (handleViewFeedback fd) s) =
        (unreviewed s.feedback).take 256 := by
  by_cases hpresent : s.present .feedback = true
  · have hscan : s.scan .feedback s.feedback = some s.feedback := if_pos hpresent
    constructor
    · simp [handleViewFeedback, Store.exec, hscan, Feedback.marked]
    · simp [handleViewFeedback, Store.exec, hscan, shown, shownBy, unreviewed]
  · have hnil : s.feedback = [] := by
      by_contra hne
      exact hpresent (hfile hne)
    have hscan : s.scan .feedback s.feedback = none := if_neg hpresent
    rw [hnil] at hscan
    constructor
    · simp [handleViewFeedback, Store.exec, hnil, hscan]
    · simp [handleViewFeedback, Store.exec, hnil, hscan, shown, shownBy, unreviewed]

/-- `view_feedback` shows the first 256 unreviewed records and marks all. -/
theorem feedbackStep_view {fd : Int} {c : Conn} (hc : s.conns fd = some c)
    (hfile : s.store.feedback ≠ [] → s.store.present .feedback = true) :
    FeedbackStep s (.message fd .viewFeedback)
      (s.handle sha256Hex (.message fd .viewFeedback)).store.feedback
      (shown (s.calls sha256Hex (.message fd .viewFeedback))) := by
  have hprog : (Input.message fd .viewFeedback).prog sha256Hex s.conns =
      turn sha256Hex fd c .viewFeedback >>= fun c => .pure (Function.update s.conns fd c) := by
    simp [Input.prog, hc]
  have hviews (h : (Input.message fd .viewFeedback).Views s) :
      c.authenticated = true ∧ roleModerator ≤ c.currentUser.role := by
    obtain ⟨fd', c', hi, hc', h⟩ := h
    obtain ⟨rfl, -⟩ := Input.message.inj hi
    obtain rfl := Option.some.inj (hc.symm.trans hc')
    exact h
  by_cases hauth : c.authenticated = true
  · by_cases hrole : roleModerator ≤ c.currentUser.role
    · obtain ⟨hfeedback, hshown⟩ := feedback_handleViewFeedback fd hfile
      have hview : FeedbackStep s (.message fd .viewFeedback) _ _ :=
        .views ⟨fd, c, rfl, hc, hauth, hrole⟩
      rw [← hfeedback, ← hshown] at hview
      simpa [Server.handle, Server.calls, hprog, turn, serve, hauth, dispatch, whenAllowed, hrole,
        Input.before] using hview
    · refine quiet_prog (fun h => hrole (hviews h).2) (hprog.trans (congrArg (· >>= _) ?_))
        (within_refuse fd c .errPermission) (says_refuse fd c .errPermission) (by decide)
        (by decide)
      simp [turn, serve, hauth, dispatch, whenAllowed, hrole, refuse]
  · have hnot : c.authenticated = false := by simpa using hauth
    exact quiet_prog (fun h => hauth (hviews h).1) (hprog.trans (congrArg (· >>= _)
      (turn_unauthenticated hnot (by simp)))) (within_refuse fd c .errAuthFail)
      (says_refuse fd c .errAuthFail) (by decide) (by decide)

/-- **Step lemma**: an input submits a record, shows and marks what is unreviewed, or leaves
the feedback alone. -/
theorem Server.feedbackStep
    (hfile : s.store.feedback ≠ [] → s.store.present .feedback = true) :
    FeedbackStep s i (s.handle sha256Hex i).store.feedback (shown (s.calls sha256Hex i)) := by
  have hstill (hi : ¬ i.Views s) (conns : Int → Option Conn)
      (hprog : i.prog sha256Hex s.conns = .pure conns) :
      FeedbackStep s i (s.handle sha256Hex i).store.feedback (shown (s.calls sha256Hex i)) := by
    have hwithin : Within [] (.pure () : Prog ApiSig Unit) := trivial
    have hanswers : Says [] (.pure () : Prog ApiSig Unit) := trivial
    exact quiet_prog (p := .pure ()) (k := fun _ => conns) hi hprog hwithin hanswers (by simp)
      (by simp)
  cases i with
  | connect fd => exact hstill (by rintro ⟨_, _, h, -⟩; cases h) _ rfl
  | clock now => exact hstill (by rintro ⟨_, _, h, -⟩; cases h) _ rfl
  | restart => exact hstill (by rintro ⟨_, _, h, -⟩; cases h) _ rfl
  | timerClose id =>
      exact quiet_prog (by rintro ⟨_, _, h, -⟩; cases h) rfl (within_timerClose id)
        (says_timerClose id) (by decide) (by decide)
  | disconnect fd =>
      have hi : ¬ (Input.disconnect fd).Views s := by rintro ⟨_, _, h, -⟩; cases h
      cases hc : s.conns fd with
      | none => exact hstill hi s.conns (by simp [Input.prog, hc])
      | some c =>
          exact quiet_prog (k := fun _ => Function.update s.conns fd none) hi
            (by simp [Input.prog, hc]) (within_cleanUp c) (says_cleanUp c []) (by decide) (by simp)
  | message fd m =>
      cases hc : s.conns fd with
      | none =>
          refine hstill ?_ s.conns (by simp [Input.prog, hc])
          rintro ⟨fd', c, hi, hc', -⟩
          obtain ⟨rfl, -⟩ := Input.message.inj hi
          rw [hc] at hc'
          cases hc'
      | some c =>
          have hprog : (Input.message fd m).prog sha256Hex s.conns =
              turn sha256Hex fd c m >>= fun c => .pure (Function.update s.conns fd c) := by
            simp [Input.prog, hc]
          cases m with
          | submitFeedback req =>
              cases hauth : c.authenticated with
              | false =>
                  exact quiet_prog (not_views (by simp)) (hprog.trans (congrArg (· >>= _)
                    (turn_unauthenticated hauth (by simp)))) (within_refuse fd c .errAuthFail)
                    (says_refuse fd c .errAuthFail) (by decide) (by decide)
              | true =>
                  have hsubmit := FeedbackStep.submits (i := .message fd (.submitFeedback req)) rfl
                    hc hauth
                  simpa [Server.handle, Server.calls, hprog, turn, serve, hauth, dispatch,
                    handleSubmitFeedback, Input.before, Store.exec, shown, shownBy,
                    Store.submission] using hsubmit
          | viewFeedback => exact feedbackStep_view hc hfile
          | _ =>
              exact quiet_prog (not_views (by simp)) hprog (within_turn fd c _)
                (says_turn sha256Hex fd c _) (by simp [Request.areas])
                (by simp [Request.answerTypes, sideTypes])

end Step

/-! ## what a view delivers -/

/-- The records that a step marks. -/
def newlyMarked (l l' : List Feedback) : List Feedback :=
  ((l.zip l').filter fun p => !p.1.reviewed && p.2.reviewed).map Prod.fst

/-- Every record that the step marks is in its response, the response has only records that were
not reviewed, and apart from the mark the records stay as they are and where they are. -/
structure ShowsMarked (sha256Hex : List UInt8 → List UInt8) (s : Server) (i : Input) : Prop where
  marked : (newlyMarked s.store.feedback (s.handle sha256Hex i).store.feedback).Subperm
    (shown (s.calls sha256Hex i))
  unseen : (shown (s.calls sha256Hex i)).Subperm (unreviewed s.store.feedback)
  kept : s.store.feedback.map Feedback.unmarked <+:
    (s.handle sha256Hex i).store.feedback.map Feedback.unmarked

/-- Each step of the run has the property. -/
def EachStep (sha256Hex : List UInt8 → List UInt8) (P : Server → Input → Prop) (s : Server) :
    List Input → Prop
  | [] => True
  | i :: is => P s i ∧ EachStep sha256Hex P (s.handle sha256Hex i) is

/-- Every step shows what it marks, so that each record that was not reviewed at first or is
submitted later has been shown once or is not reviewed. -/
structure ShownOnce (sha256Hex : List UInt8 → List UInt8) (s : Server) (is : List Input) :
    Prop where
  steps : EachStep sha256Hex (ShowsMarked sha256Hex) s is
  delivered : (shown (s.callsAll sha256Hex is) ++
      unreviewed (s.handleAll sha256Hex is).store.feedback).Perm
    (unreviewed s.store.feedback ++
      ((s.handleAll sha256Hex is).store.feedback.map Feedback.unmarked).drop
        s.store.feedback.length)

/-- A view finds no more than fit in a response. -/
def ViewFits (s : Server) (i : Input) : Prop :=
  i.Views s → (unreviewed s.store.feedback).length ≤ 256

section Run

variable {sha256Hex : List UInt8 → List UInt8} {s : Server} {i : Input} {is : List Input}
  {l : List Feedback}

/-- Marking keeps the rest of the record. -/
@[simp] theorem unmarked_marked (f : Feedback) : f.marked.unmarked = f.unmarked := rfl

/-- A record that is not reviewed has no mark. -/
theorem unmarked_of_not_reviewed {f : Feedback} (h : f.reviewed = false) : f.unmarked = f := by
  cases f
  simp_all [Feedback.unmarked]

/-- After the pass none is unreviewed. -/
theorem unreviewed_map_marked (l : List Feedback) : unreviewed (l.map Feedback.marked) = [] := by
  simp [unreviewed, Feedback.marked]

/-- New feedback is unreviewed. -/
theorem unreviewed_concat {f : Feedback} (h : f.reviewed = false) :
    unreviewed (l ++ [f]) = unreviewed l ++ [f] := by
  simp [unreviewed, h]

/-- A view marks everything that is not reviewed. -/
theorem newlyMarked_map_marked (l : List Feedback) :
    newlyMarked l (l.map Feedback.marked) = unreviewed l := by
  induction l with
  | nil => rfl
  | cons f l ih =>
      cases hf : f.reviewed with
      | false => simpa [newlyMarked, unreviewed, Feedback.marked, hf] using ih
      | true => simpa [newlyMarked, unreviewed, Feedback.marked, hf] using ih

/-- Appending marks nothing. -/
theorem newlyMarked_self_append (l t : List Feedback) : newlyMarked l (l ++ t) = [] := by
  induction l with
  | nil => rfl
  | cons f l ih =>
      cases hf : f.reviewed with
      | false => simpa [newlyMarked, hf] using ih
      | true => simpa [newlyMarked, hf] using ih

/-- What a view leaves and shows, and what a step that is none does. -/
theorem FeedbackStep.cases_views {l l' : List Feedback} (h : FeedbackStep s i l l') :
    (i.Views s ∧ l = s.store.feedback.map Feedback.marked ∧
        l' = (unreviewed s.store.feedback).take 256) ∨
      ¬ i.Views s ∧ l' = [] ∧ (l = s.store.feedback ∨
        ∃ f, f.reviewed = false ∧ l = s.store.feedback ++ [f]) := by
  cases h with
  | submits hi => exact .inr ⟨hi ▸ not_views (by simp), rfl, .inr ⟨_, rfl, rfl⟩⟩
  | views hi => exact .inl ⟨hi, rfl, rfl⟩
  | quiet hi => exact .inr ⟨hi, rfl, .inl rfl⟩

/-- **Step**: what is marked is shown exactly if it fits. -/
theorem showsMarked_iff (hfile : s.store.feedback ≠ [] → s.store.present .feedback = true) :
    ShowsMarked sha256Hex s i ↔ ViewFits s i := by
  rcases (Server.feedbackStep hfile : FeedbackStep s i (s.handle sha256Hex i).store.feedback
    (shown (s.calls sha256Hex i))).cases_views with ⟨hi, hl, hl'⟩ | ⟨hi, hl', hl⟩
  · constructor
    · intro h _
      have hlength := h.marked.length_le
      rw [hl, hl', newlyMarked_map_marked, List.length_take] at hlength
      omega
    · intro h
      have htake : (unreviewed s.store.feedback).take 256 = unreviewed s.store.feedback :=
        List.take_of_length_le (h hi)
      refine ⟨?_, ?_, ?_⟩
      · rw [hl, hl', newlyMarked_map_marked, htake]
      · rw [hl', htake]
      · rw [hl, List.map_map]
        exact List.prefix_rfl
  · refine iff_of_true ?_ fun h => absurd h hi
    have happend : ∃ t, (s.handle sha256Hex i).store.feedback = s.store.feedback ++ t := by
      rcases hl with hl | ⟨f, -, hl⟩
      · exact ⟨[], by rw [hl, List.append_nil]⟩
      · exact ⟨[f], hl⟩
    obtain ⟨t, ht⟩ := happend
    refine ⟨?_, ?_, ?_⟩
    · rw [ht, newlyMarked_self_append]
      exact List.nil_subperm
    · rw [hl']
      exact List.nil_subperm
    · rw [ht, List.map_append]
      exact List.prefix_append ..

/-- The file is there as soon as it has records. -/
theorem run_feedback_present {α : Type} (p : Prog ApiSig α) {s : Store}
    (hfile : s.feedback ≠ [] → s.present .feedback = true) :
    (Prog.run Api.exec p s).2.feedback ≠ [] →
      (Prog.run Api.exec p s).2.present .feedback = true := by
  induction p generalizing s with
  | pure a => exact hfile
  | call op k ih =>
      rw [Prog.run_call]
      refine ih _ ?_
      cases op with
      | wallet site c =>
          rw [exec_wallet]
          split <;> exact hfile
      | sys op =>
          cases op with
          | appendFeedback f => exact fun _ => by simp [Store.exec, Store.create]
          | markFeedbackReviewed => exact fun h => hfile fun hnil => h (by simp [Store.exec, hnil])
          | _ => exact fun h => exec_present (hfile h) _

/-- The file is there once there is feedback. -/
theorem feedback_present (hfile : s.store.feedback ≠ [] → s.store.present .feedback = true) :
    (s.handle sha256Hex i).store.feedback ≠ [] →
      (s.handle sha256Hex i).store.present .feedback = true := by
  refine run_feedback_present _ ?_
  cases i <;> exact hfile

/-- **Run**: records keep their places. -/
theorem kept_handleAll (hfile : s.store.feedback ≠ [] → s.store.present .feedback = true)
    (hfits : EachStep sha256Hex ViewFits s is) :
    s.store.feedback.map Feedback.unmarked <+:
      (s.handleAll sha256Hex is).store.feedback.map Feedback.unmarked := by
  induction is generalizing s with
  | nil => exact List.prefix_rfl
  | cons i is ih =>
      have hstep : ShowsMarked sha256Hex s i := (showsMarked_iff hfile).mpr hfits.1
      exact hstep.kept.trans (ih (feedback_present hfile) hfits.2)

/-- **Accounting**: if every view fits, nothing is lost and nothing is shown twice. -/
theorem delivered (hfile : s.store.feedback ≠ [] → s.store.present .feedback = true)
    (hfits : EachStep sha256Hex ViewFits s is) :
    (shown (s.callsAll sha256Hex is) ++
      unreviewed (s.handleAll sha256Hex is).store.feedback).Perm
    (unreviewed s.store.feedback ++
      ((s.handleAll sha256Hex is).store.feedback.map Feedback.unmarked).drop
        s.store.feedback.length) := by
  induction is generalizing s with
  | nil =>
      have hdrop : (s.store.feedback.map Feedback.unmarked).drop s.store.feedback.length = [] :=
        List.drop_eq_nil_of_le (by simp)
      simp [Server.callsAll, shown, hdrop]
  | cons i is ih =>
      have hfile' : (s.handle sha256Hex i).store.feedback ≠ [] → _ := feedback_present hfile
      have hrest := ih hfile' hfits.2
      have hkept := kept_handleAll hfile' hfits.2
      rw [handleAll_cons, Server.callsAll, shown_append, List.append_assoc]
      rcases (Server.feedbackStep hfile : FeedbackStep s i (s.handle sha256Hex i).store.feedback
        (shown (s.calls sha256Hex i))).cases_views with ⟨hi, hl, hl'⟩ | ⟨hi, hl', hl | ⟨f, hf, hl⟩⟩
      · rw [hl, unreviewed_map_marked, List.nil_append, List.length_map] at hrest
        rw [hl', List.take_of_length_le (hfits.1 hi)]
        exact hrest.append_left _
      · rw [hl] at hrest
        rw [hl', List.nil_append]
        exact hrest
      · obtain ⟨t, ht⟩ := hkept
        rw [hl, List.map_append, List.map_singleton, unmarked_of_not_reviewed hf] at ht
        have hlater : ((s.store.feedback.map Feedback.unmarked ++ [f]) ++ t).drop
            (s.store.feedback ++ [f]).length = t := List.drop_left' (by simp)
        have hnow : ((s.store.feedback.map Feedback.unmarked ++ [f]) ++ t).drop
            s.store.feedback.length = f :: t := by
          rw [List.append_assoc]
          exact List.drop_left' (by simp)
        rw [hl, unreviewed_concat hf, ← ht, hlater, List.append_assoc] at hrest
        rw [hl', List.nil_append, ← ht, hnow]
        exact hrest

/-- **Delivery**: a record is shown once or waits to be shown, and every step shows what it marks,
exactly if no view finds more than 256 records. -/
theorem shownOnce_iff (hfile : s.store.feedback ≠ [] → s.store.present .feedback = true)
    (is : List Input) : ShownOnce sha256Hex s is ↔ EachStep sha256Hex ViewFits s is := by
  have hsteps : EachStep sha256Hex (ShowsMarked sha256Hex) s is ↔
      EachStep sha256Hex ViewFits s is := by
    induction is generalizing s with
    | nil => exact Iff.rfl
    | cons i is ih => exact and_congr (showsMarked_iff hfile) (ih (feedback_present hfile))
  exact ⟨fun h => hsteps.mp h.steps, fun h => ⟨hsteps.mpr h, delivered hfile h⟩⟩

end Run

/-! ## more than fit -/

/-- A bidder who can submit feedback and a moderator who can read it. -/
def feedbackDesk : Server where
  store := { Store.market with feedback := [], present := fun file => file != .feedback }
  conns := fun fd =>
    if fd = 4 then some ⟨true, { User.zero with userId := 2 }⟩
    else if fd = 5 then some ⟨true, { User.zero with userId := 1, role := roleModerator }⟩
    else none

def submitFeedback : Input := .message 4 (.submitFeedback ⟨1, .zero _⟩)

/-- Two records and one look at them. -/
theorem shownOnce_iff_desk : ShownOnce adminSha256Hex feedbackDesk
    [submitFeedback, submitFeedback, .message 5 .viewFeedback] := by
  have hnone (s : Server) : ViewFits s submitFeedback := fun h => absurd h (not_views (by simp))
  exact (shownOnce_iff (s := feedbackDesk) (fun h => absurd rfl h) _).mpr
    ⟨hnone _, hnone _, fun _ => by decide +kernel, trivial⟩

/-- After 257 submissions the last one is marked and not shown. -/
theorem not_shownOnce : ¬ ∀ (s : Server) (is : List Input),
    (s.store.feedback ≠ [] → s.store.present .feedback = true) →
      ShownOnce adminSha256Hex s is := by
  intro h
  have hlength := (h feedbackDesk (List.replicate 257 submitFeedback ++
    [.message 5 .viewFeedback]) fun h => absurd (by rfl) h).delivered.length_eq
  revert hlength
  decide +kernel

end OnlineAuction
