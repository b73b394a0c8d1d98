import OnlineAuction.Client
import OnlineAuction.Footprint

/-!
# OnlineAuction.Pairing

When the client takes the right message for the answer.

A notification that stands before the answer in the stream is taken for it,
and every later request is answered by the message of the one before.
`pushesApart` is the condition that this does not happen: nothing is pushed
while a request waits for its answer, and no request is sent while there are
messages to be read.  Under it what the client reports are the answers of the
server, in order (`reported_prefix`).
-/

namespace OnlineAuction.Client

/-- Nothing is pushed while a request waits for its answer, and no request is
sent while there are messages to be read. -/
def pushesApart (c : Config LinkSig Party Link) (_ : Party) : LinkOp → Prop
  | .push _ => c.shared.asked.length = c.shared.answered.length
  | .send _ => c.shared.toClient = []
  | _ => True

instance (c : Config LinkSig Party Link) (t : Party) (op : LinkOp) :
    Decidable (pushesApart c t op) := by
  cases op <;> unfold pushesApart <;> infer_instance

/-! ## where the parties are -/

/-- How far the request of the main thread has come. -/
inductive Stage
  | free
  | sent (r : Request)
  | serving (r : Request)
  | answered (r : Request) (m : Message)
  | read (r : Request) (m : Message)

/-- What the connection holds at each stage. -/
def Stage.Link (s : Client.Link) : Stage → Prop
  | .free => s.taken = s.reported ∧ s.answered = s.taken ∧
      s.asked.length = s.answered.length ∧ s.toServer = []
  | .sent r => s.taken = s.reported ∧ s.answered = s.taken ∧
      s.asked.length = s.answered.length + 1 ∧ s.toServer = [r] ∧ s.toClient = []
  | .serving _ => s.taken = s.reported ∧ s.answered = s.taken ∧
      s.asked.length = s.answered.length + 1 ∧ s.toServer = [] ∧ s.toClient = []
  | .answered r m => s.taken = s.reported ∧ s.answered = s.taken ++ [(r, m)] ∧
      s.asked.length = s.answered.length ∧ s.toServer = [] ∧ ∃ ms, s.toClient = m :: ms
  | .read r m => s.taken = s.reported ++ [(r, m)] ∧ s.answered = s.taken ∧
      s.asked.length = s.answered.length ∧ s.toServer = []

/-- Where the main thread is at each stage. -/
def Stage.Main (lock : Option Party) (p : Prog LinkSig Unit) : Stage → Prop
  | .free => p = .pure () ∨ (∃ r, p = request r) ∨
      ∃ r, p = (.call (.send r) fun _ => receive r) ∧ lock = some .main
  | .sent r | .serving r | .answered r _ => p = receive r ∧ lock = some .main
  | .read r m => (p = (.call .unlockReq fun _ => .call (.report r m) .pure) ∧
      lock = some .main) ∨ p = .call (.report r m) .pure

/-- Where the worker is at each stage. -/
def Stage.Worker (p : Prog LinkSig Unit) : Stage → Prop
  | .serving r => ∃ m ns, p = answer r m ns
  | _ => p = .pure () ∨ ∃ script, p = serveTurn script

/-- Where the listener is; it takes messages only while it holds the lock. -/
inductive Listening (lock : Option Party) : Prog LinkSig Unit → Prop
  | idle : Listening lock (.pure ())
  | turn : Listening lock listenerTurn
  | ready : Listening lock (.call .trylockReq fun got =>
      if got then .call .recv fun m => .call (.print m) fun _ => .call .unlockReq .pure
      else pure ())
  | locked (h : lock = some .listener) : Listening lock
      (.call .recv fun m => .call (.print m) fun _ => .call .unlockReq .pure)
  | got (m : Message) (h : lock = some .listener) : Listening lock
      (.call (.print m) fun _ => .call .unlockReq .pure)
  | done (h : lock = some .listener) : Listening lock (.call .unlockReq .pure)

/-- Where a notifier is. -/
def Notifying (p : Prog LinkSig Unit) : Prop := p = .pure () ∨ ∃ m, p = pushNotification m

/-- What a thread can begin with. -/
def Begins : Party → Prog LinkSig Unit → Prop
  | .main, p => ∃ r, p = request r
  | .listener, p => p = listenerTurn
  | .worker, p => ∃ script, p = serveTurn script
  | .notifier _, p => ∃ m, p = pushNotification m

/-- The whole picture. -/
structure At (st : Stage) (c : Config LinkSig Party Link) : Prop where
  link : st.Link c.shared
  main : st.Main c.shared.reqLock (c.prog .main)
  worker : st.Worker (c.prog .worker)
  listener : Listening c.shared.reqLock (c.prog .listener)
  notifier : ∀ n, Notifying (c.prog (.notifier n))
  queue : ∀ t, ∀ p ∈ c.queue t, Begins t p

theorem At.start (w : Work) : At .free (.start .fresh w.queue) where
  link := ⟨rfl, rfl, rfl, rfl⟩
  main := .inl rfl
  worker := .inl rfl
  listener := .idle
  notifier _ := .inl rfl
  queue t p hp := by
    cases t with
    | main => obtain ⟨r, -, rfl⟩ := List.mem_map.mp hp; exact ⟨r, rfl⟩
    | listener => exact (List.mem_replicate.mp hp).2
    | worker => obtain ⟨s, -, rfl⟩ := List.mem_map.mp hp; exact ⟨s, rfl⟩
    | notifier n => obtain ⟨m, -, rfl⟩ := List.mem_map.mp hp; exact ⟨m, rfl⟩

/-- A listener without the lock does not care who gets it. -/
theorem Listening.congr {lock lock' : Option Party} {p : Prog LinkSig Unit}
    (h : Listening lock p) (hl : lock = some .listener → lock' = some .listener) :
    Listening lock' p := by
  cases h with
  | idle => exact .idle
  | turn => exact .turn
  | ready => exact .ready
  | locked h => exact .locked (hl h)
  | got m h => exact .got m (hl h)
  | done h => exact .done (hl h)

theorem answer_ne_pure (r : Request) (m : Message) (ns : List Message) :
    answer r m ns ≠ .pure () := by
  cases ns <;> intro h <;> cases h

section Steps

variable {st : Stage} {c : Config LinkSig Party Link}

/-- A thread begins what stands next in its queue. -/
theorem At.begin (h : At st c) {t : Party} {p : Prog LinkSig Unit}
    {ps : List (Prog LinkSig Unit)} (hidle : c.prog t = .pure ()) (hq : c.queue t = p :: ps) :
    At st (c.begin t p ps) := by
  have hp : Begins t p := h.queue t p (by simp [hq])
  have hqueue : ∀ u, ∀ q ∈ (c.begin t p ps).queue u, Begins u q := by
    intro u q hmem
    by_cases hu : u = t
    · subst hu
      exact h.queue u q (by rw [hq]; simp at hmem; simp [hmem])
    · exact h.queue u q (by simpa [hu] using hmem)
  cases t with
  | main =>
      obtain ⟨r, rfl⟩ := hp
      have hst : st = .free := by
        have hm := h.main
        rw [hidle] at hm
        cases st with
        | free => rfl
        | read r m => rcases hm with ⟨hm, -⟩ | hm <;> cases hm
        | _ => cases hm.1
      subst hst
      exact { link := h.link, main := .inr (.inl ⟨r, by simp⟩), worker := by simpa using h.worker,
              listener := by simpa using h.listener, notifier := by simpa using h.notifier,
              queue := hqueue }
  | listener =>
      obtain rfl : p = listenerTurn := hp
      exact { link := h.link, main := by simpa using h.main, worker := by simpa using h.worker,
              listener := by simpa using .turn, notifier := by simpa using h.notifier,
              queue := hqueue }
  | worker =>
      obtain ⟨script, rfl⟩ := hp
      have hw : st.Worker (serveTurn script) := by
        have hw := h.worker
        rw [hidle] at hw
        cases st with
        | serving r => obtain ⟨m, ns, hw⟩ := hw; exact absurd hw.symm (answer_ne_pure r m ns)
        | _ => exact .inr ⟨script, rfl⟩
      exact { link := h.link, main := by simpa using h.main, worker := by simpa using hw,
              listener := by simpa using h.listener, notifier := by simpa using h.notifier,
              queue := hqueue }
  | notifier n =>
      obtain ⟨m, rfl⟩ := hp
      refine { link := h.link, main := by simpa using h.main, worker := by simpa using h.worker,
               listener := by simpa using h.listener, notifier := fun k => ?_, queue := hqueue }
      by_cases hk : k = n
      · subst hk
        exact .inr ⟨m, by simp⟩
      · simpa [hk] using h.notifier k

/-- A step of the main thread leaves the others where they are. -/
theorem At.goOn_main (h : At st c) {st' : Stage} {p : Prog LinkSig Unit} {s : Link}
    (hlink : st'.Link s) (hmain : st'.Main s.reqLock p) (hworker : st'.Worker (c.prog .worker))
    (hlock : c.shared.reqLock = some .listener → s.reqLock = some .listener) :
    At st' (c.goOn .main p s) where
  link := hlink
  main := by simpa using hmain
  worker := by simpa using hworker
  listener := by simpa using h.listener.congr hlock
  notifier := by simpa using h.notifier
  queue := h.queue

/-- A step of the main thread. -/
theorem At.main_step (h : At st c) {op : LinkOp} {k : op.Res → Prog LinkSig Unit}
    {r : op.Res} {s : Link} (hp : c.prog .main = .call op k)
    (hok : pushesApart c .main op) (hs : Link.step .main op c.shared = some (r, s)) :
    ∃ st', At st' (c.goOn .main (k r) s) := by
  have hm := h.main
  cases st with
  | free =>
      obtain ⟨ht, ha, hn, hto⟩ := h.link
      rcases hm with hm | ⟨q, hm⟩ | ⟨q, hm, hlock⟩
      · rw [hm] at hp
        cases hp
      · rw [hm] at hp
        cases hp
        simp only [Link.step] at hs
        split at hs
        · next hfree =>
            cases hs
            exact ⟨.free, h.goOn_main ⟨ht, ha, hn, hto⟩ (.inr (.inr ⟨q, rfl, rfl⟩)) h.worker
              (by simp [hfree])⟩
        · contradiction
      · rw [hm] at hp
        cases hp
        cases hs
        exact ⟨.sent q, h.goOn_main ⟨ht, ha, by simp [hn], by simp [hto], hok⟩ ⟨rfl, hlock⟩
          h.worker id⟩
  | sent q =>
      -- the stream is empty, so the thread waits
      obtain ⟨-, -, -, -, hempty⟩ := h.link
      rw [hm.1] at hp
      cases hp
      simp [Link.step, hempty] at hs
  | serving q =>
      obtain ⟨-, -, -, -, hempty⟩ := h.link
      rw [hm.1] at hp
      cases hp
      simp [Link.step, hempty] at hs
  | answered q m =>
      obtain ⟨ht, ha, hn, hto, ms, hms⟩ := h.link
      obtain ⟨hm, hlock⟩ := hm
      rw [hm] at hp
      cases hp
      simp only [Link.step, hms] at hs
      cases hs
      exact ⟨.read q m, h.goOn_main ⟨by simp [ht], ha, hn, hto⟩ (.inl ⟨rfl, hlock⟩) h.worker id⟩
  | read q m =>
      obtain ⟨ht, ha, hn, hto⟩ := h.link
      rcases hm with ⟨hm, hlock⟩ | hm
      · rw [hm] at hp
        cases hp
        cases hs
        exact ⟨.read q m, h.goOn_main ⟨ht, ha, hn, hto⟩ (.inr rfl) h.worker (by simp [hlock])⟩
      · rw [hm] at hp
        cases hp
        cases hs
        exact ⟨.free, h.goOn_main ⟨ht, ha, hn, hto⟩ (.inl rfl) h.worker id⟩

/-- The listener takes messages only when the main thread waits for none. -/
theorem At.listener_free (h : At st c) (hlock : c.shared.reqLock = some .listener) :
    st = .free ∨ ∃ r m, st = .read r m := by
  have hm := h.main
  cases st with
  | free => exact .inl rfl
  | read r m => exact .inr ⟨r, m, rfl⟩
  | _ => rw [hm.2] at hlock; cases hlock

/-- What the connection holds at a stage without a pending request is not the
listener's business. -/
theorem At.goOn_listener (h : At st c) {p : Prog LinkSig Unit} {s : Link}
    (hlink : st.Link s) (hlisten : Listening s.reqLock p)
    (hlock : c.shared.reqLock = some .main → s.reqLock = some .main) :
    At st (c.goOn .listener p s) where
  link := hlink
  main := by
    have hm := h.main
    simp only [Config.goOn_prog, Config.goOn_shared, ne_eq, reduceCtorEq, not_false_eq_true,
      Function.update_of_ne]
    cases st with
    | free => exact hm.imp id (Or.imp id fun ⟨r, hr, hl⟩ => ⟨r, hr, hlock hl⟩)
    | read r m => exact hm.imp (And.imp id hlock) id
    | _ => exact ⟨hm.1, hlock hm.2⟩
  worker := by simpa using h.worker
  listener := by simpa using hlisten
  notifier := by simpa using h.notifier
  queue := h.queue

/-- A step of the listener. -/
theorem At.listener_step (h : At st c) {op : LinkOp} {k : op.Res → Prog LinkSig Unit}
    {r : op.Res} {s : Link} (hp : c.prog .listener = .call op k)
    (hs : Link.step .listener op c.shared = some (r, s)) :
    At st (c.goOn .listener (k r) s) := by
  have hl := h.listener
  rw [hp] at hl
  cases hl with
  | turn =>
      cases hs
      refine h.goOn_listener h.link ?_ id
      dsimp only
      split
      · exact .ready
      · exact .idle
  | ready =>
      simp only [Link.step] at hs
      split at hs
      · next hfree =>
          cases hs
          refine h.goOn_listener ?_ (.locked rfl) (by simp [hfree])
          cases st <;> exact h.link
      · next hbusy =>
          cases hs
          exact h.goOn_listener h.link .idle id
  | locked hlock =>
      simp only [Link.step] at hs
      split at hs
      · contradiction
      · next m ms hms =>
          cases hs
          refine h.goOn_listener ?_ (.got _ hlock) id
          obtain rfl | ⟨q, n, rfl⟩ := h.listener_free hlock <;> exact h.link
  | got m hlock =>
      cases hs
      refine h.goOn_listener ?_ (.done hlock) id
      cases st <;> exact h.link
  | done hlock =>
      cases hs
      refine h.goOn_listener ?_ .idle (by simp [hlock])
      cases st <;> exact h.link

/-- A step of the worker. -/
theorem At.worker_step (h : At st c) {op : LinkOp} {k : op.Res → Prog LinkSig Unit}
    {r : op.Res} {s : Link} (hp : c.prog .worker = .call op k)
    (hok : pushesApart c .worker op) (hs : Link.step .worker op c.shared = some (r, s)) :
    ∃ st', At st' (c.goOn .worker (k r) s) := by
  have hw := h.worker
  -- the other threads, when the worker goes from one stage to the next
  have hgoOn {st' : Stage} {p : Prog LinkSig Unit} (hlock : s.reqLock = c.shared.reqLock)
      (hlink : st'.Link s) (hmain : st'.Main c.shared.reqLock (c.prog .main))
      (hworker : st'.Worker p) : At st' (c.goOn .worker p s) :=
    { link := hlink
      main := by simpa [hlock] using hmain
      worker := by simpa using hworker
      listener := by simpa [hlock] using h.listener
      notifier := by simpa using h.notifier
      queue := h.queue }
  by_cases hserving : ∃ q, st = .serving q
  · obtain ⟨q, rfl⟩ := hserving
    obtain ⟨ht, ha, hn, hto, hempty⟩ := h.link
    obtain ⟨m, ns, hw⟩ := hw
    rw [hw] at hp
    cases ns with
    | nil =>
        cases hp
        cases hs
        exact ⟨.answered q m, hgoOn rfl ⟨ht, by simp [ha], by simp [hn], hto, [], by simp [hempty]⟩
          h.main (.inl rfl)⟩
    | cons n ns =>
        -- a notification to this connection before the answer
        cases hp
        simp only [pushesApart] at hok
        omega
  · have hidle : c.prog .worker = .pure () ∨ ∃ script, c.prog .worker = serveTurn script := by
      cases st with
      | serving q => exact absurd ⟨q, rfl⟩ hserving
      | _ => exact hw
    rcases hidle with hw | ⟨script, hw⟩
    · rw [hw] at hp
      cases hp
    · rw [hw] at hp
      cases hp
      simp only [Link.step] at hs
      split at hs
      · contradiction
      · next q rs hto =>
          cases hs
          have hlink := h.link
          cases st with
          | sent q' =>
              obtain ⟨ht, ha, hn, hto', hempty⟩ := hlink
              rw [hto'] at hto
              cases hto
              exact ⟨.serving _, hgoOn rfl ⟨ht, ha, hn, rfl, hempty⟩ h.main ⟨_, _, rfl⟩⟩
          | serving q' => exact absurd ⟨q', rfl⟩ hserving
          | free => rw [hlink.2.2.2] at hto; cases hto
          | answered q' m => rw [hlink.2.2.2.1] at hto; cases hto
          | read q' m => rw [hlink.2.2.2] at hto; cases hto

/-- A step of a notifier. -/
theorem At.notifier_step (h : At st c) {n : Nat} {op : LinkOp}
    {k : op.Res → Prog LinkSig Unit} {r : op.Res} {s : Link}
    (hp : c.prog (.notifier n) = .call op k) (hok : pushesApart c (.notifier n) op)
    (hs : Link.step (.notifier n) op c.shared = some (r, s)) :
    At st (c.goOn (.notifier n) (k r) s) := by
  rcases h.notifier n with hn | ⟨m, hn⟩
  · rw [hn] at hp
    cases hp
  · rw [hn] at hp
    cases hp
    cases hs
    simp only [pushesApart] at hok
    refine { link := ?_, main := by simpa using h.main, worker := by simpa using h.worker,
             listener := by simpa using h.listener, notifier := fun k => ?_, queue := h.queue }
    · have hlink := h.link
      cases st with
      | free => exact hlink
      | sent q => have := hlink.2.2.1; omega
      | serving q => have := hlink.2.2.1; omega
      | answered q x =>
          obtain ⟨ht, ha, hl, hto, ms, hms⟩ := hlink
          exact ⟨ht, ha, hl, hto, ms ++ [m], by simp [hms]⟩
      | read q x => exact hlink
    · by_cases hk : k = n
      · subst hk
        exact .inl (by simp)
      · simpa [hk] using h.notifier k

/-- **Step lemma**: a step under the condition keeps the picture. -/
theorem At.step (h : At st c) {d : Config LinkSig Party Link}
    (hstep : Step linkMachine pushesApart c d) : ∃ st', At st' d := by
  cases hstep with
  | begin hidle hq => exact ⟨st, h.begin hidle hq⟩
  | env hs => exact hs.elim
  | @call t op k r s hp hok hs =>
      cases t with
      | main => exact h.main_step hp hok hs
      | listener => exact ⟨st, h.listener_step hp hs⟩
      | worker => exact h.worker_step hp hok hs
      | notifier n => exact ⟨st, h.notifier_step hp hok hs⟩

end Steps

/-- **Pairing**: when nothing is pushed while a request waits for its answer
and no request is sent while there are messages to be read, the messages that
the main thread takes, and reports, are the answers to its requests. -/
theorem taken_prefix (w : Work) {d : Config LinkSig Party Link}
    (h : Run linkMachine pushesApart (.start .fresh w.queue) d) :
    d.shared.taken <+: d.shared.answered ∧ d.shared.reported <+: d.shared.taken := by
  obtain ⟨st, hst⟩ := h.inv (P := fun c => ∃ st, At st c)
    (fun _ _ ⟨_, h⟩ hstep => h.step hstep) ⟨.free, .start w⟩
  have hlink := hst.link
  cases st with
  | answered r m => exact ⟨⟨_, hlink.2.1.symm⟩, hlink.1 ▸ List.prefix_refl _⟩
  | read r m => exact ⟨hlink.2.1 ▸ List.prefix_refl _, ⟨_, hlink.1.symm⟩⟩
  | _ => exact ⟨hlink.2.1 ▸ List.prefix_refl _, hlink.1 ▸ List.prefix_refl _⟩

/-! ## a close by the seller -/

/-- A seller who closes an auction gets the notification of it on the same
connection as the answer, and before it. -/
theorem close_pushes_before_answer {s : Store} {fd : Int} {req : CloseAuctionPayload} {u : User}
    {a : Auction} (hread : readRec s.auctions req.auctionId = some a)
    (hopen : a.status = .auctionOpen) (hseller : a.sellerId = u.userId)
    (hfd : lookupFdIn s.registry u.userId = fd) (hpos : 0 < fd) :
    ∃ won, (Prog.run Api.exec (handleCloseAuction fd req u) s).2.sent = s.sent ++ won ++
      [(fd, ⟨.msgNotifyAuctionClosed, .errOk, .auctionClosed a.auctionId⟩),
        (fd, ⟨.msgCloseAuctionResp, .errOk, .auction (a.withStatus .auctionClosed)⟩)] := by
  have hfd0 : ¬ fd < 0 := by omega
  by_cases hs : (a.withStatus .auctionClosed).Settles
  · simp [handleCloseAuction, Store.exec, hread, hseller, hopen, closeAuctionInternal, hs,
      notifyAuctionWon, notifyAuctionClosed, run_pushNotification, Store.create, hfd, hfd0]
  · refine ⟨[], ?_⟩
    simp [handleCloseAuction, Store.exec, hread, hseller, hopen, closeAuctionInternal, hs,
      notifyAuctionClosed, run_pushNotification, Store.create, hfd, hfd0]

/-- What the client of a seller asks: to close two auctions.  The first close
succeeds and pushes its notification before it answers; the second is refused. -/
def twoCloses : Work where
  requests := [.closeAuction ⟨1⟩, .closeAuction ⟨2⟩]
  turns := 1
  scripts :=
    [fun _ => ([⟨.msgNotifyAuctionClosed, .errOk, .auctionClosed 1⟩],
      ⟨.msgCloseAuctionResp, .errOk, .empty⟩),
     fun _ => ([], ⟨.msgCloseAuctionResp, .errPermission, .empty⟩)]
  pushes _ := []

/-- The two requests, each answered before the next is sent. -/
def twoClosesRun : List Party :=
  [.main, .main, .main, .worker, .worker, .worker, .worker, .main, .main, .main,
   .main, .main, .main, .worker, .worker, .worker, .main, .main, .main]

/-- The condition is needed: the notification of the first close is taken for
its answer, and the answer of the first close, `ERR_OK`, for that of the
second, which the server refused. -/
theorem not_taken_prefix :
    ¬ ∀ w d, Reach linkMachine (.start .fresh (Work.queue w)) d →
      d.shared.taken <+: d.shared.answered ∧ d.shared.reported <+: d.shared.taken := by
  intro h
  have hprefix := (h twoCloses _ (Run.after twoClosesRun)).1.map Prod.snd
  revert hprefix
  decide

/-- A run that keeps to it: the notification comes after the first answer and
is read by the listener before the second request. -/
theorem taken_prefix_notified :
    let w : Work :=
      { twoCloses with
        scripts := [fun _ => ([], ⟨.msgCloseAuctionResp, .errOk, .empty⟩),
          fun _ => ([], ⟨.msgCloseAuctionResp, .errPermission, .empty⟩)]
        pushes := fun _ => [⟨.msgNotifyAuctionClosed, .errOk, .auctionClosed 1⟩] }
    let d := Config.after linkMachine pushesApart (.start .fresh w.queue)
      (twoClosesRun.take 10 ++ [.notifier 0, .notifier 0] ++
        List.replicate 6 .listener ++ twoClosesRun.drop 10)
    d.shared.taken <+: d.shared.answered ∧ d.shared.reported <+: d.shared.taken :=
  taken_prefix _ (Run.after _)

end OnlineAuction.Client
