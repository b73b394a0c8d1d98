import OnlineAuction.BidAnswers
import OnlineAuction.LifeCycle
import OnlineAuction.TimerBacklog

/-!
# OnlineAuction.Deadlines

Bids and the end of an auction.

`handle_place_bid` does not look at `end_time`: an auction takes bids until somebody closes it,
and that is the timer, once a second and 64 at a time.  A bid that passes the checks of the
handler after the end is accepted (`Late`); `bidsInTime_iff` says that a run has no other bids
that are late.
-/

namespace OnlineAuction

/-- A bidder bids on an auction that is open though its end has come, and passes every check of
`handle_place_bid`. -/
def Late (s : Server) (i : Input) : Prop :=
  ∃ fd c req a u, i = .message fd (.placeBid req) ∧ s.conns fd = some c ∧
    c.authenticated = true ∧ c.currentUser.role = roleBidder ∧
    readRec s.store.auctions req.auctionId = some a ∧ a.status = .auctionOpen ∧
    readRec s.store.users c.currentUser.userId = some u ∧
    req.amount ≤ u.walletBalance - u.walletHold ∧ a.currentBid < req.amount ∧
    a.endTime ≤ s.store.clock

/-- Every bid that was accepted was placed before the end of its auction. -/
def BidsInTime (calls : List (Event ApiSig)) (auctions : List Auction) : Prop :=
  ∀ fd b, (fd, ErrCode.errOk, Payload.bid b) ∈ bidAnswers calls →
    ∃ a ∈ auctions, a.auctionId = b.auctionId ∧ b.placedAt < a.endTime

section Steps

variable {sha256Hex : List UInt8 → List UInt8} {s : Server} {i : Input} {fd : Int} {c : Conn}
  {req : PlaceBidPayload}

/-- A bidder's request is served by the handler. -/
theorem calls_placeBid (hc : s.conns fd = some c) (hauth : c.authenticated = true)
    (hrole : c.currentUser.role = roleBidder) :
    s.calls sha256Hex (.message fd (.placeBid req)) =
      Prog.trace Api.exec (handlePlaceBid fd req c.currentUser) s.store := by
  simp [Server.calls, Input.prog, Input.before, hc, turn, serve, hauth, dispatch, whenAllowed,
    hrole]

/-- Which steps answer a bid. -/
theorem bidAnswers_calls : bidAnswers (s.calls sha256Hex i) = [] ∨
    ∃ fd c req, i = .message fd (.placeBid req) ∧ s.conns fd = some c ∧ c.authenticated = true ∧
      c.currentUser.role = roleBidder ∧ bidAnswers (s.calls sha256Hex i) =
        bidAnswers (Prog.trace Api.exec (handlePlaceBid fd req c.currentUser) s.store) := by
  by_cases hnil : bidAnswers (s.calls sha256Hex i) = []
  · exact .inl hnil
  obtain ⟨⟨fd', status, payload⟩, hmem⟩ := List.exists_mem_of_ne_nil _ hnil
  rcases Server.type_of_send (mem_bidAnswers.mp hmem) with hside | ⟨fd, m, rfl, hsome, htype⟩
  · simp [sideTypes] at hside
  cases m with
  | placeBid req =>
      obtain ⟨c, hc⟩ := Option.isSome_iff_exists.mp hsome
      by_cases hallowed : c.authenticated = true ∧ c.currentUser.role = roleBidder
      · obtain ⟨hauth, hrole⟩ := hallowed
        exact .inr ⟨fd, c, req, rfl, hc, hauth, hrole, by rw [calls_placeBid hc hauth hrole]⟩
      · refine absurd ?_ hnil
        by_cases hauth : c.authenticated = true
        · have hrole : c.currentUser.role ≠ roleBidder := fun h => hallowed ⟨hauth, h⟩
          simp [Server.calls, Input.prog, hc, turn, serve, hauth, dispatch, whenAllowed, hrole,
            bidAnswerOf]
        · simp [Server.calls, Input.prog, hc, turn, serve, hauth, bidAnswerOf]
  | _ => simp [Request.answerTypes] at htype

/-- **Step**: an accepted bid is on an auction of the file, and a late one makes its step late. -/
theorem accepted_step (hs : s.Sound) {fd : Int} {b : Bid}
    (h : (fd, ErrCode.errOk, Payload.bid b) ∈ bidAnswers (s.calls sha256Hex i)) :
    ∃ a ∈ s.store.auctions, a.auctionId = b.auctionId ∧ b.placedAt = s.store.clock ∧
      (a.endTime ≤ s.store.clock → Late s i) := by
  rcases (bidAnswers_calls : bidAnswers (s.calls sha256Hex i) = [] ∨ _) with
    hnil | ⟨fd', c, req, rfl, hc, hauth, hrole, hcalls⟩
  · rw [hnil] at h
    cases h
  · rw [hcalls, answers_handlePlaceBid, List.mem_singleton] at h
    obtain ⟨-, hstatus, hpayload⟩ := by simpa using h
    rw [if_pos hstatus.symm] at hpayload
    obtain rfl := Payload.bid.inj hpayload
    obtain ⟨a, u, ha, hopen, hu, hfunds, hhigher⟩ := bidAnswer_eq_ok.mp hstatus.symm
    obtain ⟨hmem, hid⟩ := hs.view.auctions.readRec_eq_some.mp ha
    exact ⟨a, hmem, hid, rfl, fun hend =>
      ⟨fd', c, req, a, u, rfl, hc, hauth, hrole, ha, hopen, hu, hfunds, hhigher, hend⟩⟩

/-- A late bid is accepted. -/
theorem Late.accepted (sha256Hex : List UInt8 → List UInt8) (h : Late s i) (hs : s.Sound) :
    ∃ fd b a, a ∈ s.store.auctions ∧
    (fd, ErrCode.errOk, Payload.bid b) ∈ bidAnswers (s.calls sha256Hex i) ∧
    a.auctionId = b.auctionId ∧ a.endTime ≤ b.placedAt := by
  obtain ⟨fd, c, req, a, u, rfl, hc, hauth, hrole, ha, hopen, hu, hfunds, hhigher, hend⟩ := h
  have hok : bidAnswer s.store.users s.store.auctions req c.currentUser.userId = .errOk :=
    bidAnswer_eq_ok.mpr ⟨a, u, ha, hopen, hu, hfunds, hhigher⟩
  obtain ⟨hmem, hid⟩ := hs.view.auctions.readRec_eq_some.mp ha
  refine ⟨fd, s.store.bid req c.currentUser.userId, a, hmem, ?_, hid, hend⟩
  rw [calls_placeBid hc hauth hrole, answers_handlePlaceBid, hok]
  exact List.mem_singleton.mpr rfl

/-- An auction stays in the file with its end. -/
theorem auction_handle (hs : s.Sound) (hroom : s.store.HasRoom) (hpossible : i.Possible s)
    {a : Auction} (ha : a ∈ s.store.auctions) {id : UInt32} (hid : a.auctionId = id) :
    ∃ a' ∈ (s.handle sha256Hex i).store.auctions, a'.auctionId = id ∧ a'.endTime = a.endTime := by
  obtain ⟨a', ha', hid', hend⟩ := (hs.change hroom hpossible).endTime hs.view ha
  exact ⟨a', ha', hid'.trans hid, hend⟩

/-- The end of an auction that is in the file before and after a step. -/
theorem endTime_handle (hs : s.Sound) (hroom : s.store.HasRoom) (hpossible : i.Possible s)
    {a a' : Auction} (ha : a ∈ s.store.auctions)
    (ha' : a' ∈ (s.handle sha256Hex i).store.auctions) (hid : a'.auctionId = a.auctionId) :
    a'.endTime = a.endTime := by
  obtain ⟨b, hb, hbid, hbend⟩ := auction_handle hs hroom hpossible ha rfl
  have hnum : Numbered _ (s.handle sha256Hex i).store.auctions :=
    (hs.handle hroom hpossible).view.auctions
  rw [hnum.eq_of_id ha' hb (hid.trans hbid.symm)]
  exact hbend

end Steps

/-! ## runs -/

section Runs

variable {sha256Hex : List UInt8 → List UInt8} {ok : Server → Input → Prop} {s₀ s : Server}
  {calls : List (Event ApiSig)}

/-- The auction of an accepted bid is in the file. -/
theorem Serves.bid_auction_mem (h : Serves sha256Hex ok s₀ calls s) (hs₀ : s₀.Sound) {fd : Int}
    {b : Bid} (hb : (fd, ErrCode.errOk, Payload.bid b) ∈ bidAnswers calls) :
    ∃ a ∈ s.store.auctions, a.auctionId = b.auctionId := by
  induction h with
  | refl => cases hb
  | step h hroom hpossible hok ih =>
      have hs := h.sound hs₀
      rw [bidAnswers_append] at hb
      rcases List.mem_append.mp hb with hb | hb
      · obtain ⟨a, ha, hid⟩ := ih hb
        obtain ⟨a', ha', hid', -⟩ := auction_handle hs hroom hpossible ha hid
        exact ⟨a', ha', hid'⟩
      · obtain ⟨a, ha, hid, -⟩ := accepted_step hs hb
        obtain ⟨a', ha', hid', -⟩ := auction_handle hs hroom hpossible ha hid
        exact ⟨a', ha', hid'⟩

/-- **Deadlines**: the accepted bids of a run are in time exactly if no step of it is late. -/
theorem bidsInTime_iff (createdAt now : Int)
    (h : Serves sha256Hex anyInput (.seeded sha256Hex createdAt now) calls s) :
    BidsInTime calls s.store.auctions ↔
      Serves sha256Hex (fun s i => ¬ Late s i) (.seeded sha256Hex createdAt now) calls s := by
  have hs₀ : (Server.seeded sha256Hex createdAt now).Sound := sound_seeded createdAt now
  constructor
  · intro hin
    induction h with
    | refl => exact .refl
    | step h hroom hpossible hok ih =>
        have hs := h.sound hs₀
        refine .step (ih fun fd b hb => ?_) hroom hpossible fun hlate => ?_
        · obtain ⟨a, ha, hid⟩ := h.bid_auction_mem hs₀ hb
          obtain ⟨a', ha', hid', hlt⟩ := hin fd b (by simp [hb])
          rw [endTime_handle hs hroom hpossible ha ha' (hid'.trans hid.symm)] at hlt
          exact ⟨a, ha, hid, hlt⟩
        · obtain ⟨fd, b, a, ha, hb, hid, hle⟩ := hlate.accepted sha256Hex hs
          obtain ⟨a', ha', hid', hlt⟩ := hin fd b (by simp [hb])
          rw [endTime_handle hs hroom hpossible ha ha' (hid'.trans hid.symm)] at hlt
          exact absurd hlt (not_lt.mpr hle)
  · intro h
    clear * - h hs₀
    induction h with
    | refl => exact fun _ _ hb => by cases hb
    | step h hroom hpossible hok ih =>
        have hs := h.sound hs₀
        intro fd b hb
        rw [bidAnswers_append] at hb
        rcases List.mem_append.mp hb with hb | hb
        · obtain ⟨a, ha, hid, hlt⟩ := ih fd b hb
          obtain ⟨a', ha', hid', hend⟩ := auction_handle hs hroom hpossible ha hid
          exact ⟨a', ha', hid', hend ▸ hlt⟩
        · obtain ⟨a, ha, hid, hplaced, hlate⟩ := accepted_step hs hb
          obtain ⟨a', ha', hid', hend⟩ := auction_handle hs hroom hpossible ha hid
          refine ⟨a', ha', hid', ?_⟩
          rw [hplaced, hend]
          exact not_le.mp fun hle => hok (hlate hle)

end Runs

/-! ## before and after the end -/

/-- The clock is not set back. -/
def ForwardClock (s : Server) : Input → Prop
  | .clock now => s.store.clock ≤ now
  | _ => True

instance (s : Server) (i : Input) : Decidable (ForwardClock s i) :=
  match i with
  | .clock now => inferInstanceAs (Decidable (s.store.clock ≤ now))
  | .connect _ | .message _ _ | .disconnect _ | .timerClose _ | .restart => .isTrue trivial

/-- The bid of `saleScript` is in time. -/
theorem bidsInTime_iff_sale :
    ∃ calls, Serves adminSha256Hex (fun s i => ¬ Late s i) (.seeded adminSha256Hex 0 1000) calls
      (played saleScript) := by
  have hscript : Playable anyInput saleScript := by decide +kernel
  have hanswers : bidAnswers (Server.callsAll adminSha256Hex (.seeded adminSha256Hex 0 1000)
      saleScript) = [(6, .errOk, .bid ⟨1, 1, 2, 150, 1000, true⟩)] := by
    decide +kernel
  have hends : ∃ a ∈ (played saleScript).store.auctions, a.auctionId = 1 ∧ 1000 < a.endTime := by
    decide +kernel
  refine ⟨_, (bidsInTime_iff 0 1000 (.of_script hscript)).mp fun fd b hb => ?_⟩
  rw [hanswers, List.mem_singleton] at hb
  obtain ⟨-, -, rfl⟩ := by simpa using hb
  exact hends

/-- An auction of ten seconds gets a bid five seconds after its end, before the timer comes. -/
def lateScript : List Input :=
  [.connect 5, logIn 5 adminName, addUser 5 [98] roleBidder, .connect 6, logIn 6 [98],
    .message 6 (.deposit ⟨500⟩), .message 5 (.createAuction ⟨.zero _, .zero _, 100, 0, 10⟩),
    .clock 1015, .message 6 (.placeBid ⟨1, 150⟩), .timerClose 1]

theorem not_bidsInTime : ¬ ∀ calls s, Plays ForwardClock calls s →
    BidsInTime calls s.store.auctions := by
  intro h
  have hscript : Playable ForwardClock lateScript := by decide +kernel
  have hanswers : (6, ErrCode.errOk, Payload.bid ⟨1, 1, 2, 150, 1015, true⟩) ∈
      bidAnswers (Server.callsAll adminSha256Hex (.seeded adminSha256Hex 0 1000) lateScript) := by
    decide +kernel
  have hends : ∀ a ∈ (played lateScript).store.auctions, a.auctionId = 1 → ¬ 1015 < a.endTime := by
    decide +kernel
  obtain ⟨a, ha, hid, hlt⟩ := h _ _ (.of_script hscript) 6 _ hanswers
  exact hends a ha hid hlt

end OnlineAuction
