import OnlineAuction.Lib.Machine
import OnlineAuction.Models

/-!
# OnlineAuction.Client

`client/client.c` and its connection to the server.

The main thread of the client sends a request and takes the next message of
the stream for the answer, under `req_lock`; the listener takes a message when
it gets the lock.  On the other end a worker answers the requests in order,
and other threads of the server push notifications.  Frames are whole here
(`OnlineAuction.Wire` is about their bytes), so the connection is a queue of
requests and a queue of messages (`Link`).
-/

namespace OnlineAuction.Client

/-- Who uses the connection. -/
inductive Party
  | main
  | listener
  | worker
  | notifier (n : Nat)
  deriving DecidableEq

/-- The connection, the client's lock, and what has happened: the requests
sent, the answers given, the messages that the main thread took for answers,
what the client told its user about each request, and what the listener
printed. -/
structure Link where
  reqLock : Option Party
  toServer : List Request
  toClient : List Message
  asked : List Request
  answered : List (Request × Message)
  taken : List (Request × Message)
  reported : List (Request × Message)
  shown : List Message

/-- A new connection. -/
def Link.fresh : Link := ⟨none, [], [], [], [], [], [], []⟩

/-- `recvAnswer r` is `recv_msg` where the main thread calls it after sending
`r`, and `recv` where the listener does. -/
inductive LinkOp
  | lockReq
  | trylockReq
  | unlockReq
  | select
  | send (r : Request)
  | recv
  | recvAnswer (r : Request)
  | report (r : Request) (m : Message)
  | print (m : Message)
  | serverRecv
  | respond (r : Request) (m : Message)
  | push (m : Message)

abbrev LinkOp.Res : LinkOp → Type
  | .trylockReq | .select => Bool
  | .recv | .recvAnswer _ => Message
  | .serverRecv => Request
  | _ => Unit

abbrev LinkSig : Sig := ⟨LinkOp, LinkOp.Res⟩

/-- What a call does; a thread waits for a lock in use and for a message that
is not there yet. -/
def Link.step (t : Party) : (op : LinkOp) → Link → Option (op.Res × Link)
  | .lockReq, s => match s.reqLock with
      | none => some ((), { s with reqLock := some t })
      | some _ => none
  | .trylockReq, s => match s.reqLock with
      | none => some (true, { s with reqLock := some t })
      | some _ => some (false, s)
  | .unlockReq, s => some ((), { s with reqLock := none })
  | .select, s => some (!s.toClient.isEmpty, s)
  | .send r, s => some ((), { s with toServer := s.toServer ++ [r], asked := s.asked ++ [r] })
  | .recv, s => match s.toClient with
      | [] => none
      | m :: ms => some (m, { s with toClient := ms })
  | .recvAnswer r, s => match s.toClient with
      | [] => none
      | m :: ms => some (m, { s with toClient := ms, taken := s.taken ++ [(r, m)] })
  | .report r m, s => some ((), { s with reported := s.reported ++ [(r, m)] })
  | .print m, s => some ((), { s with shown := s.shown ++ [m] })
  | .serverRecv, s => match s.toServer with
      | [] => none
      | r :: rs => some (r, { s with toServer := rs })
  | .respond r m, s =>
      some ((), { s with toClient := s.toClient ++ [m], answered := s.answered ++ [(r, m)] })
  | .push m, s => some ((), { s with toClient := s.toClient ++ [m] })

def linkMachine : System LinkSig Party Link where
  step := Link.step
  env _ _ := False

/-! ## the client -/

/-- The second half of a request: one message is taken, whatever it is. -/
def receive (r : Request) : Prog LinkSig Unit :=
  .call (.recvAnswer r) fun m => .call .unlockReq fun _ => .call (.report r m) .pure

/-- A request of the main thread.  All functions of the client that ask the
server (`do_login`, `bidder_place_bid`, `auctioneer_close` and the others) have
this shape; none looks at the type of the message it receives. -/
def request (r : Request) : Prog LinkSig Unit :=
  .call .lockReq fun _ => .call (.send r) fun _ => receive r

/-- One turn of the loop of `listener_thread`. -/
def listenerTurn : Prog LinkSig Unit :=
  .call .select fun ready =>
    if ready then .call .trylockReq fun got =>
      if got then .call .recv fun m => .call (.print m) fun _ => .call .unlockReq .pure
      else pure ()
    else pure ()

/-! ## the server -/

/-- What the worker does about one request: it pushes some notifications to
this very connection, then it answers. -/
abbrev Script : Type := Request → List Message × Message

def answer (r : Request) (m : Message) : List Message → Prog LinkSig Unit
  | [] => .call (.respond r m) .pure
  | n :: ns => .call (.push n) fun _ => answer r m ns

/-- One turn of the loop of `handle_client`. -/
def serveTurn (script : Script) : Prog LinkSig Unit :=
  .call .serverRecv fun r => answer r (script r).2 (script r).1

/-- `push_notification` by another thread of the server. -/
def pushNotification (m : Message) : Prog LinkSig Unit := .call (.push m) .pure

/-- What each thread has to do: any number of requests, of turns of the
listener, of turns of the worker and of notifications. -/
structure Work where
  requests : List Request
  turns : Nat
  scripts : List Script
  pushes : Nat → List Message

def Work.queue (w : Work) : Party → List (Prog LinkSig Unit)
  | .main => w.requests.map request
  | .listener => List.replicate w.turns listenerTurn
  | .worker => w.scripts.map serveTurn
  | .notifier n => (w.pushes n).map pushNotification

end OnlineAuction.Client
