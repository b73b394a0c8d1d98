import OnlineAuction.Admin
import OnlineAuction.AuctionEngine
import OnlineAuction.BidHandler
import OnlineAuction.Dispute

/-!
# OnlineAuction.Server

`server/server.c`: the dispatch of one received message and the conversation
with one client.

`serve` is one turn of the loop of `handle_client` after `recv_msg`; the loop
itself runs over the messages that the client sends before it disconnects
(`handleClient`).
-/

namespace OnlineAuction

variable (sha256Hex : List UInt8 → List UInt8)

/-- The locals of `handle_client` that outlive a message. -/
structure Conn where
  authenticated : Bool
  currentUser : User
  deriving DecidableEq

/-- A connection that has just been accepted. -/
def Conn.fresh : Conn := ⟨false, .zero⟩

/-- Run a handler that the role allows, or answer `ERR_PERMISSION`. -/
def whenAllowed (allowed : Bool) (clientFd : Int) (handler : Prog ApiSig Unit) :
    Prog ApiSig Unit :=
  if allowed then handler else sendMsg clientFd .msgError .errPermission .empty

/-- The requests that only read `current_user`. -/
def dispatch (clientFd : Int) (u : User) : Request → Prog ApiSig Unit
  | .fileDispute req =>
      whenAllowed (u.role == roleBidder) clientFd (handleFileDispute clientFd req u)
  | .viewAuctions => handleViewAuctions clientFd
  | .placeBid req =>
      whenAllowed (u.role == roleBidder) clientFd (handlePlaceBid clientFd req u)
  | .viewBalance => handleViewBalance clientFd u
  | .viewMyBids => handleViewMyBids clientFd u
  | .submitFeedback req => handleSubmitFeedback clientFd req u
  | .createAuction req =>
      whenAllowed (u.role == roleAuctioneer || u.role == roleAdmin) clientFd
        (handleCreateAuction clientFd req u)
  | .closeAuction req =>
      whenAllowed (u.role == roleAuctioneer || u.role == roleAdmin) clientFd
        (handleCloseAuction clientFd req u)
  | .viewDisputes =>
      whenAllowed (roleModerator ≤ u.role) clientFd (handleViewDisputes clientFd)
  | .resolveDispute req =>
      whenAllowed (roleModerator ≤ u.role) clientFd (handleResolveDispute clientFd req u)
  | .viewFeedback =>
      whenAllowed (roleModerator ≤ u.role) clientFd (handleViewFeedback clientFd)
  | .toggleAccount req =>
      whenAllowed (roleModerator ≤ u.role) clientFd (handleToggleAccount clientFd req u)
  | .addUser req =>
      whenAllowed (u.role == roleAdmin) clientFd (handleAddUser sha256Hex clientFd req)
  | .listUsers => whenAllowed (u.role == roleAdmin) clientFd (handleListUsers clientFd)
  | .changeRole req =>
      whenAllowed (u.role == roleAdmin) clientFd (handleChangeRole clientFd req)
  | _ => sendMsg clientFd .msgError .errInternal .empty

/-- One turn of the loop: the connection's new locals, and whether it goes on. -/
def serve (clientFd : Int) (c : Conn) (m : Request) : Prog ApiSig (Conn × Bool) :=
  match m with
  | .login req => do
      let (authenticated, user) ← handleLogin sha256Hex clientFd req c.currentUser
      pure (⟨authenticated, user⟩, true)
  | m =>
      if !c.authenticated then do
        sendMsg clientFd .msgError .errAuthFail .empty
        pure (c, true)
      else match m with
        | .logout => do
            handleLogout clientFd c.currentUser
            pure (c, false)
        | .changePass req => do
            let user ← handleChangePassword sha256Hex clientFd req c.currentUser
            pure ({ c with currentUser := user }, true)
        | .deposit req => do
            let user ← handleDeposit clientFd req c.currentUser
            pure ({ c with currentUser := user }, true)
        | m => do
            dispatch sha256Hex clientFd c.currentUser m
            pure (c, true)

/-- What `handle_client` does after its loop, also after a logout. -/
def cleanUp (c : Conn) : Prog ApiSig Unit :=
  if c.authenticated ∧ c.currentUser.userId ≠ 0 then do
    clearSession c.currentUser.userId
    notifyUnregister c.currentUser.userId
  else pure ()

/-- The loop, over the messages that are received before the client is gone. -/
def clientLoop (clientFd : Int) (c : Conn) : List Request → Prog ApiSig Unit
  | [] => cleanUp c
  | m :: ms => do
      let (c, running) ← serve sha256Hex clientFd c m
      if running then clientLoop clientFd c ms else cleanUp c

def handleClient (clientFd : Int) (messages : List Request) : Prog ApiSig Unit :=
  if clientFd ≤ 0 then pure () else clientLoop sha256Hex clientFd .fresh messages

end OnlineAuction
