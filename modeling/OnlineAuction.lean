import OnlineAuction.ConcurrentBidding
import OnlineAuction.CloseRaces
import OnlineAuction.WalletSafety
import OnlineAuction.Framing
import OnlineAuction.Pairing
import OnlineAuction.RecordUpdates
import OnlineAuction.LifeCycle
import OnlineAuction.Sessions
import OnlineAuction.Privileges
import OnlineAuction.Solvency
import OnlineAuction.LoginRaces
import OnlineAuction.CreationRaces
import OnlineAuction.ModerationRaces
import OnlineAuction.Reception
import OnlineAuction.Settlement
import OnlineAuction.LockDiscipline
import OnlineAuction.FileSections
import OnlineAuction.StorageFaults
import OnlineAuction.CrashRecovery
import OnlineAuction.LogReplay
import OnlineAuction.Socket
import OnlineAuction.TimerBacklog
import OnlineAuction.BidChecks
import OnlineAuction.Deadlines
import OnlineAuction.BidOrder
import OnlineAuction.CloseOrder
import OnlineAuction.Credentials
import OnlineAuction.Authorization
import OnlineAuction.WorkQueue
import OnlineAuction.WalletCalls
import OnlineAuction.UserCreation
import OnlineAuction.ListQueries
import OnlineAuction.HandlerLoops
import OnlineAuction.TornWrites
import OnlineAuction.ThreadPool
import OnlineAuction.MenuAnswers
import OnlineAuction.MarkingPasses
import OnlineAuction.LogText
