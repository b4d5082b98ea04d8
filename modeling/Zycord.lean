import Zycord.Fold.Seen
import Zycord.Fold.Ceilings
import Zycord.Fold.Order
import Zycord.Fold.Emission
import Zycord.Fold.BaseFees
import Zycord.Fold.Controller
import Zycord.Fold.DeadStorage
import Zycord.Fold.Treasury
import Zycord.Fold.Commute
import Zycord.Core.RootCache
import Zycord.Core.RootBinding
import Zycord.Storage.Lockout
import Zycord.Chain.Retention
import Zycord.Chain.Failure
import Zycord.Sync.ForkPoint
import Zycord.Mempool.Ids
import Zycord.Mempool.Reach
import Zycord.Miner.Solver
import Zycord.Stratum.JobBlock
import Zycord.Stratum.Target
import Zycord.Update.Archive
import Zycord.Update.Retire
import Zycord.Rpc.Budget
import Zycord.Core.MedianTime
