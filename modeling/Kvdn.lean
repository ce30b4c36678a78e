import Kvdn.Acknowledgement
import Kvdn.Commit
import Kvdn.ConcurrentIndex
import Kvdn.Linearizable
import Kvdn.Counters
import Kvdn.ReplicatedSets
import Kvdn.Outstanding
import Kvdn.AccessCache
import Kvdn.ContentAddress
import Kvdn.EventOrder
import Kvdn.FailedTx
import Kvdn.GetKeys
import Kvdn.HookChain
import Kvdn.Isolation
import Kvdn.ConditionalOps
import Kvdn.KeySync
import Kvdn.LinearizableKeys
import Kvdn.BusDues
import Kvdn.KeyTracking
import Kvdn.KeyWait
import Kvdn.Protocol
import Kvdn.PythonClient
import Kvdn.ReadOnly
import Kvdn.RestStore
import Kvdn.SequentialIndex
import Kvdn.Termination
import Kvdn.ServiceProxy
