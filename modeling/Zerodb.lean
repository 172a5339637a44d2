import Zerodb.Run
import Zerodb.Trees
import Zerodb.Admin
import Zerodb.AdminStore
import Zerodb.FieldIndex
import Zerodb.Gate
import Zerodb.Catalog
import Zerodb.Db
import Zerodb.Freshness
import Zerodb.Iter
import Zerodb.RankedUnion
import Zerodb.Sliceable
import Zerodb.AdminMemory
import Zerodb.ClientStack
import Zerodb.Clients
import Zerodb.FieldScan
import Zerodb.Handles
import Zerodb.Query
import Zerodb.TextOkapi
import Zerodb.Transactions
import Zerodb.FieldEquality
import Zerodb.Invalidation
import Zerodb.Passwords
import Zerodb.PrefetchRuns
import Zerodb.QueueEffect
import Zerodb.TextUndo
import Zerodb.UnionBounds
import Zerodb.UnionOrder
import Zerodb.Vocabulary
import Zerodb.AdminFailures
import Zerodb.DbQuery
import Zerodb.Inheritance
import Zerodb.QueryJson
import Zerodb.QueueCollisions
import Zerodb.TreeDescent
import Zerodb.Access
import Zerodb.DbSearch
import Zerodb.Handover
import Zerodb.JsonSearch
import Zerodb.SharedStack
import Zerodb.TextSearch
import Zerodb.TextWords
import Zerodb.Threads
import Zerodb.UserStats
import Zerodb.Coherence
import Zerodb.PrefetchTrees
