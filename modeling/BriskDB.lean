import BriskDB.Core.IndexKeyDecode
import BriskDB.Core.Routing
import BriskDB.Document.CodecBudget
import BriskDB.Document.IndexKeyCodec
import BriskDB.Document.MatcherNegation
import BriskDB.Document.PartialFilter
import BriskDB.Document.PushArray
import BriskDB.Document.UpdateFrame
import BriskDB.Engine.IdempotentWritesOnce
import BriskDB.Engine.SortedPages
import BriskDB.Isam.Depth
import BriskDB.Isam.Durability
import BriskDB.Isam.Writers
import BriskDB.Security.DurableDecisions
import BriskDB.Security.RecordSafety
import BriskDB.Storage.HiloSafety
import BriskDB.Storage.IndexedRecords
import BriskDB.Storage.Pool
import BriskDB.Storage.SchemaGate
import BriskDB.Storage.ShardSummarySafety
