import ModernLevelDB.Engine.FlushInstall
import ModernLevelDB.Engine.WriteQueueRuns
import ModernLevelDB.Wal.WalReopen
import ModernLevelDB.Engine.LiveIterator
import ModernLevelDB.Cache.LruRuns
import ModernLevelDB.Engine.CompactionOutputs
import ModernLevelDB.Engine.PickedInputs
import ModernLevelDB.Engine.LookupValue
import ModernLevelDB.Engine.LevelIterator
import ModernLevelDB.Wal.WalDamage
import ModernLevelDB.Engine.RecoveryInstall
import ModernLevelDB.Format.WriteBatchRuns
import ModernLevelDB.Table.TableIndex
import ModernLevelDB.Engine.TableCacheRuns
import ModernLevelDB.Table.TableFilter
import ModernLevelDB.Table.VarintLoops
import ModernLevelDB.Memory.Arena
import ModernLevelDB.Table.FilterBounds
import ModernLevelDB.Platform.PosixWritableFile
