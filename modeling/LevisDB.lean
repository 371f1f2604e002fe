import LevisDB.Compaction.FileSize
import LevisDB.Compaction.Throttle
import LevisDB.Db.CatalogRuns
import LevisDB.Db.CompactionFilter
import LevisDB.Db.IsolationRuns
import LevisDB.Db.LogDamage
import LevisDB.Db.LogShipping
import LevisDB.Db.Scheduler
import LevisDB.Db.SequencesRuns
import LevisDB.Engine.MergeIter
import LevisDB.Engine.TableLife
import LevisDB.Storage.ArenaMemtable
import LevisDB.Storage.CachedReads
import LevisDB.Storage.FdPool
import LevisDB.Storage.ManifestRecord
import LevisDB.Storage.TableRoundTrip
