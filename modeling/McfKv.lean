import McfKv.Index.HandOff
import McfKv.Db.Compaction
import McfKv.Db.PointReads
import McfKv.Db.SnapshotReads
import McfKv.Util.Cache
import McfKv.Db.GroupCommit
import McfKv.Db.LogCoverage
import McfKv.Db.DbIterCursor
import McfKv.Index.BtreeIndex
import McfKv.Index.FairSplit
import McfKv.Index.InsertResult
import McfKv.Index.FFBtreeScan
import McfKv.Db.MakeRoom
import McfKv.Db.RecoverFiles
import McfKv.Db.Update
import McfKv.Db.CompactionOutput
import McfKv.Db.InternalIterator
import McfKv.Table.Merger
import McfKv.Db.MemTable
import McfKv.Table.Table
import McfKv.Util.Bloom
import McfKv.Db.LogReuse
import McfKv.Db.KeyFormat
import McfKv.Util.Varint
import McfKv.Db.RecoverLog
