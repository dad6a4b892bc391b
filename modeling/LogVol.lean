import LogVol.Lib.LittleEndian
import LogVol.Lib.Reader
import LogVol.Lib.MixedRadix
import LogVol.Base
import LogVol.Dataspace
import LogVol.Meta
import LogVol.WReq
import LogVol.Codec
import LogVol.OffsetCodec
import LogVol.MergedCodec
import LogVol.Lib.ByteStore
import LogVol.File
import LogVol.FlushWrite
import LogVol.DatasetWrite
import LogVol.FailedWrite
import LogVol.ZipWrite
import LogVol.IdxList
import LogVol.DedupEntry
import LogVol.Lib.Collective
import LogVol.MetaFlush
import LogVol.Collective
import LogVol.CollectiveRun
import LogVol.CollectiveStages
import LogVol.CollectiveWrite
import LogVol.CollectiveRead
import LogVol.Lib.Division
import LogVol.Sections
import LogVol.MetaDset
import LogVol.ReplayMeta
import LogVol.ReplayDivide
import LogVol.ReplayPartition
import LogVol.ReplayData
import LogVol.DumpMeta
import LogVol.IdxCompact
import LogVol.Unlinked
import LogVol.DecodeBounds
import LogVol.AnyBlock
import LogVol.MetaUpdate
import LogVol.PartLimit
import LogVol.SectionMap
import LogVol.PartialIndex
import LogVol.DecodedSizes
import LogVol.Lib.Boxes
import LogVol.SelectBlocks
import LogVol.Lib.Assign
import LogVol.SelectSlots
import LogVol.ReorderBlocks
import LogVol.PointSelect
import LogVol.HyperBlocks
import LogVol.HyperOrder
import LogVol.Lib.Shrunk
import LogVol.MemSelection
import LogVol.SelectObjects
import LogVol.SelectRuns
import LogVol.DeliverRead
import LogVol.BufferAccount
import LogVol.AccountRuns
import LogVol.SearchExact
import LogVol.Names
import LogVol.Lib.Namespace
import LogVol.PlainNames
import LogVol.Attributes
import LogVol.RefCount
import LogVol.Buffered
import LogVol.SetExtent
import LogVol.DsetCreate
import LogVol.FilterChain
import LogVol.IdxValid
import LogVol.Subfiling
import LogVol.GroupNumber
import LogVol.Lib.BoxRows
import LogVol.Lib.Moves
import LogVol.SortOffsets
import LogVol.SwapSort
import LogVol.ReadTypes
import LogVol.ReadRows
import LogVol.ReadGroups
import LogVol.ReadView
import LogVol.Lib.KeyTable
import LogVol.Lib.ByteOrder
import LogVol.OpenFiles
import LogVol.MergedBuffer
import LogVol.QueuedReads
import LogVol.ReadExact
import LogVol.BigEndian
import LogVol.WriteExact
import LogVol.ReadCarries
import LogVol.ReadNewest
import LogVol.ReadOverlap
import LogVol.ElemFile
import LogVol.LogRefine
import LogVol.ReadBack
import LogVol.ReplayRun
import LogVol.CompactSearch
import LogVol.CompactRead
import LogVol.Regroup
