import Apitap.Foundation.Footprint
import Apitap.Foundation.Overlay
import Apitap.Wire.Pgoutput
import Apitap.Logbased.Window
import Apitap.Logbased.Collapse
import Apitap.Logbased.Source
import Apitap.Logbased.Phases
import Apitap.Logbased.CollapseOverlay
import Apitap.Logbased.DestPg
import Apitap.Logbased.CollapseMeaning
import Apitap.Logbased.Resolve
import Apitap.Logbased.Deferred
import Apitap.Logbased.Changelog
import Apitap.Logbased.Drain
import Apitap.Logbased.Stream
import Apitap.Logbased.DrainPartition
import Apitap.Logbased.Group
import Apitap.Logbased.Replay
import Apitap.Logbased.ChangelogLane
import Apitap.Logbased.ReplayOnce
import Apitap.Foundation.TopPerKey
import Apitap.Logbased.CurrentView
import Apitap.Logbased.Rebuild
import Apitap.Logbased.CurrentTable
import Apitap.Foundation.Effect
import Apitap.Foundation.Parallel
import Apitap.Sink.BigQueryJob
import Apitap.Sink.AtMostOnce
import Apitap.Sink.IcebergCommit
import Apitap.Sink.CommitOnce
import Apitap.Guard.Naming
import Apitap.Guard.Protocol
import Apitap.Guard.NoWedge
import Apitap.Guard.OneOwner
import Apitap.Guard.Fence
import Apitap.Pipe.Crew
import Apitap.Pipe.CompleteLoad
import Apitap.Logbased.ChUnit
import Apitap.Logbased.Vouches
import Apitap.Foundation.FuzzyLoad
import Apitap.Logbased.Mysource
import Apitap.Logbased.Overlap
import Apitap.Logbased.FlatWindow
import Apitap.Foundation.Versions
import Apitap.Logbased.InsertOnly
import Apitap.Logbased.AnyOrder
import Apitap.Logbased.Statement
import Apitap.Logbased.DrainBinlog
import Apitap.Logbased.Binlog
import Apitap.Logbased.BinlogRun
import Apitap.Logbased.BinlogPoints
import Apitap.Logbased.BinlogInStep
import Apitap.Logbased.BinlogPartition
import Apitap.Foundation.Tiling
import Apitap.Source.Spans
import Apitap.Foundation.FirstBest
import Apitap.Pipeline.Planner
import Apitap.Foundation.Binary64
import Apitap.Plan.Watermark
import Apitap.Plan.WatermarkValue
import Apitap.Plan.WatermarkOrder
import Apitap.Logbased.Readback
import Apitap.Logbased.ReadbackBefore
import Apitap.Sink.AppendState
import Apitap.Pipeline.AppendRun
import Apitap.Pipeline.AppendOnce
import Apitap.Pipeline.AppendExact
import Apitap.Foundation.Transducer
import Apitap.Source.Csv
import Apitap.Source.CsvRun
import Apitap.Source.CsvMark
import Apitap.Source.CsvChunks
import Apitap.Logbased.Filing
import Apitap.Logbased.DestMy
import Apitap.Foundation.Coarsen
import Apitap.Logbased.Collation
import Apitap.Foundation.Debts
import Apitap.Logbased.Forgiven
import Apitap.Logbased.PartTable
import Apitap.Logbased.Truncated
import Apitap.Logbased.MemoRun
import Apitap.Logbased.Reapplied
import Apitap.Foundation.Radix
import Apitap.Wire.CopyStream
import Apitap.Wire.SpanStrip
import Apitap.Foundation.Checked
import Apitap.Wire.Numeric
import Apitap.Wire.NumericValue
import Apitap.Wire.RowBinary
import Apitap.Wire.DecimalExact
import Apitap.Logbased.Labels
import Apitap.Foundation.Results
import Apitap.Foundation.Framing
import Apitap.Wire.Carry
import Apitap.Wire.Transcoder
import Apitap.Foundation.Calendar
import Apitap.Foundation.Decimal
import Apitap.Wire.Days
import Apitap.Wire.MyTsv
import Apitap.Wire.Transcoders
import Apitap.Wire.PgBinDec
import Apitap.Wire.NumericText
import Apitap.Wire.NumericField
import Apitap.Foundation.Cursor
import Apitap.Wire.BinlogCell
import Apitap.Wire.BinlogDecimal
import Apitap.Wire.DecimalCodecs
import Apitap.Wire.BinlogTime
import Apitap.Wire.CalendarText
import Apitap.Wire.CalendarExact
import Apitap.Foundation.Bitmap
import Apitap.Wire.BinlogRows
import Apitap.Wire.BinlogDamaged
import Apitap.Wire.BinlogValues
import Apitap.Wire.BinlogImages
import Apitap.Wire.BinlogEvents
import Apitap.Foundation.Separated
import Apitap.Foundation.Lanes
import Apitap.Logbased.RowText
import Apitap.Foundation.Grouping
import Apitap.Logbased.BqUnit
import Apitap.Foundation.Scan
import Apitap.Wire.PgRender
import Apitap.Wire.PgoDecode
import Apitap.Wire.PgoMessages
import Apitap.Wire.PgoInverse
import Apitap.Wire.ParquetColumn
import Apitap.Wire.ParquetDecimal
import Apitap.Wire.CursorText
import Apitap.Wire.ParquetEncoder
import Apitap.Foundation.Levels
import Apitap.Wire.ParquetRows
import Apitap.Wire.ParquetRuns
import Apitap.Foundation.TextOrder
import Apitap.Wire.CursorOrder
import Apitap.Wire.CursorDecimal
import Apitap.Foundation.Champion
import Apitap.Wire.CursorValue
import Apitap.Wire.CursorLoad
import Apitap.Wire.CursorFooter
import Apitap.Wire.CursorWatermark
import Apitap.Foundation.Windows
import Apitap.Wire.FrameScanner
import Apitap.Wire.CopyOut
import Apitap.Wire.MyPackets
import Apitap.Wire.CopyOutExact
import Apitap.Wire.Scanners
import Apitap.Foundation.Semaphore
import Apitap.Pipeline.Grant
import Apitap.Foundation.Tally
import Apitap.Logbased.StreamBytes
import Apitap.Pipeline.BudgetConserved
import Apitap.Guard.NameOwner
import Apitap.Foundation.Utf8
import Apitap.Wire.ArrowColumn
import Apitap.Wire.ArrowCells
import Apitap.Wire.ArrowBatch
import Apitap.Logbased.ApplyWindows
import Apitap.Logbased.SlotConfirmed
import Apitap.Foundation.Elements
import Apitap.Wire.ArrowWalk
import Apitap.Wire.ArrowStage
import Apitap.Wire.ArrowBuffered
import Apitap.Wire.ArrowFramed
import Apitap.Wire.ArrowPlanes
import Apitap.Foundation.Base64
import Apitap.Wire.Scram
import Apitap.Wire.Startup
import Apitap.Wire.Authenticated
import Apitap.Wire.ScramServer
import Apitap.Wire.CsvOut
import Apitap.Wire.CsvBytes
import Apitap.Wire.CsvReads
import Apitap.Sink.PartNames
import Apitap.Sink.ObjectStore
import Apitap.Sink.Publish
import Apitap.Sink.StoreCalls
import Apitap.Sink.Published
import Apitap.Sink.PublishHistory
