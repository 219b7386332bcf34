import Mcap.ByteCodec
import Mcap.OrderedMap
import Mcap.Crc32
import Mcap.Exec
import Mcap.Records
import Mcap.McapError
import Mcap.RwBuf
import Mcap.LinearReader
import Mcap.ReaderSpec
import Mcap.InflateSpec
import Mcap.ReaderSim
import Mcap.ReaderRuns
import Mcap.Driver
import Mcap.StoredLz4
import Mcap.Fragmentation
import Mcap.Framing
import Mcap.PanicFree
import Mcap.Types
import Mcap.LazyMerge
import Mcap.IndexedReader
import Mcap.Layout
import Mcap.IndexedFile
import Mcap.IndexedSim
import Mcap.IndexedRuns
import Mcap.IndexedTies
import Mcap.BiMap
import Mcap.RecordCodec
import Mcap.Sink
import Mcap.Writer
import Mcap.WriterModes
import Mcap.Registry
import Mcap.WriterRuns
import Mcap.Conflicts
import Mcap.IdAllocation
import Mcap.Tape
import Mcap.WriterSlot
import Mcap.InsertErrors
import Mcap.ChunkTape
import Mcap.AttachmentTape
import Mcap.Journal
import Mcap.Ledger
import Mcap.JournalRuns
import Mcap.FinishedFile
import Mcap.RoundTrip
import Mcap.Backing
import Mcap.FileReading
import Mcap.Checksums
import Mcap.ChunkGeometry
import Mcap.Counting
import Mcap.Iteration
import Mcap.Streams
import Mcap.DataSection
import Mcap.Definitions
import Mcap.MessageRoundTrip
import Mcap.ExtendedFiles
import Mcap.SummaryDriving
import Mcap.SummaryRuns
import Mcap.SummaryRoundTrip
import Mcap.Succeeding
import Mcap.Ros1Bag
import Mcap.Ros1BagFormat
import Mcap.Ros1Conversion
import Mcap.StoredCodec
import Mcap.GoChunking
import Mcap.GoParse
import Mcap.GoStatistics
import Mcap.GoBoundaries
import Mcap.GoReadBack
import Mcap.Dict
import Mcap.GoIndexed
import Mcap.GoPanics
import Mcap.Positions
import Mcap.PyBoundaries
import Mcap.PyPieces
import Mcap.PyWriting
import Mcap.PyWriter
import Mcap.PyBooks
import Mcap.PyFinishing
import Mcap.PySound
import Mcap.PySoundness
import Mcap.RecordSlices
import Mcap.TopicFilter
import Mcap.TruncatedFiles
import Mcap.TsBuilder
import Mcap.TsFiles
import Mcap.TsFragments
import Mcap.TsJournal
import Mcap.SwiftRecords
import Mcap.SwiftCodec
import Mcap.SwiftFragments
import Mcap.TsFinishing
import Mcap.TsIndexes
import Mcap.TsAccounts
import Mcap.TsBalance
import Mcap.TsRoundTrip
import Mcap.Recover
import Mcap.CountedCollections
import Mcap.Finishing
import Mcap.SliceReads
import Mcap.AttachmentPieces
import Mcap.Attaching
import Mcap.ChunkReading
import Mcap.DoctorRuns
import Mcap.IndexReads
import Mcap.IndexReturns
import Mcap.GoCollections
import Mcap.GoIndexRecords
import Mcap.GoOptions
import Mcap.CppReadJobs
import Mcap.TsFields
import Mcap.TsLocality
import Mcap.Decompressing
import Mcap.TabularCrc
import Mcap.CppIntervals
import Mcap.CrossReading
