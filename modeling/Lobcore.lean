import Lobcore.AcceptedBooks
import Lobcore.ArrayBooks
import Lobcore.ArrayChecks
import Lobcore.ArrayEffects
import Lobcore.ArrayRefines
import Lobcore.ArrayReps
import Lobcore.ArraySteps
import Lobcore.ArrayViews
import Lobcore.ArrayWindows
import Lobcore.ArrivalOrders
import Lobcore.BitmapRuns
import Lobcore.Bitmaps
import Lobcore.BookChanges
import Lobcore.BookRuns
import Lobcore.CertifiedReports
import Lobcore.Checked
import Lobcore.Closings
import Lobcore.DayEvents
import Lobcore.DayFiles
import Lobcore.DayMarkets
import Lobcore.DayPaths
import Lobcore.DayReferences
import Lobcore.DayReplays
import Lobcore.DayShapes
import Lobcore.DayTotals
import Lobcore.DayTruths
import Lobcore.DeskSteps
import Lobcore.Desks
import Lobcore.Drives
import Lobcore.ErrorRecords
import Lobcore.EventCodes
import Lobcore.EventReplays
import Lobcore.FigureTexts
import Lobcore.Framing
import Lobcore.GeneratedDays
import Lobcore.GeneratorBooks
import Lobcore.GeneratorDraws
import Lobcore.GeneratorMessages
import Lobcore.GeneratorPaths
import Lobcore.GeneratorRuns
import Lobcore.GeneratorSteps
import Lobcore.Generators
import Lobcore.GzipInputs
import Lobcore.GzipMembers
import Lobcore.Handlers
import Lobcore.Histograms
import Lobcore.Interleavings
import Lobcore.Interruptions
import Lobcore.Ledgers
import Lobcore.LevelGrids
import Lobcore.LevelMerges
import Lobcore.LevelWalks
import Lobcore.LinkedCells
import Lobcore.LittleEndian
import Lobcore.LiveReferences
import Lobcore.LocateIsolation
import Lobcore.MarketSnapshots
import Lobcore.MarketViews
import Lobcore.Markets
import Lobcore.MboFiles
import Lobcore.MboRecords
import Lobcore.MemberReads
import Lobcore.MessageCounts
import Lobcore.Migrations
import Lobcore.OffsetCounters
import Lobcore.OpeningRounds
import Lobcore.OpsFormat
import Lobcore.OpsGrammar
import Lobcore.OpsParity
import Lobcore.OpsPyref
import Lobcore.OrderFlow
import Lobcore.OrderSlab
import Lobcore.OrderTables
import Lobcore.OrderTypes
import Lobcore.OverflowCounts
import Lobcore.PathSums
import Lobcore.Payloads
import Lobcore.PrefixCodes
import Lobcore.PriceLevels
import Lobcore.PythonBooks
import Lobcore.QueuePositions
import Lobcore.Readers
import Lobcore.ReadmeBlocks
import Lobcore.ReadmeChecks
import Lobcore.RealOffsets
import Lobcore.ReferenceBook
import Lobcore.ReferenceRefines
import Lobcore.Replacements
import Lobcore.ReplayColumns
import Lobcore.Replays
import Lobcore.ReportBlocks
import Lobcore.ReportFigures
import Lobcore.RoundTrips
import Lobcore.RowSnapshots
import Lobcore.SampledRows
import Lobcore.SamplingCadences
import Lobcore.SessionAccounts
import Lobcore.SessionDirectories
import Lobcore.SessionRefines
import Lobcore.SessionReplays
import Lobcore.SessionRuns
import Lobcore.SessionStats
import Lobcore.SessionSteps
import Lobcore.Sessions
import Lobcore.SlabMarks
import Lobcore.SliceCuts
import Lobcore.SortedMaps
import Lobcore.StateStreams
import Lobcore.StatsReports
import Lobcore.Streaming
import Lobcore.TextMarks
import Lobcore.TruthBooks
import Lobcore.TypeHours
import Lobcore.UncrossedDays
import Lobcore.ViewCoherence
import Lobcore.WatchedRows
import Lobcore.WeightedMids
import Lobcore.WordBits
import Lobcore.Writers
