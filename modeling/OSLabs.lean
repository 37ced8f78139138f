import OSLabs.LabelledRuns
import OSLabs.FairRuns
import OSLabs.OneOwner
import OSLabs.NodeHandles
import OSLabs.ByteMemory
import OSLabs.LinkedChain
import OSLabs.AllocatorClient
import OSLabs.McKusick
import OSLabs.McKusickSizes
import OSLabs.McKusickPages
import OSLabs.McKusickBlocks
import OSLabs.McKusickInvariant
import OSLabs.McKusickSteps
import OSLabs.McKusickCalls
import OSLabs.McKusickSafety
import OSLabs.McKusickRequests
import OSLabs.HighWater
import OSLabs.McKusickPeak
import OSLabs.McKusickPointers
import OSLabs.CountedLoop
import OSLabs.McKusickConstructor
import OSLabs.McKusickIsolation
import OSLabs.McKusickBuckets
import OSLabs.ThreadedList
import OSLabs.IntervalTiling
import OSLabs.BestFit
import OSLabs.BestFitHeaders
import OSLabs.BestFitBlocks
import OSLabs.BestFitCalls
import OSLabs.BestFitInvariant
import OSLabs.BestFitSafety
import OSLabs.BestFitRequests
import OSLabs.BestFitIsolation
import OSLabs.ClientLog
import OSLabs.BestFitBump
import OSLabs.UsageFactor
import OSLabs.UsageFactorSafety
import OSLabs.AllocationTest
import OSLabs.CharBuffer
import OSLabs.Numeral
import OSLabs.Translation
import OSLabs.TranslationLoops
import OSLabs.TranslationNumerals
import OSLabs.ArcPattern
import OSLabs.BitonicSort
import OSLabs.BitonicSteps
import OSLabs.BitonicOrder
import OSLabs.ForkJoin
import OSLabs.BitonicThreads
import OSLabs.BitonicSafety
import OSLabs.ForkJoinBudget
import OSLabs.BitonicBudget
import OSLabs.NodeTree
import OSLabs.NodeTreeShape
import OSLabs.NodeTreePackets
import OSLabs.NodeTreeMoves
import OSLabs.NodeTreeRouting
import OSLabs.NodeTreeReplies
import OSLabs.NodeTreeInvariant
import OSLabs.NodeTreeRuns
import OSLabs.LastEvent
import OSLabs.NodeTreeRecords
import OSLabs.NodeTreeDictionary
import OSLabs.NodeTreeDelivery
import OSLabs.NodeTreeIds
import OSLabs.NodeTreePending
import OSLabs.NodeTreeRegistry
import OSLabs.NodeTreeSettled
import OSLabs.NodeTreeHeartbeat
import OSLabs.NodeTreeAnswers
import OSLabs.NodeTreeAcceptance
import OSLabs.NodeTreeLoops
import OSLabs.NodeTreePolling
import OSLabs.NodeTreeResponse
import OSLabs.NodeTreeFailures
import OSLabs.NodeTreeWatch
import OSLabs.NodeTreeAlarms
import OSLabs.NodeTreeBeats
import OSLabs.NodeTreeOutput
import OSLabs.CharArray
import OSLabs.VowelFilter
import OSLabs.MappedSlot
import OSLabs.MappedSlotAccounts
import OSLabs.MappedSlotHandOver
import OSLabs.MappedSlotEnding
import OSLabs.BinarySemaphore
import OSLabs.MappedSlotBytes
import OSLabs.MappedSlotRefinement
import OSLabs.MappedSlotSections
import OSLabs.MappedSlotProgress
import OSLabs.TextStream
import OSLabs.PipeFilter
import OSLabs.PipeFilterFlow
import OSLabs.PipeFilterRouting
import OSLabs.Descriptors
import OSLabs.PipeFilterProcesses
import OSLabs.PipeFilterWiring
import OSLabs.PipeFilterImage
import OSLabs.PipeFilterSurvivors
import OSLabs.NumberText
import OSLabs.InputStream
import OSLabs.ExecLine
import OSLabs.ControllerRun
import OSLabs.ControllerLines
import OSLabs.ControllerReading
import OSLabs.ControllerMalformed
import OSLabs.ControllerPoisoned
import OSLabs.Menu
import OSLabs.MenuLoop
