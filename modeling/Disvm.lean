import Disvm.TransitionRuns
import Disvm.RingWindow
import Disvm.RuntimeTypes
import Disvm.ChannelModel
import Disvm.ChannelFifo
import Disvm.ChannelSystem
import Disvm.ChannelSystemRuns
import Disvm.ChannelLocks
import Disvm.ChannelQueues
import Disvm.ChannelDeadlock
import Disvm.ChannelLifecycle
import Disvm.ChannelTransfers
import Disvm.ChannelRequests
import Disvm.ChannelMemory
import Disvm.StaleRequests
import Disvm.DistinctAlternatives
import Disvm.AltExactlyOnce
import Disvm.Custody
import Disvm.Scheduler
import Disvm.SchedulerRuns
import Disvm.SchedulerOwnership
import Disvm.SchedulerLocks
import Disvm.SchedulerWakeups
import Disvm.GarbageCollector
import Disvm.CollectorSafety
import Disvm.CollectorMarking
import Disvm.MarkCompleteness
import Disvm.CyclicGarbage
import Disvm.ByteMemory
import Disvm.VmStack
import Disvm.StackDiscipline
import Disvm.RefRelease
import Disvm.ArraySlices
import Disvm.SliceOwnership
import Disvm.Utf8Codec
import Disvm.StringStorage
import Disvm.SlotReferences
import Disvm.StringInstructions
import Disvm.StringContents
import Disvm.StringRefinement
import Disvm.StringRoundTrip
import Disvm.ModuleCalls
import Disvm.CallDiscipline
import Disvm.ProgramData
import Disvm.ResumedFrames
import Disvm.ThreadTeardown
import Disvm.FirstDifference
import Disvm.StringCompare
import Disvm.Utf8Prefixes
import Disvm.StringDecoding
import Disvm.ToolAttachment
import Disvm.Breakpoints
import Disvm.SuspendBarrier
import Disvm.ModuleRegistry
import Disvm.FileDescriptors
import Disvm.DecimalText
import Disvm.SymbolSources
import Disvm.SymbolTypes
import Disvm.SymbolTrees
import Disvm.SymbolTypeLines
import Disvm.SymbolTypeReading
import Disvm.PowersModTwo
import Disvm.Exponentiation
import Disvm.CaseTables
import Disvm.StringCases
import Disvm.HandlerSearch
import Disvm.ArrayBounds
import Disvm.RefSurvivors
import Disvm.ObjectMemory
import Disvm.CountedMoves
import Disvm.MultiwordMoves
import Disvm.ArrayCopies
import Disvm.PointerInstructions
import Disvm.ExceptionLanding
import Disvm.BoundedOutput
import Disvm.Printf
import Disvm.Division
import Disvm.Tokenizing
import Disvm.CharBytes
import Disvm.MathBytes
import Disvm.ModulePaths
import Disvm.ImportResolution
import Disvm.SymbolFunctions
import Disvm.PointerMaps
import Disvm.BufferedReader
import Disvm.TypeSignatures
import Disvm.ModuleOperands
import Disvm.DataSection
import Disvm.DataFormat
import Disvm.ModuleConstants
import Disvm.ModuleSections
import Disvm.ModuleWriter
import Disvm.ModuleRoundTrip
import Disvm.VisibleRuns
import Disvm.BranchFolding
import Disvm.WrittenCode
import Disvm.RecordLayout
import Disvm.TypeLayout
import Disvm.TypeMaps
import Disvm.SortedTables
import Disvm.DescriptorTable
import Disvm.SharedLocals
import Disvm.HalvingSort
import Disvm.FrameLayout
import Disvm.TupleBlocks
import Disvm.DataWriter
import Disvm.DataPieces
import Disvm.DataReading
import Disvm.LoadedData
import Disvm.InitialData
import Disvm.CaseLabels
import Disvm.ChannelMemory
