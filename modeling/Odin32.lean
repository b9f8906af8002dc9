import Odin32.RankedTree
import Odin32.Avl
import Odin32.AvlRebalance
import Odin32.AvlOps
import Odin32.AvlRun
import Odin32.AvlFibonacci
import Odin32.AvlSearch
import Odin32.Tiling
import Odin32.HeapBlocksResize
import Odin32.SwpAtomic
import Odin32.HeapSizes
import Odin32.Word
import Odin32.LxPages
import Odin32.LxPagesExact
import Odin32.LxFixupsExact
import Odin32.MemMapExtent
import Odin32.MemMapFlush
import Odin32.MemMapTrackRun
import Odin32.MemMapLookup
import Odin32.MemMapCreate
import Odin32.MemMapPageInRun
import Odin32.ImageTlsRun
import Odin32.ImageImports
import Odin32.HandlesResolve
import Odin32.AllocRecordsRun
import Odin32.AllocAtAddress
import Odin32.VirtualAlloc
import Odin32.DllRun
import Odin32.LoadLibraryUndo
import Odin32.IocpRun
import Odin32.ExceptionDispatch
import Odin32.ExceptionUnwind
import Odin32.ConsoleCursor
import Odin32.ConsoleScroll
import Odin32.ConsoleInputRun
import Odin32.OverlappedAnswers
import Odin32.Os2HeapRun
import Odin32.DsMixerRun
import Odin32.Dart
import Odin32.LxObjects
import Odin32.LxModules
import Odin32.LxEntriesLimit
import Odin32.LxFixupPages
import Odin32.LxReaderRun
import Odin32.LxRelocationsRun
import Odin32.LxExportsRun
import Odin32.PeSections
import Odin32.FixedMemRun
import Odin32.ExportOverride
import Odin32.ResEnumRun
import Odin32.PeFixupsExact
import Odin32.LinearList
import Odin32.LinearListRun
import Odin32.HandleNames
import Odin32.ResolveName
import Odin32.StepRun
import Odin32.InitOnce
import Odin32.InitOnceRun
import Odin32.TickCount
import Odin32.TickCountRun
import Odin32.ThreadpoolWork
import Odin32.ThreadpoolWorkRun
import Odin32.IocpHandles
import Odin32.IocpHandlesRun
import Odin32.TimerResolution
import Odin32.TimerResolutionRun
import Odin32.WindowHandles
import Odin32.WindowHandlesRun
import Odin32.Buckets
import Odin32.HashtableLookup
import Odin32.HashtableLookupRun
import Odin32.IndexLookup
import Odin32.IndexLookupRun
import Odin32.RowMajor
import Odin32.ConsoleCells
import Odin32.ConsoleWindow
import Odin32.ConsoleRead
import Odin32.ConsoleReadRun
import Odin32.ConsoleRectangles
import Odin32.OrderedForest
import Odin32.EnumChildWindows
import Odin32.EnumChildWindowsRun
import Odin32.MapBufferCommit
import Odin32.SoundLock
import Odin32.SoundNotify
import Odin32.DsMixerChunks
import Odin32.FindModule
import Odin32.UserTimers
import Odin32.UserTimersRun
import Odin32.NetworkEvents
import Odin32.DepCyclic
import Odin32.DepCyclicRun
import Odin32.LangCpp
import Odin32.LangCppRun
import Odin32.CriticalSection
import Odin32.CriticalSectionRun
import Odin32.SrwLock
