import FreeVMS.BTree.Page
import FreeVMS.BTree.Insert
import FreeVMS.BTree.Invariant
import FreeVMS.BTree.InsertSpec
import FreeVMS.BTree.Table
import FreeVMS.BTree.Status
import FreeVMS.BTree.Overlap
import FreeVMS.BTree.Representation
import FreeVMS.BTree.Search
import FreeVMS.Alloc.Code
import FreeVMS.Alloc.Account
import FreeVMS.Alloc.Spec
import FreeVMS.Alloc.TakeSpec
import FreeVMS.Alloc.Remove
import FreeVMS.Alloc.Ledger
import FreeVMS.Alloc.Exclusion
import FreeVMS.Alloc.Exhaustion
import FreeVMS.Kernel.Slab
import FreeVMS.Kernel.SlabSpec
import FreeVMS.Kernel.PoolFailure
import FreeVMS.Kernel.Reentry
import FreeVMS.Kernel.Lookup
import FreeVMS.Kernel.LookupSpec
import FreeVMS.Kernel.Section
import FreeVMS.Kernel.SectionSpec
import FreeVMS.Kernel.Back
import FreeVMS.Kernel.Pools
import FreeVMS.Sync.Mutex
import FreeVMS.Thread.RangeList
import FreeVMS.Thread.Hash
import FreeVMS.Thread.Ids
import FreeVMS.Thread.BitList
import FreeVMS.Thread.Utcb
import FreeVMS.Heap.Core
import FreeVMS.Heap.FreeSpec
import FreeVMS.Heap.AllocSpec
import FreeVMS.Heap.Runs
import FreeVMS.Boot.Regions
import FreeVMS.Boot.MemMap
import FreeVMS.Boot.MemInit
import FreeVMS.Boot.Handover
import FreeVMS.Lib.SearchTree
import FreeVMS.Rtl.TparseCursor
import FreeVMS.Rtl.Tree
import FreeVMS.Rtl.TreeSpec
import FreeVMS.Rtl.TreeInsert
import FreeVMS.Rtl.TreeSet
import FreeVMS.Rtl.TreeBalance
import FreeVMS.Rtl.EventFlags
import FreeVMS.Rtl.VmZone
import FreeVMS.Rtl.VmPool
import FreeVMS.Rtl.VmIsolation
import FreeVMS.Boot.Preload
import FreeVMS.BTree.Exhaust
import FreeVMS.Lib.Digits
import FreeVMS.Rtl.Bytes
import FreeVMS.Rtl.Multiword
import FreeVMS.Rtl.TimeAlgebra
import FreeVMS.Rtl.Quadword
import FreeVMS.Lib.Gregorian
import FreeVMS.Rtl.VectorTime
import FreeVMS.Rtl.VectorSpec
import FreeVMS.Rtl.TimeText
import FreeVMS.Rtl.StrFixed
import FreeVMS.Rtl.StrVarying
import FreeVMS.Rtl.TextRoundTrip
import FreeVMS.Rtl.Numeral
import FreeVMS.Rtl.TimeReading
import FreeVMS.Rtl.DeltaMult
import FreeVMS.Rtl.TparseTerminal
import FreeVMS.Lib.Scaled
import FreeVMS.Rtl.Decimal
import FreeVMS.Rtl.DecimalCode
import FreeVMS.Rtl.DecimalSum
import FreeVMS.Rtl.DecimalBorrow
import FreeVMS.Rtl.DecimalDifference
import FreeVMS.Rtl.DecimalProduct
import FreeVMS.Rtl.DivisionCode
import FreeVMS.Rtl.DecimalInteger
import FreeVMS.Lib.LongDivision
import FreeVMS.Rtl.DivisionLoops
import FreeVMS.Rtl.DivisionEnd
import FreeVMS.Lib.Rounding
import FreeVMS.Rtl.DecimalRound
import FreeVMS.Rtl.DivisionResult
import FreeVMS.Lib.Wildcard
import FreeVMS.Rtl.MatchWild
import FreeVMS.Rtl.StrHeap
import FreeVMS.Rtl.StrDynamic
import FreeVMS.Rtl.StrConcat
import FreeVMS.Rtl.StrSplice
import FreeVMS.Lib.PaddedOrder
import FreeVMS.Rtl.StrCompare
import FreeVMS.Lib.Occurrence
import FreeVMS.Rtl.StrSearch
import FreeVMS.Rtl.StrFirstSubstring
import FreeVMS.Lib.Pieces
import FreeVMS.Rtl.StrElement
import FreeVMS.Rtl.StrElementRight
import FreeVMS.Lib.Abbreviation
import FreeVMS.Rtl.LookupKey
import FreeVMS.Lib.Doubling
import FreeVMS.Rtl.BuildNodespec
import FreeVMS.Rtl.NodespecRight
import FreeVMS.Lib.BinaryFloat
import FreeVMS.Lib.BitField
import FreeVMS.Rtl.ConvertFloat
import FreeVMS.Rtl.ConvertRight
import FreeVMS.Rtl.ConvertTrip
import FreeVMS.Rtl.ExtendedDivide
import FreeVMS.Boot.ChunkArray
import FreeVMS.Alloc.Chunk
import FreeVMS.Alloc.PhysicalMemory
import FreeVMS.Kernel.Translation
import FreeVMS.Thread.RangeSet
import FreeVMS.Lib.LinkChain
import FreeVMS.Thread.HashMemory
import FreeVMS.Kernel.Capability
import FreeVMS.Boot.ObjectTable
import FreeVMS.Alloc.Largest
import FreeVMS.Rtl.VariableField
import FreeVMS.Thread.BitSet
import FreeVMS.Boot.Parsing
import FreeVMS.Lib.Lagged
import FreeVMS.Lib.ByteMemory
import FreeVMS.Kernel.Random
import FreeVMS.Boot.ElfLoader
import FreeVMS.Boot.ElfLoaded
import FreeVMS.Rtl.DecimalTrims
import FreeVMS.Rtl.SprintCode
import FreeVMS.Rtl.SprintText
import FreeVMS.Lib.Stateful
import FreeVMS.Rtl.SprintPrints
import FreeVMS.Rtl.SprintBounds
import FreeVMS.Rtl.SprintEnd
import FreeVMS.Rtl.SprintField
import FreeVMS.Rtl.SprintNumber
import FreeVMS.Rtl.SprintFieldRight
import FreeVMS.Rtl.SprintInteger
import FreeVMS.Rtl.Comparators
import FreeVMS.Thread.Lists
import FreeVMS.Thread.RangeMemory
import FreeVMS.Exec.Code
import FreeVMS.Exec.ThreadTable
import FreeVMS.Exec.Domains
import FreeVMS.Exec.Loop
import FreeVMS.Exec.PageFault
import FreeVMS.Exec.Lifecycle
import FreeVMS.Exec.Service
import FreeVMS.Exec.Clients
import FreeVMS.Early.Console
import FreeVMS.Exec.Screen
import FreeVMS.Kernel.Exclusion
import FreeVMS.Kernel.Directory
