import CuckooTrie.Insert
import CuckooTrie.Iterator
import CuckooTrie.PackedBucket
import CuckooTrie.Vectorized
import CuckooTrie.SymbolOrder
import CuckooTrie.KeyMap
import CuckooTrie.Store
import CuckooTrie.Layout
import CuckooTrie.Lookup
import CuckooTrie.Frame
import CuckooTrie.Predecessors
import CuckooTrie.Iteration
import CuckooTrie.SearchFree
import CuckooTrie.Relocation
import CuckooTrie.Updating
import CuckooTrie.Drafts
import CuckooTrie.TreeChanges
import CuckooTrie.Growing
import CuckooTrie.SplitPath
import CuckooTrie.Prefetcher
import CuckooTrie.Contention
import CuckooTrie.UsedEntries
import CuckooTrie.Placing
import CuckooTrie.Bookkeeping
import CuckooTrie.FingerPath
import CuckooTrie.Combs
import CuckooTrie.Corridors
import CuckooTrie.Allocation
import CuckooTrie.PackedColors
import CuckooTrie.Bytes
import CuckooTrie.PackedSymbols
import CuckooTrie.PackedBits
import CuckooTrie.PackedEntry
import CuckooTrie.PackedJumps
import CuckooTrie.HeaderMatch
import CuckooTrie.InOrder
import CuckooTrie.PipelinedHashes
import CuckooTrie.Rebinding
import CuckooTrie.PackedLeaf
import CuckooTrie.Rewrites
import CuckooTrie.SlowPath
import CuckooTrie.InsertUpdates
import CuckooTrie.Climb
import CuckooTrie.Carried
import CuckooTrie.CarriedSteps
import CuckooTrie.BitFields
import CuckooTrie.ChildBitmap
import CuckooTrie.SeqLock
import CuckooTrie.PackedRecord
import CuckooTrie.Dataset
import CuckooTrie.LinkedList
import CuckooTrie.Verify
import CuckooTrie.Relinking
import CuckooTrie.InsertStates
import CuckooTrie.RootCreation
import CuckooTrie.LeafInsertion
import CuckooTrie.JumpSplitting
import CuckooTrie.LeafForks
import CuckooTrie.LeafSplitting
import CuckooTrie.InsertRuns
import CuckooTrie.StoreCounts
import CuckooTrie.Attempts
import CuckooTrie.CursorMap
import CuckooTrie.Histories
