import CuckooTrie.Entry
import CuckooTrie.Geometry

/-!
# The table in memory

The mutable part of a trie: the cells of every bucket, the lock byte and the
sequence number of every bucket, and `is_empty`.  The bucket after the last one
is `min_leaf_bucket`, whose first cell heads the linked list of leaves.
-/

namespace CuckooTrie

/-- The address of a cell: its bucket number and its index in the bucket. -/
structure Loc where
  bucket : ℕ
  cell : Fin 4
deriving DecidableEq, Repr, Inhabited

/-- A bucket has cells, so numerals name them. -/
instance instNeZeroBucketSize : NeZero 4 := ⟨by decide⟩

/-- The indices of the cells of a bucket, in the order every scan visits them. -/
def cellIndices : List (Fin 4) := [0, 1, 2, 3]

/-- The memory of a trie.  `seq b` counts the completed writes to bucket `b`;
the three sequence bytes of `write_lock_and_seq` hold twice this count modulo
`2 ^ 24`, and `writeLock b` is its lock byte. -/
structure Trie (g : Geometry) where
  cells : Loc → Entry
  seq : ℕ → ℕ
  writeLock : ℕ → Bool
  isEmpty : Bool

/-- `ct_entry_local_copy`: a value read from the table, where it was read, and
the sequence of its bucket at that moment. -/
structure LocalCopy where
  value : Entry
  lastPos : Loc
  primaryBucket : ℕ
  lastSeq : ℕ
deriving DecidableEq, Repr, Inhabited

/-- The comparison of two sequence fields, which keep a count modulo `2 ^ 23`. -/
def sameSeq (a b : ℕ) : Bool := a % 2 ^ 23 = b % 2 ^ 23

variable {g : Geometry}

/-- `trie_min_leaf`. -/
def trieMinLeaf (g : Geometry) : Loc := ⟨g.numBuckets, 0⟩

/-- The address `find_root` reads. -/
def rootLoc : Loc := ⟨hashToBucket hashStartValue, 0⟩

namespace Trie

/-- A plain store into a cell, which leaves the sequence of its bucket alone. -/
def store (t : Trie g) (loc : Loc) (e : Entry) : Trie g :=
  { t with cells := fun l => if l = loc then e else t.cells l }

/-- `write_entry`: store the entry and advance the sequence of the bucket. -/
def write (t : Trie g) (loc : Loc) (e : Entry) : Trie g :=
  { t.store loc e with seq := fun b => if b = loc.bucket then t.seq b + 1 else t.seq b }

/-- A write advances the sequence of one bucket by one. -/
theorem seq_write (t : Trie g) (loc : Loc) (e : Entry) (b : ℕ) :
    t.seq b ≤ (t.write loc e).seq b ∧ (t.write loc e).seq b ≤ t.seq b + 1 := by
  simp only [write]
  split <;> omega

/-- `read_entry` with its address: what a search or a read leaves in a local copy. -/
def localCopy (t : Trie g) (loc : Loc) (primaryBucket : ℕ) : LocalCopy :=
  ⟨t.cells loc, loc, primaryBucket, t.seq loc.bucket⟩

/-- The comparison `validate_entry` makes: the bucket was not written since the read. -/
def entryUnchanged (t : Trie g) (lc : LocalCopy) : Bool :=
  sameSeq (t.seq lc.lastPos.bucket) lc.lastSeq

end Trie

/-- `read_min_leaf`. -/
def readMinLeaf (t : Trie g) : LocalCopy := t.localCopy (trieMinLeaf g) noBucket

/-- `alternate_bucket`: the other bucket in which an entry can be stored. -/
def alternateBucket (g : Geometry) (e : Entry) (bucketNum : ℕ) : ℕ :=
  if e.secondary then g.unmixBucket bucketNum e.tag else g.mixBucket bucketNum e.tag

/-- The memory `ct_alloc` returns: every cell free, the list head a leaf without
a key whose `next_leaf` ends the list. -/
def emptyTrie (g : Geometry) : Trie g where
  cells loc :=
    if loc.bucket < g.numBuckets then unusedEntry
    else ⟨0, false, false, 0, 0, 0, .leaf default ⟨endOfList, 0, 0⟩⟩
  seq _ := 0
  writeLock _ := false
  isEmpty := true

end CuckooTrie
