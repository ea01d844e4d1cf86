import CuckooTrie.Atomics

/-!
# Making room in a bucket and adding an entry

`relocate_entry` looks for a free cell breadth-first through the alternate
buckets of the entries of a full bucket and moves the entries on the path one
position along it; `add_entry` puts an entry into one of the buckets of its pair,
relocating others if both are full.
-/

namespace CuckooTrie

variable {g : Geometry}

/-- `relocation_queue_entry`.  The parent of the first entry is never read. -/
structure QueueEntry where
  bucket : ℕ
  readLock : BucketReadLock
  parentQueuePos : ℕ
  childIdx : Fin 4
deriving DecidableEq, Repr, Inhabited

/-- What the search ends with: the queue position and the index of the entry
whose alternate bucket has a free cell, that bucket with its read lock, and the
free cell. -/
structure FreeCell where
  queuePos : ℕ
  childIdx : Fin 4
  readLock : BucketReadLock
  freeCell : Loc
deriving DecidableEq, Repr

/-- The inner loop of the search, over the cells of the bucket at a position of
the queue. -/
def scanBucket (t : Trie g) (immovable : Option Loc) (queuePos : ℕ) :
    List (Fin 4) → List QueueEntry → List QueueEntry × Option FreeCell
  | [], queue => (queue, none)
  | i :: is, queue =>
    let bucketNum := (queue.getD queuePos default).bucket
    let entry : Loc := ⟨bucketNum, i⟩
    if some entry = immovable then scanBucket t immovable queuePos is queue
    else if entry = rootLoc then scanBucket t immovable queuePos is queue
    else
      let childBucketNum := alternateBucket g (t.cells entry) bucketNum
      if queue.any fun q => q.bucket = childBucketNum then
        scanBucket t immovable queuePos is queue
      else
        let readLock := readLockBucket t childBucketNum
        match findFreeCellInBucket t childBucketNum with
        | none =>
          -- no free cells there: put the bucket in the queue for later
          scanBucket t immovable queuePos is
            (if queue.length < relocateQueueSize then
              queue ++ [⟨childBucketNum, readLock, queuePos, i⟩]
            else queue)
        | some freeCell => (queue, some ⟨queuePos, i, readLock, freeCell⟩)

/-- The outer loop of the search.  A position of the queue is scanned at most
once, so the size of the queue bounds the number of iterations. -/
def searchFreeCell (t : Trie g) (immovable : Option Loc) :
    ℕ → ℕ → List QueueEntry → Option (List QueueEntry × FreeCell)
  | 0, _, _ => none
  | fuel + 1, queuePos, queue =>
    if queuePos < queue.length then
      match scanBucket t immovable queuePos cellIndices queue with
      | (queue, some found) => some (queue, found)
      | (queue, none) => searchFreeCell t immovable fuel (queuePos + 1) queue
    else none

/-- The queue entries met when following `parent_queue_pos` up to position 0,
which is left out. -/
def queuePath (queue : List QueueEntry) : ℕ → ℕ → List QueueEntry
  | 0, _ => []
  | _, 0 => []
  | fuel + 1, pos + 1 =>
    let q := queue.getD (pos + 1) default
    q :: queuePath queue fuel q.parentQueuePos

/-- The cells whose entries are moved, from the one next to the free cell to the
one in the bucket to make room in. -/
def sourceCells (queue : List QueueEntry) : ℕ → ℕ → Fin 4 → List Loc
  | 0, _, _ => []
  | _ + 1, 0, childIdx => [⟨(queue.getD 0 default).bucket, childIdx⟩]
  | fuel + 1, pos + 1, childIdx =>
    let q := queue.getD (pos + 1) default
    ⟨q.bucket, childIdx⟩ :: sourceCells queue fuel q.parentQueuePos q.childIdx

/-- Upgrade the read locks along the path; the result lists the buckets whose
upgrade succeeded before the first failure. -/
def upgradePath : List QueueEntry → M g (List ℕ)
  | [] => pure []
  | q :: path => do
    match ← upgradeBucketLock q.readLock with
    | .ok =>
      let upgraded ← upgradePath path
      pure (q.bucket :: upgraded)
    | _ => pure []

/-- Release the locks of several buckets. -/
def releaseBucketLocks : List ℕ → M g Unit
  | [] => pure ()
  | b :: bs => do
    releaseBucketLock b
    releaseBucketLocks bs

/-- `occupied_queue_pos` after a number of steps to the parent. -/
def queuePosAfter (queue : List QueueEntry) : ℕ → ℕ → ℕ
  | 0, pos => pos
  | steps + 1, pos => queuePosAfter queue steps (queue.getD pos default).parentQueuePos

/-- The contents `relocate_entry` leaves in the cell it freed: only the header
fields that mark it unused are reset. -/
def freedEntry (e : Entry) : Entry :=
  { unusedEntry with lastSymbol := e.lastSymbol }

/-- Move the entries one position along the path, into the free cell and into
one another's cells, and mark the last cell as empty. -/
def moveEntries : Loc → List Loc → M g Unit
  | _, [] => pure ()
  | freeCell, occupiedCell :: rest => do
    let t ← getTrie
    let entry := t.cells occupiedCell
    writeEntry freeCell { entry with secondary := !entry.secondary }
    moveEntryLock freeCell occupiedCell
    if rest.isEmpty then writeEntry occupiedCell (freedEntry entry)
    else moveEntries occupiedCell rest

/-- `relocate_entry` from its label `release_locks`, by the buckets of the path that
were upgraded. -/
def releasePath (queue : List QueueEntry) (found : FreeCell) (upgraded : List ℕ) : M g Unit := do
  releaseBucketLock found.readLock.bucket
  releaseBucketLocks upgraded
  assertThat .pathStart fun _ => queuePosAfter queue upgraded.length found.queuePos = 0

/-- `relocate_entry` after its search for a free cell. -/
def relocateAlong (queue : List QueueEntry) (found : FreeCell) :
    M g (InternalStatus × List Loc) := do
  match ← upgradeBucketLock found.readLock with
  | .ok =>
    let path := queuePath queue queue.length found.queuePos
    let upgraded ← upgradePath path
    if upgraded.length = path.length then
      let sources := sourceCells queue queue.length found.queuePos found.childIdx
      moveEntries found.freeCell sources
      releasePath queue found upgraded
      pure (.ok, sources)
    else
      releasePath queue found upgraded
      pure (.retry, [])
  | _ => pure (.retry, [])

/-- The buckets on the path of a relocation, but for the one to make room in. -/
def pathBuckets (queue : List QueueEntry) (found : FreeCell) : List ℕ :=
  found.readLock.bucket :: (queuePath queue queue.length found.queuePos).map (·.bucket)

/-- `relocate_entry`.  With `SI_OK` it returns the cells whose entries it moved;
the last of them is the cell that is free now. -/
def relocateEntry (bucketNum : ℕ) (immovable : Option Loc) :
    M g (InternalStatus × List Loc) := do
  let locked ← bucketWriteLocked bucketNum
  assertThat .lockListed fun _ => locked
  let t ← getTrie
  match searchFreeCell t immovable relocateQueueSize 0
      [⟨bucketNum, readLockBucket t bucketNum, 0, 0⟩] with
  | none => pure (.fail, [])
  | some (queue, found) =>
    recordLocks (.path (pathBuckets queue found))
    relocateAlong queue found

/-- The part of `add_entry` after the label `cell_found`: write the entry with a
fresh color into the locked cell, then check that the other bucket of the pair
did not change.  Returns the entry as the caller's copy is left. -/
def addEntryAt (prefixHash : ℕ) (entry : Entry) (lock : Bool) (result : Loc)
    (alternateBucketLock : BucketReadLock) (flagSecondary : Bool) :
    M g (InternalStatus × Entry × Loc) := do
  let primaryBucketNum := hashToBucket prefixHash
  let secondaryBucketNum := g.mixBucket primaryBucketNum (hashToTag prefixHash)
  if lock then writeLockEntryInLockedBucket result
  let t ← getTrie
  let entry :=
    { entry with
      secondary := entry.secondary || flagSecondary
      color := unusedColorInPair t primaryBucketNum secondaryBucketNum
      tag := hashToTag prefixHash }
  writeEntry result entry
  if ← readUnlockBucket alternateBucketLock then
    releaseBucketLock result.bucket
    pure (.ok, entry, result)
  else
    -- the alternate bucket changed: another entry there might have our color
    removeEntryByAddress result
    releaseBucketLock result.bucket
    pure (.retry, entry, result)

/-- Keep a record of a relocation. -/
def recordRelocation (r : Relocation) : M g Unit :=
  Prog.update (fun s => ((), { s with relocations := r :: s.relocations })) fun _ =>
    ⟨rfl, le_rfl, fun _ => ⟨le_rfl, le_rfl⟩, List.suffix_rfl, List.suffix_cons _ _,
      List.suffix_rfl, List.suffix_rfl, List.suffix_rfl, List.suffix_rfl⟩

/-- `add_entry`.  The last component is the address of the new entry, when the
status is `SI_OK`. -/
def addEntry (prefixHash : ℕ) (entry : Entry) (immovable : Option Loc) (lock : Bool) :
    M g (InternalStatus × Entry × Loc) := do
  let primaryBucketNum := hashToBucket prefixHash
  let secondaryBucketNum := g.mixBucket primaryBucketNum (hashToTag prefixHash)
  let t ← getTrie
  let primaryReadLock := readLockBucket t primaryBucketNum
  let secondaryReadLock := readLockBucket t secondaryBucketNum
  match findFreeCellInBucket t primaryBucketNum with
  | some result =>
    match ← upgradeBucketLock primaryReadLock with
    | .ok => addEntryAt prefixHash entry lock result secondaryReadLock false
    | _ => pure (.retry, entry, default)
  | none =>
    match findFreeCellInBucket t secondaryBucketNum with
    | some result =>
      match ← upgradeBucketLock secondaryReadLock with
      | .ok => addEntryAt prefixHash entry lock result primaryReadLock true
      | _ => pure (.retry, entry, default)
    | none =>
      -- both buckets full, try relocating from the primary bucket
      match ← upgradeBucketLock primaryReadLock with
      | .ok =>
        let (ret, sources) ← relocateEntry primaryBucketNum immovable
        if ret = .ok then
          recordRelocation ⟨primaryBucketNum, secondaryBucketNum, sources⟩
          addEntryAt prefixHash entry lock (sources.getLastD default) secondaryReadLock false
        else
          releaseBucketLock primaryBucketNum
          pure (ret, entry, default)
      | _ => pure (.retry, entry, default)

end CuckooTrie
