import CuckooTrie.Prog
import CuckooTrie.Search

/-!
# Writes, locks and the other threads

The state one call of the API works on: the memory of the trie, the lock manager
of the calling thread, and what the rest of the world does to it.  The other
threads are an oracle, `env`, that is asked at every lock upgrade, every
sequence validation and every read-unlock check, and may let each of them fail;
in a single-threaded run it lets all of them pass.  Five further fields are a record
of the run that the code itself never reads.
-/

namespace CuckooTrie

variable {g : Geometry}

/-- `ct_bucket_write_lock`. -/
structure BucketWriteLock where
  bucket : ℕ
  entryRefcounts : Fin 4 → ℕ
  totalRefcount : ℕ

/-- `ct_bucket_read_lock`. -/
structure BucketReadLock where
  bucket : ℕ
  seq : ℕ
deriving DecidableEq, Repr, Inhabited

/-- A successful relocation: the pair of buckets it made room for and the cells
whose entries it moved, the last one of which it freed. -/
structure Relocation where
  primaryBucket : ℕ
  secondaryBucket : ℕ
  sources : List Loc
deriving DecidableEq, Repr

/-- A write through a cell address saved before a later `add_entry` call: the
cell, the entry it held when its address was saved and the one it holds now,
whether this thread holds a write lock on its bucket, and the relocations run in
between. -/
structure SavedWrite where
  loc : Loc
  saved : Entry
  found : Entry
  locked : Bool
  relocations : List Relocation

/-- What an operation of the lock manager did to the references on whole buckets. -/
inductive LockEvent where
  | held (bucket : ℕ)
  | dropped (bucket : ℕ)
  | cleared
  /-- Only references on entries changed. -/
  | entry
  /-- No reference changed; a relocation is about to lock some buckets. -/
  | path (buckets : List ℕ)
deriving DecidableEq, Repr

/-- The lock bytes and the lock manager after one of its operations, and the number of
checks so far. -/
structure LockRecord where
  event : LockEvent
  writeLock : ℕ → Bool
  locks : List BucketWriteLock
  checks : ℕ

/-- The assertions about locks, other than tests of a branch just taken. -/
inductive Assertion where
  /-- `add_lock` finds a free slot. -/
  | slotFree
  /-- `find_write_lock` finds the lock that is used next. -/
  | lockListed
  /-- A reference count that is decremented is not zero. -/
  | refcountPositive
  /-- The lock byte of a listed bucket is set. -/
  | byteSet
  /-- `relocate_entry` ends at the start of its path. -/
  | pathStart
deriving DecidableEq, Repr

/-- The state of a call.  `locks` lists the used slots of
`lock_mgr->bucket_write_locks`, the last one first. -/
structure Sys (g : Geometry) where
  trie : Trie g
  locks : List BucketWriteLock
  env : ℕ → Bool
  checks : ℕ
  /-- The memory after each store into the table, latest first. -/
  history : List (Trie g)
  /-- The relocations run so far, latest first. -/
  relocations : List Relocation
  /-- The writes through saved addresses so far, latest first. -/
  savedWrites : List SavedWrite
  /-- The operations of the lock manager so far, latest first. -/
  lockLog : List LockRecord
  /-- The assertions met so far, with their outcomes, latest first. -/
  asserts : List (Assertion × Bool)
  /-- The copies `update_entry` searched for again so far, latest first. -/
  slowUpdates : List LocalCopy

/-- The oracle of a single-threaded run. -/
def alone : ℕ → Bool := fun _ => true

/-- The state a call starts in: `init_lock_mgr` and an empty record. -/
def Sys.init (t : Trie g) (env : ℕ → Bool) : Sys g := ⟨t, [], env, 0, [], [], [], [], [], []⟩

namespace Sys

/-- A store into the table. -/
def stored (s : Sys g) (t : Trie g) : Sys g := { s with trie := t, history := t :: s.history }

/-- How the state moves forward: the oracle stays, the record only grows, and
the sequence of a bucket advances at most once with each store. -/
structure Before (s s' : Sys g) : Prop where
  env : s'.env = s.env
  checks : s.checks ≤ s'.checks
  seq : ∀ b, s.trie.seq b ≤ s'.trie.seq b ∧
    s'.trie.seq b + s.history.length ≤ s.trie.seq b + s'.history.length
  history : s.history <:+ s'.history
  relocations : s.relocations <:+ s'.relocations
  savedWrites : s.savedWrites <:+ s'.savedWrites
  lockLog : s.lockLog <:+ s'.lockLog
  asserts : s.asserts <:+ s'.asserts
  slowUpdates : s.slowUpdates <:+ s'.slowUpdates

instance : Preorder (Sys g) where
  le := Before
  le_refl s :=
    ⟨rfl, le_rfl, fun _ => ⟨le_rfl, le_rfl⟩, List.suffix_rfl, List.suffix_rfl, List.suffix_rfl,
      List.suffix_rfl, List.suffix_rfl, List.suffix_rfl⟩
  le_trans _ _ _ h h' :=
    { env := h'.env.trans h.env
      checks := h.checks.trans h'.checks
      seq := fun b => by
        have first := h.seq b
        have second := h'.seq b
        omega
      history := h.history.trans h'.history
      relocations := h.relocations.trans h'.relocations
      savedWrites := h.savedWrites.trans h'.savedWrites
      lockLog := h.lockLog.trans h'.lockLog
      asserts := h.asserts.trans h'.asserts
      slowUpdates := h.slowUpdates.trans h'.slowUpdates }

/-- A store of an entry, with or without an advance of the sequence. -/
theorem le_stored {s : Sys g} {t : Trie g}
    (seq : ∀ b, s.trie.seq b ≤ t.seq b ∧ t.seq b ≤ s.trie.seq b + 1) : s ≤ s.stored t where
  env := rfl
  checks := le_rfl
  seq b := by
    have := seq b
    simp only [stored, List.length_cons]
    omega
  history := List.suffix_cons _ _
  relocations := List.suffix_rfl
  savedWrites := List.suffix_rfl
  lockLog := List.suffix_rfl
  asserts := List.suffix_rfl
  slowUpdates := List.suffix_rfl

end Sys

/-- A call: it may run for ever in a search for an absent entry. -/
abbrev M (g : Geometry) := Prog (Sys g)

/-- The memory as it is now. -/
def getTrie : M g (Trie g) := Prog.read fun s => s.trie

/-- Run a computation that only reads the table. -/
def search {α : Type} (f : Trie g → Option α) : M g α := Prog.find fun s => f s.trie

/-- Change the lock bytes of the buckets and the locks of this thread. -/
def lockStep {α : Type}
    (f : (ℕ → Bool) → List BucketWriteLock → α × (ℕ → Bool) × List BucketWriteLock) : M g α :=
  Prog.update
    (fun s =>
      let result := f s.trie.writeLock s.locks
      (result.1, { s with
        trie := { s.trie with writeLock := result.2.1 }
        locks := result.2.2 }))
    fun _ => ⟨rfl, le_rfl, fun _ => ⟨le_rfl, le_rfl⟩, List.suffix_rfl, List.suffix_rfl,
      List.suffix_rfl, List.suffix_rfl, List.suffix_rfl, List.suffix_rfl⟩

/-- Keep a record of an operation of the lock manager. -/
def recordLocks (event : LockEvent) : M g Unit :=
  Prog.update
    (fun s => ((), { s with
      lockLog := ⟨event, s.trie.writeLock, s.locks, s.checks⟩ :: s.lockLog }))
    fun _ => ⟨rfl, le_rfl, fun _ => ⟨le_rfl, le_rfl⟩, List.suffix_rfl, List.suffix_rfl,
      List.suffix_rfl, List.suffix_cons _ _, List.suffix_rfl, List.suffix_rfl⟩

/-- Keep a record of an assertion. -/
def assertThat (assertion : Assertion) (holds : Sys g → Bool) : M g Unit :=
  Prog.update (fun s => ((), { s with asserts := (assertion, holds s) :: s.asserts })) fun _ =>
    ⟨rfl, le_rfl, fun _ => ⟨le_rfl, le_rfl⟩, List.suffix_rfl, List.suffix_rfl, List.suffix_rfl,
      List.suffix_rfl, List.suffix_cons _ _, List.suffix_rfl⟩

/-- Ask whether the other threads let the next check pass. -/
def othersAllow : M g Bool :=
  Prog.update (fun s => (s.env s.checks, { s with checks := s.checks + 1 })) fun _ =>
    ⟨rfl, Nat.le_succ _, fun _ => ⟨le_rfl, le_rfl⟩, List.suffix_rfl, List.suffix_rfl,
      List.suffix_rfl, List.suffix_rfl, List.suffix_rfl, List.suffix_rfl⟩

/-- `write_entry`. -/
def writeEntry (loc : Loc) (e : Entry) : M g Unit :=
  Prog.update (fun s => ((), s.stored (s.trie.write loc e))) fun _ =>
    Sys.le_stored fun _ => Trie.seq_write _ _ _ _

/-- A direct store into a field of a cell. -/
def storeField (loc : Loc) (f : Entry → Entry) : M g Unit :=
  Prog.update (fun s => ((), s.stored (s.trie.store loc (f (s.trie.cells loc))))) fun _ =>
    Sys.le_stored fun _ => ⟨le_rfl, Nat.le_succ _⟩

/-- `validate_entry`. -/
def validateEntry (lc : LocalCopy) : M g Bool := do
  let allowed ← othersAllow
  let t ← getTrie
  pure (allowed && t.entryUnchanged lc)

/-! ## The lock manager -/

/-- `find_write_lock`: it searches from the lock created last. -/
def findWriteLock (locks : List BucketWriteLock) (bucket : ℕ) : Option BucketWriteLock :=
  locks.find? fun l => l.bucket = bucket

/-- Change the lock `find_write_lock` finds. -/
def modifyLock (f : BucketWriteLock → BucketWriteLock) (bucket : ℕ) :
    List BucketWriteLock → List BucketWriteLock
  | [] => []
  | l :: ls => if l.bucket = bucket then f l :: ls else l :: modifyLock f bucket ls

/-- Overwrite the slot of a bucket. -/
def replaceLock (bucket : ℕ) (last : BucketWriteLock) (locks : List BucketWriteLock) :
    List BucketWriteLock :=
  modifyLock (fun _ => last) bucket locks

/-- `bucket_write_locked`. -/
def bucketWriteLocked (bucket : ℕ) : M g Bool :=
  Prog.read fun s => (findWriteLock s.locks bucket).isSome

/-- Set the lock byte of a bucket. -/
def setLockByte (writeLock : ℕ → Bool) (bucket : ℕ) (value : Bool) : ℕ → Bool :=
  fun b => if b = bucket then value else writeLock b

/-- `remove_lock`: the last slot takes the place of the removed one. -/
def removeLock (bucket : ℕ) : M g Unit := lockStep fun writeLock locks =>
  let locks :=
    match locks with
    | [] => []
    | last :: rest => if last.bucket = bucket then rest else replaceLock bucket last rest
  ((), setLockByte writeLock bucket false, locks)

/-- `try_take_lock`; the others may hold the lock. -/
def tryTakeLock (bucket : ℕ) : M g Bool := do
  if !(← othersAllow) then pure false
  else
    lockStep fun writeLock locks =>
      (!writeLock bucket, setLockByte writeLock bucket true, locks)

/-- `add_lock`. -/
def addLock (bucket : ℕ) : M g Unit := do
  assertThat .slotFree fun s => s.locks.length < maxLocks
  lockStep fun writeLock locks => ((), writeLock, ⟨bucket, fun _ => 0, 1⟩ :: locks)
  recordLocks (.held bucket)

/-- Change the lock of a bucket that is known to be listed. -/
def updateLock (bucket : ℕ) (f : BucketWriteLock → BucketWriteLock) : M g Unit :=
  lockStep fun writeLock locks => ((), writeLock, modifyLock f bucket locks)

/-- The lock of a bucket, if it is listed. -/
def lookupLock (bucket : ℕ) : M g (Option BucketWriteLock) :=
  Prog.read fun s => findWriteLock s.locks bucket

/-- Take one reference on the whole bucket. -/
def BucketWriteLock.hold (l : BucketWriteLock) : BucketWriteLock :=
  { l with totalRefcount := l.totalRefcount + 1 }

/-- Drop one reference on the whole bucket. -/
def BucketWriteLock.drop (l : BucketWriteLock) : BucketWriteLock :=
  { l with totalRefcount := l.totalRefcount - 1 }

/-- Count one more reference on an entry, without touching the total. -/
def BucketWriteLock.markEntry (i : Fin 4) (l : BucketWriteLock) : BucketWriteLock :=
  { l with entryRefcounts := fun j => if j = i then l.entryRefcounts j + 1 else l.entryRefcounts j }

/-- Count one reference on an entry less, without touching the total. -/
def BucketWriteLock.unmarkEntry (i : Fin 4) (l : BucketWriteLock) : BucketWriteLock :=
  { l with entryRefcounts := fun j => if j = i then l.entryRefcounts j - 1 else l.entryRefcounts j }

/-- `read_lock_bucket`. -/
def readLockBucket (t : Trie g) (bucket : ℕ) : BucketReadLock := ⟨bucket, t.seq bucket⟩

/-- `read_unlock_bucket`: whether the bucket did not change since it was locked. -/
def readUnlockBucket (readLock : BucketReadLock) : M g Bool := do
  let allowed ← othersAllow
  let t ← getTrie
  pure (allowed && sameSeq (t.seq readLock.bucket) readLock.seq)

/-- `write_lock_bucket`; the result tells whether the lock was obtained. -/
def writeLockBucket (bucket : ℕ) : M g Bool := do
  if ← tryTakeLock bucket then
    addLock bucket
    pure true
  else
    match ← lookupLock bucket with
    | some _ =>
      assertThat .byteSet fun s => s.trie.writeLock bucket
      updateLock bucket .hold
      recordLocks (.held bucket)
      pure true
    | none => pure false

/-- Remove the lock of a bucket unless references to it remain. -/
def removeUnusedLock (bucket remaining : ℕ) : M g Unit :=
  if remaining ≠ 0 then pure () else removeLock bucket

/-- `release_bucket_lock`. -/
def releaseBucketLock (bucket : ℕ) : M g Unit := do
  let lock ← lookupLock bucket
  assertThat .lockListed fun _ => lock.isSome
  match lock with
  | none => pure ()
  | some l =>
    assertThat .refcountPositive fun _ => l.totalRefcount ≠ 0
    updateLock bucket .drop
    removeUnusedLock bucket (l.totalRefcount - 1)
    recordLocks (.dropped bucket)

/-- `upgrade_bucket_lock`. -/
def upgradeBucketLock (readLock : BucketReadLock) : M g InternalStatus := do
  match ← lookupLock readLock.bucket with
  | some _ =>
    -- already write-locked by this thread
    if !(← readUnlockBucket readLock) then pure .retry
    else
      updateLock readLock.bucket .hold
      recordLocks (.held readLock.bucket)
      pure .ok
  | none =>
    if !(← tryTakeLock readLock.bucket) then pure .retry
    else
      addLock readLock.bucket
      if !(← readUnlockBucket readLock) then
        releaseBucketLock readLock.bucket
        pure .retry
      else pure .ok

/-- `write_lock_entry_in_locked_bucket`. -/
def writeLockEntryInLockedBucket (loc : Loc) : M g Unit := do
  assertThat .lockListed fun s => (findWriteLock s.locks loc.bucket).isSome
  updateLock loc.bucket fun l => (l.markEntry loc.cell).hold
  recordLocks .entry

/-- `move_entry_lock`: if the entry `src` is write-locked, lock `dst` instead. -/
def moveEntryLock (dst src : Loc) : M g Unit := do
  let srcLock ← lookupLock src.bucket
  assertThat .lockListed fun _ => srcLock.isSome
  assertThat .lockListed fun s => (findWriteLock s.locks dst.bucket).isSome
  match srcLock with
  | none => pure ()
  | some srcLock =>
    if srcLock.entryRefcounts src.cell = 0 then pure ()
    else
      updateLock src.bucket fun l => (l.unmarkEntry src.cell).drop
      updateLock dst.bucket fun l => (l.markEntry dst.cell).hold
      recordLocks .entry

/-- `upgrade_lock`: write-lock an entry, if its bucket was not written since it
was read. -/
def upgradeLock (lc : LocalCopy) : M g InternalStatus := do
  let bucket := lc.lastPos.bucket
  if ← tryTakeLock bucket then
    addLock bucket
    if !(← validateEntry lc) then
      releaseBucketLock bucket
      pure .retry
    else
      -- the reference on the bucket becomes one on the entry
      updateLock bucket (·.markEntry lc.lastPos.cell)
      recordLocks (.dropped bucket)
      pure .ok
  else
    match ← lookupLock bucket with
    | some _ =>
      if !(← validateEntry lc) then pure .retry
      else
        updateLock bucket fun l => (l.markEntry lc.lastPos.cell).hold
        recordLocks .entry
        pure .ok
    | none => pure .retry

/-- `write_unlock`. -/
def writeUnlock (loc : Loc) : M g Unit := do
  let lock ← lookupLock loc.bucket
  assertThat .lockListed fun _ => lock.isSome
  match lock with
  | none => pure ()
  | some l =>
    assertThat .refcountPositive fun _ => l.entryRefcounts loc.cell ≠ 0
    updateLock loc.bucket fun l => (l.unmarkEntry loc.cell).drop
    removeUnusedLock loc.bucket (l.totalRefcount - 1)
    recordLocks .entry

/-- `release_all_locks`. -/
def releaseAllLocks : M g Unit := do
  lockStep fun writeLock locks =>
    ((), locks.foldr (fun l bytes => setLockByte bytes l.bucket false) writeLock, [])
  recordLocks .cleared

/-! ## Updating entries -/

/-- The state with a record of a copy that is searched for again. -/
def Sys.slowed (s : Sys g) (lc : LocalCopy) : Sys g := { s with slowUpdates := lc :: s.slowUpdates }

/-- Keep a record of a copy that is searched for again. -/
def recordSlowUpdate (lc : LocalCopy) : M g Unit :=
  Prog.update (fun s => ((), s.slowed lc)) fun _ =>
    ⟨rfl, le_rfl, fun _ => ⟨le_rfl, le_rfl⟩, List.suffix_rfl, List.suffix_rfl, List.suffix_rfl,
      List.suffix_rfl, List.suffix_rfl, List.suffix_cons _ _⟩

/-- `update_entry`.  The entry's bucket is write-locked by this thread whenever
this is called, so only this thread's own writes can have changed its sequence.
If they did, the entry may have been relocated and is searched again. -/
def updateEntry (lc : LocalCopy) (newValue : Entry) : M g LocalCopy := do
  let t ← getTrie
  if t.entryUnchanged lc then
    writeEntry lc.lastPos newValue
    let t ← getTrie
    pure { lc with value := newValue, lastSeq := t.seq lc.lastPos.bucket }
  else
    -- `update_entry_slow_path`
    recordSlowUpdate lc
    let cur ← search fun t =>
      findEntryInPairByColor t lc.primaryBucket lc.value.tag lc.value.color
    let adjusted := { newValue with secondary := cur.value.secondary }
    writeEntry cur.lastPos adjusted
    let t ← getTrie
    pure
      { lc with value := adjusted, lastPos := cur.lastPos, lastSeq := t.seq cur.lastPos.bucket }

/-- `remove_entry_by_address`. -/
def removeEntryByAddress (loc : Loc) : M g Unit := writeEntry loc unusedEntry

/-- `remove_entry_by_value`. -/
def removeEntryByValue (e : Entry) (prefixHash : ℕ) : M g Unit := do
  let pos ← search fun t =>
    findEntryInPairByColor t (hashToBucket prefixHash) (hashToTag prefixHash) e.color
  removeEntryByAddress pos.lastPos

/-- `mark_entry_dirty`. -/
def markEntryDirty (lc : LocalCopy) : M g LocalCopy :=
  updateEntry lc { lc.value with dirty := true }

/-- `mark_entry_clean`. -/
def markEntryClean (lc : LocalCopy) : M g LocalCopy :=
  updateEntry lc { lc.value with dirty := false }

/-- `entry_set_parent_color` through an address that was saved, together with
the entry then in the cell, when `mark` relocations had been run. -/
def recordSavedWrite (loc : Loc) (saved : Entry) (mark : ℕ) : M g Unit :=
  Prog.update
    (fun s => ((), { s with
      savedWrites :=
        { loc := loc
          saved := saved
          found := s.trie.cells loc
          locked := (findWriteLock s.locks loc.bucket).isSome
          relocations := s.relocations.take (s.relocations.length - mark) } :: s.savedWrites }))
    fun _ => ⟨rfl, le_rfl, fun _ => ⟨le_rfl, le_rfl⟩, List.suffix_rfl, List.suffix_rfl,
      List.suffix_cons _ _, List.suffix_rfl, List.suffix_rfl, List.suffix_rfl⟩

/-- The number of relocations run so far. -/
def relocationMark : M g ℕ := Prog.read fun s => s.relocations.length

end CuckooTrie
