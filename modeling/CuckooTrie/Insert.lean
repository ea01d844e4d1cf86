import CuckooTrie.Split

/-!
# Inserting, upserting and updating

`create_root`, `create_leaf`, `ct_insert_internal` and the API functions that
repeat it until it does not ask for a retry.
-/

namespace CuckooTrie

variable {g : Geometry}

/-- Store into one field of the locator `next_leaf` of the list head. -/
def storeMinLeafNext (f : Locator → Locator) : M g Unit :=
  storeField (trieMinLeaf g) fun e => { e with body := e.body.setNextLeaf (f e.body.nextLeaf) }

/-- `write_int_atomic(&trie->is_empty, 0)`. -/
def storeNotEmpty : M g Unit :=
  Prog.update (fun s => ((), s.stored { s.trie with isEmpty := false })) fun _ =>
    Sys.le_stored fun _ => ⟨le_rfl, Nat.le_succ _⟩

/-- `while (read_int_atomic(&trie->is_empty)) ;`: nobody else ends the wait. -/
def waitNotEmpty : M g Unit := search fun t => if t.isEmpty then none else some ()

/-- `create_root`. -/
def createRoot (kv : CtKv) : M g InternalStatus := do
  let tag := hashToTag hashStartValue
  let primaryBucketNum := hashToBucket hashStartValue
  if !(← writeLockBucket primaryBucketNum) then waitNotEmpty
  let t ← getTrie
  if !t.isEmpty then
    -- another thread created the root in the meantime
    releaseAllLocks
    pure .exist
  else
    writeEntry ⟨primaryBucketNum, 0⟩
      ⟨invalidColor, false, false, rootColor, tag, 0, .leaf kv ⟨endOfList, 0, 0⟩⟩
    storeMinLeafNext fun l => { l with primaryBucket := primaryBucketNum }
    storeMinLeafNext fun l => { l with tag := tag }
    storeMinLeafNext fun l => { l with color := rootColor }
    storeNotEmpty
    releaseAllLocks
    pure .ok

/-- `create_bitmap_child`: a new leaf for a child of the bitmap the finger is in. -/
def createBitmapChild (f : Finger) (symbol : ℕ) (kv : CtKv) : M g (InternalStatus × Entry × Loc) :=
  addEntry (g.accumulateHash f.prefixHash symbol)
    ⟨f.containingEntry.value.color, false, false, 0, 0, symbol, .leaf kv default⟩
    (some f.containingEntry.lastPos) true

/-- The bitmap `mark_bitmap_child` writes. -/
def markedBitmap (bitmap : Entry) (symbol : ℕ) (child : Locator) : Entry :=
  let bits := setChildBit bitmap.body.childBitmap symbol
  { bitmap with
    body :=
      if bitmap.body.maxChild < symbol then .bitmap bits symbol child
      else .bitmap bits bitmap.body.maxChild bitmap.body.maxLeaf }

/-- `mark_bitmap_child`. -/
def markBitmapChild (bitmap : LocalCopy) (symbol : ℕ) (child : Locator) : M g LocalCopy :=
  updateEntry bitmap (markedBitmap bitmap.value symbol child)

/-- The locks the bitmap flow of `create_leaf` takes: the bitmap, the ancestors
whose greatest leaf may change and the predecessor, which is returned. -/
def bitmapChildLocks (f : Finger) (predLocator : PredLocator) : M g (Option LocalCopy) := do
  if (← upgradeLock f.containingEntry) ≠ .ok then pure none
  else if (← upgradeLocksOnLeftParentsAbove f.path) ≠ .ok then pure none
  else
    match ← getPredecessorAtomic f.path predLocator with
    | none => pure none
    | some predecessor =>
      if (← upgradeLock predecessor) ≠ .ok then pure none else pure (some predecessor)

/-- The end of the bitmap flow of `create_leaf`: link the new leaf into the list
and into the tree, with the predecessor marked dirty meanwhile. -/
def bitmapChildPublish (f : Finger) (predecessor : LocalCopy) (symbol : ℕ) (child : Locator) :
    M g Unit := do
  let predecessor ← markEntryDirty predecessor
  -- `linklist_insert`
  let predecessor ← updateEntry predecessor
    { predecessor.value with body := predecessor.value.body.setNextLeaf child }
  match f.path with
  | [] => pure ()
  | last :: above =>
    let newBitmap ← markBitmapChild last.entry symbol child
    propagateMaxLeaf newBitmap above
    let _ ← markEntryClean predecessor
    releaseAllLocks

/-- The bitmap flow of `create_leaf`: the finger is at a bitmap node that does
not have the required child. -/
def createLeafAtBitmap (f : Finger) (kv : CtKv) (nextSymbol : ℕ) : M g InternalStatus := do
  let predLocator := prefetchBitmapChildPredecessor g f nextSymbol
  let newLeafHash := g.accumulateHash f.prefixHash nextSymbol
  match ← bitmapChildLocks f predLocator with
  | none =>
    releaseAllLocks
    pure .retry
  | some predecessor =>
    let (ret, newLeafContent, newLeaf) ← createBitmapChild f nextSymbol kv
    if ret ≠ .ok then
      releaseAllLocks
      pure ret
    else
      storeField newLeaf fun e =>
        { e with body := e.body.setNextLeaf predecessor.value.body.nextLeaf }
      bitmapChildPublish f predecessor nextSymbol
        ⟨hashToBucket newLeafHash, newLeafContent.tag, newLeafContent.color⟩
      pure .ok

/-- `create_leaf`. -/
def createLeaf (f : Finger) (kv : CtKv) (nextSymbol : ℕ) : M g InternalStatus := do
  match f.containingEntry.value.body with
  | .jump _ _ _ =>
    match ← splitJumpNode f with
    | (.ok, f) =>
      -- the finger is now at the newly-created bitmap node
      createLeafAtBitmap f kv nextSymbol
    | (ret, _) =>
      releaseAllLocks
      pure ret
  | .leaf leafKv _ =>
    let predLocator := prefetchLeafPredecessor g f
    let leafCmp := kvKeyCompare leafKv kv
    if leafCmp = 0 then pure .exist
    else splitLeaf f kv (leafCmp < 0) predLocator
  | _ => createLeafAtBitmap f kv nextSymbol

/-- `ct_insert_internal` once the root exists. -/
def insertBelowRoot (f : Finger) (kv : CtKv) (isUpsert : Bool) : M g InternalStatus := do
  let (f, symbol) ← search fun t => descend t f kv.key true
  let result ← createLeaf f kv (symbol.getD 0)
  if isUpsert && result = .exist then
    match ← upgradeLock f.containingEntry with
    | .ok =>
      let _ ← updateEntry f.containingEntry
        { f.containingEntry.value with body := f.containingEntry.value.body.setKv kv }
      releaseAllLocks
      pure result
    | _ => pure .retry
  else pure result

/-- `init_lock_mgr`. -/
def initLockMgr : M g Unit := do
  lockStep fun writeLock _ => ((), writeLock, [])
  recordLocks .cleared

/-- `ct_insert_internal`. -/
def ctInsertInternal (kv : CtKv) (isUpsert : Bool) : M g InternalStatus := do
  initLockMgr
  match initFinger (← getTrie) with
  | some f => insertBelowRoot f kv isUpsert
  | none =>
    match ← createRoot kv with
    | .exist =>
      let f ← search initFinger
      insertBelowRoot f kv isUpsert
    | _ => pure .ok

/-- The `do`/`while` loop of `ct_insert` and `ct_upsert`, for at most `fuel`
attempts. -/
def insertLoop (kv : CtKv) (isUpsert : Bool) : ℕ → M g InternalStatus
  | 0 => Prog.hang
  | fuel + 1 => do
    match ← ctInsertInternal kv isUpsert with
    | .retry => insertLoop kv isUpsert fuel
    | ret => pure ret

/-- `ct_insert`, for at most `fuel` attempts. -/
def ctInsert (kv : CtKv) (fuel : ℕ) : M g Status := do
  if kv.key.length > maxKeyBytes then pure .keyTooLong
  else
    match ← insertLoop kv false fuel with
    | .fail => pure .overflow
    | .exist => pure .alreadyIn
    | _ => pure .ok

/-- `ct_upsert`, for at most `fuel` attempts, with the value of `*created_new`. -/
def ctUpsert (kv : CtKv) (fuel : ℕ) : M g (Status × Option Bool) := do
  if kv.key.length > maxKeyBytes then pure (.keyTooLong, none)
  else
    match ← insertLoop kv true fuel with
    | .fail => pure (.overflow, none)
    | .exist => pure (.ok, some false)
    | _ => pure (.ok, some true)

/-- `ct_update_internal`. -/
def ctUpdateInternal (kv : CtKv) : M g InternalStatus := do
  initLockMgr
  match initFinger (← getTrie) with
  | none => pure .fail
  | some f =>
    let (f, _) ← search fun t => descend t f kv.key false
    if !f.containingEntry.value.body.isLeaf then pure .fail
    else if kvKeyCompare f.containingEntry.value.body.kv kv ≠ 0 then pure .fail
    else
      match ← upgradeLock f.containingEntry with
      | .ok =>
        let _ ← updateEntry f.containingEntry
          { f.containingEntry.value with body := f.containingEntry.value.body.setKv kv }
        releaseAllLocks
        pure .ok
      | _ => pure .retry

/-- `ct_update`, for at most `fuel` attempts. -/
def ctUpdate (kv : CtKv) : ℕ → M g Status
  | 0 => Prog.hang
  | fuel + 1 => do
    match ← ctUpdateInternal kv with
    | .retry => ctUpdate kv fuel
    | .fail => pure .notFound
    | _ => pure .ok

end CuckooTrie
