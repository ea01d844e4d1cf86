import CuckooTrie.InsertUpdates

/-!
# How many stores an insert makes

An attempt to insert an object adds at most one entry for each symbol of its key and moves a
bounded number of entries for each one it adds, so it makes fewer stores than the sequence of a
bucket has values (`attempt_stores_bounded`).  The bounds hold on any memory and whatever the
other threads do.
-/

namespace CuckooTrie

open Sys

variable {g : Geometry} {α β : Type} {t : Trie g} {s : Sys g} {f : Finger} {n : ℕ} {kv : CtKv}

/-- A program that makes at most `n` stores into the table and returns results with a
property. -/
abbrev Stores (n : ℕ) (f : CuckooTrie.M g α) (Q : α → Prop) : Prop :=
  f.Spends (fun s => s.history.length) n Q

/-! ## The steps -/

namespace Stores

variable {f f' : CuckooTrie.M g α} {k : α → CuckooTrie.M g β} {Q : α → Prop} {R : β → Prop}

theorem quietly (quietly : Quietly f) : Stores n f fun _ => True := by
  refine fun s => ⟨?_, fun _ _ => trivial⟩
  obtain ⟨a, -, quiet⟩ := quietly s
  exact (congrArg List.length quiet.history).le.trans (Nat.le_add_right _ _)

/-- Steps that store nothing do not count. -/
theorem free (first : Stores 0 f Q) (rest : ∀ a, Q a → Stores n (k a) R) :
    Stores n (f >>= k) R := (Prog.Spends.bind first rest).mono (Nat.zero_add n).le

theorem onlyFirst (first : Stores n f Q) (rest : ∀ a, Q a → Stores 0 (k a) R) :
    Stores n (f >>= k) R := Prog.Spends.bind first rest

theorem after (quiet : Quietly f) (rest : ∀ a, Stores n (k a) R) : Stores n (f >>= k) R :=
  free (quietly quiet) fun a _ => rest a

theorem searched {h : Trie g → Option α} (rest : ∀ a, Stores n (k a) R) :
    Stores n (search h >>= k) R :=
  free (Q := fun _ => True) (.find fun _ _ _ => trivial) fun a _ => rest a

/-- So do the notes of a run. -/
theorem noted {note : Sys g → Sys g} {forward : ∀ s, s ≤ ((fun s => ((), note s)) s).2}
    {k : Unit → CuckooTrie.M g β} (same : ∀ s, (note s).history = s.history)
    (rest : Stores n (k ()) R) :
    Stores n (Prog.update (fun s => ((), note s)) forward >>= k) R :=
  free (Q := fun _ => True) (.update (fun s => (congrArg List.length (same s)).le) fun _ => trivial)
    fun _ _ => rest

/-- A step that makes one store. -/
theorem one (first : Stores 1 f Q) (rest : ∀ a, Q a → Stores n (k a) R) :
    Stores (n + 1) (f >>= k) R := (Prog.Spends.bind first rest).mono (Nat.add_comm 1 n).le

theorem writeEntry (loc : Loc) (e : Entry) :
    Stores 1 (CuckooTrie.writeEntry loc e : CuckooTrie.M g Unit) fun _ => True :=
  .update (fun _ => le_rfl) fun _ => trivial

theorem storeField (loc : Loc) (f : Entry → Entry) :
    Stores 1 (CuckooTrie.storeField loc f : CuckooTrie.M g Unit) fun _ => True :=
  .update (fun _ => le_rfl) fun _ => trivial

theorem updateEntry (lc : LocalCopy) (v : Entry) :
    Stores 1 (CuckooTrie.updateEntry lc v : CuckooTrie.M g LocalCopy) fun _ => True := by
  have written : ∀ (loc : Loc) (v : Entry) (copy : Trie g → LocalCopy), Stores 1 (do
      CuckooTrie.writeEntry loc v
      let t ← getTrie
      pure (copy t) : CuckooTrie.M g LocalCopy) fun _ => True := fun loc v copy =>
    one (n := 0) (writeEntry loc v) fun _ _ => after Quietly.getTrie fun _ => .pure trivial
  refine after Quietly.getTrie fun t => .ite (fun _ => written _ _ _) fun _ => ?_
  exact noted (fun _ => rfl) (searched fun cur => written _ _ _)

theorem removeEntryByValue (e : Entry) (prefixHash : ℕ) :
    Stores 1 (CuckooTrie.removeEntryByValue e prefixHash : CuckooTrie.M g Unit) fun _ => True :=
  searched fun _ => writeEntry _ _

end Stores

/-! ## Adding an entry -/

/-- The queue of a relocation keeps its size. -/
theorem scanBucket_length {immovable : Option Loc} {pos : ℕ} {cells : List (Fin 4)}
    {queue queue' : List QueueEntry} {found : Option FreeCell}
    (short : queue.length ≤ relocateQueueSize)
    (scan : scanBucket t immovable pos cells queue = (queue', found)) :
    queue'.length ≤ relocateQueueSize := by
  induction cells generalizing queue with
  | nil =>
    cases scan
    exact short
  | cons i is ih =>
    rw [scanBucket] at scan
    simp only at scan
    split at scan
    · exact ih short scan
    split at scan
    · exact ih short scan
    split at scan
    · exact ih short scan
    split at scan
    · refine ih ?_ scan
      split
      · next room =>
        rw [List.length_append]
        exact room
      · exact short
    · cases scan
      exact short

theorem searchFreeCell_length {immovable : Option Loc} {fuel pos : ℕ}
    {queue queue' : List QueueEntry} {found : FreeCell} (short : queue.length ≤ relocateQueueSize)
    (search : searchFreeCell t immovable fuel pos queue = some (queue', found)) :
    queue'.length ≤ relocateQueueSize := by
  induction fuel generalizing pos queue with
  | zero => cases search
  | succ fuel ih =>
    rw [searchFreeCell] at search
    split at search
    · split at search
      · next scan =>
        cases search
        exact scanBucket_length short scan
      · next scan => exact ih (scanBucket_length short scan) search
    · cases search

theorem length_sourceCells (queue : List QueueEntry) (fuel pos : ℕ) (i : Fin 4) :
    (sourceCells queue fuel pos i).length ≤ fuel := by
  induction fuel generalizing pos i with
  | zero => exact le_rfl
  | succ fuel ih =>
    cases pos with
    | zero => exact Nat.succ_le_succ (Nat.zero_le fuel)
    | succ pos => exact Nat.succ_le_succ (ih _ _)

/-- The most stores `add_entry` can make: it moves each entry on the path of a relocation,
frees the last cell, and writes the entry, which it may have to remove again. -/
def addEntryStores : ℕ := relocateQueueSize + 3

namespace Stores

theorem moveEntries (free : Loc) (sources : List Loc) :
    Stores (sources.length + 1) (moveEntries free sources : CuckooTrie.M g Unit)
      fun _ => True := by
  induction sources generalizing free with
  | nil => exact .pure trivial
  | cons src rest ih =>
    refine after Quietly.getTrie fun t => one (writeEntry _ _) fun _ _ =>
      after (Quietly.moveEntryLock _ _) fun _ => .ite (fun _ => ?_) fun _ => ih src
    exact (writeEntry _ _).mono (Nat.le_add_left _ _)

theorem relocateAlong {queue : List QueueEntry} (short : queue.length ≤ relocateQueueSize)
    (found : FreeCell) :
    Stores (relocateQueueSize + 1)
      (relocateAlong queue found : CuckooTrie.M g (InternalStatus × List Loc)) fun _ => True := by
  refine after (Quietly.upgradeBucketLock _) fun ret => ?_
  cases ret with
  | ok =>
    refine after (Quietly.upgradePath _) fun upgraded => .ite (fun _ => ?_) fun _ => ?_
    · have few := length_sourceCells queue queue.length found.queuePos found.childIdx
      refine (onlyFirst (moveEntries _ _) fun _ _ => ?_).mono
        (Nat.add_le_add_right (few.trans short) 1)
      exact after (Quietly.releasePath _ _ _) fun _ => .pure trivial
    · exact after (Quietly.releasePath _ _ _) fun _ => .pure trivial
  | _ => exact .pure trivial

theorem relocateEntry (b : ℕ) (immovable : Option Loc) :
    Stores (relocateQueueSize + 1)
      (relocateEntry b immovable : CuckooTrie.M g (InternalStatus × List Loc)) fun _ => True := by
  refine after (Quietly.read _) fun locked => after (Quietly.assertThat _ _) fun _ =>
    after Quietly.getTrie fun t => ?_
  have start : [(⟨b, readLockBucket t b, 0, 0⟩ : QueueEntry)].length ≤ relocateQueueSize := by
    simp
  split
  · exact .pure trivial
  · next queue found search =>
    exact after (Quietly.recordLocks _) fun _ =>
      relocateAlong (searchFreeCell_length start search) found

theorem addEntryAt (h : ℕ) (entry : Entry) (lock : Bool) (result : Loc)
    (alternateBucketLock : BucketReadLock) (flagSecondary : Bool) :
    Stores 2 (addEntryAt h entry lock result alternateBucketLock flagSecondary :
      CuckooTrie.M g (InternalStatus × Entry × Loc)) fun _ => True := by
  have rest : ∀ (entry : Entry), Stores 2 (do
      CuckooTrie.writeEntry result entry
      if ← readUnlockBucket alternateBucketLock then
        releaseBucketLock result.bucket
        pure (.ok, entry, result)
      else
        removeEntryByAddress result
        releaseBucketLock result.bucket
        pure (.retry, entry, result) : CuckooTrie.M g (InternalStatus × Entry × Loc))
        fun _ => True := fun entry =>
    one (n := 1) (writeEntry _ _) fun _ _ => after (Quietly.readUnlockBucket _) fun ok =>
      .ite (fun _ => after (Quietly.releaseBucketLock _) fun _ => .pure trivial) fun _ =>
        one (n := 0) (writeEntry _ _) fun _ _ =>
          after (Quietly.releaseBucketLock _) fun _ => .pure trivial
  refine .ite (fun _ => ?_) fun _ => after Quietly.getTrie fun t => rest _
  exact after (Quietly.writeLockEntryInLockedBucket _) fun _ =>
    after Quietly.getTrie fun t => rest _

/-- **Adding an entry.** -/
theorem addEntry (h : ℕ) (entry : Entry) (immovable : Option Loc) (lock : Bool) :
    Stores addEntryStores
      (addEntry h entry immovable lock : CuckooTrie.M g (InternalStatus × Entry × Loc))
      fun _ => True := by
  have few : 2 ≤ addEntryStores := by decide
  refine after Quietly.getTrie fun t => ?_
  split
  · refine after (Quietly.upgradeBucketLock _) fun ret => ?_
    cases ret with
    | ok => exact (addEntryAt _ _ _ _ _ _).mono few
    | _ => exact .pure trivial
  · split
    · refine after (Quietly.upgradeBucketLock _) fun ret => ?_
      cases ret with
      | ok => exact (addEntryAt _ _ _ _ _ _).mono few
      | _ => exact .pure trivial
    · refine after (Quietly.upgradeBucketLock _) fun ret => ?_
      cases ret with
      | ok =>
        refine Prog.Spends.bind (n := relocateQueueSize + 1) (m := 2) (relocateEntry _ _)
          fun r _ => .ite (fun _ => ?_) fun _ => ?_
        · exact noted (fun _ => rfl) (addEntryAt _ _ _ _ _ _)
        · exact after (Quietly.releaseBucketLock _) fun _ => .pure trivial
      | _ => exact .pure trivial

end Stores

/-! ## Splitting -/

namespace Stores

/-- Ends of phases that only release locks. -/
theorem finish {α : Type} (a : α) :
    Stores n (do releaseAllLocks; pure a : CuckooTrie.M g α) fun _ => True :=
  after Quietly.releaseAllLocks fun _ => .pure trivial

theorem splitJumpFailed (ret : InternalStatus) (bitmap : Option (Entry × ℕ)) :
    Stores 1 (splitJumpFailed ret bitmap : CuckooTrie.M g InternalStatus) fun _ => True := by
  refine .ite (fun _ => ?_) fun _ => finish _
  cases bitmap with
  | none => exact finish _
  | some node => exact one (n := 0) (removeEntryByValue _ _) fun _ _ => finish _

theorem splitJumpBelow (jumpNode : Entry) (depth bitmapColor splitSymbol tailPrefixHash : ℕ)
    (bitmapLoc : Option Loc) (child : Option JumpChild) :
    Stores addEntryStores (splitJumpBelow jumpNode depth bitmapColor splitSymbol tailPrefixHash
      bitmapLoc child : CuckooTrie.M g InternalStatus) fun _ => True := by
  cases child with
  | none => exact onlyFirst (addEntry _ _ _ _) fun _ _ => .pure trivial
  | some child =>
    refine noted (fun _ => rfl) (after Quietly.getTrie fun t => ?_)
    exact (one (n := 0) (writeEntry _ _) fun _ _ => .pure trivial).mono (by decide)

theorem lockJumpChild (jumpNode : Entry) (hasTail : Bool) (tailPrefixHash : ℕ) :
    Stores 0 (lockJumpChild jumpNode hasTail tailPrefixHash :
      CuckooTrie.M g (Option (Option JumpChild))) fun _ => True := by
  refine .ite (fun _ => .pure trivial) fun _ => searched fun child =>
    after (Quietly.read _) fun mark => after (Quietly.upgradeLock _) fun ret => ?_
  cases ret with
  | ok => exact .pure trivial
  | _ => exact .pure trivial

/-- **Splitting a jump node** adds at most one entry to the path. -/
theorem splitJumpNode (f : Finger) :
    Stores (2 * addEntryStores + 1)
      (splitJumpNode f : CuckooTrie.M g (InternalStatus × Finger)) fun r =>
        r.2.path.length ≤ f.path.length + 1 := by
  have failed : ∀ (ret : InternalStatus) (bitmap : Option (Entry × ℕ)), Stores 1 (do
      let ret ← CuckooTrie.splitJumpFailed ret bitmap
      pure (ret, f) : CuckooTrie.M g (InternalStatus × Finger)) fun r =>
        r.2.path.length ≤ f.path.length + 1 := fun ret bitmap =>
    onlyFirst (splitJumpFailed ret bitmap) fun _ _ => .pure (Nat.le_succ _)
  have published : ∀ (newHead : Entry) (above : List PathEntry) (last : PathEntry)
      (k : LocalCopy → Finger), (∀ lc, (k lc).path.length ≤ f.path.length + 1) → Stores 1 (do
        let newLast ← CuckooTrie.updateEntry last.entry newHead
        releaseAllLocks
        pure (.ok, k newLast) : CuckooTrie.M g (InternalStatus × Finger)) fun r =>
          r.2.path.length ≤ f.path.length + 1 := fun newHead above last k short =>
    one (n := 0) (updateEntry _ _) fun lc _ => after Quietly.releaseAllLocks fun _ =>
      .pure (short lc)
  refine free (lockJumpChild _ _ _) fun child _ => ?_
  cases child with
  | none => exact (failed _ _).mono (Nat.le_add_left _ _)
  | some child =>
    refine after (Quietly.upgradeLock _) fun ret =>
      .ite (fun _ => (failed _ _).mono (Nat.le_add_left _ _)) fun _ => .ite (fun _ => ?_) fun _ => ?_
    · refine (Prog.Spends.bind (m := 1) (splitJumpBelow _ _ _ _ _ _ _) fun ret _ =>
        .ite (fun _ => failed _ _) fun _ => ?_).mono (by omega)
      split
      · exact .pure (Nat.le_succ _)
      · next last above path =>
        refine published _ above last (fun newLast =>
          Finger.rereadPathEnd { f with path := { last with entry := newLast } :: above })
          fun lc => ?_
        rw [path]
        exact Nat.le_succ _
    · refine (Prog.Spends.bind (m := addEntryStores + 1) (addEntry _ _ _ _) fun r _ => ?_).mono
        (by omega)
      refine .ite (fun _ => (failed _ _).mono (Nat.le_add_left _ _)) fun _ =>
        after Quietly.getTrie fun t => ?_
      refine Prog.Spends.bind (splitJumpBelow _ _ _ _ _ _ _) fun ret _ =>
        .ite (fun _ => failed _ _) fun _ => ?_
      split
      · exact .pure (Nat.le_succ _)
      · next last above path =>
        refine published _ above last (fun newLast => Finger.nodeChanged
          { Finger.rereadPathEnd { f with path := { last with entry := newLast } :: above } with
            containingEntry := _ } true) fun lc => ?_
        rw [path]
        exact le_rfl

theorem propagateMaxLeaf (child : LocalCopy) (path : List PathEntry) :
    Stores path.length (propagateMaxLeaf child path : CuckooTrie.M g Unit) fun _ => True := by
  induction path generalizing child with
  | nil => exact .pure trivial
  | cons parent above ih =>
    exact .ite (fun _ => .pure trivial) fun _ => one (updateEntry _ _) fun newParent _ => ih newParent

theorem getPredecessorAtomic (path : List PathEntry) (predLocator : PredLocator) :
    Stores 0 (getPredecessorAtomic path predLocator : CuckooTrie.M g (Option LocalCopy))
      fun _ => True := by
  rw [CuckooTrie.getPredecessorAtomic.eq_def]
  cases predLocator with
  | none =>
    exact after Quietly.getTrie fun t => after (Quietly.validatePathFrom _ _) fun ok =>
      .ite (fun _ => .pure trivial) fun _ => .pure trivial
  | some subtree =>
    refine searched fun root => .ite (fun _ => ?_) fun _ => searched fun result => ?_
    · exact after (Quietly.validatePathFrom _ _) fun ok => .ite (fun _ => .pure trivial) fun _ =>
        .ite (fun _ => .pure trivial) fun _ => .pure trivial
    · refine .ite (fun _ => .pure trivial) fun _ => after (Quietly.validatePathFrom _ _) fun ok =>
        .ite (fun _ => .pure trivial) fun _ => after (Quietly.validateEntry _) fun ok => ?_
      exact .ite (fun _ => .pure trivial) fun _ => .ite (fun _ => .pure trivial) fun _ => .pure trivial

/-- Finding and locking a predecessor stores nothing. -/
theorem lockPredecessor (path : List PathEntry) (predLocator : PredLocator) :
    Stores 0 (do
      match ← CuckooTrie.getPredecessorAtomic path predLocator with
      | none => pure none
      | some predecessor =>
        if (← upgradeLock predecessor) ≠ .ok then pure none else pure (some predecessor) :
      CuckooTrie.M g (Option LocalCopy)) fun _ => True := by
  refine free (getPredecessorAtomic path predLocator) fun r _ => ?_
  cases r with
  | none => exact .pure trivial
  | some predecessor =>
    exact after (Quietly.upgradeLock _) fun ret =>
      .ite (fun _ => .pure trivial) fun _ => .pure trivial

/-! ## Adding a leaf -/

/-- The most stores that add a leaf to a bitmap whose path has a given length. -/
def leafAtBitmapStores (l : ℕ) : ℕ := addEntryStores + (l + 5)

theorem bitmapChildPublish (f : Finger) (predecessor : LocalCopy) (symbol : ℕ)
    (child : Locator) :
    Stores (f.path.length + 4) (bitmapChildPublish f predecessor symbol child :
      CuckooTrie.M g Unit) fun _ => True := by
  refine one (n := f.path.length + 3) (updateEntry _ _) fun predecessor _ =>
    one (n := f.path.length + 2) (updateEntry _ _) fun predecessor _ => ?_
  generalize f.path = path
  cases path with
  | nil => exact .pure trivial
  | cons last above =>
    refine (one (n := above.length + 1) (updateEntry _ _) fun newBitmap _ => ?_).mono (by simp)
    refine Prog.Spends.bind (m := 1) (propagateMaxLeaf _ _) fun _ _ => ?_
    exact one (n := 0) (updateEntry _ _) fun _ _ => quietly Quietly.releaseAllLocks

/-- **Adding a leaf to a bitmap.** -/
theorem createLeafAtBitmap (f : Finger) (kv : CtKv) (symbol : ℕ) :
    Stores (leafAtBitmapStores f.path.length)
      (createLeafAtBitmap f kv symbol : CuckooTrie.M g InternalStatus) fun _ => True := by
  have locks : Stores 0 (bitmapChildLocks f (prefetchBitmapChildPredecessor g f symbol) :
      CuckooTrie.M g (Option LocalCopy)) fun _ => True :=
    after (Quietly.upgradeLock _) fun ret => .ite (fun _ => .pure trivial) fun _ =>
      after (Quietly.lockLeftParents _ _) fun ret => .ite (fun _ => .pure trivial) fun _ =>
        lockPredecessor _ _
  refine free locks fun r _ => ?_
  cases r with
  | none => exact finish _
  | some predecessor =>
    refine Prog.Spends.bind (m := f.path.length + 5) (addEntry _ _ _ _) fun r _ =>
      .ite (fun _ => finish _) fun _ => one (n := f.path.length + 4) (storeField _ _) fun _ _ => ?_
    exact onlyFirst (bitmapChildPublish _ _ _ _) fun _ _ => .pure trivial

/-! ## Splitting a leaf -/

theorem removeNodes (nodes : List (Entry × ℕ)) :
    Stores nodes.length (removeNodes nodes : CuckooTrie.M g Unit) fun _ => True := by
  induction nodes with
  | nil => exact .pure trivial
  | cons node rest ih => exact one (removeEntryByValue _ _) fun _ _ => ih

theorem splitLeafFailed (ret : InternalStatus) (added : List (Entry × ℕ)) :
    Stores added.length (splitLeafFailed ret added : CuckooTrie.M g InternalStatus)
      fun _ => True :=
  .ite (fun _ => onlyFirst (removeNodes added) fun _ _ => finish _) fun _ => finish _

theorem addPathNodes (childColor : Option ℕ) (nodes : List (Entry × ℕ)) :
    Stores (nodes.length * addEntryStores) (addPathNodes childColor nodes :
      CuckooTrie.M g (InternalStatus × List (Entry × ℕ) × List (Entry × ℕ))) fun r =>
        r.2.1.length ≤ nodes.length := by
  induction nodes generalizing childColor with
  | nil => exact .pure le_rfl
  | cons node above ih =>
    rw [List.length_cons, Nat.succ_mul, Nat.add_comm (above.length * addEntryStores)]
    refine .ite (fun _ => .pure (Nat.zero_le _)) fun _ => Prog.Spends.bind (addEntry _ _ _ _)
      fun r _ => .ite (fun _ => ?_) fun _ => .pure (Nat.zero_le _)
    exact onlyFirst (ih _) fun r short => .pure (Nat.succ_le_succ short)

theorem splitLeafPublish (f : Finger) (predecessor : LocalCopy) (head : Entry)
    (minimalLeaf : Locator) :
    Stores (f.path.length + 3) (splitLeafPublish f predecessor head minimalLeaf :
      CuckooTrie.M g Unit) fun _ => True := by
  refine one (n := f.path.length + 2) (updateEntry _ _) fun predecessor _ => ?_
  generalize f.path = path
  cases path with
  | nil => exact .pure trivial
  | cons last above =>
    refine (one (n := above.length + 2) (updateEntry _ _) fun newHead _ =>
      one (n := above.length + 1) (updateEntry _ _) fun predecessor _ => ?_).mono (by simp)
    refine Prog.Spends.bind (m := 1) (propagateMaxLeaf _ _) fun _ _ => ?_
    exact one (n := 0) (updateEntry _ _) fun _ _ => quietly Quietly.releaseAllLocks

end Stores

/-- The chain of jump nodes has at most one node for each symbol walked. -/
theorem LeafPath.length_walk {existingKv : CtKv} {fuel x y : ℕ} {p path : LeafPath}
    (walk : LeafPath.walk g existingKv kv fuel p = some (path, x, y)) :
    path.nodes.length ≤ p.nodes.length + fuel := by
  induction fuel generalizing p with
  | zero => cases walk
  | succ fuel ih =>
    rw [LeafPath.walk] at walk
    split at walk
    · cases walk
      exact Nat.le_add_right _ _
    · have longer : (p.extend g (getKeySymbol kv p.prefixLen)).nodes.length ≤
          p.nodes.length + 1 := by
        rw [extend]
        dsimp only
        split_ifs with needs
        · exact le_rfl
        · cases p.nodes with
          | nil => exact Nat.zero_le _
          | cons node rest => exact Nat.le_succ _
      have := ih walk
      omega

/-- The nodes of the path a leaf is split into, with the bitmap. -/
theorem length_mapPathHead (h : Entry → Entry) (nodes : List (Entry × ℕ)) :
    (mapPathHead h nodes).length = nodes.length := by
  fun_induction mapPathHead h nodes with
  | case1 => rfl
  | case2 => rfl
  | case3 node above _ ih => rw [List.length_cons, ih, List.length_cons]

theorem length_setPathChildren (x y : ℕ) (nodes : List (Entry × ℕ)) :
    (setPathChildren x y nodes).length = nodes.length := by
  cases nodes <;> rfl

/-- The most stores that split a leaf, by the number of path nodes and the length of the path
above the leaf. -/
def splitLeafStores (n l : ℕ) : ℕ :=
  addEntryStores + (n * addEntryStores + (addEntryStores + (n + l + 3) + 1) + 1 + 1)

namespace Stores

theorem splitLeafLocks (f : Finger) (predLocator : PredLocator) :
    Stores 0 (splitLeafLocks f predLocator : CuckooTrie.M g (Option LocalCopy))
      fun _ => True := by
  have rest : ∀ parents : InternalStatus, Stores 0 (if parents ≠ .ok then pure none
      else do
        if (← upgradeLock f.containingEntry) ≠ .ok then pure none
        else
          match ← CuckooTrie.getPredecessorAtomic f.path predLocator with
          | none => pure none
          | some predecessor =>
            if (← upgradeLock predecessor) ≠ .ok then pure none else pure (some predecessor) :
      CuckooTrie.M g (Option LocalCopy)) fun _ => True := fun parents =>
    .ite (fun _ => .pure trivial) fun _ => after (Quietly.upgradeLock _) fun ret =>
      .ite (fun _ => .pure trivial) fun _ => lockPredecessor _ _
  rw [CuckooTrie.splitLeafLocks]
  split
  · refine after (Quietly.upgradeLock _) fun ret => ?_
    cases ret with
    | ok => exact after (Quietly.lockLeftParents _ _) fun parents => rest parents
    | retry => exact rest .retry
    | exist => exact rest .exist
    | fail => exact rest .fail
  · exact rest .ok

/-- **Splitting a leaf.** -/
theorem splitLeaf (f : Finger) (kv : CtKv) (isMaximal : Bool) (predLocator : PredLocator) :
    Stores (splitLeafStores (numKeySymbols kv.key + 2) f.path.length)
      (splitLeaf f kv isMaximal predLocator : CuckooTrie.M g InternalStatus) fun _ => True := by
  refine free (splitLeafLocks _ _) fun r _ => ?_
  cases r with
  | none => exact (splitLeafFailed _ _).mono (Nat.zero_le _)
  | some predecessor =>
    refine free (Q := fun r => r.1.nodes.length ≤ numKeySymbols kv.key + 1) (.find fun s r walk => ?_)
      fun r few => ?_
    · have := LeafPath.length_walk walk
      simpa using this
    obtain ⟨path, existing, new⟩ := r
    -- the path nodes, and how few they are
    have nodes : ∀ maxLeaf, (setPathMaxLeaf maxLeaf (setPathChildren
        (if isMaximal then existing else new) (if isMaximal then new else existing)
        (mapPathHead (inheritHeader f.containingEntry.value) path.addBitmap))).length ≤
          numKeySymbols kv.key + 2 := fun maxLeaf => by
      rw [setPathMaxLeaf, List.length_map, length_setPathChildren, length_mapPathHead]
      exact Nat.succ_le_succ few
    refine Prog.Spends.bind (addEntry _ _ _ _) fun added _ => .ite
      (fun _ => (splitLeafFailed _ _).mono (Nat.zero_le _)) fun _ => one (storeField _ _) fun _ _ =>
        one (storeField _ _) fun _ _ => after Quietly.getTrie fun t => after (Quietly.read _)
          fun mark => ?_
    have nodes := nodes ⟨hashToBucket (g.accumulateHash path.prefixHash
      (if isMaximal then new else existing)), hashToTag (g.accumulateHash path.prefixHash
      (if isMaximal then new else existing)), (t.cells added.2.2).color⟩
    refine Prog.Spends.bind ((addPathNodes _ _).mono (Nat.mul_le_mul_right _ nodes)) fun r short => ?_
    have short := short.trans nodes
    have failed : ∀ ret last, Stores (numKeySymbols kv.key + 2 + f.path.length + 3)
        (CuckooTrie.splitLeafFailed ret (r.2.1 ++ [last]) : CuckooTrie.M g InternalStatus)
        fun _ => True := fun ret last => by
      refine (splitLeafFailed ret _).mono ?_
      rw [List.length_append, List.length_singleton]
      omega
    refine .ite (fun _ => (failed _ _).mono (by omega)) fun _ => noted (fun _ => rfl)
      (one (storeField _ _) fun _ _ => ?_)
    refine Prog.Spends.bind (addEntry _ _ _ _) fun minimal _ => .ite (fun _ => failed _ _) fun _ => ?_
    exact onlyFirst ((splitLeafPublish _ _ _ _).mono (by omega)) fun _ _ => .pure trivial

end Stores

/-! ## The path of the finger -/

/-- A step down adds at most one entry to the path. -/
theorem tryDescend_length {f f' : Finger} {symbol hash : ℕ} {savePath : Bool}
    (descends : tryDescend t f symbol savePath hash = some (some f')) :
    f'.path.length ≤ f.path.length + 1 := by
  obtain ⟨-, -, -, rfl⟩ | ⟨child, rfl, -⟩ := tryDescend_cases descends
  · exact Nat.le_succ _
  · cases savePath with
    | false => exact Nat.le_succ _
    | true => exact le_rfl

/-- **The path is not longer than the key**, on any memory. -/
theorem descendLoop_length {fuel : ℕ} {f f' : Finger} {p : KeyPrefetcher} {track : Bool}
    {symbol : Option ℕ} (ends : descendLoop t track fuel f p = some (f', symbol)) :
    f'.path.length ≤ f.path.length + fuel := by
  induction fuel generalizing f p with
  | zero => cases ends
  | succ fuel ih =>
    rw [descendLoop_succ] at ends
    split at ends
    · cases ends
    · cases ends
      exact Nat.le_add_right _ _
    · next f₁ descended =>
      have step := tryDescend_length descended
      split at ends
      · cases ends
        omega
      · have := ih ends
        omega

theorem initFinger_length (init : initFinger t = some f) : f.path.length = 1 := by
  rw [initFinger] at init
  split at init
  · cases init
  · cases init
    rfl

/-! ## Attempts -/

/-- The most stores of an attempt to insert an object, by the number of symbols of its key. -/
def attemptStores (n : ℕ) : ℕ :=
  2 * addEntryStores + 1 + splitLeafStores (n + 2) (n + 2) + 6

namespace Stores

/-- **Creating a leaf.** -/
theorem createLeaf {l : ℕ} (f : Finger) (kv : CtKv) (symbol : ℕ) (short : f.path.length ≤ l) :
    Stores (2 * addEntryStores + 1 + splitLeafStores (numKeySymbols kv.key + 2) (l + 1))
      (createLeaf f kv symbol : CuckooTrie.M g InternalStatus) fun _ => True := by
  have atBitmap : ∀ f' : Finger, f'.path.length ≤ l + 1 →
      Stores (splitLeafStores (numKeySymbols kv.key + 2) (l + 1))
        (CuckooTrie.createLeafAtBitmap f' kv symbol : CuckooTrie.M g InternalStatus)
        fun _ => True := fun f' short' => by
    refine (createLeafAtBitmap f' kv symbol).mono ?_
    rw [leafAtBitmapStores, splitLeafStores]
    omega
  rw [CuckooTrie.createLeaf]
  split
  · refine Prog.Spends.bind (splitJumpNode f) fun r short' => ?_
    obtain ⟨ret, f'⟩ := r
    cases ret with
    | ok => exact atBitmap f' (short'.trans (Nat.succ_le_succ short))
    | _ => exact finish _
  · refine .ite (fun _ => .pure trivial) fun _ => (splitLeaf f kv _ _).mono ?_
    rw [splitLeafStores, splitLeafStores]
    omega
  · exact (atBitmap f (short.trans (Nat.le_succ l))).mono (Nat.le_add_left _ _)

/-- **`ct_insert_internal` below the root.** -/
theorem insertBelowRoot (f : Finger) (kv : CtKv) (isUpsert : Bool) (short : f.path.length = 1) :
    Stores (2 * addEntryStores + 1 +
        splitLeafStores (numKeySymbols kv.key + 2) (numKeySymbols kv.key + 2) + 1)
      (insertBelowRoot f kv isUpsert : CuckooTrie.M g InternalStatus) fun _ => True := by
  refine free (Q := fun r => r.1.path.length ≤ numKeySymbols kv.key + 1) (.find fun s r walk => ?_)
    fun r short' => ?_
  · have longer : r.1.path.length ≤ f.path.length + _ := descendLoop_length (walk : _ = some (r.1, r.2))
    omega
  · obtain ⟨f', symbol⟩ := r
    refine Prog.Spends.bind (createLeaf f' kv _ short') fun ret _ => .ite (fun _ => ?_) fun _ =>
      .pure trivial
    refine after (Quietly.upgradeLock _) fun locked => ?_
    cases locked with
    | ok => exact one (n := 0) (updateEntry _ _) fun _ _ => finish _
    | _ => exact .pure trivial

theorem createRoot (kv : CtKv) :
    Stores 5 (createRoot kv : CuckooTrie.M g InternalStatus) fun _ => True := by
  have rest : Stores 5 (do
      let t ← getTrie
      if !t.isEmpty then
        releaseAllLocks
        pure .exist
      else
        CuckooTrie.writeEntry ⟨hashToBucket hashStartValue, 0⟩
          ⟨invalidColor, false, false, rootColor, hashToTag hashStartValue, 0,
            .leaf kv ⟨endOfList, 0, 0⟩⟩
        storeMinLeafNext fun l => { l with primaryBucket := hashToBucket hashStartValue }
        storeMinLeafNext fun l => { l with tag := hashToTag hashStartValue }
        storeMinLeafNext fun l => { l with color := rootColor }
        storeNotEmpty
        releaseAllLocks
        pure .ok : CuckooTrie.M g InternalStatus) fun _ => True :=
    after Quietly.getTrie fun t => .ite (fun _ => finish _) fun _ =>
      one (n := 4) (writeEntry _ _) fun _ _ => one (n := 3) (storeField _ _) fun _ _ =>
        one (n := 2) (storeField _ _) fun _ _ => one (n := 1) (storeField _ _) fun _ _ =>
          one (n := 0) (Q := fun _ => True) (.update (fun _ => le_rfl) fun _ => trivial)
            fun _ _ => finish _
  refine after (Quietly.writeLockBucket _) fun locked => .ite (fun _ => ?_) fun _ => rest
  exact searched fun _ => rest

theorem initLockMgr : Stores 0 (CuckooTrie.initLockMgr : CuckooTrie.M g Unit) fun _ => True :=
  free (Q := fun _ => True) (.update (fun _ => le_rfl) fun _ => trivial)
    fun _ _ => quietly (Quietly.recordLocks _)

/-- **An attempt makes few stores**, on any memory and whatever the other threads do. -/
theorem ctInsertInternal (kv : CtKv) (isUpsert : Bool) :
    Stores (attemptStores (numKeySymbols kv.key))
      (ctInsertInternal kv isUpsert : CuckooTrie.M g InternalStatus) fun _ => True := by
  have below : ∀ f : Finger, f.path.length = 1 → Stores (2 * addEntryStores + 1 +
      splitLeafStores (numKeySymbols kv.key + 2) (numKeySymbols kv.key + 2) + 1)
      (CuckooTrie.insertBelowRoot f kv isUpsert : CuckooTrie.M g InternalStatus) fun _ => True :=
    fun f => insertBelowRoot f kv isUpsert
  refine free initLockMgr fun _ _ => after Quietly.getTrie fun t => ?_
  split
  · next f init =>
    refine (below f (initFinger_length init)).mono ?_
    rw [attemptStores]
    omega
  · refine Prog.Spends.mono (n := 5 + (2 * addEntryStores + 1 +
      splitLeafStores (numKeySymbols kv.key + 2) (numKeySymbols kv.key + 2) + 1)) ?_ ?_
    · refine Prog.Spends.bind (createRoot kv) fun ret _ => ?_
      cases ret with
      | exist =>
        exact free (Q := fun f => f.path.length = 1) (.find fun s f init => initFinger_length init)
          below
      | _ => exact .pure trivial
    · rw [attemptStores]
      omega

/-- An update makes one store. -/
theorem ctUpdateInternal (kv : CtKv) :
    Stores 1 (ctUpdateInternal kv : CuckooTrie.M g InternalStatus) fun _ => True := by
  refine free initLockMgr fun _ _ => after Quietly.getTrie fun t => ?_
  split
  · exact .pure trivial
  · refine searched fun r => .ite (fun _ => .pure trivial) fun _ => .ite (fun _ => .pure trivial)
      fun _ => after (Quietly.upgradeLock _) fun locked => ?_
    cases locked with
    | ok => exact one (n := 0) (updateEntry _ _) fun _ _ => finish _
    | _ => exact .pure trivial

end Stores

/-- The sequences do not run through their whole range in an attempt. -/
theorem attemptStores_lt (size : kv.key.length ≤ maxKeyBytes) :
    attemptStores (numKeySymbols kv.key) < 2 ^ 23 := by
  have few : numKeySymbols kv.key ≤ maxKeySymbols + 1 := by
    rw [numKeySymbols_eq]
    exact Nat.succ_le_succ (Nat.div_le_div_right (Nat.add_le_add_right
      (Nat.mul_le_mul_left 8 size) 4))
  rw [show maxKeySymbols + 1 = 411 from rfl] at few
  rw [attemptStores, splitLeafStores, show addEntryStores = 1003 from rfl]
  omega

/-- The window of the sequences in an attempt. -/
theorem Sys.Windowed.ctInsertInternal (size : kv.key.length ≤ maxKeyBytes) (isUpsert : Bool)
    (s : Sys g) : ((ctInsertInternal kv isUpsert).run s).2.Windowed s.trie.seq :=
  .of_history ((CuckooTrie.ctInsertInternal kv isUpsert).le_run s)
    ((Stores.ctInsertInternal kv isUpsert s).1.trans_lt
      (Nat.add_lt_add_left (attemptStores_lt size) _))

/-- An update stays in a window of two values. -/
theorem Sys.Windowed.ctUpdateInternal (kv : CtKv) (s : Sys g) :
    ((ctUpdateInternal kv).run s).2.Windowed s.trie.seq :=
  .of_history ((CuckooTrie.ctUpdateInternal kv).le_run s)
    ((Stores.ctUpdateInternal kv s).1.trans_lt (Nat.add_lt_add_left (by norm_num) _))

/-- **No sequence wraps around in an attempt.**  Whatever the memory holds and the other threads
refuse, an attempt to insert an object makes a number of stores that is linear in its key and less
than the number of values of a sequence, so the sequence of no bucket advances by as many; an
update makes one store. -/
theorem attempt_stores_bounded (kv : CtKv) (size : kv.key.length ≤ maxKeyBytes) (isUpsert : Bool)
    (s : Sys g) :
    (((ctInsertInternal kv isUpsert).run s).2.history.length ≤
        s.history.length + attemptStores (numKeySymbols kv.key) ∧
      attemptStores (numKeySymbols kv.key) < 2 ^ 23 ∧
      ((ctInsertInternal kv isUpsert).run s).2.Windowed s.trie.seq) ∧
    ((ctUpdateInternal kv).run s).2.history.length ≤ s.history.length + 1 ∧
      ((ctUpdateInternal kv).run s).2.Windowed s.trie.seq :=
  ⟨⟨(Stores.ctInsertInternal kv isUpsert s).1, attemptStores_lt size,
      .ctInsertInternal size isUpsert s⟩,
    (Stores.ctUpdateInternal kv s).1, .ctUpdateInternal kv s⟩

/-- A leaf is split by ten stores. -/
theorem attempt_stores_bounded_split :
    ((ctInsertInternal ⟨9, [0, 1]⟩ false).run (Sys.init smallTrie alone)).2.history.length = 10 ∧
      10 ≤ 0 + attemptStores (numKeySymbols [0, 1]) ∧
      attemptStores (numKeySymbols [0, 1]) < 2 ^ 23 := by
  have ten : ((ctInsertInternal ⟨9, [0, 1]⟩ false).run
      (Sys.init smallTrie alone)).2.history.length = 10 := by decide +kernel
  obtain ⟨⟨bounded, few, -⟩, -⟩ := attempt_stores_bounded ⟨9, [0, 1]⟩ (by decide) false
    (Sys.init smallTrie alone)
  rw [ten] at bounded
  exact ⟨ten, bounded, few⟩

end CuckooTrie
