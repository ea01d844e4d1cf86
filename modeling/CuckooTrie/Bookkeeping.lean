import CuckooTrie.Frame
import CuckooTrie.LockTable
import CuckooTrie.SearchFree
import CuckooTrie.Insert

/-!
# The books are balanced on every path

Every call of `ct_insert`, `ct_upsert` and `ct_update`, on any memory and whatever the
other threads do, keeps the books of the lock manager balanced after each of its
operations, and no lock is left when it returns (`lock_bookkeeping_balanced`).

Between two operations only the references on whole buckets matter for what comes next
(`Held`): a relocation needs its path, `add_entry` the bucket it writes to.  References on
entries move with them and are all given up at the end.
-/

namespace CuckooTrie

open Sys

variable {g : Geometry} {α β : Type} {others : ℕ → Bool} {N : ℕ∞} {n : ℕ} {H : Multiset ℕ}
  {R : References} {s : Sys g}

/-! ## What leaves the books alone -/

namespace LeavesLocks

theorem pure (a : α) : LeavesLocks (pure a : M g α) := Prog.Frames.pure SameLocks.refl a

theorem find (f : Sys g → Option α) : LeavesLocks (Prog.find f : M g α) :=
  Prog.Frames.find SameLocks.refl f

theorem read (f : Sys g → α) : LeavesLocks (Prog.read f : M g α) :=
  Prog.Frames.read SameLocks.refl f

theorem bind {f : M g α} {k : α → M g β} (first : LeavesLocks f)
    (rest : ∀ a, LeavesLocks (k a)) : LeavesLocks (f >>= k) :=
  Prog.Frames.bind (fun _ _ _ => SameLocks.trans) first rest

theorem ite {c : Prop} [Decidable c] {f f' : M g α} (pos : LeavesLocks f)
    (neg : LeavesLocks f') : LeavesLocks (if c then f else f') := Prog.Frames.ite pos neg

theorem writeEntry (loc : Loc) (e : Entry) : LeavesLocks (writeEntry loc e : M g Unit) :=
  Prog.Frames.update fun s => by
    refine ⟨?_, rfl, rfl, rfl⟩
    simp only [Sys.stored, Trie.write, Trie.store]

theorem storeField (loc : Loc) (f : Entry → Entry) :
    LeavesLocks (storeField loc f : M g Unit) :=
  Prog.Frames.update fun _ => ⟨rfl, rfl, rfl, rfl⟩

theorem recordSavedWrite (loc : Loc) (saved : Entry) (mark : ℕ) :
    LeavesLocks (recordSavedWrite loc saved mark : M g Unit) :=
  Prog.Frames.update fun _ => ⟨rfl, rfl, rfl, rfl⟩

theorem recordRelocation (r : Relocation) : LeavesLocks (recordRelocation r : M g Unit) :=
  Prog.Frames.update fun _ => ⟨rfl, rfl, rfl, rfl⟩

theorem recordSlowUpdate (lc : LocalCopy) : LeavesLocks (recordSlowUpdate lc : M g Unit) :=
  Prog.Frames.update fun _ => ⟨rfl, rfl, rfl, rfl⟩

theorem updateEntry (lc : LocalCopy) (e : Entry) :
    LeavesLocks (updateEntry lc e : M g LocalCopy) :=
  (read _).bind fun _ => ite
    ((writeEntry _ _).bind fun _ => (read _).bind fun _ => pure _)
    ((recordSlowUpdate lc).bind fun _ => (find _).bind fun _ => (writeEntry _ _).bind fun _ =>
      (read _).bind fun _ => pure _)

theorem removeEntryByValue (e : Entry) (h : ℕ) :
    LeavesLocks (removeEntryByValue e h : M g Unit) :=
  (find _).bind fun _ => writeEntry _ _

theorem removeNodes (nodes : List (Entry × ℕ)) : LeavesLocks (removeNodes nodes : M g Unit) := by
  induction nodes with
  | nil => exact pure _
  | cons node rest ih => exact (removeEntryByValue _ _).bind fun _ => ih

theorem propagateMaxLeaf (child : LocalCopy) (path : List PathEntry) :
    LeavesLocks (propagateMaxLeaf child path : M g Unit) := by
  induction path generalizing child with
  | nil => exact pure _
  | cons parent above ih =>
    exact ite (pure _) ((updateEntry _ _).bind fun newParent => ih newParent)

theorem validatePathFrom (path : List PathEntry) (pathPos : ℕ) :
    LeavesLocks (validatePathFrom path pathPos : M g Bool) := by
  rw [CuckooTrie.validatePathFrom]
  generalize (path.take (path.length + 1 - pathPos)).reverse = checked
  induction checked with
  | nil => exact pure _
  | cons e below ih => exact (validateEntry _).bind fun _ => ite ih (pure _)

theorem getPredecessorAtomic (path : List PathEntry) (predLocator : PredLocator) :
    LeavesLocks (getPredecessorAtomic path predLocator : M g (Option LocalCopy)) := by
  cases predLocator with
  | none => exact (read _).bind fun _ => (validatePathFrom _ _).bind fun _ => ite (pure _) (pure _)
  | some subtree =>
    refine (find _).bind fun subtreeRoot => ite ?_ ?_
    · exact (validatePathFrom _ _).bind fun _ => ite (pure _) (ite (pure _) (pure _))
    · exact (find _).bind fun _ => ite (pure _) ((validatePathFrom _ _).bind fun _ =>
        ite (pure _) ((validateEntry _).bind fun _ => ite (pure _) (ite (pure _) (pure _))))

end LeavesLocks

/-! ## References on buckets -/

/-- Without references on entries there are none if no bucket is held. -/
theorem Held.kept_none (held : Held others 0 0 s) : Kept others .none s := by
  obtain ⟨entries, none, kept⟩ := held
  obtain rfl := Multiset.card_eq_zero.mp (Nat.le_zero.mp none)
  exact kept

theorem Held.past (held : Held others n H s) : s.Bookkept others := by
  obtain ⟨entries, -, kept⟩ := held
  exact kept.past

theorem Kept.held {entries : Multiset Loc} (kept : Kept others ⟨H, entries⟩ s)
    (few : entries.card ≤ n) : Held others n H s := ⟨entries, few, kept⟩

theorem Held.quiet (held : Held others n H s) {f : M g α} (leaves : LeavesLocks f) :
    Books others f s fun _ s' => Held others n H s' := by
  obtain ⟨entries, few, kept⟩ := held
  exact (kept.quiet leaves).weaken fun _ _ kept => kept.held few

theorem Held.assertThat (held : Held others n H s) {a : Assertion} {holds : Sys g → Bool}
    (asserted : a = .lockListed ∨ a = .refcountPositive ∨ a = .byteSet → holds s = true) :
    Books others (assertThat a holds) s fun _ s' => Held others n H s' := by
  obtain ⟨entries, few, kept⟩ := held
  exact (kept.assertThat asserted).weaken fun _ _ kept => kept.held few

theorem Held.upgradeBucketLock (held : Held others n H s) (l : BucketReadLock) :
    Books others (upgradeBucketLock l) s fun ret s' =>
      (ret = .ok ∧ Held others n (l.bucket ::ₘ H) s') ∨ (ret = .retry ∧ Held others n H s') := by
  obtain ⟨entries, few, kept⟩ := held
  refine (kept.upgradeBucketLock l).weaken fun ret s' h => ?_
  exact h.imp (And.imp_right fun kept => Kept.held kept few)
    (And.imp_right fun kept => Kept.held kept few)

theorem Held.releaseBucketLock {b : ℕ} (held : Held others n (b ::ₘ H) s) :
    Books others (releaseBucketLock b) s fun _ s' => Held others n H s' := by
  obtain ⟨entries, few, kept⟩ := held
  exact (Kept.releaseBucketLock (R := ⟨H, entries⟩) kept).weaken fun _ _ kept => kept.held few

theorem Held.upgradeLock (held : Held others n H s) (lc : LocalCopy) :
    Books others (upgradeLock lc) s fun _ s' => Held others (n + 1) H s' := by
  obtain ⟨entries, few, kept⟩ := held
  refine (kept.upgradeLock lc).weaken fun ret s' h => ?_
  obtain ⟨-, kept⟩ | ⟨-, kept⟩ := h
  · refine Kept.held kept ?_
    rw [Multiset.card_cons]
    exact Nat.succ_le_succ few
  · exact kept.held (Nat.le_succ_of_le few)

theorem Held.releaseAllLocks (held : Held others n H s) :
    Books others releaseAllLocks s fun _ s' => Held others 0 0 s' := by
  obtain ⟨entries, -, kept⟩ := held
  exact kept.releaseAllLocks.weaken fun _ _ kept => Kept.held kept le_rfl

theorem Held.moveEntryLock {dst src : Loc} (held : Held others n H s) (heldDst : dst.bucket ∈ H)
    (heldSrc : src.bucket ∈ H) :
    Books others (moveEntryLock dst src) s fun _ s' => Held others n H s' := by
  obtain ⟨entries, few, kept⟩ := held
  refine (kept.moveEntryLock heldDst heldSrc).weaken fun _ s' h => ?_
  obtain ⟨entries', same, kept⟩ := h
  exact kept.held (same.le.trans few)

theorem Held.writeLockEntryInLockedBucket {loc : Loc} (held : Held others n H s)
    (mem : loc.bucket ∈ H) :
    Books others (writeLockEntryInLockedBucket loc) s fun _ s' => Held others (n + 1) H s' := by
  obtain ⟨entries, few, kept⟩ := held
  refine (kept.writeLockEntryInLockedBucket ?_).weaken fun _ _ kept => Kept.held kept ?_
  · exact Nat.add_pos_left (Multiset.count_pos.mpr mem) _
  · rw [Multiset.card_cons]
    exact Nat.succ_le_succ few

theorem Held.recordPath {path : List ℕ} (held : Held others n H s) :
    Books others (recordLocks (.path path)) s fun _ s' => Held others n H s' := by
  obtain ⟨entries, few, kept⟩ := held
  have changed : Unrecorded others ⟨H, entries⟩ (.path path) s :=
    ⟨kept.past, kept.listed, kept.outstanding⟩
  exact changed.recordLocks.weaken fun _ _ kept => kept.held few

/-- A lock that is asked for after a bucket was held. -/
theorem Held.listed {b : ℕ} (held : Held others n H s) (mem : b ∈ H) :
    (findWriteLock s.locks b).isSome = true := by
  obtain ⟨entries, -, kept⟩ := held
  rw [kept.listed.findWriteLock_eq, if_pos]
  · rfl
  · exact Nat.add_pos_left (Multiset.count_pos.mpr mem) _

/-! ## The path of a relocation -/

section Paths

variable {t : Trie g} {immovable : Option Loc} {start : ℕ} {queue queue' : List QueueEntry}
  {found : FreeCell}

/-- The queue starts with the bucket to make room in, and parents come before their
children. -/
structure RootedQueue (t : Trie g) (start : ℕ) (queue : List QueueEntry) : Prop where
  nonempty : 0 < queue.length
  head : (queue.getD 0 default).bucket = start
  parents : ∀ i < queue.length, 0 < i → (queue.getD i default).parentQueuePos < i
  readLocks : ∀ i < queue.length,
    (queue.getD i default).readLock = readLockBucket t (queue.getD i default).bucket

/-- The search has found a cell of the bucket it read-locked last. -/
structure RootedCell (t : Trie g) (start : ℕ) (queue : List QueueEntry) (found : FreeCell) :
    Prop where
  rooted : RootedQueue t start queue
  inside : found.queuePos < queue.length
  bucket : found.freeCell.bucket = found.readLock.bucket
  readLock : found.readLock = readLockBucket t found.readLock.bucket

theorem RootedQueue.append (rooted : RootedQueue t start queue) {q : QueueEntry}
    (parent : q.parentQueuePos < queue.length) (lock : q.readLock = readLockBucket t q.bucket) :
    RootedQueue t start (queue ++ [q]) where
  nonempty := by simp
  head := by
    rw [List.getD_append _ _ _ _ rooted.nonempty]
    exact rooted.head
  parents i inside positive := by
    rw [List.length_append, List.length_singleton] at inside
    rcases Nat.lt_or_eq_of_le (Nat.le_of_lt_succ inside) with before | rfl
    · rw [List.getD_append _ _ _ _ before]
      exact rooted.parents i before positive
    · rw [List.getD_append_right _ _ _ _ le_rfl, Nat.sub_self, List.getD_cons_zero]
      exact parent
  readLocks i inside := by
    rw [List.length_append, List.length_singleton] at inside
    rcases Nat.lt_or_eq_of_le (Nat.le_of_lt_succ inside) with before | rfl
    · rw [List.getD_append _ _ _ _ before]
      exact rooted.readLocks i before
    · rw [List.getD_append_right _ _ _ _ le_rfl, Nat.sub_self, List.getD_cons_zero]
      exact lock

theorem scanBucket_rooted {pos : ℕ} {cells : List (Fin 4)} {result : Option FreeCell}
    (rooted : RootedQueue t start queue) (inside : pos < queue.length)
    (scan : scanBucket t immovable pos cells queue = (queue', result)) :
    RootedQueue t start queue' ∧ queue.length ≤ queue'.length ∧
      ∀ found ∈ result, RootedCell t start queue' found := by
  induction cells generalizing queue with
  | nil =>
    cases scan
    exact ⟨rooted, le_rfl, nofun⟩
  | cons i cells ih =>
    rw [scanBucket] at scan
    split at scan
    · exact ih rooted inside scan
    split at scan
    · exact ih rooted inside scan
    simp only at scan
    split at scan
    · exact ih rooted inside scan
    split at scan
    · split at scan
      · obtain ⟨rooted', longer, cell⟩ :=
          ih (rooted.append inside rfl) (by simp; omega) scan
        rw [List.length_append, List.length_singleton] at longer
        exact ⟨rooted', by omega, cell⟩
      · exact ih rooted inside scan
    · next free =>
      cases scan
      refine ⟨rooted, le_rfl, ?_⟩
      rintro found isFound
      cases isFound
      exact ⟨rooted, inside, (findFreeCellInBucket_eq_some free).1, rfl⟩

theorem searchFreeCell_rooted {fuel pos : ℕ} (rooted : RootedQueue t start queue)
    (search : searchFreeCell t immovable fuel pos queue = some (queue', found)) :
    RootedCell t start queue' found := by
  induction fuel generalizing pos queue with
  | zero => cases search
  | succ fuel ih =>
    rw [searchFreeCell] at search
    split at search
    · next inside =>
      split at search
      · next scan =>
        cases search
        exact (scanBucket_rooted rooted inside scan).2.2 _ rfl
      · next scan => exact ih (scanBucket_rooted rooted inside scan).1 search
    · cases search

/-- The buckets of the cells that are moved are those of the path and the first one. -/
theorem sourceCells_buckets (rooted : RootedQueue t start queue) {fuel pos : ℕ} (i : Fin 4)
    (inside : pos < queue.length) (enough : pos < fuel) :
    (sourceCells queue fuel pos i).map (·.bucket) =
      (queuePath queue fuel pos).map (·.bucket) ++ [start] := by
  induction fuel generalizing pos i with
  | zero => cases enough
  | succ fuel ih =>
    cases pos with
    | zero =>
      rw [sourceCells, List.map_singleton, rooted.head]
      rfl
    | succ pos =>
      have parent := rooted.parents (pos + 1) inside (Nat.succ_pos pos)
      rw [sourceCells, queuePath]
      simp only [List.map_cons, List.cons_append]
      rw [ih _ (by omega) (by omega)]

theorem queuePath_readLocks (rooted : RootedQueue t start queue) {fuel pos : ℕ}
    (inside : pos < queue.length) :
    ∀ q ∈ queuePath queue fuel pos, q.readLock = readLockBucket t q.bucket := by
  induction fuel generalizing pos with
  | zero => exact fun q mem => absurd mem List.not_mem_nil
  | succ fuel ih =>
    cases pos with
    | zero => exact fun q mem => absurd mem List.not_mem_nil
    | succ pos =>
      have parent := rooted.parents (pos + 1) inside (Nat.succ_pos pos)
      intro q mem
      rcases List.mem_cons.mp mem with rfl | mem
      · exact rooted.readLocks _ inside
      · exact ih (by omega) q mem

end Paths

/-! ## Relocating -/

theorem Held.upgradePath {path : List QueueEntry} (held : Held others n H s)
    (locks : ∀ q ∈ path, q.readLock.bucket = q.bucket) :
    Books others (upgradePath path) s fun upgraded s' => Held others n (↑upgraded + H) s' ∧
      (upgraded.length = path.length → upgraded = path.map (·.bucket)) := by
  induction path generalizing s H with
  | nil => exact .pure held.past ⟨by simpa using held, fun _ => rfl⟩
  | cons q path ih =>
    rw [CuckooTrie.upgradePath]
    refine (held.upgradeBucketLock q.readLock).bind fun ret s₁ h => ?_
    obtain ⟨rfl, held⟩ | ⟨rfl, held⟩ := h
    · simp only
      rw [locks q List.mem_cons_self] at held
      refine (ih held fun q' mem => locks q' (List.mem_cons_of_mem _ mem)).bind
        fun upgraded s₂ h => ?_
      obtain ⟨held, all⟩ := h
      refine .pure held.past ⟨?_, fun same => ?_⟩
      · rw [← Multiset.cons_coe, Multiset.cons_add, ← Multiset.add_cons]
        exact held
      · rw [List.map_cons, all (by simpa using same)]
    · exact .pure held.past ⟨by simpa using held, by simp⟩

theorem Held.releaseBucketLocks {bs : List ℕ} (held : Held others n (↑bs + H) s) :
    Books others (releaseBucketLocks bs) s fun _ s' => Held others n H s' := by
  induction bs generalizing s with
  | nil => exact .pure held.past (by simpa using held)
  | cons b bs ih =>
    rw [← Multiset.cons_coe, Multiset.cons_add] at held
    exact held.releaseBucketLock.bind fun _ s₁ held => ih held

/-- The locks on the moved entries move with them, as long as all buckets are held. -/
theorem Held.moveEntries {free : Loc} {sources : List Loc} (held : Held others n H s)
    (heldFree : free.bucket ∈ H) (heldSources : ∀ src ∈ sources, src.bucket ∈ H) :
    Books others (moveEntries free sources) s fun _ s' => Held others n H s' := by
  induction sources generalizing s free with
  | nil => exact .pure held.past held
  | cons src rest ih =>
    have heldSrc := heldSources src List.mem_cons_self
    rw [CuckooTrie.moveEntries]
    refine (held.quiet (LeavesLocks.read _)).bind fun t s₁ held => ?_
    refine (held.quiet (LeavesLocks.writeEntry _ _)).bind fun _ s₂ held => ?_
    refine (held.moveEntryLock heldFree heldSrc).bind fun _ s₃ held => ?_
    refine .ite (fun _ => held.quiet (LeavesLocks.writeEntry _ _)) fun _ => ?_
    exact ih held heldSrc fun src' mem => heldSources src' (List.mem_cons_of_mem _ mem)

theorem Held.releasePath {queue : List QueueEntry} {found : FreeCell} {upgraded : List ℕ}
    (held : Held others n (↑upgraded + (found.readLock.bucket ::ₘ H)) s) :
    Books others (releasePath queue found upgraded) s fun _ s' => Held others n H s' := by
  rw [Multiset.add_cons] at held
  rw [CuckooTrie.releasePath]
  refine held.releaseBucketLock.bind fun _ s₁ held => ?_
  refine held.releaseBucketLocks.bind fun _ s₂ held => ?_
  exact held.assertThat (by simp)

/-- **Relocating along a path** holds its buckets while entries are moved. -/
theorem Held.relocateAlong {t : Trie g} {start : ℕ} {queue : List QueueEntry} {found : FreeCell}
    (held : Held others n H s) (heldStart : start ∈ H) (cell : RootedCell t start queue found) :
    Books others (relocateAlong queue found) s fun r s' =>
      Held others n H s' ∧ (r.1 = .ok → (r.2.getLastD default).bucket = start) := by
  have buckets := sourceCells_buckets cell.rooted found.childIdx cell.inside cell.inside
  rw [CuckooTrie.relocateAlong]
  refine (held.upgradeBucketLock found.readLock).bind fun ret s₁ h => ?_
  obtain ⟨rfl, held⟩ | ⟨rfl, held⟩ := h
  · simp only
    refine (held.upgradePath fun q mem => ?_).bind fun upgraded s₂ h => ?_
    · rw [queuePath_readLocks cell.rooted cell.inside q mem]
      rfl
    obtain ⟨held, all⟩ := h
    refine .ite (fun complete => ?_) fun _ => ?_
    · have heldSources : ∀ src ∈ sourceCells queue queue.length found.queuePos found.childIdx,
          src.bucket ∈ ↑upgraded + (found.readLock.bucket ::ₘ H) := by
        intro src mem
        have inBuckets := List.mem_map_of_mem (f := Loc.bucket) mem
        rw [buckets, ← all complete, List.mem_append, List.mem_singleton] at inBuckets
        rw [Multiset.mem_add, Multiset.mem_cons]
        rcases inBuckets with onPath | atStart
        · exact Or.inl (Multiset.mem_coe.mpr onPath)
        · exact Or.inr (Or.inr (atStart ▸ heldStart))
      refine (held.moveEntries ?_ heldSources).bind fun _ s₃ held => ?_
      · rw [cell.bucket, Multiset.mem_add]
        exact Or.inr (Multiset.mem_cons_self _ _)
      refine held.releasePath.bind fun _ s₄ held => .pure held.past ⟨held, fun _ => ?_⟩
      -- the last cell is the one in the bucket to make room in
      have last := congrArg List.getLast? buckets
      rw [List.getLast?_map, List.getLast?_concat] at last
      obtain ⟨loc, isLast, bucket⟩ := Option.map_eq_some_iff.mp last
      rw [List.getLastD_eq_getLast?, isLast]
      exact bucket
    · refine held.releasePath.bind fun _ s₃ held =>
        .pure held.past ⟨held, fun failed => by cases failed⟩
  · exact .pure held.past ⟨held, fun failed => by cases failed⟩

/-! ## Counting the slots -/

/-- A limit leaves room for less than it has room for. -/
theorem room_of_le {k m : ℕ} (room : (m : ℕ∞) ≤ N) (le : k ≤ m) : (k : ℕ∞) ≤ N :=
  (Nat.cast_le.mpr le).trans room

theorem Counted.quiet (counted : Counted others N n H s) {f : M g α} (leaves : LeavesLocks f) :
    Audit others N f s fun _ s' => Counted others N n H s' :=
  (counted.stay (counted.held.quiet leaves) (fun _ => .of_leaves leaves)
    fun _ _ held => held.nodup).weaken fun _ _ h => ⟨h.1, h.2⟩

theorem Counted.upgradeBucketLock (counted : Counted others N n H s) (l : BucketReadLock)
    (room : ((H.card + n + 1 : ℕ) : ℕ∞) ≤ N) :
    Audit others N (upgradeBucketLock l) s fun ret s' =>
      (ret = .ok ∧ Counted others N n (l.bucket ::ₘ H) s') ∨
        (ret = .retry ∧ Counted others N n H s') := by
  refine (counted.add (counted.held.upgradeBucketLock l)
    (fun _ mem => .upgradeBucketLock mem) room ?_).weaken ?_
  · rintro ret s' (⟨-, held⟩ | ⟨-, held⟩)
    · exact held.nodup
    · exact held.nodup
  · rintro ret s' ⟨⟨ok, held⟩ | ⟨retry, held⟩, roomy⟩
    · exact Or.inl ⟨ok, held, roomy⟩
    · exact Or.inr ⟨retry, held, roomy⟩

theorem Counted.releaseBucketLock {b : ℕ} (counted : Counted others N n (b ::ₘ H) s) :
    Audit others N (releaseBucketLock b) s fun _ s' => Counted others N n H s' :=
  (counted.stay counted.held.releaseBucketLock (fun _ => .releaseBucketLock b)
    fun _ _ held => held.nodup).weaken fun _ _ h => ⟨h.1, h.2⟩

theorem Counted.upgradeLock (counted : Counted others N n H s) (lc : LocalCopy)
    (room : ((H.card + n + 1 : ℕ) : ℕ∞) ≤ N) :
    Audit others N (upgradeLock lc) s fun _ s' => Counted others N (n + 1) H s' :=
  (counted.add (counted.held.upgradeLock lc) (fun _ mem => .upgradeLock mem) room
    fun _ _ held => held.nodup).weaken fun _ _ h => ⟨h.1, h.2⟩

theorem Counted.writeLockEntryInLockedBucket {loc : Loc} (counted : Counted others N n H s)
    (mem : loc.bucket ∈ H) :
    Audit others N (writeLockEntryInLockedBucket loc) s
      fun _ s' => Counted others N (n + 1) H s' :=
  (counted.stay (counted.held.writeLockEntryInLockedBucket mem)
    (fun _ => .writeLockEntryInLockedBucket loc) fun _ _ held => held.nodup).weaken
      fun _ _ h => ⟨h.1, h.2⟩

theorem Counted.releaseAllLocks (counted : Counted others N n H s) :
    Audit others N releaseAllLocks s fun _ s' => Counted others N 0 0 s' :=
  (counted.stay counted.held.releaseAllLocks (fun _ => .releaseAllLocks)
    fun _ _ held => held.nodup).weaken fun _ _ h => ⟨h.1, h.2⟩

/-- What is left when a flow has given up its locks. -/
theorem Counted.releaseAllLocks_pure (counted : Counted others N n H s) (a : α) :
    Audit others N (do CuckooTrie.releaseAllLocks; pure a) s
      fun _ s' => Counted others N 0 0 s' :=
  counted.releaseAllLocks.bind fun _ _ counted => .pure counted.audited counted

/-! ## Adding an entry -/

/-- A path that was found is recorded; the relocation then needs slots for its peak. -/
theorem Counted.recordedRelocation {start : ℕ} {queue : List QueueEntry} {found : FreeCell}
    (counted : Counted others N n H s) (heldStart : start ∈ H)
    (cell : RootedCell s.trie start queue found) (room : ((H.card + n : ℕ) : ℕ∞) ≤ N) :
    Audit others N
      (do
        recordLocks (.path (pathBuckets queue found))
        CuckooTrie.relocateAlong queue found) s fun r s' =>
      Counted others N n H s' ∧ (r.1 = .ok → (r.2.getLastD default).bucket = start) := by
  obtain ⟨held, roomy⟩ := counted
  refine .after (Q := fun _ s' => s' = { s with lockLog :=
    ⟨.path (pathBuckets queue found), s.trie.writeLock, s.locks, s.checks⟩ :: s.lockLog })
    (.update rfl) ?_
  rintro - s₁ rfl
  set p : LockRecord := ⟨.path (pathBuckets queue found), s.trie.writeLock, s.locks, s.checks⟩
  set s₁ : Sys g := { s with lockLog := p :: s.lockLog }
  have held₁ : Held others n H s₁ := held.recordPath.2 () rfl
  have readLocks : ∀ q ∈ queuePath queue queue.length found.queuePos,
      q.readLock = readLockBucket s₁.trie q.bucket :=
    queuePath_readLocks cell.rooted cell.inside
  have stays := relocateAlong_stays (s := s₁) (T := s₁.peak (pathBuckets queue found))
    cell.readLock readLocks (Finset.Subset.refl _)
  have within : s₁.Within N := by
    intro r mem
    rcases List.mem_cons.mp mem with rfl | earlier
    · exact Or.inl roomy.room
    · rcases roomy.within r earlier with few | ⟨p', hp', onPath⟩
      · exact Or.inl few
      · exact Or.inr ⟨p', List.mem_cons_of_mem _ hp', onPath⟩
  have tell : N ≠ ⊤ → ((relocateAlong queue found).run s₁).2.RecordsTell := by
    intro limited
    obtain ⟨slots, paths⟩ := roomy.tell limited
    have le := (relocateAlong queue found).le_run s₁
    refine stays.tell le (fun few => slots fun r mem => few r (List.mem_cons_of_mem _ mem)) ?_
    intro p' mem path event
    rcases List.mem_cons.mp mem with rfl | earlier
    · cases event
      exact relocateAlong_lists cell.readLock readLocks
        ⟨p, List.mem_cons_self, Finset.Subset.refl _⟩
    · obtain ⟨r, listed, subset⟩ := paths p' earlier path event
      exact ⟨r, le.lockLog.subset (List.mem_cons_of_mem _ listed), subset⟩
  refine (within.audit (held₁.relocateAlong heldStart cell) stays tell (fun l listed => ?_)
    fun r _ inside => Or.inr ⟨p, List.mem_cons_self, _, rfl, fun b listed => ?_⟩).weaken ?_
  · exact s₁.buckets_subset_peak _ (List.mem_toFinset.mpr (List.mem_map_of_mem listed))
  · obtain ⟨l, mem, rfl⟩ := List.mem_map.mp (List.mem_toFinset.mp listed)
    exact inside l mem
  · rintro r s₂ ⟨⟨held, last⟩, within, tell, -⟩
    exact ⟨⟨held, within, tell, room_of_le room held.length_le⟩, last⟩

/-- **Relocating** needs slots for its peak, and none afterwards. -/
theorem Counted.relocateEntry {bucketNum : ℕ} (counted : Counted others N n H s)
    (mem : bucketNum ∈ H) (immovable : Option Loc) (room : ((H.card + n : ℕ) : ℕ∞) ≤ N) :
    Audit others N (relocateEntry bucketNum immovable) s fun r s' =>
      Counted others N n H s' ∧ (r.1 = .ok → (r.2.getLastD default).bucket = bucketNum) := by
  rw [CuckooTrie.relocateEntry]
  refine Prog.Keeps.bind (Q := fun locked s' => locked = true ∧ Counted others N n H s')
    (.read counted.audited ⟨counted.held.listed mem, counted⟩) ?_
  rintro - s₁ ⟨rfl, counted⟩
  refine (counted.stay (counted.held.assertThat fun _ => rfl) (fun _ => .assertThat (by decide) _)
    fun _ _ held => held.nodup).bind ?_
  rintro - s₂ ⟨held, roomy⟩
  have counted : Counted others N n H s₂ := ⟨held, roomy⟩
  refine Prog.Keeps.bind (Q := fun t s' => t = s'.trie ∧ Counted others N n H s')
    (.read counted.audited ⟨rfl, counted⟩) ?_
  rintro - s₃ ⟨rfl, counted⟩
  have rooted : RootedQueue s₃.trie bucketNum
      [⟨bucketNum, readLockBucket s₃.trie bucketNum, 0, 0⟩] := by
    refine ⟨Nat.one_pos, rfl, fun i inside positive => ?_, fun i inside => ?_⟩
    · rw [List.length_singleton] at inside
      omega
    · obtain rfl : i = 0 := by simpa using inside
      rfl
  split
  · exact .pure counted.audited ⟨counted, nofun⟩
  · next search => exact counted.recordedRelocation mem (searchFreeCell_rooted rooted search) room

/-- The part of `add_entry` after its free cell is found gives up the bucket. -/
theorem Counted.addEntryAt {h : ℕ} {entry : Entry} {lock flagSecondary : Bool} {result : Loc}
    {alternateBucketLock : BucketReadLock}
    (counted : Counted others N n (result.bucket ::ₘ H) s) :
    Audit others N (addEntryAt h entry lock result alternateBucketLock flagSecondary) s
      fun _ s' => Counted others N (n + 1) H s' := by
  rw [CuckooTrie.addEntryAt]
  have enter : ∀ {k : Unit → M g (InternalStatus × Entry × Loc)},
      (∀ s₁, Counted others N (n + 1) (result.bucket ::ₘ H) s₁ →
        Audit others N (k ()) s₁ fun _ s' => Counted others N (n + 1) H s') →
      Audit others N
        (if lock = true then CuckooTrie.writeLockEntryInLockedBucket result >>= k else k ()) s
        fun _ s' => Counted others N (n + 1) H s' := by
    intro k rest
    cases lock with
    | false => exact rest s (counted.mono (Nat.le_succ n))
    | true =>
      exact (counted.writeLockEntryInLockedBucket (Multiset.mem_cons_self _ _)).bind
        fun _ s₁ counted => rest s₁ counted
  refine enter fun s₁ counted => ?_
  refine (counted.quiet (LeavesLocks.read _)).bind fun t s₂ counted => ?_
  refine (counted.quiet (LeavesLocks.writeEntry _ _)).bind fun _ s₃ counted => ?_
  refine (counted.quiet (LeavesLocks.readUnlockBucket _)).bind fun unchanged s₄ counted => ?_
  refine .ite (fun _ => ?_) fun _ => ?_
  · exact counted.releaseBucketLock.bind fun _ s₅ counted => .pure counted.audited counted
  · refine (counted.quiet (LeavesLocks.writeEntry _ _)).bind fun _ s₅ counted => ?_
    exact counted.releaseBucketLock.bind fun _ s₆ counted => .pure counted.audited counted

/-- **`add_entry`** gives up the references on buckets that it takes.  It needs one slot. -/
theorem Counted.addEntry (counted : Counted others N n H s) (h : ℕ) (entry : Entry)
    (immovable : Option Loc) (lock : Bool) (room : ((H.card + n + 1 : ℕ) : ℕ∞) ≤ N) :
    Audit others N (addEntry h entry immovable lock) s
      fun _ s' => Counted others N (n + 1) H s' := by
  rw [CuckooTrie.addEntry]
  refine (counted.quiet (LeavesLocks.read _)).bind fun t s₁ counted => ?_
  simp only
  split
  · next result free =>
    obtain ⟨bucket, -⟩ := findFreeCellInBucket_eq_some free
    refine (counted.upgradeBucketLock _ room).bind fun ret s₂ h₂ => ?_
    obtain ⟨rfl, counted⟩ | ⟨rfl, counted⟩ := h₂
    · exact Counted.addEntryAt (bucket ▸ counted)
    · exact .pure counted.audited (counted.mono (Nat.le_succ n))
  · split
    · next result free =>
      obtain ⟨bucket, -⟩ := findFreeCellInBucket_eq_some free
      refine (counted.upgradeBucketLock _ room).bind fun ret s₂ h₂ => ?_
      obtain ⟨rfl, counted⟩ | ⟨rfl, counted⟩ := h₂
      · exact Counted.addEntryAt (bucket ▸ counted)
      · exact .pure counted.audited (counted.mono (Nat.le_succ n))
    · refine (counted.upgradeBucketLock _ room).bind fun ret s₂ h₂ => ?_
      obtain ⟨rfl, counted⟩ | ⟨rfl, counted⟩ := h₂
      · refine (counted.relocateEntry (Multiset.mem_cons_self _ _) immovable ?_).bind ?_
        · rw [Multiset.card_cons]
          exact room_of_le room (by omega)
        rintro ⟨ret, sources⟩ s₃ ⟨counted, last⟩
        refine .ite (fun ok => ?_) fun _ => ?_
        · refine (counted.quiet (LeavesLocks.recordRelocation _)).bind fun _ s₄ counted => ?_
          exact Counted.addEntryAt ((last ok).symm ▸ counted)
        · exact (Counted.releaseBucketLock counted).bind fun _ s₄ counted =>
            .pure counted.audited (counted.mono (Nat.le_succ n))
      · exact .pure counted.audited (counted.mono (Nat.le_succ n))

/-! ## Inserting a leaf below a bitmap -/

/-- The entries that were locked are unlocked again. -/
theorem Kept.writeUnlocks {locked : List Loc} {entries : Multiset Loc}
    (kept : Kept others ⟨H, ↑locked + entries⟩ s) :
    Books others (locked.forM CuckooTrie.writeUnlock) s
      fun _ s' => Kept others ⟨H, entries⟩ s' := by
  induction locked generalizing s with
  | nil => exact .pure kept.past (by simpa using kept)
  | cons loc locked ih =>
    rw [← Multiset.cons_coe, Multiset.cons_add] at kept
    refine (Kept.writeUnlock (R := ⟨H, ↑locked + entries⟩) kept).bind fun _ s₁ kept => ?_
    exact ih kept

theorem LocksIn.writeUnlocks {T : Finset ℕ} (locked : List Loc) :
    LocksIn T (locked.forM CuckooTrie.writeUnlock : M g Unit) := by
  induction locked with
  | nil => exact LocksIn.pure _
  | cons loc locked ih => exact (LocksIn.writeUnlock loc).bind fun _ => ih

/-- **`upgrade_locks_on_left_parents_above`**: what it locked it also unlocks when it
fails. -/
theorem Kept.lockLeftParents {path : List PathEntry} {entries : Multiset Loc} (locked : List Loc)
    (kept : Kept others ⟨H, ↑locked + entries⟩ s) (roomy : s.Roomy N) (few : entries.card ≤ n)
    (room : ((H.card + (n + locked.length + (path.length - 1)) : ℕ) : ℕ∞) ≤ N) :
    Audit others N (lockLeftParents locked path) s fun _ s' =>
      Counted others N (n + locked.length + (path.length - 1)) H s' := by
  have counted : ∀ {s : Sys g} {locked : List Loc}, Kept others ⟨H, ↑locked + entries⟩ s →
      s.Roomy N → Counted others N (n + locked.length) H s := by
    refine fun kept roomy => ⟨kept.held ?_, roomy⟩
    rw [Multiset.card_add, Multiset.coe_card, Nat.add_comm]
    exact Nat.add_le_add_right few _
  induction path generalizing s locked with
  | nil => exact .pure (counted kept roomy).audited (counted kept roomy)
  | cons child above ih =>
    cases above with
    | nil => exact .pure (counted kept roomy).audited (counted kept roomy)
    | cons parent above =>
      have stop : ∀ {s : Sys g} {ret : InternalStatus}, Counted others N (n + locked.length) H s →
          Audit others N (pure ret) s fun _ s' =>
            Counted others N (n + locked.length + (above.length + 1)) H s' := fun counted =>
        .pure counted.audited (counted.mono (Nat.le_add_right _ _))
      rw [CuckooTrie.lockLeftParents]
      refine .ite (fun _ => stop (counted kept roomy)) fun _ => ?_
      refine ((counted kept roomy).add (kept.upgradeLock parent.entry)
        (fun _ mem => .upgradeLock mem) (room_of_le room (by simp)) ?_).bind ?_
      · rintro ret s₁ (⟨-, kept⟩ | ⟨-, kept⟩)
        · exact kept.listed.nodup
        · exact kept.listed.nodup
      rintro ret s₁ ⟨⟨rfl, kept⟩ | ⟨rfl, kept⟩, roomy⟩
      · have same : n + (parent.entry.lastPos :: locked).length + ((parent :: above).length - 1) =
            n + locked.length + ((child :: parent :: above).length - 1) := by
          simp only [List.length_cons]
          omega
        refine (ih (parent.entry.lastPos :: locked) ?_ roomy ?_).weaken fun _ _ counted => ?_
        · rw [← Multiset.cons_coe, Multiset.cons_add]
          exact kept
        · rw [same]
          exact room
        · exact same ▸ counted
      · refine ((counted kept roomy).stay kept.writeUnlocks (fun _ => .writeUnlocks _)
          fun _ _ kept => kept.listed.nodup).bind ?_
        rintro - s₂ ⟨kept, roomy⟩
        exact stop ⟨kept.held (few.trans (Nat.le_add_right _ _)), roomy⟩

theorem Counted.lockLeftParents (counted : Counted others N n H s) (path : List PathEntry)
    (room : ((H.card + (n + (path.length - 1)) : ℕ) : ℕ∞) ≤ N) :
    Audit others N (upgradeLocksOnLeftParentsAbove path) s
      fun _ s' => Counted others N (n + (path.length - 1)) H s' := by
  obtain ⟨⟨entries, few, kept⟩, roomy⟩ := counted
  exact Kept.lockLeftParents [] (by simpa using kept) roomy few room

/-- The locks of the bitmap flow: the path and the predecessor. -/
theorem Counted.bitmapChildLocks (counted : Counted others N 0 0 s) {f : Finger}
    (onPath : f.path ≠ []) (predLocator : PredLocator)
    (room : ((f.path.length + 1 : ℕ) : ℕ∞) ≤ N) :
    Audit others N (bitmapChildLocks f predLocator) s
      fun _ s' => Counted others N (f.path.length + 1) 0 s' := by
  have positive := List.length_pos_iff.mpr onPath
  rw [CuckooTrie.bitmapChildLocks]
  refine (counted.upgradeLock _ (room_of_le room (by simp))).bind fun ret s₁ counted => ?_
  refine .ite (fun _ => .pure counted.audited (counted.mono (by omega))) fun _ => ?_
  refine (counted.lockLeftParents _ (room_of_le room ?_)).bind fun ret s₂ counted => ?_
  · rw [Multiset.card_zero]
    omega
  refine .ite (fun _ => .pure counted.audited (counted.mono (by omega))) fun _ => ?_
  refine (counted.quiet (LeavesLocks.getPredecessorAtomic _ _)).bind
    fun predecessor s₃ counted => ?_
  cases predecessor with
  | none => exact .pure counted.audited (counted.mono (by omega))
  | some predecessor =>
    refine (counted.upgradeLock _ (room_of_le room ?_)).bind fun ret s₄ counted => ?_
    · rw [Multiset.card_zero]
      omega
    · have counted := counted.mono (m := f.path.length + 1) (by omega)
      exact .ite (fun _ => .pure counted.audited counted) fun _ => .pure counted.audited counted

theorem Counted.bitmapChildPublish (counted : Counted others N n H s) {f : Finger}
    (onPath : f.path ≠ []) (predecessor : LocalCopy) (symbol : ℕ) (child : Locator) :
    Audit others N (bitmapChildPublish f predecessor symbol child) s
      fun _ s' => Counted others N 0 0 s' := by
  rw [CuckooTrie.bitmapChildPublish]
  refine (counted.quiet (LeavesLocks.updateEntry _ _)).bind fun predecessor s₁ counted => ?_
  refine (counted.quiet (LeavesLocks.updateEntry _ _)).bind fun predecessor s₂ counted => ?_
  cases hpath : f.path with
  | nil => exact absurd hpath onPath
  | cons last above =>
    refine (counted.quiet (LeavesLocks.updateEntry _ _)).bind fun newBitmap s₃ counted => ?_
    refine (counted.quiet (LeavesLocks.propagateMaxLeaf _ _)).bind fun _ s₄ counted => ?_
    refine (counted.quiet (LeavesLocks.updateEntry _ _)).bind fun _ s₅ counted => ?_
    exact counted.releaseAllLocks

theorem Counted.createLeafAtBitmap (counted : Counted others N 0 0 s) {f : Finger}
    (onPath : f.path ≠ []) (kv : CtKv) (nextSymbol : ℕ)
    (room : ((f.path.length + 2 : ℕ) : ℕ∞) ≤ N) :
    Audit others N (createLeafAtBitmap f kv nextSymbol) s
      fun _ s' => Counted others N 0 0 s' := by
  rw [CuckooTrie.createLeafAtBitmap]
  refine (counted.bitmapChildLocks onPath _ (room_of_le room (Nat.le_succ _))).bind
    fun predecessor s₁ counted => ?_
  cases predecessor with
  | none => exact counted.releaseAllLocks_pure _
  | some predecessor =>
    refine (counted.addEntry _ _ _ _ (room_of_le room (by simp))).bind ?_
    rintro ⟨ret, content, newLeaf⟩ s₂ counted
    refine .ite (fun _ => counted.releaseAllLocks_pure _) fun _ => ?_
    refine (counted.quiet (LeavesLocks.storeField _ _)).bind fun _ s₃ counted => ?_
    refine (counted.bitmapChildPublish onPath _ _ _).bind fun _ s₄ counted => ?_
    exact .pure counted.audited counted

/-! ## Splitting a leaf -/

theorem Counted.splitLeafFailed (counted : Counted others N n H s) (ret : InternalStatus)
    (added : List (Entry × ℕ)) :
    Audit others N (splitLeafFailed ret added) s fun _ s' => Counted others N 0 0 s' := by
  rw [CuckooTrie.splitLeafFailed]
  refine .ite (fun _ => ?_) fun _ => counted.releaseAllLocks_pure _
  exact (counted.quiet (LeavesLocks.removeNodes _)).bind fun _ s₁ counted =>
    counted.releaseAllLocks_pure _

theorem mapPathHead_length (f : Entry → Entry) (nodes : List (Entry × ℕ)) :
    (mapPathHead f nodes).length = nodes.length := by
  induction nodes with
  | nil => rfl
  | cons node above ih =>
    cases above with
    | nil => rfl
    | cons parent above => simpa [mapPathHead] using ih

/-- The nodes that are added for a path are its jump nodes and a bitmap. -/
theorem LeafPath.added_length (path : LeafPath) (f : Entry → Entry) (minimalChild maximalChild : ℕ)
    (maxLeaf : Locator) :
    (setPathMaxLeaf maxLeaf (setPathChildren minimalChild maximalChild
      (mapPathHead f path.addBitmap))).length = path.nodes.length + 1 := by
  have same := mapPathHead_length f path.addBitmap
  cases hnodes : mapPathHead f path.addBitmap with
  | nil =>
    rw [hnodes, addBitmap] at same
    cases same
  | cons bitmap above =>
    rw [hnodes] at same
    simpa [setPathMaxLeaf, setPathChildren, addBitmap] using same

/-- The path nodes but for the head are locked. -/
theorem Counted.addPathNodes (counted : Counted others N n H s) (childColor : Option ℕ)
    (nodes : List (Entry × ℕ)) (room : ((H.card + (n + (nodes.length - 1)) : ℕ) : ℕ∞) ≤ N) :
    Audit others N (addPathNodes childColor nodes) s
      fun _ s' => Counted others N (n + (nodes.length - 1)) H s' := by
  induction nodes generalizing s n childColor with
  | nil => exact .pure counted.audited counted
  | cons node above ih =>
    obtain ⟨node, hash⟩ := node
    rw [List.length_cons, Nat.add_sub_cancel] at room ⊢
    rw [CuckooTrie.addPathNodes.eq_def]
    simp only
    refine .ite (fun _ => .pure counted.audited (counted.mono (Nat.le_add_right _ _)))
      fun more => ?_
    have positive : 0 < above.length := List.length_pos_iff.mpr (by simpa using more)
    refine (counted.addEntry _ _ _ _ (room_of_le room (by omega))).bind ?_
    rintro ⟨ret, node, newLoc⟩ s₁ counted
    refine .ite (fun _ => ?_) fun _ => .pure counted.audited (counted.mono (by omega))
    have same : n + 1 + (above.length - 1) = n + above.length := by omega
    refine (ih counted _ (same ▸ room)).bind fun _ s₂ counted => ?_
    exact .pure counted.audited (same ▸ counted)

/-- The locks `split_leaf` takes above the node it splits, and what follows them. -/
theorem Counted.lockAboveLeaf (counted : Counted others N 0 0 s) {path : List PathEntry}
    {m : ℕ} (room : ((path.length + 1 : ℕ) : ℕ∞) ≤ N)
    {k : InternalStatus → M g (Option LocalCopy)}
    (rest : ∀ ret s₁, Counted others N (path.length - 1) 0 s₁ →
      Audit others N (k ret) s₁ fun _ s' => Counted others N m 0 s') :
    Audit others N
      (match path with
      | _ :: parent :: above => do
        match ← CuckooTrie.upgradeLock parent.entry with
        | .ok =>
          let ret ← upgradeLocksOnLeftParentsAbove (parent :: above)
          k ret
        | ret =>
          let ret ← pure ret
          k ret
      | _ => do
        let ret ← pure InternalStatus.ok
        k ret) s fun _ s' => Counted others N m 0 s' := by
  split
  · next child parent above =>
    have enough : 1 + ((parent :: above).length - 1) ≤
        (child :: parent :: above).length - 1 := by
      simp only [List.length_cons]
      omega
    refine (counted.upgradeLock _ (room_of_le room (by simp))).bind fun ret s₁ counted => ?_
    have started := counted.mono (m := (child :: parent :: above).length - 1) (by simp)
    cases ret with
    | ok =>
      refine (counted.lockLeftParents _ (room_of_le room ?_)).bind fun ret s₂ counted => ?_
      · rw [Multiset.card_zero]
        omega
      · exact rest ret s₂ (counted.mono (by omega))
    | retry => exact rest _ s₁ started
    | exist => exact rest _ s₁ started
    | fail => exact rest _ s₁ started
  · exact rest _ s (counted.mono (Nat.zero_le _))

/-- The locks `split_leaf` takes first: the path and the predecessor. -/
theorem Counted.splitLeafLocks (counted : Counted others N 0 0 s) {f : Finger}
    (onPath : f.path ≠ []) (predLocator : PredLocator)
    (room : ((f.path.length + 1 : ℕ) : ℕ∞) ≤ N) :
    Audit others N (splitLeafLocks f predLocator) s
      fun _ s' => Counted others N (f.path.length + 1) 0 s' := by
  have positive := List.length_pos_iff.mpr onPath
  rw [CuckooTrie.splitLeafLocks]
  refine counted.lockAboveLeaf room fun ret s₁ counted => ?_
  refine .ite (fun _ => .pure counted.audited (counted.mono (by omega))) fun _ => ?_
  refine (counted.upgradeLock _ (room_of_le room ?_)).bind fun ret s₂ counted => ?_
  · rw [Multiset.card_zero]
    omega
  refine .ite (fun _ => .pure counted.audited (counted.mono (by omega))) fun _ => ?_
  refine (counted.quiet (LeavesLocks.getPredecessorAtomic _ _)).bind
    fun predecessor s₃ counted => ?_
  cases predecessor with
  | none => exact .pure counted.audited (counted.mono (by omega))
  | some predecessor =>
    refine (counted.upgradeLock _ (room_of_le room ?_)).bind fun ret s₄ counted => ?_
    · rw [Multiset.card_zero]
      omega
    · have counted := counted.mono (m := f.path.length + 1) (by omega)
      exact .ite (fun _ => .pure counted.audited counted) fun _ => .pure counted.audited counted

theorem Counted.splitLeafPublish (counted : Counted others N n H s) {f : Finger}
    (onPath : f.path ≠ []) (predecessor : LocalCopy) (head : Entry) (minimalLeaf : Locator) :
    Audit others N (splitLeafPublish f predecessor head minimalLeaf) s
      fun _ s' => Counted others N 0 0 s' := by
  rw [CuckooTrie.splitLeafPublish]
  refine (counted.quiet (LeavesLocks.updateEntry _ _)).bind fun predecessor s₁ counted => ?_
  cases hpath : f.path with
  | nil => exact absurd hpath onPath
  | cons last above =>
    refine (counted.quiet (LeavesLocks.updateEntry _ _)).bind fun newHead s₂ counted => ?_
    refine (counted.quiet (LeavesLocks.updateEntry _ _)).bind fun predecessor s₃ counted => ?_
    refine (counted.quiet (LeavesLocks.propagateMaxLeaf _ _)).bind fun _ s₄ counted => ?_
    refine (counted.quiet (LeavesLocks.updateEntry _ _)).bind fun _ s₅ counted => ?_
    exact counted.releaseAllLocks

/-- The slots of `split_leaf` besides those of its first locks are for the two leaves and
for the nodes after the head. -/
theorem Counted.splitLeaf (counted : Counted others N 0 0 s) {f : Finger} (onPath : f.path ≠ [])
    (kv : CtKv) (isMaximal : Bool) (predLocator : PredLocator)
    (room : ((f.path.length + 1 : ℕ) : ℕ∞) ≤ N)
    (roomBelow : ∀ r, LeafPath.walk g f.containingEntry.value.body.kv kv
      (numKeySymbols kv.key + 1) ⟨[], f.prefixLen, f.prefixHash, f.lastPrefixSymbol⟩ = some r →
        ((f.path.length + r.1.nodes.length + 3 : ℕ) : ℕ∞) ≤ N) :
    Audit others N (splitLeaf f kv isMaximal predLocator) s
      fun _ s' => Counted others N 0 0 s' := by
  rw [CuckooTrie.splitLeaf]
  simp only
  refine (counted.splitLeafLocks onPath predLocator room).bind fun predecessor s₁ counted => ?_
  cases predecessor with
  | none => exact counted.splitLeafFailed _ _
  | some predecessor =>
    refine Prog.Keeps.bind (Q := fun r s' =>
      ((f.path.length + r.1.nodes.length + 3 : ℕ) : ℕ∞) ≤ N ∧
        Counted others N (f.path.length + 1) 0 s')
      (.find counted.audited fun r found => ⟨roomBelow r found, counted⟩) ?_
    rintro ⟨path, existingKeySymbol, newKeySymbol⟩ s₂ ⟨room, counted⟩
    simp only at room
    refine (counted.addEntry _ _ _ _ (room_of_le room ?_)).bind ?_
    · rw [Multiset.card_zero]
      omega
    rintro ⟨ret, maximalLeafContent, maximalLeaf⟩ s₃ counted
    refine .ite (fun _ => counted.splitLeafFailed _ _) fun _ => ?_
    refine (counted.quiet (LeavesLocks.storeField _ _)).bind fun _ s₄ counted => ?_
    refine (counted.quiet (LeavesLocks.storeField _ _)).bind fun _ s₅ counted => ?_
    refine (counted.quiet (LeavesLocks.read _)).bind fun t s₆ counted => ?_
    refine (counted.quiet (LeavesLocks.read _)).bind fun mark s₇ counted => ?_
    refine (counted.addPathNodes _ _ (room_of_le room ?_)).bind ?_
    · simp only [Multiset.card_zero, LeafPath.added_length]
      omega
    rintro ⟨ret, written, pathNodes⟩ s₈ counted
    refine .ite (fun _ => counted.splitLeafFailed _ _) fun _ => ?_
    refine (counted.quiet (LeavesLocks.recordSavedWrite _ _ _)).bind fun _ s₉ counted => ?_
    refine (counted.quiet (LeavesLocks.storeField _ _)).bind fun _ s₁₀ counted => ?_
    refine (counted.addEntry _ _ _ _ (room_of_le room ?_)).bind ?_
    · simp only [Multiset.card_zero, LeafPath.added_length]
      omega
    rintro ⟨ret, minimalLeafContent, minimalLeaf⟩ s₁₁ counted
    refine .ite (fun _ => counted.splitLeafFailed _ _) fun _ => ?_
    refine (counted.splitLeafPublish onPath _ _ _).bind fun _ s₁₂ counted => ?_
    exact .pure counted.audited counted

/-! ## Splitting a jump node -/

theorem Counted.splitJumpFailed (counted : Counted others N n H s) (ret : InternalStatus)
    (bitmap : Option (Entry × ℕ)) :
    Audit others N (splitJumpFailed ret bitmap) s fun _ s' => Counted others N 0 0 s' := by
  rw [CuckooTrie.splitJumpFailed]
  refine .ite (fun _ => ?_) fun _ => counted.releaseAllLocks_pure _
  cases bitmap with
  | none => exact counted.releaseAllLocks_pure _
  | some node =>
    exact (counted.quiet (LeavesLocks.removeEntryByValue _ _)).bind fun _ s₁ counted =>
      counted.releaseAllLocks_pure _

theorem Counted.lockJumpChild (counted : Counted others N n H s) (jumpNode : Entry)
    (hasTail : Bool) (tailPrefixHash : ℕ) (room : ((H.card + n + 1 : ℕ) : ℕ∞) ≤ N) :
    Audit others N (lockJumpChild jumpNode hasTail tailPrefixHash) s
      fun _ s' => Counted others N (n + 1) H s' := by
  rw [CuckooTrie.lockJumpChild]
  refine .ite (fun _ => .pure counted.audited (counted.mono (Nat.le_succ n))) fun _ => ?_
  refine (counted.quiet (LeavesLocks.find _)).bind fun child s₁ counted => ?_
  refine (counted.quiet (LeavesLocks.read _)).bind fun mark s₂ counted => ?_
  refine (counted.upgradeLock _ room).bind fun ret s₃ counted => ?_
  cases ret with
  | ok => exact .pure counted.audited counted
  | retry => exact .pure counted.audited counted
  | exist => exact .pure counted.audited counted
  | fail => exact .pure counted.audited counted

theorem Counted.splitJumpBelow (counted : Counted others N n H s) (jumpNode : Entry)
    (depth bitmapColor splitSymbol tailPrefixHash : ℕ) (bitmapLoc : Option Loc)
    (child : Option JumpChild) (room : ((H.card + n + 1 : ℕ) : ℕ∞) ≤ N) :
    Audit others N
      (splitJumpBelow jumpNode depth bitmapColor splitSymbol tailPrefixHash bitmapLoc child) s
      fun _ s' => Counted others N (n + 1) H s' := by
  cases child with
  | none =>
    exact (counted.addEntry _ _ _ _ room).bind fun _ s₁ counted => .pure counted.audited counted
  | some child =>
    refine (counted.quiet (LeavesLocks.recordSavedWrite _ _ _)).bind fun _ s₁ counted => ?_
    refine (counted.quiet (LeavesLocks.read _)).bind fun t s₂ counted => ?_
    refine (counted.quiet (LeavesLocks.writeEntry _ _)).bind fun _ s₃ counted => ?_
    exact .pure counted.audited (counted.mono (Nat.le_succ n))

/-- The slots of `split_jump_node` are for the jump node, its child, the bitmap and the
tail. -/
theorem Counted.splitJumpNode (counted : Counted others N 0 0 s) {f : Finger}
    (onPath : f.path ≠ []) (room : ((4 : ℕ) : ℕ∞) ≤ N) :
    Audit others N (splitJumpNode f) s fun _ s' => Counted others N 0 0 s' := by
  have failed : ∀ {n : ℕ} {s : Sys g}, Counted others N n 0 s →
      ∀ (ret : InternalStatus) (bitmap : Option (Entry × ℕ)),
        Audit others N (do let ret ← CuckooTrie.splitJumpFailed ret bitmap; pure (ret, f)) s
          fun _ s' => Counted others N 0 0 s' := fun counted ret bitmap =>
    (counted.splitJumpFailed ret bitmap).bind fun _ _ counted => .pure counted.audited counted
  rw [CuckooTrie.splitJumpNode]
  simp only
  refine (counted.lockJumpChild _ _ _ (room_of_le room (by simp))).bind fun child s₁ counted => ?_
  cases child with
  | none => exact failed counted _ _
  | some child =>
    refine (counted.upgradeLock _ (room_of_le room (by simp))).bind fun ret s₂ counted => ?_
    refine .ite (fun _ => failed counted _ _) fun _ => .ite (fun _ => ?_) fun _ => ?_
    · refine (counted.splitJumpBelow _ _ _ _ _ _ _ (room_of_le room (by simp))).bind
        fun ret s₃ counted => .ite (fun _ => failed counted _ _) fun _ => ?_
      cases hpath : f.path with
      | nil => exact absurd hpath onPath
      | cons last above =>
        refine (counted.quiet (LeavesLocks.updateEntry _ _)).bind fun newLast s₄ counted => ?_
        exact counted.releaseAllLocks_pure _
    · refine (counted.addEntry _ _ _ _ (room_of_le room (by simp))).bind ?_
      rintro ⟨ret, bitmapNode, bitmapLoc⟩ s₃ counted
      refine .ite (fun _ => failed counted _ _) fun _ => ?_
      refine (counted.quiet (LeavesLocks.read _)).bind fun t s₄ counted => ?_
      refine (counted.splitJumpBelow _ _ _ _ _ _ _ (room_of_le room (by simp))).bind
        fun ret s₅ counted => .ite (fun _ => failed counted _ _) fun _ => ?_
      cases hpath : f.path with
      | nil => exact absurd hpath onPath
      | cons last above =>
        refine (counted.quiet (LeavesLocks.updateEntry _ _)).bind fun newLast s₆ counted => ?_
        exact counted.releaseAllLocks_pure _

/-- `split_jump_node` adds an entry to the path if the finger is not at the start of the
jump node. -/
theorem splitJumpNode_path (f : Finger) (onPath : f.path ≠ []) (s : Sys g) :
    (splitJumpNode f).Keeps (fun _ => True) s fun r _ =>
      r.1 = .ok → r.2.path.length = f.path.length + if f.depthInJump = 0 then 0 else 1 := by
  have any : ∀ {α : Type} (f : M g α) (s : Sys g),
      f.Keeps (fun _ => True) s fun _ _ => True := fun _ _ => ⟨trivial, fun _ _ => trivial⟩
  have failed : ∀ (added : Option (Entry × ℕ)) (ret : InternalStatus) (s : Sys g), ret ≠ .ok →
      (do let ret ← splitJumpFailed ret added; pure (ret, f) : M g _).Keeps (fun _ => True) s
        fun r _ => r.1 = .ok →
          r.2.path.length = f.path.length + if f.depthInJump = 0 then 0 else 1 := by
    intro added ret s bad
    refine Prog.Keeps.bind (Q := fun ret _ => ret ≠ .ok) ?_ fun ret s₁ bad =>
      .pure trivial fun ok => absurd ok bad
    rw [splitJumpFailed]
    refine .ite (fun _ => ?_) fun _ => (any _ s).bind fun _ _ _ => .pure trivial nofun
    cases added with
    | none => exact (any _ s).bind fun _ _ _ => .pure trivial nofun
    | some node =>
      exact (any _ s).bind fun _ _ _ => (any _ _).bind fun _ _ _ => .pure trivial nofun
  rw [splitJumpNode]
  simp only
  refine (any _ s).bind fun child s₁ _ => ?_
  cases child with
  | none => exact failed _ _ s₁ nofun
  | some child =>
    refine (any _ s₁).bind fun ret s₂ _ => .ite (fun _ => failed _ _ s₂ nofun) fun _ => ?_
    refine .ite (fun start => ?_) fun inside => ?_
    · rw [if_pos start]
      refine (any _ s₂).bind fun ret s₃ _ => .ite (fun bad => ?_) fun _ => ?_
      · have := failed none ret s₃ bad
        rwa [if_pos start] at this
      cases hpath : f.path with
      | nil => exact absurd hpath onPath
      | cons last above =>
        refine (any _ s₃).bind fun newLast s₄ _ => (any _ s₄).bind fun _ s₅ _ => ?_
        exact .pure trivial fun _ => rfl
    · rw [if_neg inside]
      refine (any _ s₂).bind ?_
      rintro ⟨ret, bitmapNode, bitmapLoc⟩ s₃ -
      refine .ite (fun bad => ?_) fun _ => ?_
      · have := failed none ret s₃ bad
        rwa [if_neg inside] at this
      refine (any _ s₃).bind fun t s₄ _ => (any _ s₄).bind fun ret s₅ _ => ?_
      refine .ite (fun bad => ?_) fun _ => ?_
      · have := failed (some (bitmapNode, f.prefixHash)) ret s₅ bad
        rwa [if_neg inside] at this
      cases hpath : f.path with
      | nil => exact absurd hpath onPath
      | cons last above =>
        refine (any _ s₅).bind fun newLast s₆ _ => (any _ s₆).bind fun _ s₇ _ => ?_
        exact .pure trivial fun _ => rfl

/-! ## The calls -/

/-- There are slots for the locks of an insert at a finger: for its path, with the bitmap
that splitting a jump node adds, for the predecessor and for the new nodes. -/
def Finger.SlotsFit (f : Finger) (g : Geometry) (kv : CtKv) (N : ℕ∞) : Prop :=
  match f.containingEntry.value.body with
  | .jump _ _ _ => ((f.path.length + (if f.depthInJump = 0 then 0 else 1) + 2 : ℕ) : ℕ∞) ≤ N
  | .leaf leafKv _ =>
    kvKeyCompare leafKv kv ≠ 0 → ((f.path.length + 1 : ℕ) : ℕ∞) ≤ N ∧
      ∀ r, LeafPath.walk g leafKv kv (numKeySymbols kv.key + 1)
        ⟨[], f.prefixLen, f.prefixHash, f.lastPrefixSymbol⟩ = some r →
          ((f.path.length + r.1.nodes.length + 3 : ℕ) : ℕ∞) ≤ N
  | _ => ((f.path.length + 2 : ℕ) : ℕ∞) ≤ N

/-- There are slots for the locks of an insert of a key that finds a trie as it is. -/
def Trie.SlotsFit (t : Trie g) (kv : CtKv) (N : ℕ∞) : Prop :=
  ∀ f, initFinger t = some f → ∀ r, descend t f kv.key true = some r → r.1.SlotsFit g kv N

theorem Trie.slotsFit_top (t : Trie g) (kv : CtKv) : t.SlotsFit kv ⊤ := by
  intro f _ r _
  rw [Finger.SlotsFit]
  split
  · exact le_top
  · exact fun _ => ⟨le_top, fun _ _ => le_top⟩
  · exact le_top

theorem Counted.createLeaf (counted : Counted others N 0 0 s) {f : Finger}
    (onPath : f.path ≠ []) {kv : CtKv} (fits : f.SlotsFit g kv N) (room : ((4 : ℕ) : ℕ∞) ≤ N)
    (nextSymbol : ℕ) :
    Audit others N (createLeaf f kv nextSymbol) s fun _ s' => Counted others N 0 0 s' := by
  rw [CuckooTrie.createLeaf]
  split
  · next body =>
    rw [Finger.SlotsFit, body] at fits
    refine ((counted.splitJumpNode onPath room).and (splitJumpNode_path f onPath s)).bind ?_
    rintro ⟨ret, f'⟩ s₁ ⟨counted, path⟩
    cases ret with
    | ok =>
      rw [← path rfl] at fits
      have onPath' : f'.path ≠ [] := by
        rintro equal
        have length := path rfl
        have positive := List.length_pos_iff.mpr onPath
        rw [equal, List.length_nil] at length
        omega
      exact counted.createLeafAtBitmap onPath' kv nextSymbol fits
    | retry => exact counted.releaseAllLocks_pure _
    | exist => exact counted.releaseAllLocks_pure _
    | fail => exact counted.releaseAllLocks_pure _
  · next leafKv nextLeaf body =>
    rw [Finger.SlotsFit, body] at fits
    refine .ite (fun _ => .pure counted.audited counted) fun differ => ?_
    obtain ⟨few, below⟩ := fits differ
    refine counted.splitLeaf onPath _ _ _ few ?_
    rw [body]
    exact below
  · next notJump notLeaf =>
    refine counted.createLeafAtBitmap onPath kv nextSymbol ?_
    rw [Finger.SlotsFit] at fits
    split at fits
    · next body => exact absurd body (notJump _ _ _)
    · next body => exact absurd body (notLeaf _ _)
    · exact fits

theorem Finger.path_nodeChanged {f : Finger} (onPath : f.path ≠ []) (extendPath : Bool) :
    (f.nodeChanged extendPath).path ≠ [] := by
  cases extendPath with
  | false => exact onPath
  | true => exact List.cons_ne_nil _ _

theorem tryDescend_path {t : Trie g} {f f' : Finger} {symbol hash : ℕ} {savePath : Bool}
    (onPath : f.path ≠ []) (descends : tryDescend t f symbol savePath hash = some (some f')) :
    f'.path ≠ [] := by
  obtain ⟨-, -, -, rfl⟩ | ⟨child, rfl, -⟩ := tryDescend_cases descends
  · exact onPath
  · refine Finger.path_nodeChanged ?_ savePath
    exact onPath

theorem descendLoop_path {t : Trie g} {trackPath : Bool} {fuel : ℕ} {f : Finger}
    {p : KeyPrefetcher} {r : Finger × Option ℕ} (onPath : f.path ≠ [])
    (descends : descendLoop t trackPath fuel f p = some r) : r.1.path ≠ [] := by
  induction fuel generalizing f p with
  | zero => cases descends
  | succ fuel ih =>
    rw [descendLoop] at descends
    split at descends
    · cases descends
    · cases descends
      exact onPath
    · next f' step =>
      have onPath' := tryDescend_path onPath step
      split at descends
      · cases descends
        exact onPath'
      · exact ih onPath' descends

theorem initFinger_path {t : Trie g} {f : Finger} (init : initFinger t = some f) :
    f.path ≠ [] := by
  rw [initFinger] at init
  split at init
  · cases init
  · cases init
    exact List.cons_ne_nil _ _

theorem Counted.updateLeaf (counted : Counted others N 0 0 s) (lc : LocalCopy) (e : Entry)
    (result : InternalStatus) (room : ((1 : ℕ) : ℕ∞) ≤ N) :
    Audit others N
      (do
        match ← CuckooTrie.upgradeLock lc with
        | .ok =>
          let _ ← CuckooTrie.updateEntry lc e
          CuckooTrie.releaseAllLocks
          pure result
        | _ => pure .retry) s fun _ s' => Counted others N 0 0 s' := by
  refine (counted.add (counted.held.kept_none.upgradeLock lc) (fun _ mem => .upgradeLock mem)
    room ?_).bind ?_
  · rintro ret s₁ (⟨-, kept⟩ | ⟨-, kept⟩)
    · exact kept.listed.nodup
    · exact kept.listed.nodup
  rintro ret s₁ ⟨⟨rfl, kept⟩ | ⟨rfl, kept⟩, roomy⟩
  · have counted : Counted others N 1 0 s₁ := ⟨kept.held (by simp [References.none]), roomy⟩
    refine (counted.quiet (LeavesLocks.updateEntry _ _)).bind fun _ s₂ counted => ?_
    exact counted.releaseAllLocks_pure _
  · have counted : Counted others N 0 0 s₁ := ⟨kept.held le_rfl, roomy⟩
    exact .pure counted.audited counted

theorem Counted.insertBelowRoot (counted : Counted others N 0 0 s) {f : Finger}
    (onPath : f.path ≠ []) {kv : CtKv}
    (fits : ∀ r, descend s.trie f kv.key true = some r → r.1.SlotsFit g kv N)
    (room : ((4 : ℕ) : ℕ∞) ≤ N) (isUpsert : Bool) :
    Audit others N (insertBelowRoot f kv isUpsert) s fun _ s' => Counted others N 0 0 s' := by
  rw [CuckooTrie.insertBelowRoot]
  refine Prog.Keeps.bind
    (Q := fun r s' => r.1.path ≠ [] ∧ r.1.SlotsFit g kv N ∧ Counted others N 0 0 s')
    (.find counted.audited fun r found =>
      ⟨descendLoop_path onPath found, fits r found, counted⟩) ?_
  rintro ⟨f', symbol⟩ s₁ ⟨onPath', fits, counted⟩
  refine (counted.createLeaf onPath' fits room _).bind fun result s₂ counted => ?_
  refine .ite (fun _ => ?_) fun _ => .pure counted.audited counted
  exact counted.updateLeaf _ _ _ (room_of_le room (by simp))

theorem Counted.createRoot (counted : Counted others N 0 0 s) (kv : CtKv)
    (room : ((1 : ℕ) : ℕ∞) ≤ N) :
    Audit others N (createRoot kv) s fun _ s' => Counted others N 0 0 s' := by
  have enter : ∀ {b : ℕ} {k : Unit → M g InternalStatus},
      (∀ H s₁, Counted others N 0 H s₁ →
        Audit others N (k ()) s₁ fun _ s' => Counted others N 0 0 s') →
      Audit others N
        (do
          let locked ← CuckooTrie.writeLockBucket b
          if (!locked) = true then waitNotEmpty >>= k else k ()) s
        fun _ s' => Counted others N 0 0 s' := by
    intro b k rest
    refine (counted.add (counted.held.kept_none.writeLockBucket b)
      (fun _ mem => .writeLockBucket mem) room ?_).bind ?_
    · rintro ret s₁ (⟨-, kept⟩ | ⟨-, kept⟩)
      · exact kept.listed.nodup
      · exact kept.listed.nodup
    rintro locked s₁ ⟨⟨rfl, kept⟩ | ⟨rfl, kept⟩, roomy⟩
    · exact rest _ s₁ ⟨kept.held le_rfl, roomy⟩
    · have counted : Counted others N 0 0 s₁ := ⟨kept.held le_rfl, roomy⟩
      exact (counted.quiet (LeavesLocks.find _)).bind fun _ s₂ counted => rest _ s₂ counted
  rw [CuckooTrie.createRoot]
  refine enter fun H s₁ counted => ?_
  refine (counted.quiet (LeavesLocks.read _)).bind fun t s₂ counted => ?_
  refine .ite (fun _ => counted.releaseAllLocks_pure _) fun _ => ?_
  refine (counted.quiet (LeavesLocks.writeEntry _ _)).bind fun _ s₃ counted => ?_
  refine (counted.quiet (LeavesLocks.storeField _ _)).bind fun _ s₄ counted => ?_
  refine (counted.quiet (LeavesLocks.storeField _ _)).bind fun _ s₅ counted => ?_
  refine (counted.quiet (LeavesLocks.storeField _ _)).bind fun _ s₆ counted => ?_
  refine (counted.quiet (f := storeNotEmpty) fun _ => ⟨rfl, rfl, rfl, rfl⟩).bind ?_
  rintro - s₇ counted
  exact counted.releaseAllLocks_pure _

/-- No other thread creates the root of an empty trie. -/
theorem createRoot_ne_exist (empty : s.trie.isEmpty = true) (kv : CtKv) :
    (createRoot kv).Keeps (fun _ => True) s fun ret _ => ret ≠ InternalStatus.exist := by
  have any : ∀ {α : Type} (f : M g α) (s : Sys g),
      f.Keeps (fun _ => True) s fun _ _ => True := fun _ _ => ⟨trivial, fun _ _ => trivial⟩
  have enter : ∀ {k : Unit → M g InternalStatus} {b : ℕ},
      (∀ s₁, s₁.trie.isEmpty = true →
        (k ()).Keeps (fun _ => True) s₁ fun ret _ => ret ≠ InternalStatus.exist) →
      (do
        let locked ← writeLockBucket b
        if (!locked) = true then waitNotEmpty >>= k else k ()).Keeps (fun _ => True) s
        fun ret _ => ret ≠ InternalStatus.exist := by
    intro k b rest
    refine (Prog.Keeps.of_returns (Quietly.writeLockBucket b s)).bind fun locked s₁ quiet => ?_
    have empty₁ := quiet.isEmpty.trans empty
    refine .ite (fun _ => ?_) fun _ => rest s₁ empty₁
    refine Prog.Keeps.bind (Q := fun _ _ => False) (.find trivial fun _ found => ?_)
      fun _ _ never => never.elim
    simp only [empty₁, if_true, reduceCtorEq] at found
  rw [createRoot]
  refine enter fun s₁ empty₁ => ?_
  refine Prog.Keeps.bind (Q := fun t _ => t.isEmpty = true) (.read trivial empty₁) ?_
  intro t s₂ emptyT
  refine .ite (fun notEmpty => ?_) fun _ => ?_
  · rw [emptyT] at notEmpty
    cases notEmpty
  · exact (any _ s₂).bind fun _ s₃ _ => (any _ s₃).bind fun _ s₄ _ => (any _ s₄).bind
      fun _ s₅ _ => (any _ s₅).bind fun _ s₆ _ => (any _ s₆).bind fun _ s₇ _ =>
        (any _ s₇).bind fun _ s₈ _ => .pure trivial nofun

theorem Kept.initLockMgr (kept : Kept others .none s) :
    Books others initLockMgr s fun _ s' => Kept others .none s' := by
  have locks := kept.idle.locks
  refine Prog.Keeps.bind (Q := fun _ s' => Unrecorded others .none .cleared s') ?_
    fun _ s₁ changed => changed.recordLocks
  refine .update (kept.past.congr rfl rfl) ⟨kept.past.congr rfl rfl, ?_,
    fun b => (Multiset.count_zero b).symm⟩
  have listed := kept.listed
  rw [locks] at listed
  exact listed

theorem Counted.initLockMgr (counted : Counted others N 0 0 s) :
    Audit others N initLockMgr s fun _ s' => Counted others N 0 0 s' ∧ s'.trie = s.trie := by
  refine Prog.Keeps.and (J := fun _ => True) ((counted.stay counted.held.kept_none.initLockMgr
    (fun _ => ?_) fun _ _ kept => kept.listed.nodup).weaken ?_) ⟨trivial, fun _ _ => rfl⟩
  · exact (LocksIn.lockStep fun _ _ _ mem => absurd mem List.not_mem_nil).bind fun _ =>
      .recordLocks (by simp)
  · rintro - s₁ ⟨kept, roomy⟩
    exact ⟨kept.held le_rfl, roomy⟩

/-- **`ct_insert_internal`** needs slots for the finger it reaches. -/
theorem Counted.ctInsertInternal (counted : Counted others N 0 0 s) {kv : CtKv}
    (fits : s.trie.SlotsFit kv N) (room : ((4 : ℕ) : ℕ∞) ≤ N) (isUpsert : Bool) :
    Audit others N (ctInsertInternal kv isUpsert) s fun _ s' => Counted others N 0 0 s' := by
  rw [CuckooTrie.ctInsertInternal]
  refine counted.initLockMgr.bind ?_
  rintro - s₁ ⟨counted, same⟩
  rw [← same] at fits
  refine Prog.Keeps.bind (Q := fun t s' => t = s₁.trie ∧ s' = s₁) (.read counted.audited ⟨rfl, rfl⟩)
    ?_
  rintro t s₂ ⟨rfl, rfl⟩
  split
  · next f init => exact counted.insertBelowRoot (initFinger_path init) (fits f init) room isUpsert
  · next empty =>
    have isEmpty : s₂.trie.isEmpty = true := by
      by_contra notEmpty
      rw [initFinger, if_neg notEmpty] at empty
      cases empty
    refine ((counted.createRoot kv (room_of_le room (by simp))).and
      (createRoot_ne_exist isEmpty kv)).bind ?_
    rintro ret s₃ ⟨counted, created⟩
    cases ret with
    | exist => exact absurd rfl created
    | ok => exact .pure counted.audited counted
    | retry => exact .pure counted.audited counted
    | fail => exact .pure counted.audited counted

/-- The states in which the attempts of a call begin. -/
def attemptStarts (kv : CtKv) (isUpsert : Bool) : ℕ → Sys g → List (Sys g)
  | 0, _ => []
  | fuel + 1, s =>
    s :: match ((ctInsertInternal kv isUpsert).run s).1 with
      | some .retry => attemptStarts kv isUpsert fuel ((ctInsertInternal kv isUpsert).run s).2
      | _ => []

theorem Counted.insertLoop (counted : Counted others N 0 0 s) {kv : CtKv} {isUpsert : Bool}
    {fuel : ℕ} (fits : ∀ s' ∈ attemptStarts kv isUpsert fuel s, s'.trie.SlotsFit kv N)
    (room : ((4 : ℕ) : ℕ∞) ≤ N) :
    Audit others N (insertLoop kv isUpsert fuel) s fun _ s' => Counted others N 0 0 s' := by
  induction fuel generalizing s with
  | zero => exact .hang counted.audited
  | succ fuel ih =>
    refine (counted.ctInsertInternal (fits s List.mem_cons_self) room isUpsert).and_run.bind ?_
    rintro ret s₁ ⟨counted, run⟩
    cases ret with
    | retry =>
      refine ih counted fun s' mem => fits s' (List.mem_cons_of_mem _ ?_)
      rw [run]
      exact mem
    | ok => exact .pure counted.audited counted
    | exist => exact .pure counted.audited counted
    | fail => exact .pure counted.audited counted

theorem Counted.ctInsert (counted : Counted others N 0 0 s) {kv : CtKv} {fuel : ℕ}
    (fits : kv.key.length ≤ maxKeyBytes →
      ∀ s' ∈ attemptStarts kv false fuel s, s'.trie.SlotsFit kv N)
    (room : ((4 : ℕ) : ℕ∞) ≤ N) :
    Audit others N (ctInsert kv fuel) s fun _ s' => Counted others N 0 0 s' := by
  refine .ite (fun _ => .pure counted.audited counted) fun short => ?_
  refine (counted.insertLoop (fits (Nat.le_of_not_lt short)) room).bind fun ret s₁ counted => ?_
  split <;> exact .pure counted.audited counted

theorem Counted.ctUpsert (counted : Counted others N 0 0 s) {kv : CtKv} {fuel : ℕ}
    (fits : kv.key.length ≤ maxKeyBytes →
      ∀ s' ∈ attemptStarts kv true fuel s, s'.trie.SlotsFit kv N)
    (room : ((4 : ℕ) : ℕ∞) ≤ N) :
    Audit others N (ctUpsert kv fuel) s fun _ s' => Counted others N 0 0 s' := by
  refine .ite (fun _ => .pure counted.audited counted) fun short => ?_
  refine (counted.insertLoop (fits (Nat.le_of_not_lt short)) room).bind fun ret s₁ counted => ?_
  split <;> exact .pure counted.audited counted

theorem Counted.ctUpdateInternal (counted : Counted others N 0 0 s) (kv : CtKv)
    (room : ((1 : ℕ) : ℕ∞) ≤ N) :
    Audit others N (ctUpdateInternal kv) s fun _ s' => Counted others N 0 0 s' := by
  rw [CuckooTrie.ctUpdateInternal]
  refine counted.initLockMgr.bind ?_
  rintro - s₁ ⟨counted, -⟩
  refine (counted.quiet (LeavesLocks.read _)).bind fun t s₂ counted => ?_
  split
  · exact .pure counted.audited counted
  · refine (counted.quiet (LeavesLocks.find _)).bind ?_
    rintro ⟨f, symbol⟩ s₃ counted
    refine .ite (fun _ => .pure counted.audited counted) fun _ => ?_
    refine .ite (fun _ => .pure counted.audited counted) fun _ => ?_
    exact counted.updateLeaf _ _ _ room

theorem Counted.ctUpdate (counted : Counted others N 0 0 s) (kv : CtKv) (fuel : ℕ)
    (room : ((1 : ℕ) : ℕ∞) ≤ N) :
    Audit others N (ctUpdate kv fuel) s fun _ s' => Counted others N 0 0 s' := by
  induction fuel generalizing s with
  | zero => exact .hang counted.audited
  | succ fuel ih =>
    refine (counted.ctUpdateInternal kv room).bind fun ret s₁ counted => ?_
    cases ret with
    | retry => exact ih counted
    | ok => exact .pure counted.audited counted
    | exist => exact .pure counted.audited counted
    | fail => exact .pure counted.audited counted

/-- A call starts without locks. -/
theorem Sys.init_bookkept (t : Trie g) (env : ℕ → Bool) :
    (Sys.init t env).Bookkept t.writeLock where
  balanced r log suffix := by
    have empty := List.suffix_nil.mp suffix
    cases empty
  asserted _ _ mem := absurd mem List.not_mem_nil

theorem Sys.init_idle (t : Trie g) (env : ℕ → Bool) : (Sys.init t env).Idle t.writeLock :=
  ⟨rfl, rfl, fun _ => rfl⟩

theorem Counted.of_idle (bookkept : s.Bookkept others) (idle : s.Idle others)
    (within : s.Within N) (tell : N ≠ ⊤ → s.RecordsTell) : Counted others N 0 0 s where
  held := (Kept.of_idle bookkept idle).held le_rfl
  roomy := ⟨within, tell, by simp [idle.locks]⟩

/-- A call that gives up its references leaves no lock. -/
theorem Audit.books {f : M g α} (audit : Audit others N f s fun _ s' => Counted others N 0 0 s') :
    Books others f s fun _ s' => s'.Idle others :=
  (audit.mono fun _ audited => audited.bookkept).weaken fun _ _ counted =>
    counted.held.kept_none.idle

/-- **Lock bookkeeping is balanced on every path.**  From a state without locks, whatever
the memory and the other threads do, a call keeps the books balanced after each operation
of the lock manager and never looks up a lock that is not listed or decrements a count of
zero; when it or one of its attempts returns, with any status, no lock is left. -/
theorem lock_bookkeeping_balanced {others : ℕ → Bool} {s : Sys g} (bookkept : s.Bookkept others)
    (idle : s.Idle others) (kv : CtKv) :
    (∀ isUpsert, Books others (ctInsertInternal kv isUpsert) s fun _ s' => s'.Idle others) ∧
    Books others (ctUpdateInternal kv) s (fun _ s' => s'.Idle others) ∧
    ∀ fuel, Books others (ctInsert kv fuel) s (fun _ s' => s'.Idle others) ∧
      Books others (ctUpsert kv fuel) s (fun _ s' => s'.Idle others) ∧
      Books others (ctUpdate kv fuel) s fun _ s' => s'.Idle others := by
  have counted := Counted.of_idle (N := ⊤) bookkept idle (fun _ _ => Or.inl le_top)
    (fun limited => absurd rfl limited)
  have fits : ∀ s' : Sys g, s'.trie.SlotsFit kv ⊤ := fun s' => s'.trie.slotsFit_top kv
  refine ⟨fun isUpsert => ?_, ?_, fun fuel => ⟨?_, ?_, ?_⟩⟩
  · exact (counted.ctInsertInternal (fits s) le_top isUpsert).books
  · exact (counted.ctUpdateInternal kv le_top).books
  · exact (counted.ctInsert (fun _ s' _ => fits s') le_top).books
  · exact (counted.ctUpsert (fun _ s' _ => fits s') le_top).books
  · exact (counted.ctUpdate kv fuel le_top).books

/-- A leaf is split while one of the checks is refused: the call gives up the three locks it
then holds, and takes them again in a second attempt. -/
theorem lock_bookkeeping_balanced_refused :
    Books (fun _ => false) (ctInsert ⟨9, [0, 1]⟩ 2) (Sys.init smallTrie fun check => check ≠ 9)
        (fun _ s' => s'.Idle fun _ => false) ∧
      ((ctInsert ⟨9, [0, 1]⟩ 2).run (Sys.init smallTrie fun check => check ≠ 9)).2.lockLog.map
          (fun r => r.locks.length) =
        [0, 3, 3, 3, 3, 3, 3, 3, 3, 3, 3, 3, 2, 2, 1, 1, 0, 0, 3, 3, 3, 3, 3, 2, 2, 1, 1, 0] :=
  ⟨((lock_bookkeeping_balanced (Sys.init_bookkept smallTrie fun check => check ≠ 9)
    (Sys.init_idle smallTrie fun check => check ≠ 9) ⟨9, [0, 1]⟩).2.2 2).1, by decide +kernel⟩

end CuckooTrie
