import CuckooTrie.Relocate
import CuckooTrie.StoreWrites

/-!
# The search for a free cell

The breadth-first search of `relocate_entry` ends with a path of movable entries
from the bucket to make room in to a bucket with a free cell: each of them fits
into the other bucket of its pair, which is the bucket of the next one
(`Chain`), and no bucket is visited twice (`searchFreeCell_spec`).
-/

namespace CuckooTrie

variable {g : Geometry} {t : Trie g} {immovable : Option Loc} {start : ℕ}

/-- An entry the search may put on the path. -/
structure Movable (t : Trie g) (immovable : Option Loc) (loc : Loc) : Prop where
  inTable : loc.bucket < g.numBuckets
  used : (t.cells loc).body.used = true
  ne_root : loc ≠ rootLoc
  ne_immovable : some loc ≠ immovable

/-- The bucket an entry can be moved to. -/
def otherBucket (t : Trie g) (loc : Loc) : ℕ := alternateBucket g (t.cells loc) loc.bucket

/-- Movable entries, the first of which can be moved to the bucket `target`, each
other one to the bucket of the one before it; the last is in the bucket `start`. -/
def Chain (t : Trie g) (immovable : Option Loc) (start : ℕ) : ℕ → List Loc → Prop
  | target, [] => target = start
  | target, src :: rest =>
    Movable t immovable src ∧ otherBucket t src = target ∧ Chain t immovable start src.bucket rest

theorem Chain.movable {target : ℕ} {sources : List Loc}
    (chain : Chain t immovable start target sources) :
    ∀ src ∈ sources, Movable t immovable src := by
  induction sources generalizing target with
  | nil => exact nofun
  | cons src rest ih =>
    obtain ⟨movable, -, chain⟩ := chain
    intro l mem
    rcases List.mem_cons.mp mem with rfl | mem
    · exact movable
    · exact ih chain l mem

/-- No cell of the bucket is free. -/
def BucketFull (t : Trie g) (b : ℕ) : Prop := ∀ i, (t.cells ⟨b, i⟩).body.used = true

theorem findFreeCellInBucket_eq_none {b : ℕ} (h : findFreeCellInBucket t b = none) :
    BucketFull t b := fun i => by
  simpa using @findInBucket_eq_none g t b _ h ⟨b, i⟩ rfl

theorem findFreeCellInBucket_eq_some {b : ℕ} {loc : Loc} (h : findFreeCellInBucket t b = some loc) :
    loc.bucket = b ∧ (t.cells loc).body.used = false := by
  obtain ⟨bucket, free⟩ := findInBucket_eq_some h
  exact ⟨bucket, by simpa using free⟩

/-- What the queue of the search keeps of a bucket: how it was reached. -/
structure QueueEntry.Reached (q : QueueEntry) (t : Trie g) (immovable : Option Loc)
    (queue : List QueueEntry) (i : ℕ) : Prop where
  readLock : q.readLock = readLockBucket t q.bucket
  full : BucketFull t q.bucket
  inTable : q.bucket < g.numBuckets
  parent : 0 < i → ∃ q', queue[q.parentQueuePos]? = some q' ∧ q.parentQueuePos < i ∧
    Movable t immovable ⟨q'.bucket, q.childIdx⟩ ∧ q.bucket = otherBucket t ⟨q'.bucket, q.childIdx⟩

/-- The invariant of the search. -/
structure QueueInv (t : Trie g) (immovable : Option Loc) (start : ℕ) (queue : List QueueEntry) :
    Prop where
  first : ∃ q, queue[0]? = some q ∧ q.bucket = start
  reached : ∀ (i : ℕ) q, queue[i]? = some q → q.Reached t immovable queue i
  distinct : (queue.map (·.bucket)).Nodup
  bound : queue.length ≤ relocateQueueSize

namespace QueueInv

variable {queue : List QueueEntry}

theorem initial (full : BucketFull t start) (inTable : start < g.numBuckets) :
    QueueInv t immovable start [⟨start, readLockBucket t start, 0, 0⟩] where
  first := ⟨_, rfl, rfl⟩
  reached i q h := by
    cases i with
    | zero =>
      cases h
      exact ⟨rfl, full, inTable, fun h => absurd h (lt_irrefl 0)⟩
    | succ i => simp at h
  distinct := List.nodup_singleton _
  bound := show 1 ≤ relocateQueueSize by decide

/-- Put one more bucket into the queue. -/
theorem append (inv : QueueInv t immovable start queue) {pos : ℕ} {q : QueueEntry} {i : Fin 4}
    (hq : queue[pos]? = some q) (movable : Movable t immovable ⟨q.bucket, i⟩)
    (fresh : ∀ q' ∈ queue, q'.bucket ≠ otherBucket t ⟨q.bucket, i⟩)
    (full : BucketFull t (otherBucket t ⟨q.bucket, i⟩)) (room : queue.length < relocateQueueSize) :
    QueueInv t immovable start
      (queue ++ [⟨otherBucket t ⟨q.bucket, i⟩, readLockBucket t (otherBucket t ⟨q.bucket, i⟩), pos,
        i⟩]) := by
  have inside := (List.getElem?_eq_some_iff.mp hq).1
  have keep : ∀ {j : ℕ} {q' last : QueueEntry}, queue[j]? = some q' →
      (queue ++ [last])[j]? = some q' := by
    intro j q' last h
    rw [List.getElem?_append_left (List.getElem?_eq_some_iff.mp h).1]
    exact h
  constructor
  · obtain ⟨q₀, h, bucket⟩ := inv.first
    exact ⟨q₀, keep h, bucket⟩
  · intro j q' h
    by_cases old : j < queue.length
    · rw [List.getElem?_append_left old] at h
      obtain ⟨readLock, full', inTable, parent⟩ := inv.reached j q' h
      refine ⟨readLock, full', inTable, fun positive => ?_⟩
      obtain ⟨q'', h', less, movable', bucket⟩ := parent positive
      exact ⟨q'', keep h', less, movable', bucket⟩
    · have new : j = queue.length := by
        have := (List.getElem?_eq_some_iff.mp h).1
        rw [List.length_append, List.length_singleton] at this
        omega
      subst new
      rw [List.getElem?_concat_length] at h
      cases h
      exact ⟨rfl, full, alternateBucket_lt movable.inTable,
        fun _ => ⟨q, keep hq, inside, movable, rfl⟩⟩
  · rw [List.map_append, List.map_singleton]
    refine List.nodup_append.mpr ⟨inv.distinct, List.nodup_singleton _, ?_⟩
    intro b mem b' mem'
    obtain ⟨q', inQueue, rfl⟩ := List.mem_map.mp mem
    rw [List.mem_singleton.mp mem']
    exact fresh q' inQueue
  · rw [List.length_append, List.length_singleton]
    exact room

theorem eq_of_bucket {i j : ℕ} {q q' : QueueEntry} (inv : QueueInv t immovable start queue)
    (hi : queue[i]? = some q) (hj : queue[j]? = some q') (same : q.bucket = q'.bucket) : i = j := by
  obtain ⟨inside, rfl⟩ := List.getElem?_eq_some_iff.mp hi
  obtain ⟨inside', rfl⟩ := List.getElem?_eq_some_iff.mp hj
  have inside₁ : i < (queue.map (·.bucket)).length := by simpa using inside
  have inside₂ : j < (queue.map (·.bucket)).length := by simpa using inside'
  exact (@List.Nodup.getElem_inj_iff _ _ inv.distinct i inside₁ j inside₂).mp (by simpa using same)

/-- **The cells on the way back to the start** form a chain through different
buckets. -/
theorem chain (inv : QueueInv t immovable start queue) {fuel pos : ℕ} {i : Fin 4} {q : QueueEntry}
    (hq : queue[pos]? = some q) (movable : Movable t immovable ⟨q.bucket, i⟩) (enough : pos < fuel) :
    Chain t immovable start (otherBucket t ⟨q.bucket, i⟩) (sourceCells queue fuel pos i) ∧
      ((sourceCells queue fuel pos i).map (·.bucket)).Nodup ∧
      ∀ l ∈ sourceCells queue fuel pos i, ∃ j q', j ≤ pos ∧ queue[j]? = some q' ∧
        q'.bucket = l.bucket := by
  induction fuel generalizing pos i q with
  | zero => omega
  | succ fuel ih =>
    have value : queue.getD pos default = q := by rw [List.getD_eq_getElem?_getD, hq]; rfl
    cases pos with
    | zero =>
      obtain ⟨q₀, h₀, bucket⟩ := inv.first
      rw [hq] at h₀
      cases h₀
      rw [sourceCells, value]
      refine ⟨⟨movable, rfl, bucket⟩, List.nodup_singleton _, fun l mem => ?_⟩
      exact ⟨0, q, le_rfl, hq, by rw [List.mem_singleton.mp mem]⟩
    | succ pos =>
      obtain ⟨q', hq', less, movable', bucket⟩ := (inv.reached _ q hq).parent (Nat.succ_pos pos)
      obtain ⟨rest, nodup, earlier⟩ := ih hq' movable' (by omega)
      rw [sourceCells, value]
      refine ⟨⟨movable, rfl, bucket ▸ rest⟩, ?_, ?_⟩
      · rw [List.map_cons, List.nodup_cons]
        refine ⟨fun mem => ?_, nodup⟩
        obtain ⟨l, mem, same⟩ := List.mem_map.mp mem
        obtain ⟨j, q'', le, hj, bucket'⟩ := earlier l mem
        have := inv.eq_of_bucket hj hq (bucket'.trans same)
        omega
      · intro l mem
        rcases List.mem_cons.mp mem with rfl | mem
        · exact ⟨pos + 1, q, le_rfl, hq, rfl⟩
        · obtain ⟨j, q'', le, found⟩ := earlier l mem
          exact ⟨j, q'', by omega, found⟩

/-- The buckets on the way back are read-locked as they were when visited. -/
theorem path_readLock (inv : QueueInv t immovable start queue) {fuel pos : ℕ} {q : QueueEntry}
    (hq : queue[pos]? = some q) :
    ∀ q' ∈ queuePath queue fuel pos, q'.readLock = readLockBucket t q'.bucket := by
  induction fuel generalizing pos q with
  | zero => exact fun q' mem => absurd mem List.not_mem_nil
  | succ fuel ih =>
    cases pos with
    | zero => exact fun q' mem => absurd mem List.not_mem_nil
    | succ pos =>
      intro q' mem
      rw [queuePath, List.getD_eq_getElem?_getD, hq] at mem
      rcases List.mem_cons.mp mem with same | mem
      · rw [same]
        exact (inv.reached _ q hq).readLock
      · obtain ⟨q'', hq'', -⟩ := (inv.reached _ q hq).parent (Nat.succ_pos pos)
        exact ih hq'' q' mem

end QueueInv

/-- What the search is for. -/
structure FreeCell.Right (f : FreeCell) (t : Trie g) (immovable : Option Loc) (start : ℕ)
    (queue : List QueueEntry) : Prop where
  inv : QueueInv t immovable start queue
  source : ∃ q, queue[f.queuePos]? = some q ∧ Movable t immovable ⟨q.bucket, f.childIdx⟩ ∧
    f.freeCell.bucket = otherBucket t ⟨q.bucket, f.childIdx⟩
  free : (t.cells f.freeCell).body.used = false
  readLock : f.readLock = readLockBucket t f.freeCell.bucket

/-- The scan of the cells of one bucket. -/
theorem scanBucket_spec {queue queue' : List QueueEntry} {pos : ℕ} {q : QueueEntry}
    {result : Option FreeCell} {cells : List (Fin 4)} (inv : QueueInv t immovable start queue)
    (hq : queue[pos]? = some q) (h : scanBucket t immovable pos cells queue = (queue', result)) :
    QueueInv t immovable start queue' ∧
      ∀ found, result = some found → found.Right t immovable start queue' := by
  induction cells generalizing queue with
  | nil =>
    cases h
    exact ⟨inv, nofun⟩
  | cons i cells ih =>
    have value : queue.getD pos default = q := by rw [List.getD_eq_getElem?_getD, hq]; rfl
    have reached := inv.reached pos q hq
    have other : alternateBucket g (t.cells ⟨q.bucket, i⟩) q.bucket = otherBucket t ⟨q.bucket, i⟩ :=
      rfl
    rw [scanBucket] at h
    simp only [value, other] at h
    split at h
    · exact ih inv hq h
    next blocked =>
    split at h
    · exact ih inv hq h
    next root =>
    have movable : Movable t immovable ⟨q.bucket, i⟩ :=
      ⟨reached.inTable, reached.full i, root, blocked⟩
    split at h
    · exact ih inv hq h
    next visited =>
    have fresh : ∀ q' ∈ queue, q'.bucket ≠ otherBucket t ⟨q.bucket, i⟩ := by
      simpa using visited
    split at h
    · next free =>
      have full := findFreeCellInBucket_eq_none free
      split at h
      · next room =>
        refine ih (inv.append hq movable fresh full room) ?_ h
        rw [List.getElem?_append_left (List.getElem?_eq_some_iff.mp hq).1]
        exact hq
      · exact ih inv hq h
    · next freeCell free =>
      obtain ⟨bucket, unused⟩ := findFreeCellInBucket_eq_some free
      cases h
      refine ⟨inv, ?_⟩
      rintro found ⟨⟩
      exact ⟨inv, ⟨q, hq, movable, bucket⟩, unused, by rw [bucket]⟩

/-- **The search for a free cell.** -/
theorem searchFreeCell_spec {fuel pos : ℕ} {queue queue' : List QueueEntry} {found : FreeCell}
    (inv : QueueInv t immovable start queue)
    (h : searchFreeCell t immovable fuel pos queue = some (queue', found)) :
    found.Right t immovable start queue' := by
  induction fuel generalizing pos queue with
  | zero => cases h
  | succ fuel ih =>
    rw [searchFreeCell] at h
    split at h
    · next inside =>
      have hq : queue[pos]? = some queue[pos] := List.getElem?_eq_getElem inside
      rcases scan : scanBucket t immovable pos cellIndices queue with ⟨queue'', result⟩
      obtain ⟨inv', right⟩ := scanBucket_spec inv hq scan
      rw [scan] at h
      cases result with
      | none => exact ih inv' h
      | some found' =>
        cases h
        exact right _ rfl
    · cases h

/-- The cells the relocation moves, by the free cell the search ended with. -/
theorem FreeCell.Right.chain {found : FreeCell} {queue : List QueueEntry}
    (right : found.Right t immovable start queue) :
    Chain t immovable start found.freeCell.bucket
        (sourceCells queue queue.length found.queuePos found.childIdx) ∧
      (found.freeCell.bucket ::
        (sourceCells queue queue.length found.queuePos found.childIdx).map (·.bucket)).Nodup := by
  obtain ⟨q, hq, movable, bucket⟩ := right.source
  obtain ⟨chain, nodup, earlier⟩ :=
    right.inv.chain hq movable (List.getElem?_eq_some_iff.mp hq).1
  rw [bucket]
  refine ⟨chain, List.nodup_cons.mpr ⟨fun mem => ?_, nodup⟩⟩
  -- the buckets of the queue are full
  obtain ⟨l, mem, same⟩ := List.mem_map.mp mem
  obtain ⟨j, q', -, hj, bucket'⟩ := earlier l mem
  have full := (right.inv.reached j q' hj).full found.freeCell.cell
  rw [bucket', same, ← bucket, right.free] at full
  cases full

/-! ## A search without success -/

/-- Moving an entry leads to a full bucket, which is in the queue unless the queue has
no room left. -/
def DeadEnd (t : Trie g) (queue : List QueueEntry) (loc : Loc) : Prop :=
  BucketFull t (otherBucket t loc) ∧
    ((∃ q ∈ queue, q.bucket = otherBucket t loc) ∨ queue.length = relocateQueueSize)

theorem DeadEnd.mono {queue queue' : List QueueEntry} {loc : Loc} (dead : DeadEnd t queue loc)
    (longer : queue <+: queue') (bound : queue'.length ≤ relocateQueueSize) :
    DeadEnd t queue' loc := by
  refine ⟨dead.1, dead.2.imp ?_ fun whole => ?_⟩
  · rintro ⟨q, mem, bucket⟩
    exact ⟨q, longer.subset mem, bucket⟩
  · exact le_antisymm bound (whole ▸ longer.length_le)

/-- The scan of a bucket that finds no free cell. -/
theorem scanBucket_deadEnds {queue queue' : List QueueEntry} {pos : ℕ} {q : QueueEntry}
    {cells : List (Fin 4)} (inv : QueueInv t immovable start queue) (hq : queue[pos]? = some q)
    (h : scanBucket t immovable pos cells queue = (queue', none)) :
    queue <+: queue' ∧
      ∀ i ∈ cells, Movable t immovable ⟨q.bucket, i⟩ → DeadEnd t queue' ⟨q.bucket, i⟩ := by
  induction cells generalizing queue with
  | nil =>
    cases h
    exact ⟨List.prefix_rfl, nofun⟩
  | cons i cells ih =>
    have value : queue.getD pos default = q := by rw [List.getD_eq_getElem?_getD, hq]; rfl
    have reached := inv.reached pos q hq
    have other : alternateBucket g (t.cells ⟨q.bucket, i⟩) q.bucket = otherBucket t ⟨q.bucket, i⟩ :=
      rfl
    have bound := (scanBucket_spec inv hq h).1.bound
    rw [scanBucket] at h
    simp only [value, other] at h
    split at h
    · next blocked =>
      obtain ⟨longer, rest⟩ := ih inv hq h
      exact ⟨longer, List.forall_mem_cons.mpr ⟨fun m => absurd blocked m.ne_immovable, rest⟩⟩
    next blocked =>
    split at h
    · next root =>
      obtain ⟨longer, rest⟩ := ih inv hq h
      exact ⟨longer, List.forall_mem_cons.mpr ⟨fun m => absurd root m.ne_root, rest⟩⟩
    next root =>
    have movable : Movable t immovable ⟨q.bucket, i⟩ :=
      ⟨reached.inTable, reached.full i, root, blocked⟩
    split at h
    · next visited =>
      obtain ⟨longer, rest⟩ := ih inv hq h
      obtain ⟨q', mem, bucket⟩ : ∃ q' ∈ queue, q'.bucket = otherBucket t ⟨q.bucket, i⟩ := by
        simpa using visited
      obtain ⟨j, at_⟩ := List.mem_iff_getElem?.mp mem
      have full := (inv.reached j q' at_).full
      rw [bucket] at full
      exact ⟨longer, List.forall_mem_cons.mpr
        ⟨fun _ => ⟨full, Or.inl ⟨q', longer.subset mem, bucket⟩⟩, rest⟩⟩
    next visited =>
    have fresh : ∀ q' ∈ queue, q'.bucket ≠ otherBucket t ⟨q.bucket, i⟩ := by
      simpa using visited
    split at h
    · next free =>
      have full := findFreeCellInBucket_eq_none free
      split at h
      · next room =>
        have hq' := hq
        rw [← List.getElem?_append_left (List.getElem?_eq_some_iff.mp hq).1] at hq'
        obtain ⟨longer, rest⟩ := ih (inv.append hq movable fresh full room) hq' h
        refine ⟨(List.prefix_append _ _).trans longer, List.forall_mem_cons.mpr ⟨fun _ => ?_, rest⟩⟩
        exact ⟨full, Or.inl ⟨_, longer.subset (List.mem_append_right _ List.mem_cons_self), rfl⟩⟩
      · next noRoom =>
        obtain ⟨longer, rest⟩ := ih inv hq h
        refine ⟨longer, List.forall_mem_cons.mpr ⟨fun _ => ⟨full, Or.inr ?_⟩, rest⟩⟩
        exact le_antisymm bound ((not_lt.mp noRoom).trans longer.length_le)
    · cases h

/-- What a search without success has visited: different full buckets, all the entries
of which lead to full buckets. -/
structure Exhausted (t : Trie g) (immovable : Option Loc) (start : ℕ) (queue : List QueueEntry) :
    Prop where
  inv : QueueInv t immovable start queue
  deadEnds : ∀ q ∈ queue, ∀ i, Movable t immovable ⟨q.bucket, i⟩ → DeadEnd t queue ⟨q.bucket, i⟩

/-- **The search terminates**: it gives up only when it has visited all buckets in its
queue, and none of their entries can be moved to a free cell. -/
theorem searchFreeCell_exhausted {fuel pos : ℕ} {queue : List QueueEntry}
    (inv : QueueInv t immovable start queue) (enough : relocateQueueSize ≤ fuel + pos)
    (scanned : ∀ j < pos, ∀ q, queue[j]? = some q → ∀ i, Movable t immovable ⟨q.bucket, i⟩ →
      DeadEnd t queue ⟨q.bucket, i⟩)
    (h : searchFreeCell t immovable fuel pos queue = none) :
    ∃ queue', Exhausted t immovable start queue' := by
  have final : queue.length ≤ pos → ∃ queue', Exhausted t immovable start queue' := by
    intro whole
    refine ⟨queue, inv, fun q mem => ?_⟩
    obtain ⟨j, at_⟩ := List.mem_iff_getElem?.mp mem
    exact scanned j ((List.getElem?_eq_some_iff.mp at_).1.trans_le whole) q at_
  induction fuel generalizing pos queue with
  | zero => exact final (inv.bound.trans (by omega))
  | succ fuel ih =>
    rw [searchFreeCell] at h
    split at h
    · next inside =>
      have hq : queue[pos]? = some queue[pos] := List.getElem?_eq_getElem inside
      rcases scan : scanBucket t immovable pos cellIndices queue with ⟨queue', _ | found⟩
      · rw [scan] at h
        have inv' := (scanBucket_spec inv hq scan).1
        obtain ⟨longer, here⟩ := scanBucket_deadEnds inv hq scan
        have scanned' : ∀ j < pos + 1, ∀ q, queue'[j]? = some q → ∀ i,
            Movable t immovable ⟨q.bucket, i⟩ → DeadEnd t queue' ⟨q.bucket, i⟩ := by
          intro j before q at_ i movable
          have old : queue[j]? = some q := by
            obtain ⟨rest, rfl⟩ := longer
            rwa [List.getElem?_append_left (by omega)] at at_
          rcases Nat.lt_succ_iff_lt_or_eq.mp before with before | rfl
          · exact (scanned j before q old i movable).mono longer inv'.bound
          · rw [hq] at old
            cases old
            exact here i (mem_cellIndices i) movable
        refine ih inv' (by omega) scanned' h fun whole => ?_
        refine ⟨queue', inv', fun q mem => ?_⟩
        obtain ⟨j, at_⟩ := List.mem_iff_getElem?.mp mem
        exact scanned' j ((List.getElem?_eq_some_iff.mp at_).1.trans_le whole) q at_
      · rw [scan] at h
        cases h
    · next outside => exact final (not_lt.mp outside)

end CuckooTrie
