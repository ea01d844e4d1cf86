import CuckooTrie.Contention
import CuckooTrie.LockSlots
import CuckooTrie.Placing
import CuckooTrie.Predecessors

/-!
# Corridors of full buckets

In a corridor each entry of a full bucket can only be moved to the next bucket, so the
breadth-first search of `relocate_entry` walks through all of it (`Corridor.search`), and
the relocation locks all its buckets at a time.  Through a corridor of `MAX_LOCKS` full
buckets and a free one this takes more locks than there are slots for
(`lock_table_overflows`).  In general the slots suffice for a call exactly when they do for
each of its relocations (`lock_table_fits_iff`).
-/

namespace CuckooTrie

open Sys

variable {g : Geometry} {t : Trie g} {b : ℕ → ℕ} {n : ℕ} {cell : Loc}

/-- Full buckets whose entries can only be moved to the next bucket, up to one with a free
cell. -/
structure Corridor (t : Trie g) (b : ℕ → ℕ) (n : ℕ) (cell : Loc) : Prop where
  next : ∀ k < n, ∀ i, alternateBucket g (t.cells ⟨b k, i⟩) (b k) = b (k + 1)
  full : ∀ k < n, findFreeCellInBucket t (b k) = none
  free : findFreeCellInBucket t (b n) = some cell
  distinct : ∀ j ≤ n, ∀ k ≤ n, b j = b k → j = k
  notRoot : ∀ k < n, b k ≠ rootLoc.bucket

theorem Corridor.congr {t' : Trie g} (corridor : Corridor t b n cell)
    (cells : t'.cells = t.cells) : Corridor t' b n cell := by
  have free : ∀ x, findFreeCellInBucket t' x = findFreeCellInBucket t x := fun x => by
    rw [findFreeCellInBucket, findFreeCellInBucket, findInBucket, findInBucket, cells]
  exact ⟨fun k inside i => cells ▸ corridor.next k inside i,
    fun k inside => (free _).trans (corridor.full k inside), (free _).trans corridor.free,
    corridor.distinct, corridor.notRoot⟩

/-! ## The search in a corridor -/

/-- A bucket of a corridor in the queue. -/
def corridorEntry (t : Trie g) (b : ℕ → ℕ) (k : ℕ) : QueueEntry :=
  ⟨b k, readLockBucket t (b k), k - 1, 0⟩

/-- The queue with the first buckets of a corridor. -/
def corridorQueue (t : Trie g) (b : ℕ → ℕ) (n : ℕ) : List QueueEntry :=
  (List.range n).map (corridorEntry t b)

@[simp] theorem corridorQueue_length (t : Trie g) (b : ℕ → ℕ) (n : ℕ) :
    (corridorQueue t b n).length = n := by simp [corridorQueue]

theorem corridorQueue_succ (t : Trie g) (b : ℕ → ℕ) (n : ℕ) :
    corridorQueue t b (n + 1) = corridorQueue t b n ++ [corridorEntry t b n] := by
  simp [corridorQueue, List.range_succ]

theorem corridorQueue_getD {k : ℕ} (inside : k < n) :
    (corridorQueue t b n).getD k default = corridorEntry t b k := by
  rw [List.getD_eq_getElem?_getD, corridorQueue, List.getElem?_map, List.getElem?_range inside]
  rfl

theorem mem_corridorQueue {x : ℕ} :
    ((corridorQueue t b n).any fun q => q.bucket = x) = true ↔ ∃ k < n, b k = x := by
  simp only [corridorQueue, List.any_map, List.any_eq_true, List.mem_range, Function.comp_apply,
    decide_eq_true_eq]
  rfl

namespace Corridor

/-- A cell of a bucket of the corridor leads to the next one. -/
theorem scan_cons (corridor : Corridor t b n cell) {k : ℕ} {queue : List QueueEntry} (inside : k < n)
    (bucket : (queue.getD k default).bucket = b k) (i : Fin 4) (is : List (Fin 4)) :
    scanBucket t none k (i :: is) queue =
      if queue.any fun q => q.bucket = b (k + 1) then scanBucket t none k is queue
      else
        match findFreeCellInBucket t (b (k + 1)) with
        | none => scanBucket t none k is
            (if queue.length < relocateQueueSize then
              queue ++ [⟨b (k + 1), readLockBucket t (b (k + 1)), k, i⟩]
            else queue)
        | some freeCell => (queue, some ⟨k, i, readLockBucket t (b (k + 1)), freeCell⟩) := by
  have notRoot : (⟨b k, i⟩ : Loc) ≠ rootLoc := fun equal =>
    corridor.notRoot k inside (congrArg Loc.bucket equal)
  rw [scanBucket]
  cases free : findFreeCellInBucket t (b (k + 1)) <;>
    simp only [bucket, reduceCtorEq, if_false, if_neg notRoot, corridor.next k inside i, free]

/-- The entries of a bucket all lead to the same one. -/
theorem scan_listed (corridor : Corridor t b n cell) {k : ℕ} {queue : List QueueEntry}
    (inside : k < n) (bucket : (queue.getD k default).bucket = b k)
    (listed : (queue.any fun q => q.bucket = b (k + 1)) = true) (cells : List (Fin 4)) :
    scanBucket t none k cells queue = (queue, none) := by
  induction cells with
  | nil => rfl
  | cons i is ih => rw [corridor.scan_cons inside bucket, if_pos listed, ih]

/-- The next bucket is not in the queue yet. -/
theorem not_listed (corridor : Corridor t b n cell) {k : ℕ} (inside : k < n) :
    ¬ ((corridorQueue t b (k + 1)).any fun q => q.bucket = b (k + 1)) = true := by
  rw [mem_corridorQueue]
  rintro ⟨j, before, same⟩
  have := corridor.distinct j (by omega) (k + 1) inside same
  omega

/-- **The search walks through the corridor** to its free cell. -/
theorem search (corridor : Corridor t b n cell) (small : n ≤ relocateQueueSize) {k fuel : ℕ}
    (inside : k < n) (enough : n ≤ fuel + k) :
    searchFreeCell t none fuel k (corridorQueue t b (k + 1)) =
      some (corridorQueue t b n, ⟨n - 1, 0, readLockBucket t (b n), cell⟩) := by
  have bucket : ∀ {m}, k < m → ((corridorQueue t b m).getD k default).bucket = b k := fun h => by
    rw [corridorQueue_getD h]
    rfl
  induction fuel generalizing k with
  | zero => omega
  | succ fuel ih =>
    rw [searchFreeCell, if_pos (by simp), cellIndices,
      corridor.scan_cons inside (bucket (Nat.lt_succ_self k)), if_neg (corridor.not_listed inside)]
    rcases Nat.lt_or_eq_of_le (Nat.succ_le_of_lt inside) with further | last
    · have room : (corridorQueue t b (k + 1)).length < relocateQueueSize := by
        rw [corridorQueue_length]
        omega
      have queue : corridorQueue t b (k + 1) ++ [⟨b (k + 1), readLockBucket t (b (k + 1)), k, 0⟩] =
          corridorQueue t b (k + 1 + 1) := (corridorQueue_succ t b (k + 1)).symm
      rw [corridor.full (k + 1) further]
      simp only
      rw [if_pos room, queue, corridor.scan_listed inside (bucket (by omega))
        (mem_corridorQueue.mpr ⟨k + 1, Nat.lt_succ_self _, rfl⟩)]
      exact ih further (by omega) fun h => by
        rw [corridorQueue_getD h]
        rfl
    · rw [show k + 1 = n from last, corridor.free]
      simp only
      rw [← last, Nat.succ_sub_one]

end Corridor

/-- The way back goes through all buckets but the first. -/
theorem corridorQueue_path {fuel pos : ℕ} (inside : pos < n) (enough : pos < fuel) :
    queuePath (corridorQueue t b n) fuel pos =
      (List.range pos).reverse.map fun k => corridorEntry t b (k + 1) := by
  induction pos generalizing fuel with
  | zero =>
    cases fuel with
    | zero => rfl
    | succ fuel => rfl
  | succ pos ih =>
    cases fuel with
    | zero => omega
    | succ fuel =>
      rw [queuePath, corridorQueue_getD inside, List.range_succ, List.reverse_append]
      simp only [List.reverse_singleton, List.singleton_append, List.map_cons]
      rw [← @ih fuel (by omega) (by omega)]
      rfl

/-! ## Locking a corridor -/

/-- More buckets were locked at some point than there are slots for. -/
def Sys.Overflows (s : Sys g) : Prop := ∃ r ∈ s.lockLog, maxLocks < r.locks.length

theorem Sys.Overflows.of_le {s s' : Sys g} (overflows : s.Overflows) (le : s ≤ s') :
    s'.Overflows := by
  obtain ⟨r, mem, many⟩ := overflows
  exact ⟨r, le.lockLog.subset mem, many⟩

theorem Sys.Overflows.not_locksFit {s : Sys g} (overflows : s.Overflows) : ¬ s.LocksFit := by
  obtain ⟨r, mem, many⟩ := overflows
  exact fun fit => absurd (fit.records r mem) (Nat.not_le_of_lt many)

section Locking

variable {s : Sys g} {others : ℕ → Bool} {H : Multiset ℕ} {m : ℕ}

/-- No lock byte is set but those of the buckets that a lone thread holds. -/
theorem Held.free (held : Held (fun _ => false) m H s) {x : ℕ} (out : x ∉ s.buckets) :
    s.trie.writeLock x = false := by
  obtain ⟨entries, -, kept⟩ := held
  rw [Sys.mem_buckets, Sys.listed, kept.listed.findWriteLock_eq] at out
  rw [kept.listed.byte]
  split at out
  · exact absurd rfl out
  · next none => simp [none]

/-- A thread that is alone is granted any upgrade. -/
theorem Held.grants_alone (held : Held (fun _ => false) m H s) (env : s.env = alone) (x : ℕ) :
    s.grants s.checks [x] = true := by
  have granted : ∀ i, s.env i = true := fun i => by rw [env, alone]
  rw [grants, grants, grants]
  split
  · rw [granted, Bool.and_self]
  · next unlisted =>
    rw [granted, granted, held.free (mt Sys.mem_buckets.mp unlisted)]
    rfl

/-- A thread that is alone upgrades any bucket. -/
theorem Held.upgradeBucketLock_alone (held : Held (fun _ => false) m H s) (env : s.env = alone)
    (x : ℕ) : (CuckooTrie.upgradeBucketLock (readLockBucket s.trie x)).Returns s fun ret s' =>
      ret = .ok ∧ Held (fun _ => false) m (x ::ₘ H) s' ∧ s'.env = s.env ∧ Quiet s s' := by
  obtain ⟨ret, upgraded, granted⟩ :=
    upgradeBucketLock_grants (readLockBucket s.trie x) (s := s) rfl
  rw [if_pos (held.grants_alone env _)] at granted
  obtain ⟨rfl, same, -⟩ := granted
  obtain ⟨-, held⟩ | ⟨retry, -⟩ := (held.upgradeBucketLock _).2 _ upgraded
  · obtain ⟨_, again, quiet⟩ := Quietly.upgradeBucketLock (readLockBucket s.trie x) s
    exact ⟨_, upgraded, rfl, held, same.env, quiet⟩
  · cases retry

/-- A run in which more buckets are locked at some point than there are slots for. -/
abbrev Overflowing {α : Type} (f : M g α) (s : Sys g) : Prop := f.Leads Sys.Overflows s

theorem Overflowing.first {α β : Type} {f : M g α} {k : α → M g β} (h : Overflowing f s) :
    Overflowing (f >>= k) s :=
  Prog.Leads.first (fun _ _ le overflows => overflows.of_le le) h

/-- **A relocation through a corridor locks all its buckets at a time.** -/
theorem relocateAlong_overflows (corridor : Corridor s.trie b n cell) (positive : 0 < n)
    (lists : s.Lists s.buckets) (start : b 0 ∈ s.buckets) (env : s.env = alone)
    (free : ∀ x ∉ s.buckets, s.trie.writeLock x = false) (long : maxLocks ≤ n) :
    Overflowing (relocateAlong (corridorQueue s.trie b n)
      ⟨n - 1, 0, readLockBucket s.trie (b n), cell⟩) s := by
  have path := corridorQueue_path (t := s.trie) (b := b) (show n - 1 < n by omega)
    (show n - 1 < (corridorQueue s.trie b n).length by rw [corridorQueue_length]; omega)
  have readLocks : ∀ q ∈ queuePath (corridorQueue s.trie b n) (corridorQueue s.trie b n).length
      (n - 1), q.readLock = readLockBucket s.trie q.bucket := by
    rw [path]
    intro q mem
    obtain ⟨k, -, rfl⟩ := List.mem_map.mp mem
    rfl
  have reached : (relocateAlong (corridorQueue s.trie b n)
      ⟨n - 1, 0, readLockBucket s.trie (b n), cell⟩).Leads
        (Sys.Lists (s.peak (pathBuckets (corridorQueue s.trie b n)
          ⟨n - 1, 0, readLockBucket s.trie (b n), cell⟩))) s :=
    relocateAlong_lists rfl readLocks lists
  obtain ⟨r, listed, peak⟩ := reached
  rw [Sys.peak, env, upgradePeak_alone _ free] at peak
  have whole : (Finset.range (n + 1)).image b ⊆ r.buckets := by
    refine Finset.Subset.trans (fun x mem => ?_) peak
    obtain ⟨k, inside, rfl⟩ := Finset.mem_image.mp mem
    rw [Finset.mem_range] at inside
    rw [Finset.mem_union, List.mem_toFinset, pathBuckets, path, List.map_map, List.mem_cons]
    -- the first bucket was held before, the last one is that of the free cell
    rcases Nat.eq_zero_or_pos k with rfl | later
    · exact Or.inl start
    rcases Nat.lt_or_eq_of_le (Nat.le_of_lt_succ inside) with before | rfl
    · refine Or.inr (Or.inr (List.mem_map.mpr ⟨k - 1, ?_, congrArg b (Nat.sub_add_cancel later)⟩))
      rw [List.mem_reverse, List.mem_range]
      omega
    · exact Or.inr (Or.inl rfl)
  refine ⟨r, listed, Nat.lt_of_lt_of_le (Nat.lt_succ_of_le long) ?_⟩
  calc n + 1 = ((Finset.range (n + 1)).image b).card := by
        rw [Finset.card_image_of_injOn, Finset.card_range]
        intro j hj k hk same
        rw [Finset.coe_range, Set.mem_Iio, Nat.lt_succ_iff] at hj hk
        exact corridor.distinct j hj k hk same
    _ ≤ r.buckets.card := Finset.card_le_card whole
    _ ≤ (r.locks.map (·.bucket)).length := List.toFinset_card_le _
    _ = r.locks.length := List.length_map _

/-- **`relocate_entry` at a corridor** of `MAX_LOCKS` full buckets. -/
theorem relocateEntry_overflows (corridor : Corridor s.trie b n cell)
    (held : Held (fun _ => false) m H s) (start : b 0 ∈ H) (env : s.env = alone)
    (small : n ≤ relocateQueueSize) (long : maxLocks ≤ n) :
    Overflowing (relocateEntry (b 0) none) s := by
  have positive : 0 < n := Nat.lt_of_lt_of_le (by decide) long
  have found : searchFreeCell s.trie none relocateQueueSize 0
      [⟨b 0, readLockBucket s.trie (b 0), 0, 0⟩] =
        some (corridorQueue s.trie b n, ⟨n - 1, 0, readLockBucket s.trie (b n), cell⟩) :=
    corridor.search small positive small
  rw [relocateEntry]
  refine .bind (Q := fun locked s' => locked = true ∧ s' = s) (.read ⟨held.listed start, rfl⟩) ?_
  rintro - s₁ ⟨rfl, rfl⟩
  refine .bind (((held.assertThat fun _ => rfl).and (J := fun _ => True)
    (R := fun _ s' => s'.trie = s₁.trie ∧ s'.env = s₁.env)
    ⟨trivial, fun _ _ => ⟨rfl, rfl⟩⟩).returns rfl) ?_
  rintro - s₂ ⟨held, trie, env₂⟩
  refine .bind (Q := fun t s' => t = s₁.trie ∧ s' = s₂) (.read ⟨trie, rfl⟩) ?_
  rintro - s₃ ⟨rfl, rfl⟩
  rw [found]
  refine .bind (Q := fun _ s' => s' = { s₃ with lockLog := ⟨.path (pathBuckets _ _),
    s₃.trie.writeLock, s₃.locks, s₃.checks⟩ :: s₃.lockLog }) (.update rfl) ?_
  rintro - s₄ rfl
  rw [← trie] at corridor ⊢
  exact relocateAlong_overflows corridor positive
    ⟨_, List.mem_cons_self, Finset.Subset.refl _⟩ (Sys.mem_buckets.mpr (held.listed start))
    (env₂.trans env) (fun x out => held.free out) long

/-- **`add_entry` to the first bucket of a corridor**, if the other bucket of the pair is
full too. -/
theorem addEntry_overflows (corridor : Corridor s.trie b n cell)
    (held : Held (fun _ => false) m H s) (env : s.env = alone) (small : n ≤ relocateQueueSize)
    (long : maxLocks ≤ n) {h : ℕ} (primary : hashToBucket h = b 0)
    (secondary : findFreeCellInBucket s.trie (g.mixBucket (b 0) (hashToTag h)) = none)
    (entry : Entry) (lock : Bool) : Overflowing (addEntry h entry none lock) s := by
  rw [addEntry]
  refine .bind (Q := fun t s' => t = s.trie ∧ s' = s) (.read ⟨rfl, rfl⟩) ?_
  rintro - s₁ ⟨rfl, rfl⟩
  simp only [primary, secondary, corridor.full 0 (Nat.lt_of_lt_of_le (by decide) long)]
  refine .bind (held.upgradeBucketLock_alone env (b 0)) ?_
  rintro - s₂ ⟨rfl, held, env₂, quiet⟩
  refine Overflowing.first ?_
  exact relocateEntry_overflows (corridor.congr quiet.cells) held (Multiset.mem_cons_self _ _)
    (env₂.trans env) small long

end Locking

/-! ## An insert at a corridor -/

/-- A table with 2048 buckets. -/
abbrev corridorGeometry : Geometry := .ctAlloc 8192 (by decide) (by decide)

/-- The buckets of a corridor: with tag 0, each one is the secondary bucket of the one
before. -/
def corridorBucket (k : ℕ) : ℕ := (1088 + 817 * k) % 2048

/-- The place of a bucket in the corridor. -/
def corridorPlace (b : ℕ) : ℕ := (b + 960) * 1489 % 2048

/-- A trie with the key of one zero byte, in a table with a corridor of `n` full buckets. -/
def corridorTrie (n : ℕ) : Trie corridorGeometry where
  cells loc :=
    if corridorPlace loc.bucket < n then
      ⟨0, false, false, loc.cell, 0, 1, .leaf default default⟩
    else if loc = rootLoc then
      ⟨invalidColor, false, false, rootColor, 0, 0, .leaf ⟨1, [0]⟩ ⟨endOfList, 0, 0⟩⟩
    else if loc.bucket < corridorGeometry.numBuckets then unusedEntry
    else ⟨0, false, false, 0, 0, 0, .leaf default ⟨0, 0, rootColor⟩⟩
  seq _ := 0
  writeLock _ := false
  isEmpty := false

/-- The finger of the root. -/
def corridorFinger (n : ℕ) : Finger := Finger.storePathEntry
  { containingEntry := findRoot (corridorTrie n)
    path := []
    prefixLen := 0
    prefixHash := hashStartValue
    lastPrefixSymbol := rootLastSymbol
    depthInJump := 0 }

theorem corridorBucket_lt (k : ℕ) : corridorBucket k < 2048 := Nat.mod_lt _ (by decide)

theorem corridorPlace_bucket {k : ℕ} (inside : k < 2048) : corridorPlace (corridorBucket k) = k := by
  rw [corridorPlace, corridorBucket]
  omega

theorem corridorTrie_filled {n x : ℕ} (inside : corridorPlace x < n) (i : Fin 4) :
    (corridorTrie n).cells ⟨x, i⟩ = ⟨0, false, false, i, 0, 1, .leaf default default⟩ := by
  simp only [corridorTrie, if_pos inside]

theorem corridorTrie_mixBucket {x : ℕ} (inTable : x < 2048) :
    corridorGeometry.mixBucket x 0 = (x + 817) % 2048 := by
  have mix : corridorGeometry.bucketMixTable 0 = 1231 := by decide +kernel
  have buckets : corridorGeometry.numBuckets = 2048 := rfl
  rw [Geometry.mixBucket_eq, mix, buckets]
  split <;> omega

/-- **The corridor of the table.** -/
theorem corridorTrie_corridor : Corridor (corridorTrie maxLocks) corridorBucket maxLocks
    ⟨corridorBucket maxLocks, 0⟩ := by
  have small : maxLocks < 2048 := by decide
  have inside : ∀ k < maxLocks, corridorPlace (corridorBucket k) < maxLocks := fun k few => by
    rw [corridorPlace_bucket (few.trans small)]
    exact few
  refine ⟨fun k few i => ?_, fun k few => ?_, by decide +kernel, fun j hj k hk same => ?_,
    fun k few isRoot => ?_⟩
  · have next := corridorTrie_mixBucket (corridorBucket_lt k)
    rw [corridorTrie_filled (inside k few) i]
    refine next.trans ?_
    rw [corridorBucket, corridorBucket]
    omega
  · have used : ∀ i ∈ cellIndices,
        ¬ (!((corridorTrie maxLocks).cells ⟨corridorBucket k, i⟩).body.used) = true := by
      intro i _
      rw [corridorTrie_filled (inside k few) i]
      exact nofun
    rw [findFreeCellInBucket, findInBucket, List.find?_eq_none.mpr used]
    rfl
  · have place := congrArg corridorPlace same
    rwa [corridorPlace_bucket (by omega), corridorPlace_bucket (by omega)] at place
  · have place := congrArg corridorPlace isRoot
    rw [corridorPlace_bucket (few.trans small)] at place
    rw [place] at few
    exact absurd few (by decide)

/-- An entry of the table is in the corridor, or the root. -/
theorem corridorTrie_used {loc : Loc} (inTable : loc.bucket < corridorGeometry.numBuckets)
    (used : ((corridorTrie maxLocks).cells loc).body.used = true) :
    ((corridorTrie maxLocks).cells loc).secondary = false ∧
      ((corridorTrie maxLocks).cells loc).tag = 0 ∧
      (corridorPlace loc.bucket < maxLocks ∧
          ((corridorTrie maxLocks).cells loc).color = loc.cell ∨ loc = rootLoc) := by
  by_cases inside : corridorPlace loc.bucket < maxLocks
  · rw [corridorTrie_filled inside loc.cell]
    exact ⟨rfl, rfl, Or.inl ⟨inside, rfl⟩⟩
  by_cases isRoot : loc = rootLoc
  · subst isRoot
    exact ⟨by decide +kernel, by decide +kernel, Or.inr rfl⟩
  · simp only [corridorTrie, if_neg inside, if_neg isRoot, if_pos inTable] at used
    cases used

/-- Entries with the same hash have different colors. -/
theorem corridorTrie_distinctColors : (corridorTrie maxLocks).DistinctColors := by
  intro l l' inTable inTable' used used' hash tag color
  obtain ⟨primary, tag₀, place⟩ := corridorTrie_used inTable used
  obtain ⟨primary', tag₀', place'⟩ := corridorTrie_used inTable' used'
  have bucket : l.bucket = l'.bucket := by
    rw [cellHash, cellHash, primary, primary', tag₀, tag₀'] at hash
    simpa using hash
  have notRoot : ¬ corridorPlace rootLoc.bucket < maxLocks := by decide +kernel
  rcases place with ⟨inside, isCell⟩ | rfl
  · rcases place' with ⟨-, isCell'⟩ | rfl
    · have cells : l.cell = l'.cell := Fin.ext (isCell.symm.trans (color.trans isCell'))
      cases l
      cases l'
      congr
    · rw [bucket] at inside
      exact absurd inside notRoot
  · rcases place' with ⟨inside, -⟩ | rfl
    · rw [← bucket] at inside
      exact absurd inside notRoot
    · rfl

/-- The locks on the root and on the list head, with which the leaf is split. -/
theorem splitLeafLocks_corridor :
    ((splitLeafLocks (corridorFinger maxLocks) none).run
      (initLockMgr.run (Sys.init (corridorTrie maxLocks) alone)).2).1 =
        some (some (readMinLeaf (corridorTrie maxLocks))) := by decide +kernel

theorem Quietly.splitLeafLocks_corridor :
    Quietly
      (splitLeafLocks (corridorFinger maxLocks) none : M corridorGeometry (Option LocalCopy)) := by
  rw [splitLeafLocks]
  refine (Quietly.pure _).bind fun _ => .ite (.pure _) ?_
  refine (Quietly.upgradeLock _).bind fun _ => .ite (.pure _) ?_
  refine Quietly.bind (fun s => ?_) fun predecessor => ?_
  · rw [getPredecessorAtomic]
    refine (Quietly.read _).bind (fun _ => ?_) s
    refine Quietly.bind (fun s => (validatePathFrom_spec _ _ s).weaken fun _ _ _ h => h.1)
      fun _ => .ite (.pure _) (.pure _)
  · cases predecessor with
    | none => exact .pure _
    | some predecessor =>
      exact (Quietly.upgradeLock _).bind fun _ => .ite (.pure _) (.pure _)

/-- **Splitting the leaf** needs a cell in the first bucket of the corridor. -/
theorem splitLeaf_corridor :
    Overflowing (splitLeaf (corridorFinger maxLocks) ⟨1, [0x80]⟩ true none)
      (initLockMgr.run (Sys.init (corridorTrie maxLocks) alone)).2 := by
  have counted : Counted (fun _ => false) ⊤ 0 0 (Sys.init (corridorTrie maxLocks) alone) :=
    .of_idle (Sys.init_bookkept (corridorTrie maxLocks) alone)
      (Sys.init_idle (corridorTrie maxLocks) alone) (fun _ _ => Or.inl le_top)
      fun limited => absurd rfl limited
  have locks : (splitLeafLocks (corridorFinger maxLocks) none).Returns
      (initLockMgr.run (Sys.init (corridorTrie maxLocks) alone)).2 fun predecessor s' =>
        predecessor = some (readMinLeaf (corridorTrie maxLocks)) ∧ Held (fun _ => false) 2 0 s' ∧
          s'.trie.cells = (corridorTrie maxLocks).cells ∧ s'.env = alone := by
    obtain ⟨counted₁, trie₁⟩ := counted.initLockMgr.2 () rfl
    have audit := counted₁.splitLeafLocks (f := corridorFinger maxLocks) (List.cons_ne_nil _ _)
      none le_top
    have counted₂ := audit.2 (some (readMinLeaf (corridorTrie maxLocks))) splitLeafLocks_corridor
    obtain ⟨_, -, quiet⟩ := Quietly.splitLeafLocks_corridor
      (initLockMgr.run (Sys.init (corridorTrie maxLocks) alone)).2
    have env₁ : (initLockMgr.run (Sys.init (corridorTrie maxLocks) alone)).2.env = alone := rfl
    have env₂ := ((splitLeafLocks (corridorFinger maxLocks) none).le_run
      (initLockMgr.run (Sys.init (corridorTrie maxLocks) alone)).2).env
    exact ⟨_, splitLeafLocks_corridor, rfl, counted₂.held,
      quiet.cells.trans (congrArg Trie.cells trie₁), env₂.trans env₁⟩
  have walk : LeafPath.walk corridorGeometry ⟨1, [0]⟩ ⟨1, [0x80]⟩ (numKeySymbols [0x80] + 1)
      ⟨[], 0, 0, rootLastSymbol⟩ = some (⟨[], 0, 0, rootLastSymbol⟩, 1, 17) := by
    have existing : getKeySymbol ⟨1, [0]⟩ 0 = 1 := by decide
    have new : getKeySymbol ⟨1, [0x80]⟩ 0 = 17 := by decide
    rw [LeafPath.walk]
    simp only [existing, new]
    rfl
  rw [splitLeaf]
  refine .bind locks ?_
  rintro - s ⟨rfl, held, cells, env⟩
  refine .bind (Q := fun r s' => r = (⟨[], 0, 0, rootLastSymbol⟩, 1, 17) ∧ s' = s)
    (.find walk ⟨rfl, rfl⟩) ?_
  rintro - s₁ ⟨rfl, rfl⟩
  refine Overflowing.first ?_
  have corridor := corridorTrie_corridor.congr cells
  have secondary : corridorGeometry.mixBucket (corridorBucket 0)
      (hashToTag (corridorGeometry.accumulateHash 0 17)) = corridorBucket 1 := by decide +kernel
  have full := corridor.full 1 (by decide)
  rw [← secondary] at full
  exact addEntry_overflows corridor held env (by decide) le_rfl (by decide +kernel) full _ _

theorem initLockMgr_trie (s : Sys g) : (initLockMgr.run s).2.trie = s.trie := rfl

/-! ## A whole call -/

/-- Whether the relocations had slots can be read off the records. -/
theorem Sys.pathsFit_iff (s : Sys g) : s.PathsFit ↔ (s.lockLog.all fun p =>
    match p.event with
    | .path path => decide ((p.peak s.env path).card ≤ maxLocks)
    | _ => true) = true := by
  rw [PathsFit, List.all_eq_true]
  refine forall₂_congr fun p _ => ?_
  cases p.event <;> simp

/-- **The lock table is large enough for everything but relocations**: in a run of
`ct_insert` in which the walk of each attempt ends as in a trie, at most `MAX_LOCKS` buckets
are locked at each point and `add_lock` always has a free slot exactly when each relocation
finds slots for the buckets it locks besides those locked already, as far as the others let
it. -/
theorem lock_table_fits_iff (t : Trie g) (env : ℕ → Bool) (kv : CtKv) (fuel : ℕ)
    (ends : ∀ s ∈ attemptStarts kv false fuel (Sys.init t env), s.trie.EndsAtKey kv) :
    ((ctInsert kv fuel).run (Sys.init t env)).2.LocksFit ↔
      ((ctInsert kv fuel).run (Sys.init t env)).2.PathsFit := by
  have counted : Counted t.writeLock maxLocks 0 0 (Sys.init t env) := by
    refine .of_idle (Sys.init_bookkept t env) (Sys.init_idle t env) ?_ fun _ => ⟨?_, ?_⟩
    · exact fun r mem => absurd mem List.not_mem_nil
    · exact fun _ holds mem => absurd mem List.not_mem_nil
    · exact fun p mem => absurd mem List.not_mem_nil
  have audit : Audit t.writeLock maxLocks (ctInsert kv fuel) (Sys.init t env)
      fun _ s' => Counted t.writeLock maxLocks 0 0 s' :=
    counted.ctInsert (fun short s mem => (ends s mem).slotsFit short) (by decide)
  exact audit.1.within.locksFit_iff audit.1.bookkept (audit.1.tell (ENat.natCast_ne_top _))

/-- Relocations through a corridor of six buckets: an upgrade in the middle of the path is
refused to the first one, which has five buckets locked by then; the second one has all nine. -/
theorem lock_table_fits_iff_corridor :
    ((ctInsert ⟨1, [0x80]⟩ 3).run
      (Sys.init (corridorTrie 6) fun check => check ≠ 10)).2.LocksFit :=
  (lock_table_fits_iff (corridorTrie 6) (fun check => check ≠ 10) ⟨1, [0x80]⟩ 3
    (by decide +kernel)).mpr ((Sys.pathsFit_iff _).mpr (by decide +kernel))

/-- **The lock table overflows** although entries with the same hash have different colors:
to make room for the new leaf the call locks the `MAX_LOCKS` full buckets of a corridor
and the one with the free cell. -/
theorem lock_table_overflows :
    (corridorTrie maxLocks).DistinctColors ∧
      ¬ ((ctInsert ⟨1, [0x80]⟩ 1).run (Sys.init (corridorTrie maxLocks) alone)).2.LocksFit := by
  refine ⟨corridorTrie_distinctColors, Overflows.not_locksFit ?_⟩
  change Overflowing (ctInsert ⟨1, [0x80]⟩ 1) (Sys.init (corridorTrie maxLocks) alone)
  have init : initFinger (corridorTrie maxLocks) = some (corridorFinger maxLocks) := rfl
  have trie := initLockMgr_trie (Sys.init (corridorTrie maxLocks) alone)
  have descends : descend (corridorTrie maxLocks) (corridorFinger maxLocks) [0x80] true =
      some (corridorFinger maxLocks, some 17) := rfl
  have leaf : (corridorFinger maxLocks).containingEntry.value.body =
      .leaf ⟨1, [0]⟩ ⟨endOfList, 0, 0⟩ := by decide +kernel
  rw [ctInsert, if_neg (by decide)]
  refine Overflowing.first ?_
  rw [insertLoop]
  refine Overflowing.first ?_
  rw [ctInsertInternal]
  refine .bind (Q := fun _ s' => s' = (initLockMgr.run (Sys.init (corridorTrie maxLocks) alone)).2)
    ⟨(), rfl, rfl⟩ ?_
  rintro - s rfl
  refine .bind (Q := fun t s' => t = corridorTrie maxLocks ∧
    s' = (initLockMgr.run (Sys.init (corridorTrie maxLocks) alone)).2)
    (.read ⟨trie, rfl⟩) ?_
  rintro - s ⟨rfl, rfl⟩
  rw [init]
  simp only
  rw [insertBelowRoot]
  refine .bind (search_spec (f := fun t => descend t (corridorFinger maxLocks) [0x80] true)
    ((congrArg (descend · (corridorFinger maxLocks) [0x80] true) trie).trans descends)) ?_
  rintro - s ⟨rfl, rfl⟩
  refine Overflowing.first ?_
  rw [createLeaf, leaf]
  exact splitLeaf_corridor

end CuckooTrie
