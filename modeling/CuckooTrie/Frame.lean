import CuckooTrie.Insert
import CuckooTrie.Lookup

/-!
# What leaves the table alone

Taking and releasing locks, checking sequences and searching change neither a
cell nor the sequence of a bucket, and always return: they are `Quiet`.  What
makes one of the checks fail although no bucket was written is recorded as
`Denied`: the other threads did not let it pass.
-/

namespace CuckooTrie

variable {g : Geometry} {α β : Type}

namespace Sys

/-- Every bucket that is locked is locked by this thread, which has it listed. -/
def LocksListed (s : Sys g) : Prop :=
  ∀ b, s.trie.writeLock b = true → ∃ l ∈ s.locks, l.bucket = b

/-- The cells, the sequences and the record of the run are the same; the locks
may be different, but they stay listed. -/
structure Quiet (s s' : Sys g) : Prop where
  cells : s'.trie.cells = s.trie.cells
  seq : s'.trie.seq = s.trie.seq
  isEmpty : s'.trie.isEmpty = s.trie.isEmpty
  history : s'.history = s.history
  relocations : s'.relocations = s.relocations
  savedWrites : s'.savedWrites = s.savedWrites
  slowUpdates : s'.slowUpdates = s.slowUpdates
  locks : LocksListed s → LocksListed s'

/-- Between two states the other threads did not let a check pass. -/
def Denied (s s' : Sys g) : Prop := ∃ i, s.checks ≤ i ∧ i < s'.checks ∧ s.env i = false

namespace Quiet

variable {s s' s'' : Sys g}

theorem refl (s : Sys g) : Quiet s s := ⟨rfl, rfl, rfl, rfl, rfl, rfl, rfl, id⟩

theorem trans (h : Quiet s s') (h' : Quiet s' s'') : Quiet s s'' :=
  ⟨h'.cells.trans h.cells, h'.seq.trans h.seq, h'.isEmpty.trans h.isEmpty,
    h'.history.trans h.history, h'.relocations.trans h.relocations,
    h'.savedWrites.trans h.savedWrites, h'.slowUpdates.trans h.slowUpdates, h'.locks ∘ h.locks⟩

end Quiet

namespace Denied

variable {s s' s'' : Sys g}

theorem mono_right (h : Denied s s') (le : s' ≤ s'') : Denied s s'' := by
  obtain ⟨i, lower, upper, denied⟩ := h
  exact ⟨i, lower, lt_of_lt_of_le upper le.checks, denied⟩

theorem mono_left (h : Denied s' s'') (le : s ≤ s') : Denied s s'' := by
  obtain ⟨i, lower, upper, denied⟩ := h
  exact ⟨i, le_trans le.checks lower, upper, by rw [← le.env]; exact denied⟩

/-- Nobody denies a check in a single-threaded run. -/
theorem not_alone (h : s.env = alone) : ¬ Denied s s' := by
  rintro ⟨i, -, -, denied⟩
  rw [h] at denied
  cases denied

end Denied

end Sys

open Sys

/-! ## Memories with the same cells -/

section SameCells

variable {t t' : Trie g} {L : Layout} {M : KeyMap} {S : Store} {hole : Option Loc} {p : List ℕ}
  {n : Node} {loc : Loc} {h c : ℕ}

theorem Trie.Stores.congr (stores : t.Stores S hole) (cells : t'.cells = t.cells)
    (isEmpty : t'.isEmpty = t.isEmpty) : t'.Stores S hole := by
  have at_ : ∀ {loc h c}, t'.At loc h c ↔ t.At loc h c := by
    intro loc h c
    exact ⟨fun a => a.congr (by rw [cells]), fun a => a.congr (by rw [cells])⟩
  constructor
  · rw [cells]
    exact stores.unused_invalid
  · rw [cells]
    exact stores.tag_color
  · rw [cells]
    exact fun loc h c a => stores.content loc h c (at_.mp a)
  · intro h c e stored
    obtain ⟨loc, a, ne⟩ := stores.stored h c e stored
    exact ⟨loc, at_.mpr a, ne⟩
  · exact fun loc loc' h c a a' => stores.unique loc loc' h c (at_.mp a) (at_.mp a')
  · intro e stored
    obtain ⟨a, ne⟩ := stores.root e stored
    exact ⟨at_.mpr a, ne⟩
  · rw [cells]
    exact stores.head
  · rw [isEmpty]
    exact stores.isEmpty

theorem Layout.Readable.congr (readable : L.Readable t M) (cells : t'.cells = t.cells)
    (isEmpty : t'.isEmpty = t.isEmpty) : L.Readable t' M := by
  obtain ⟨S, hole, stores, rep, identifies⟩ := readable
  exact ⟨S, hole, stores.congr cells isEmpty, rep, identifies⟩

theorem LocalCopy.Describes.congr {lc : LocalCopy} (d : lc.Describes t L p n)
    (cells : t'.cells = t.cells) (seq : t'.seq = t.seq) : lc.Describes t' L p n := by
  refine ⟨⟨d.reads.at_.congr (by rw [cells]), ?_⟩, d.content⟩
  rw [Trie.localCopy, cells, seq]
  exact d.reads.eq

theorem Spine.congr {path : List PathEntry} (spine : Spine t L p path) (cells : t'.cells = t.cells)
    (seq : t'.seq = t.seq) : Spine t' L p path := by
  induction spine with
  | root hn d hash => exact .root hn (d.congr cells seq) hash
  | child _ child hn d hash ih => exact .child ih child hn (d.congr cells seq) hash

theorem LocalCopy.Describes.unchanged {lc : LocalCopy} (d : lc.Describes t L p n) :
    t.entryUnchanged lc = true := by
  rw [Trie.entryUnchanged, d.reads.lastSeq]
  simp [sameSeq]

end SameCells

/-! ## Lists of locks -/

theorem exists_mem_modifyLock {f : BucketWriteLock → BucketWriteLock} {b : ℕ}
    (same : ∀ l, (f l).bucket = l.bucket) {locks : List BucketWriteLock} {l : BucketWriteLock}
    (mem : l ∈ locks) : ∃ l' ∈ modifyLock f b locks, l'.bucket = l.bucket := by
  induction locks with
  | nil => exact absurd mem List.not_mem_nil
  | cons l₀ locks ih =>
    rw [modifyLock]
    rcases List.mem_cons.mp mem with rfl | mem
    · split
      · exact ⟨_, List.mem_cons_self, same l⟩
      · exact ⟨l, List.mem_cons_self, rfl⟩
    · split
      · exact ⟨l, List.mem_cons_of_mem _ mem, rfl⟩
      · obtain ⟨l', mem', bucket⟩ := ih mem
        exact ⟨l', List.mem_cons_of_mem _ mem', bucket⟩

/-- `replace_lock` loses no lock but the one it replaces. -/
theorem exists_mem_replaceLock {b : ℕ} {last : BucketWriteLock} {locks : List BucketWriteLock}
    (listed : ∃ l ∈ locks, l.bucket = b) :
    last ∈ replaceLock b last locks ∧
      ∀ l ∈ locks, l.bucket ≠ b → l ∈ replaceLock b last locks := by
  induction locks with
  | nil =>
    obtain ⟨l, mem, -⟩ := listed
    exact absurd mem List.not_mem_nil
  | cons l₀ locks ih =>
    rw [replaceLock, modifyLock]
    split
    · refine ⟨List.mem_cons_self, fun l mem ne => ?_⟩
      rcases List.mem_cons.mp mem with rfl | mem
      · contradiction
      · exact List.mem_cons_of_mem _ mem
    · next other =>
      obtain ⟨l, mem, bucket⟩ := listed
      have deeper : ∃ l ∈ locks, l.bucket = b := by
        rcases List.mem_cons.mp mem with rfl | mem
        · exact absurd bucket other
        · exact ⟨l, mem, bucket⟩
      obtain ⟨here, others⟩ := ih deeper
      refine ⟨List.mem_cons_of_mem _ here, fun l mem ne => ?_⟩
      rcases List.mem_cons.mp mem with rfl | mem
      · exact List.mem_cons_self
      · exact List.mem_cons_of_mem _ (others l mem ne)

/-- What is still locked after the listed locks were released was not listed. -/
theorem released (bytes : ℕ → Bool) (locks : List BucketWriteLock) (b : ℕ)
    (set : locks.foldr (fun l bytes => setLockByte bytes l.bucket false) bytes b = true) :
    bytes b = true ∧ ∀ l ∈ locks, l.bucket ≠ b := by
  induction locks with
  | nil => exact ⟨set, nofun⟩
  | cons l locks ih =>
    rw [List.foldr_cons, setLockByte] at set
    split at set
    · cases set
    · next other =>
      obtain ⟨kept, unlisted⟩ := ih set
      refine ⟨kept, fun l' mem => ?_⟩
      rcases List.mem_cons.mp mem with rfl | mem
      · exact Ne.symm other
      · exact unlisted l' mem

theorem findWriteLock_eq_some {locks : List BucketWriteLock} {b : ℕ} {l : BucketWriteLock}
    (h : findWriteLock locks b = some l) : l ∈ locks ∧ l.bucket = b :=
  ⟨List.mem_of_find?_eq_some h, by simpa using List.find?_some h⟩

theorem findWriteLock_eq_none {locks : List BucketWriteLock} {b : ℕ}
    (h : findWriteLock locks b = none) : ∀ l ∈ locks, l.bucket ≠ b := fun l mem => by
  simpa using List.find?_eq_none.mp h l mem

/-! ## Quiet programs -/

/-- A program that always returns and leaves the table alone. -/
def Quietly (f : M g α) : Prop := ∀ s, f.Returns s fun _ s' => Quiet s s'

namespace Quietly

theorem pure (a : α) : Quietly (pure a : M g α) := fun s => .pure (Quiet.refl s)

theorem bind {f : M g α} {k : α → M g β} (first : Quietly f) (rest : ∀ a, Quietly (k a)) :
    Quietly (f >>= k) := by
  intro s
  refine (first s).bind fun a s' _ quiet => ?_
  exact (rest a s').weaken fun _ _ _ quiet' => quiet.trans quiet'

theorem ite {c : Prop} [Decidable c] {f f' : M g α} (pos : Quietly f) (neg : Quietly f') :
    Quietly (if c then f else f') := by
  split
  · exact pos
  · exact neg

theorem read (f : Sys g → α) : Quietly (Prog.read f : M g α) := fun s => .read (Quiet.refl s)

theorem getTrie : Quietly (CuckooTrie.getTrie : M g (Trie g)) := read _

theorem lockStep
    {f : (ℕ → Bool) → List BucketWriteLock → α × (ℕ → Bool) × List BucketWriteLock}
    (listed : ∀ bytes locks b, (f bytes locks).2.1 b = true →
      (bytes b = true → ∃ l ∈ locks, l.bucket = b) → ∃ l ∈ (f bytes locks).2.2, l.bucket = b) :
    Quietly (CuckooTrie.lockStep f : M g α) :=
  fun _ => .update ⟨rfl, rfl, rfl, rfl, rfl, rfl, rfl, fun old b set => listed _ _ b set (old b)⟩

theorem recordLocks (event : LockEvent) : Quietly (CuckooTrie.recordLocks event : M g Unit) :=
  fun _ => .update ⟨rfl, rfl, rfl, rfl, rfl, rfl, rfl, id⟩

theorem assertThat (assertion : Assertion) (holds : Sys g → Bool) :
    Quietly (CuckooTrie.assertThat assertion holds) :=
  fun _ => .update ⟨rfl, rfl, rfl, rfl, rfl, rfl, rfl, id⟩

theorem othersAllow : Quietly (CuckooTrie.othersAllow : M g Bool) :=
  fun _ => .update ⟨rfl, rfl, rfl, rfl, rfl, rfl, rfl, id⟩

theorem updateLock (b : ℕ) {f : BucketWriteLock → BucketWriteLock}
    (same : ∀ l, (f l).bucket = l.bucket) : Quietly (CuckooTrie.updateLock b f : M g Unit) :=
  lockStep fun _ _ b' set old => by
    obtain ⟨l, mem, rfl⟩ := old set
    exact exists_mem_modifyLock same mem

theorem lookupLock (b : ℕ) : Quietly (CuckooTrie.lookupLock b : M g (Option BucketWriteLock)) :=
  read _

theorem releaseAllLocks : Quietly (CuckooTrie.releaseAllLocks : M g Unit) := by
  refine (lockStep fun bytes locks b set old => ?_).bind fun _ => recordLocks _
  obtain ⟨kept, unlisted⟩ := released bytes locks b set
  obtain ⟨l, mem, same⟩ := old kept
  exact absurd same (unlisted l mem)

/-- Asking the others. -/
theorem othersAllow_spec (s : Sys g) :
    (CuckooTrie.othersAllow : M g Bool).Returns s fun allowed s' => Quiet s s' ∧
      s'.trie = s.trie ∧ s'.locks = s.locks ∧ (allowed = false → Denied s s') := by
  refine .update ⟨⟨rfl, rfl, rfl, rfl, rfl, rfl, rfl, id⟩, rfl, rfl, fun denied => ?_⟩
  exact ⟨s.checks, le_rfl, Nat.lt_succ_self _, denied⟩

/-- `add_lock` lists a lock byte that was just taken. -/
theorem addLock_spec {s s' : Sys g} {b : ℕ} (cells : s'.trie.cells = s.trie.cells)
    (seq : s'.trie.seq = s.trie.seq) (isEmpty : s'.trie.isEmpty = s.trie.isEmpty)
    (history : s'.history = s.history) (relocations : s'.relocations = s.relocations)
    (savedWrites : s'.savedWrites = s.savedWrites) (slowUpdates : s'.slowUpdates = s.slowUpdates)
    (listed : LocksListed s → ∀ b', s'.trie.writeLock b' = true → b' ≠ b →
      ∃ l ∈ s'.locks, l.bucket = b') :
    (CuckooTrie.addLock b : M g Unit).Returns s' fun _ s'' => Quiet s s'' := by
  rw [CuckooTrie.addLock]
  refine Prog.Returns.bind (Q := fun _ s₁ => s₁.trie = s'.trie ∧ s₁.locks = s'.locks ∧
    s₁.history = s'.history ∧ s₁.relocations = s'.relocations ∧
    s₁.savedWrites = s'.savedWrites ∧ s₁.slowUpdates = s'.slowUpdates)
    (.update ⟨rfl, rfl, rfl, rfl, rfl, rfl⟩) ?_
  rintro _ s₁ - ⟨trie₁, locks₁, history₁, relocations₁, savedWrites₁, slowUpdates₁⟩
  refine Prog.Returns.bind (Q := fun _ s₂ => Quiet s s₂) (.update ?_) fun _ s₂ _ quiet =>
    (recordLocks _ s₂).weaken fun _ _ _ quiet' => quiet.trans quiet'
  refine ⟨?_, ?_, ?_, history₁.trans history, relocations₁.trans relocations,
    savedWrites₁.trans savedWrites, slowUpdates₁.trans slowUpdates, fun old b' set => ?_⟩
  · rw [← cells, ← trie₁]
  · rw [← seq, ← trie₁]
  · rw [← isEmpty, ← trie₁]
  · by_cases same : b' = b
    · exact ⟨_, List.mem_cons_self, same.symm⟩
    · obtain ⟨l, mem, bucket⟩ := listed old b' (trie₁ ▸ set) same
      exact ⟨l, List.mem_cons_of_mem _ (locks₁ ▸ mem), bucket⟩

/-- A lock byte is taken only to be listed at once. -/
theorem takeLock_spec {k : Bool → M g β} {f : M g β} {b : ℕ} {s : Sys g} {R : β → Sys g → Prop}
    (taken : k true = CuckooTrie.addLock b >>= fun _ => f)
    (refused : ∀ s', s ≤ s' → Quiet s s' →
      Denied s s' ∨ s.trie.writeLock b = true ∧ s'.trie.writeLock b = true → (k false).Returns s' R)
    (rest : ∀ s', s ≤ s' → Quiet s s' → f.Returns s' R) :
    (CuckooTrie.tryTakeLock b >>= k).Returns s R := by
  refine Prog.Returns.bind (Q := fun free s' => free = false ∧ Quiet s s' ∧
      (Denied s s' ∨ s.trie.writeLock b = true ∧ s'.trie.writeLock b = true) ∨
    free = true ∧ (CuckooTrie.addLock b : M g Unit).Returns s' fun _ s'' => Quiet s s'') ?_ ?_
  · rw [CuckooTrie.tryTakeLock]
    refine (othersAllow_spec s).bind fun allowed s₁ _ h => ?_
    obtain ⟨quiet, trie, locks, denied⟩ := h
    refine .ite (fun no => .pure (Or.inl ⟨rfl, quiet, Or.inl (denied (by simpa using no))⟩))
      fun _ => .update ?_
    cases byte : s₁.trie.writeLock b with
    | true =>
      refine Or.inl ⟨by simp [byte], quiet.trans ⟨rfl, rfl, rfl, rfl, rfl, rfl, rfl,
        fun listed b' set => ?_⟩, Or.inr ⟨trie ▸ byte, by simp [setLockByte]⟩⟩
      by_cases same : b' = b
      · exact listed b' (same ▸ byte)
      · exact listed b' (by simpa [setLockByte, same] using set)
    | false =>
      refine Or.inr ⟨by simp [byte], addLock_spec quiet.cells quiet.seq quiet.isEmpty
        quiet.history quiet.relocations quiet.savedWrites quiet.slowUpdates
        fun listed b' set other => ?_⟩
      exact quiet.locks listed b' (by simpa [setLockByte, other] using set)
  · rintro free s' le (⟨rfl, quiet, why⟩ | ⟨rfl, listing⟩)
    · exact refused s' le quiet why
    · rw [taken]
      exact listing.bind fun _ s'' le' quiet => rest s'' (le.trans le') quiet

theorem takeLock {k : Bool → M g β} {f : M g β} (b : ℕ) (refused : Quietly (k false))
    (taken : k true = CuckooTrie.addLock b >>= fun _ => f) (rest : Quietly f) :
    Quietly (CuckooTrie.tryTakeLock b >>= k) := fun _ =>
  takeLock_spec taken
    (fun s' _ quiet _ => (refused s').weaken fun _ _ _ quiet' => quiet.trans quiet')
    fun s' _ quiet => (rest s').weaken fun _ _ _ quiet' => quiet.trans quiet'

/-- A listed lock may be removed. -/
theorem removeLock_spec {b : ℕ} {s : Sys g} (listed : ∃ l ∈ s.locks, l.bucket = b) :
    (CuckooTrie.removeLock b : M g Unit).Returns s fun _ s' => Quiet s s' := by
  refine .update ⟨rfl, rfl, rfl, rfl, rfl, rfl, rfl, fun old b' set => ?_⟩
  have ne : b' ≠ b := by
    rintro rfl
    simp [setLockByte] at set
  obtain ⟨l, mem, rfl⟩ := old b' (by simpa [setLockByte, ne] using set)
  rcases hlocks : s.locks with _ | ⟨last, rest⟩
  · rw [hlocks] at mem
    exact absurd mem List.not_mem_nil
  rw [hlocks] at mem listed
  simp only
  by_cases same : last.bucket = b
  · rw [if_pos same]
    rcases List.mem_cons.mp mem with rfl | mem
    · exact absurd same ne
    · exact ⟨l, mem, rfl⟩
  · rw [if_neg same]
    have deeper : ∃ l ∈ rest, l.bucket = b := by
      obtain ⟨l', mem', bucket⟩ := listed
      rcases List.mem_cons.mp mem' with rfl | mem'
      · exact absurd bucket same
      · exact ⟨l', mem', bucket⟩
    obtain ⟨here, others⟩ := @exists_mem_replaceLock b last rest deeper
    rcases List.mem_cons.mp mem with rfl | mem
    · exact ⟨l, here, rfl⟩
    · exact ⟨l, others l mem ne, rfl⟩

/-- Dropping a reference of a listed lock, and the lock with the last one. -/
theorem dropLock_spec {b remaining : ℕ} {f : BucketWriteLock → BucketWriteLock}
    {event : LockEvent} (same : ∀ l, (f l).bucket = l.bucket) {s : Sys g}
    (listed : ∃ l ∈ s.locks, l.bucket = b) :
    (do CuckooTrie.updateLock b f
        removeUnusedLock b remaining
        CuckooTrie.recordLocks event : M g Unit).Returns s fun _ s' => Quiet s s' := by
  refine Prog.Returns.bind (Q := fun _ s' => Quiet s s' ∧ ∃ l ∈ s'.locks, l.bucket = b) ?_ ?_
  · obtain ⟨a, ret, quiet⟩ := updateLock b same s
    obtain ⟨l, mem, bucket⟩ := listed
    obtain ⟨l', mem', bucket'⟩ := exists_mem_modifyLock (b := b) same mem
    exact ⟨a, ret, quiet, l', mem', bucket'.trans bucket⟩
  · rintro _ s₁ - ⟨quiet, listed₁⟩
    refine Prog.Returns.bind (Q := fun _ s₂ => Quiet s s₂) ?_ fun _ s₂ _ quiet₂ =>
      (recordLocks _ s₂).weaken fun _ _ _ quiet₃ => quiet₂.trans quiet₃
    exact .ite (fun _ => .pure quiet) fun _ =>
      (removeLock_spec listed₁).weaken fun _ _ _ quiet₂ => quiet.trans quiet₂

/-- Both functions that drop a reference look the lock up first. -/
theorem dropFound {b : ℕ} {c : BucketWriteLock → Bool} {f : BucketWriteLock → BucketWriteLock}
    {event : LockEvent} (same : ∀ l, (f l).bucket = l.bucket) :
    Quietly (do
      let lock ← CuckooTrie.lookupLock b
      CuckooTrie.assertThat .lockListed fun _ => lock.isSome
      match lock with
      | none => Pure.pure ()
      | some l =>
        CuckooTrie.assertThat .refcountPositive fun _ => c l
        CuckooTrie.updateLock b f
        removeUnusedLock b (l.totalRefcount - 1)
        CuckooTrie.recordLocks event : M g Unit) := by
  intro s
  refine Prog.Returns.bind (Q := fun found s' => found = findWriteLock s.locks b ∧ s' = s)
    (.read ⟨rfl, rfl⟩) ?_
  rintro found s' - ⟨rfl, rfl⟩
  refine Prog.Returns.bind (Q := fun _ s₁ => Quiet s' s₁ ∧ s₁.locks = s'.locks)
    (.update ⟨⟨rfl, rfl, rfl, rfl, rfl, rfl, rfl, id⟩, rfl⟩) ?_
  rintro _ s₁ - ⟨quiet₁, locks₁⟩
  cases found : findWriteLock s'.locks b with
  | none => exact .pure quiet₁
  | some l =>
    refine Prog.Returns.bind (Q := fun _ s₂ => Quiet s' s₂ ∧ s₂.locks = s'.locks)
      (.update ⟨quiet₁.trans ⟨rfl, rfl, rfl, rfl, rfl, rfl, rfl, id⟩, locks₁⟩) ?_
    rintro _ s₂ - ⟨quiet₂, locks₂⟩
    obtain ⟨mem, bucket⟩ := findWriteLock_eq_some found
    exact (dropLock_spec same ⟨l, locks₂ ▸ mem, bucket⟩).weaken fun _ _ _ quiet =>
      quiet₂.trans quiet

theorem validateEntry (lc : LocalCopy) : Quietly (CuckooTrie.validateEntry lc : M g Bool) :=
  othersAllow.bind fun _ => getTrie.bind fun _ => pure _

theorem readUnlockBucket (l : BucketReadLock) : Quietly (CuckooTrie.readUnlockBucket l : M g Bool) :=
  othersAllow.bind fun _ => getTrie.bind fun _ => pure _

theorem releaseBucketLock (b : ℕ) : Quietly (CuckooTrie.releaseBucketLock b : M g Unit) :=
  dropFound fun _ => rfl

theorem writeUnlock (loc : Loc) : Quietly (CuckooTrie.writeUnlock loc : M g Unit) :=
  dropFound fun _ => rfl

theorem writeLockBucket (b : ℕ) : Quietly (CuckooTrie.writeLockBucket b : M g Bool) := by
  refine takeLock b ?_ rfl (pure true)
  refine (lookupLock b).bind fun found => ?_
  cases found with
  | none => exact pure _
  | some l =>
    exact (assertThat _ _).bind fun _ => (updateLock b (by intro l; rfl)).bind fun _ =>
      (recordLocks _).bind fun _ => pure _

/-- **`read_unlock_bucket`** fails only if the others deny it, or if the bucket was
written since it was read. -/
theorem readUnlockBucket_spec (l : BucketReadLock) (s : Sys g) :
    (CuckooTrie.readUnlockBucket l : M g Bool).Returns s fun ok s' => Quiet s s' ∧
      (ok = true ∨ ok = false ∧ (s.trie.seq l.bucket = l.seq → Denied s s')) := by
  rw [CuckooTrie.readUnlockBucket]
  refine Prog.Returns.bind (Q := fun allowed s' => allowed = s.env s.checks ∧
    s' = { s with checks := s.checks + 1 }) (.update ⟨rfl, rfl⟩) ?_
  rintro allowed s' - ⟨rfl, rfl⟩
  refine Prog.Returns.bind (Q := fun t s' => t = s.trie ∧
    s' = { s with checks := s.checks + 1 }) (.read ⟨rfl, rfl⟩) ?_
  rintro t s' - ⟨rfl, rfl⟩
  refine .pure ⟨⟨rfl, rfl, rfl, rfl, rfl, rfl, rfl, id⟩, ?_⟩
  cases allowed : s.env s.checks with
  | false => exact Or.inr ⟨rfl, fun _ => ⟨s.checks, le_rfl, Nat.lt_succ_self _, allowed⟩⟩
  | true =>
    cases same : sameSeq (s.trie.seq l.bucket) l.seq with
    | true => exact Or.inl rfl
    | false =>
      refine Or.inr ⟨rfl, fun equal => ?_⟩
      simp [sameSeq, equal] at same

/-- **`upgrade_bucket_lock`** fails only if the others deny it, or if the bucket
was written since it was read. -/
theorem upgradeBucketLock_spec (l : BucketReadLock) (s : Sys g) :
    (CuckooTrie.upgradeBucketLock l : M g InternalStatus).Returns s fun ret s' => Quiet s s' ∧
      (ret = .ok ∨ ret = .retry ∧ (LocksListed s → s.trie.seq l.bucket = l.seq → Denied s s')) := by
  rw [CuckooTrie.upgradeBucketLock]
  refine Prog.Returns.bind (Q := fun found s' => found = findWriteLock s.locks l.bucket ∧ s' = s)
    (.read ⟨rfl, rfl⟩) ?_
  rintro found s₀ - ⟨rfl, rfl⟩
  cases found : findWriteLock s₀.locks l.bucket with
  | some l' =>
    refine (readUnlockBucket_spec l s₀).bind fun unchanged s₁ _ h => ?_
    obtain ⟨quiet₁, outcome⟩ := h
    refine .ite (fun differ => .pure ⟨quiet₁, Or.inr ⟨rfl, fun _ same => ?_⟩⟩) fun _ => ?_
    · rcases outcome with rfl | ⟨-, denied⟩
      · cases differ
      · exact denied same
    · refine (updateLock l.bucket (by intro l; rfl) s₁).bind fun _ s₂ _ quiet₂ => ?_
      exact (recordLocks _ s₂).bind fun _ _ _ quiet₃ =>
        .pure ⟨(quiet₁.trans quiet₂).trans quiet₃, Or.inl rfl⟩
  | none =>
    refine takeLock_spec rfl ?_ ?_
    · intro s₁ _ quiet₁ why
      refine .pure ⟨quiet₁, Or.inr ⟨rfl, fun listed _ => why.resolve_right fun byte => ?_⟩⟩
      obtain ⟨l', mem, bucket⟩ := listed _ byte.1
      exact findWriteLock_eq_none found l' mem bucket
    · intro s₁ le₁ quiet₁
      refine (readUnlockBucket_spec l s₁).bind fun unchanged s₂ _ h => ?_
      obtain ⟨quiet₂, outcome⟩ := h
      refine .ite (fun differ => ?_) fun _ => .pure ⟨quiet₁.trans quiet₂, Or.inl rfl⟩
      refine (releaseBucketLock _ s₂).bind fun _ s₃ le₃ quiet₃ =>
        .pure ⟨(quiet₁.trans quiet₂).trans quiet₃, Or.inr ⟨rfl, fun _ same => ?_⟩⟩
      rcases outcome with rfl | ⟨-, denied⟩
      · cases differ
      · exact ((denied (quiet₁.seq ▸ same)).mono_left le₁).mono_right le₃

theorem upgradeBucketLock (l : BucketReadLock) :
    Quietly (CuckooTrie.upgradeBucketLock l : M g InternalStatus) := fun s =>
  (upgradeBucketLock_spec l s).weaken fun _ _ _ h => h.1

theorem writeLockEntryInLockedBucket (loc : Loc) :
    Quietly (CuckooTrie.writeLockEntryInLockedBucket loc : M g Unit) :=
  (assertThat _ _).bind fun _ => (updateLock _ (by intro l; rfl)).bind fun _ => recordLocks _

theorem moveEntryLock (dst src : Loc) : Quietly (CuckooTrie.moveEntryLock dst src : M g Unit) := by
  refine (lookupLock _).bind fun found => (assertThat _ _).bind fun _ =>
    (assertThat _ _).bind fun _ => ?_
  cases found with
  | none => exact pure _
  | some l =>
    exact ite (pure _) ((updateLock _ (by intro l; rfl)).bind fun _ =>
      (updateLock _ (by intro l; rfl)).bind fun _ => recordLocks _)

/-- **`validate_entry`** accepts only copies that are up to date. -/
theorem validateEntry_spec (lc : LocalCopy) (s : Sys g) :
    (CuckooTrie.validateEntry lc : M g Bool).Returns s fun ok s' => Quiet s s' ∧
      (ok = true ∧ s.trie.entryUnchanged lc = true ∨
        ok = false ∧ (s.trie.entryUnchanged lc = true → Denied s s')) := by
  rw [CuckooTrie.validateEntry]
  refine (othersAllow_spec s).bind fun allowed s₁ _ h => ?_
  obtain ⟨quiet, trie, -, denied⟩ := h
  refine Prog.Returns.bind (Q := fun t s' => t = s.trie ∧ s' = s₁) (.read ⟨trie, rfl⟩) ?_
  rintro t s' - ⟨rfl, rfl⟩
  refine .pure ⟨quiet, ?_⟩
  cases allowed with
  | false => exact Or.inr ⟨rfl, fun _ => denied rfl⟩
  | true =>
    cases same : s.trie.entryUnchanged lc with
    | true => exact Or.inl ⟨rfl, rfl⟩
    | false => exact Or.inr ⟨rfl, nofun⟩

/-- **`upgrade_lock`** succeeds only on a copy that is up to date, and fails only
if the others deny it or the copy is not. -/
theorem upgradeLock_spec (lc : LocalCopy) (s : Sys g) :
    (CuckooTrie.upgradeLock lc : M g InternalStatus).Returns s fun ret s' => Quiet s s' ∧
      (ret = .ok ∧ s.trie.entryUnchanged lc = true ∨
        ret = .retry ∧ (LocksListed s → s.trie.entryUnchanged lc = true → Denied s s')) := by
  have same : ∀ {s' : Sys g}, Quiet s s' → s'.trie.entryUnchanged lc = s.trie.entryUnchanged lc :=
    fun quiet => by rw [Trie.entryUnchanged, quiet.seq, Trie.entryUnchanged]
  rw [CuckooTrie.upgradeLock]
  refine takeLock_spec rfl ?_ ?_
  · intro s₁ le₁ quiet₁ why
    refine Prog.Returns.bind (Q := fun found s' => found = findWriteLock s₁.locks
      lc.lastPos.bucket ∧ s' = s₁) (.read ⟨rfl, rfl⟩) ?_
    rintro found s₁ - ⟨rfl, rfl⟩
    cases found : findWriteLock s₁.locks lc.lastPos.bucket with
    | none =>
      refine .pure ⟨quiet₁, Or.inr ⟨rfl, fun listed _ => why.resolve_right fun byte => ?_⟩⟩
      obtain ⟨l', mem, bucket⟩ := quiet₁.locks listed _ byte.2
      exact findWriteLock_eq_none found l' mem bucket
    | some l =>
      refine (validateEntry_spec lc s₁).bind fun unchanged s₂ _ h => ?_
      obtain ⟨quiet₂, outcome⟩ := h
      rw [same quiet₁] at outcome
      refine .ite (fun differ => ?_) fun unchanged => ?_
      · refine .pure ⟨quiet₁.trans quiet₂, Or.inr ⟨rfl, fun _ same => ?_⟩⟩
        rcases outcome with ⟨rfl, -⟩ | ⟨-, denied⟩
        · cases differ
        · exact (denied same).mono_left le₁
      · refine (updateLock _ (by intro l; rfl) s₂).bind fun _ s₃ _ quiet₃ => ?_
        refine (recordLocks _ s₃).bind fun _ _ _ quiet₄ =>
          .pure ⟨((quiet₁.trans quiet₂).trans quiet₃).trans quiet₄, Or.inl ⟨rfl, ?_⟩⟩
        rcases outcome with ⟨-, valid⟩ | ⟨rfl, -⟩
        · exact valid
        · exact absurd rfl unchanged
  · intro s₁ le₁ quiet₁
    refine (validateEntry_spec lc s₁).bind fun unchanged s₂ _ h => ?_
    obtain ⟨quiet₂, outcome⟩ := h
    rw [same quiet₁] at outcome
    refine .ite (fun differ => ?_) fun unchanged => ?_
    · refine (releaseBucketLock _ s₂).bind fun _ s₃ le₃ quiet₃ =>
        .pure ⟨(quiet₁.trans quiet₂).trans quiet₃, Or.inr ⟨rfl, fun _ same => ?_⟩⟩
      rcases outcome with ⟨rfl, -⟩ | ⟨-, denied⟩
      · cases differ
      · exact ((denied same).mono_left le₁).mono_right le₃
    · refine (updateLock _ (by intro l; rfl) s₂).bind fun _ s₃ _ quiet₃ => ?_
      refine (recordLocks _ s₃).bind fun _ _ _ quiet₄ =>
        .pure ⟨((quiet₁.trans quiet₂).trans quiet₃).trans quiet₄, Or.inl ⟨rfl, ?_⟩⟩
      rcases outcome with ⟨-, valid⟩ | ⟨rfl, -⟩
      · exact valid
      · exact absurd rfl unchanged

theorem upgradeLock (lc : LocalCopy) :
    Quietly (CuckooTrie.upgradeLock lc : M g InternalStatus) := fun s =>
  (upgradeLock_spec lc s).weaken fun _ _ _ h => h.1

theorem upgradePath (path : List QueueEntry) :
    Quietly (CuckooTrie.upgradePath path : M g (List ℕ)) := by
  induction path with
  | nil => exact pure _
  | cons q path ih =>
    refine (upgradeBucketLock _).bind fun ret => ?_
    cases ret with
    | ok => exact ih.bind fun _ => pure _
    | retry => exact pure _
    | exist => exact pure _
    | fail => exact pure _

theorem releaseBucketLocks (bs : List ℕ) :
    Quietly (CuckooTrie.releaseBucketLocks bs : M g Unit) := by
  induction bs with
  | nil => exact pure _
  | cons b bs ih => exact (releaseBucketLock b).bind fun _ => ih

theorem releasePath (queue : List QueueEntry) (found : FreeCell) (upgraded : List ℕ) :
    Quietly (CuckooTrie.releasePath queue found upgraded : M g Unit) :=
  (releaseBucketLock _).bind fun _ => (releaseBucketLocks _).bind fun _ => assertThat _ _

theorem forM (locs : List Loc) : Quietly (locs.forM CuckooTrie.writeUnlock : M g PUnit) := by
  induction locs with
  | nil => exact pure _
  | cons loc locs ih => exact (writeUnlock loc).bind fun _ => ih

end Quietly

/-- No bucket is locked. -/
def Sys.Unlocked (s : Sys g) : Prop := ∀ b, s.trie.writeLock b = false

theorem Sys.Unlocked.listed {s : Sys g} (unlocked : s.Unlocked) : LocksListed s := fun b set => by
  rw [unlocked b] at set
  cases set

/-- `init_lock_mgr` forgets no lock, as none is held. -/
theorem initLockMgr_spec {s : Sys g} (unlocked : s.Unlocked) :
    (initLockMgr : M g Unit).Returns s fun _ s' => Quiet s s' ∧ s'.Unlocked := by
  refine Prog.Returns.bind (Q := fun _ s' => Quiet s s' ∧ s'.Unlocked) (.update ?_) ?_
  · refine ⟨⟨rfl, rfl, rfl, rfl, rfl, rfl, rfl, fun _ b set => ?_⟩, unlocked⟩
    rw [unlocked b] at set
    cases set
  · rintro _ s' - ⟨quiet, unlocked'⟩
    exact .update ⟨quiet.trans ⟨rfl, rfl, rfl, rfl, rfl, rfl, rfl, id⟩, unlocked'⟩

/-- `release_all_locks` leaves no bucket locked. -/
theorem releaseAllLocks_spec {s : Sys g} (listed : LocksListed s) :
    (releaseAllLocks : M g Unit).Returns s fun _ s' => Quiet s s' ∧ s'.Unlocked := by
  have clear : ∀ b, s.locks.foldr (fun l bytes => setLockByte bytes l.bucket false)
      s.trie.writeLock b = false := by
    intro b
    rw [← Bool.not_eq_true]
    intro set
    obtain ⟨kept, unlisted⟩ := released _ _ b set
    obtain ⟨l, mem, same⟩ := listed b kept
    exact unlisted l mem same
  refine Prog.Returns.bind (Q := fun _ s' => Quiet s s' ∧ s'.Unlocked) (.update ?_) ?_
  · refine ⟨⟨rfl, rfl, rfl, rfl, rfl, rfl, rfl, fun _ b set => ?_⟩, clear⟩
    exact absurd (set.symm.trans (clear b)) (by decide)
  · rintro _ s' - ⟨quiet, unlocked⟩
    exact .update ⟨quiet.trans ⟨rfl, rfl, rfl, rfl, rfl, rfl, rfl, id⟩, unlocked⟩

end CuckooTrie
