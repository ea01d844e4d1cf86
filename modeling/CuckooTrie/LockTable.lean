import CuckooTrie.References
import CuckooTrie.Relocate
import CuckooTrie.Upgrades
import Mathlib.Data.ENat.Basic

/-!
# The size of the lock table

The lock manager has `MAX_LOCKS` slots and asserts that one is free whenever it adds a
lock.  A program that only locks buckets of a set `T` (`LocksIn`) leaves records that list
buckets of `T` only, and by the books each bucket is listed once; so the slots suffice for
it if there are not more buckets in `T`.

A relocation locks the buckets on its path besides those listed when it began, as far as the
others let it.  `Sys.Within` bounds the records made otherwise, and says of the others that
they list buckets of the peak of a relocation.  As that peak is reached, the slots suffice for
a call exactly when they do for its relocations (`Sys.Within.locksFit_iff`).
-/

namespace CuckooTrie

open Sys

variable {g : Geometry} {α β : Type} {others : ℕ → Bool} {N : ℕ∞} {s : Sys g} {b : ℕ}
  {T : Finset ℕ}

/-- A record made while a relocation upgrades its path or holds it. -/
def LockRecord.OnPath (r p : LockRecord) (env : ℕ → Bool) : Prop :=
  ∃ path, p.event = .path path ∧ r.buckets ⊆ p.peak env path

/-- Every record lists at most `N` buckets, or was made while a relocation held its path. -/
def Sys.Within (N : ℕ∞) (s : Sys g) : Prop :=
  ∀ r ∈ s.lockLog, (r.locks.length : ℕ∞) ≤ N ∨ ∃ p ∈ s.lockLog, r.OnPath p s.env

/-- The assertions that a slot is free can be read off the records. -/
def Sys.SlotsTell (s : Sys g) : Prop :=
  (∀ r ∈ s.lockLog, r.locks.length ≤ maxLocks) →
    ∀ holds, (Assertion.slotFree, holds) ∈ s.asserts → holds = true

/-- The buckets that a relocation locks at most at a time were all listed at a time. -/
def Sys.PathsReached (s : Sys g) : Prop :=
  ∀ p ∈ s.lockLog, ∀ path, p.event = .path path → s.Lists (p.peak s.env path)

/-- What the slots were needed for can be read off the records. -/
structure Sys.RecordsTell (s : Sys g) : Prop where
  slots : s.SlotsTell
  paths : s.PathsReached

/-- Every relocation had slots for the buckets it locked at most at a time: those listed
when it began, and those on its path as far as the others let it lock them. -/
def Sys.PathsFit (s : Sys g) : Prop :=
  ∀ p ∈ s.lockLog, ∀ path, p.event = .path path → (p.peak s.env path).card ≤ maxLocks

/-- At most `MAX_LOCKS` buckets were locked at each point, and a slot was free whenever a
lock was added. -/
structure Sys.LocksFit (s : Sys g) : Prop where
  records : ∀ r ∈ s.lockLog, r.locks.length ≤ maxLocks
  slots : ∀ holds, (Assertion.slotFree, holds) ∈ s.asserts → holds = true

/-! ## Locking buckets of a set -/

/-- If only buckets of a set were listed before, so they are after and in the records
made in between. -/
structure StaysIn (T : Finset ℕ) (s s' : Sys g) : Prop where
  locks : (∀ l ∈ s.locks, l.bucket ∈ T) → ∀ l ∈ s'.locks, l.bucket ∈ T
  records : (∀ l ∈ s.locks, l.bucket ∈ T) →
    ∀ r ∈ s'.lockLog, r ∈ s.lockLog ∨ ∀ l ∈ r.locks, l.bucket ∈ T
  paths : ∀ r ∈ s'.lockLog, r ∈ s.lockLog ∨ ∀ path, r.event ≠ .path path
  slots : s.SlotsTell → s'.SlotsTell

theorem StaysIn.refl (T : Finset ℕ) (s : Sys g) : StaysIn T s s :=
  ⟨id, fun _ _ mem => Or.inl mem, fun _ mem => Or.inl mem, id⟩

theorem StaysIn.trans {s s' s'' : Sys g} (h : StaysIn T s s') (h' : StaysIn T s' s'') :
    StaysIn T s s'' where
  locks inside := h'.locks (h.locks inside)
  records inside r mem := by
    rcases h'.records (h.locks inside) r mem with earlier | new
    · exact h.records inside r earlier
    · exact Or.inr new
  paths r mem := (h'.paths r mem).elim (h.paths r) Or.inr
  slots := h'.slots ∘ h.slots

/-- The slots and the records are the same. -/
theorem StaysIn.of_sameLocks {s s' : Sys g} (same : SameLocks s s') : StaysIn T s s' where
  locks inside := by
    rw [same.locks]
    exact inside
  records _ r mem := Or.inl (same.lockLog ▸ mem)
  paths r mem := Or.inl (same.lockLog ▸ mem)
  slots tell := by
    rw [SlotsTell, same.lockLog, same.asserts]
    exact tell

/-- The records tell everything if the paths that were recorded before are reached. -/
theorem StaysIn.tell {s s' : Sys g} (stays : StaysIn T s s') (le : s ≤ s') (slots : s.SlotsTell)
    (reached : ∀ p ∈ s.lockLog, ∀ path, p.event = .path path → s'.Lists (p.peak s.env path)) :
    s'.RecordsTell where
  slots := stays.slots slots
  paths p mem path event := by
    rw [le.env]
    rcases stays.paths p mem with earlier | other
    · exact reached p earlier path event
    · exact absurd event (other path)

/-- A program only locks buckets of a set. -/
def LocksIn (T : Finset ℕ) (f : M g α) : Prop := f.Frames (StaysIn T)

namespace LocksIn

theorem of_leaves {f : M g α} (leaves : LeavesLocks f) : LocksIn T f :=
  fun s => .of_sameLocks (leaves s)

theorem pure (a : α) : LocksIn T (pure a : M g α) := Prog.Frames.pure (StaysIn.refl T) a

theorem read (f : Sys g → α) : LocksIn T (Prog.read f : M g α) :=
  Prog.Frames.read (StaysIn.refl T) f

theorem bind {f : M g α} {k : α → M g β} (first : LocksIn T f) (rest : ∀ a, LocksIn T (k a)) :
    LocksIn T (f >>= k) := Prog.Frames.bind (fun _ _ _ => StaysIn.trans) first rest

theorem ite {c : Prop} [Decidable c] {f f' : M g α} (pos : LocksIn T f) (neg : LocksIn T f') :
    LocksIn T (if c then f else f') := Prog.Frames.ite pos neg

theorem assertThat {assertion : Assertion} (other : assertion ≠ .slotFree)
    (holds : Sys g → Bool) : LocksIn T (CuckooTrie.assertThat assertion holds) := by
  refine fun s => ⟨id, fun _ _ mem => Or.inl mem, fun _ mem => Or.inl mem,
    fun tell few holds' mem => ?_⟩
  rcases List.mem_cons.mp mem with equal | earlier
  · exact absurd (congrArg Prod.fst equal).symm other
  · exact tell few holds' earlier

theorem recordLocks {event : LockEvent} (other : ∀ path, event ≠ .path path) :
    LocksIn T (CuckooTrie.recordLocks event : M g Unit) := by
  refine fun s => ⟨id, fun inside r mem => ?_, fun r mem => ?_, fun tell few => ?_⟩
  · rcases List.mem_cons.mp mem with rfl | earlier
    · exact Or.inr inside
    · exact Or.inl earlier
  · rcases List.mem_cons.mp mem with rfl | earlier
    · exact Or.inr other
    · exact Or.inl earlier
  · exact tell fun r mem => few r (List.mem_cons_of_mem _ mem)

/-- A change of the locks that lists no new bucket. -/
theorem lockStep {f : (ℕ → Bool) → List BucketWriteLock → α × (ℕ → Bool) × List BucketWriteLock}
    (old : ∀ bytes locks, ∀ l ∈ (f bytes locks).2.2, ∃ l' ∈ locks, l'.bucket = l.bucket) :
    LocksIn T (CuckooTrie.lockStep f : M g α) := by
  refine fun s => ⟨fun inside l mem => ?_, fun _ _ mem => Or.inl mem, fun _ mem => Or.inl mem, id⟩
  obtain ⟨l', mem', same⟩ := old _ _ l mem
  exact same ▸ inside l' mem'

theorem updateLock (b : ℕ) {f : BucketWriteLock → BucketWriteLock}
    (same : ∀ l, (f l).bucket = l.bucket) : LocksIn T (CuckooTrie.updateLock b f : M g Unit) := by
  refine lockStep fun _ locks l mem => ?_
  have listed := List.mem_map_of_mem (f := (·.bucket)) mem
  rw [map_bucket_modifyLock same] at listed
  exact List.mem_map.mp listed

theorem removeLock (b : ℕ) : LocksIn T (CuckooTrie.removeLock b : M g Unit) := by
  refine lockStep fun _ locks l mem => ?_
  cases locks with
  | nil => cases mem
  | cons last rest =>
    simp only at mem
    split at mem
    · exact ⟨l, List.mem_cons_of_mem _ mem, rfl⟩
    · have listed : l ∈ last :: rest := by
        clear * - mem
        induction rest with
        | nil => cases mem
        | cons l₀ rest ih =>
          rw [replaceLock, modifyLock] at mem
          split at mem
          · rcases List.mem_cons.mp mem with rfl | later
            · exact List.mem_cons_self
            · exact List.mem_cons_of_mem _ (List.mem_cons_of_mem _ later)
          · rcases List.mem_cons.mp mem with rfl | later
            · exact List.mem_cons_of_mem _ List.mem_cons_self
            · rcases List.mem_cons.mp (ih later) with rfl | later
              · exact List.mem_cons_self
              · exact List.mem_cons_of_mem _ (List.mem_cons_of_mem _ later)
      exact ⟨l, listed, rfl⟩

theorem tryTakeLock (b : ℕ) : LocksIn T (CuckooTrie.tryTakeLock b : M g Bool) :=
  (of_leaves LeavesLocks.othersAllow).bind fun _ =>
    ite (pure _) (lockStep fun _ _ l mem => ⟨l, mem, rfl⟩)

theorem lookupLock (b : ℕ) :
    LocksIn T (CuckooTrie.lookupLock b : M g (Option BucketWriteLock)) := read _

/-- **`add_lock`**: whether its slot was free shows in the record it leaves. -/
theorem addLock (mem : b ∈ T) : LocksIn T (CuckooTrie.addLock b : M g Unit) := by
  intro s
  have inside' : (∀ l ∈ s.locks, l.bucket ∈ T) →
      ∀ l ∈ (⟨b, fun _ => 0, 1⟩ : BucketWriteLock) :: s.locks, l.bucket ∈ T := by
    intro inside l listed
    rcases List.mem_cons.mp listed with rfl | listed
    · exact mem
    · exact inside l listed
  refine ⟨inside', fun inside r listed => ?_, fun r listed => ?_, fun tell few holds listed => ?_⟩
  · rcases List.mem_cons.mp listed with rfl | earlier
    · exact Or.inr (inside' inside)
    · exact Or.inl earlier
  · rcases List.mem_cons.mp listed with rfl | earlier
    · exact Or.inr (by simp)
    · exact Or.inl earlier
  · rcases List.mem_cons.mp listed with equal | earlier
    · cases equal
      exact decide_eq_true (few _ List.mem_cons_self)
    · exact tell (fun r mem => few r (List.mem_cons_of_mem _ mem)) holds earlier

theorem removeUnusedLock (b remaining : ℕ) :
    LocksIn T (CuckooTrie.removeUnusedLock b remaining : M g Unit) := ite (pure _) (removeLock b)

theorem releaseBucketLock (b : ℕ) : LocksIn T (CuckooTrie.releaseBucketLock b : M g Unit) := by
  refine (lookupLock b).bind fun lock => (assertThat (by decide) _).bind fun _ => ?_
  cases lock with
  | none => exact pure _
  | some l =>
    exact (assertThat (by decide) _).bind fun _ => (updateLock b (by intro l; rfl)).bind fun _ =>
      (removeUnusedLock b _).bind fun _ => recordLocks (by simp)

theorem upgradeBucketLock {l : BucketReadLock} (mem : l.bucket ∈ T) :
    LocksIn T (CuckooTrie.upgradeBucketLock l : M g InternalStatus) := by
  refine (lookupLock _).bind fun lock => ?_
  cases lock with
  | some _ =>
    exact (of_leaves (LeavesLocks.readUnlockBucket l)).bind fun _ => ite (pure _)
      ((updateLock _ (by intro l; rfl)).bind fun _ => (recordLocks (by simp)).bind fun _ => pure _)
  | none =>
    exact (tryTakeLock _).bind fun _ => ite (pure _) ((addLock mem).bind fun _ =>
      (of_leaves (LeavesLocks.readUnlockBucket l)).bind fun _ =>
        ite ((releaseBucketLock _).bind fun _ => pure _) (pure _))

theorem writeLockBucket (mem : b ∈ T) : LocksIn T (CuckooTrie.writeLockBucket b : M g Bool) := by
  refine (tryTakeLock b).bind fun _ => ite ((addLock mem).bind fun _ => pure _) ?_
  refine (lookupLock b).bind fun lock => ?_
  cases lock with
  | none => exact pure _
  | some _ =>
    exact (assertThat (by decide) _).bind fun _ => (updateLock b (by intro l; rfl)).bind fun _ =>
      (recordLocks (by simp)).bind fun _ => pure _

theorem writeLockEntryInLockedBucket (loc : Loc) :
    LocksIn T (CuckooTrie.writeLockEntryInLockedBucket loc : M g Unit) :=
  (assertThat (by decide) _).bind fun _ => (updateLock _ (by intro l; rfl)).bind
    fun _ => recordLocks (by simp)

theorem moveEntryLock (dst src : Loc) :
    LocksIn T (CuckooTrie.moveEntryLock dst src : M g Unit) := by
  refine (lookupLock _).bind fun lock => (assertThat (by decide) _).bind fun _ =>
    (assertThat (by decide) _).bind fun _ => ?_
  cases lock with
  | none => exact pure _
  | some l =>
    exact ite (pure _) ((updateLock _ (by intro l; rfl)).bind fun _ =>
      (updateLock _ (by intro l; rfl)).bind fun _ => recordLocks (by simp))

theorem upgradeLock {lc : LocalCopy} (mem : lc.lastPos.bucket ∈ T) :
    LocksIn T (CuckooTrie.upgradeLock lc : M g InternalStatus) := by
  refine (tryTakeLock _).bind fun _ => ite ((addLock mem).bind fun _ => ?_) ?_
  · exact (of_leaves (LeavesLocks.validateEntry lc)).bind fun _ =>
      ite ((releaseBucketLock _).bind fun _ => pure _) ((updateLock _ (by intro l; rfl)).bind
        fun _ => (recordLocks (by simp)).bind fun _ => pure _)
  · refine (lookupLock _).bind fun lock => ?_
    cases lock with
    | none => exact pure _
    | some _ =>
      exact (of_leaves (LeavesLocks.validateEntry lc)).bind fun _ => ite (pure _)
        ((updateLock _ (by intro l; rfl)).bind fun _ => (recordLocks (by simp)).bind
          fun _ => pure _)

theorem writeUnlock (loc : Loc) : LocksIn T (CuckooTrie.writeUnlock loc : M g Unit) := by
  refine (lookupLock _).bind fun lock => (assertThat (by decide) _).bind fun _ => ?_
  cases lock with
  | none => exact pure _
  | some l =>
    exact (assertThat (by decide) _).bind fun _ => (updateLock _ (by intro l; rfl)).bind fun _ =>
      (removeUnusedLock _ _).bind fun _ => recordLocks (by simp)

theorem releaseAllLocks : LocksIn T (CuckooTrie.releaseAllLocks : M g Unit) :=
  (lockStep fun _ _ _ mem => absurd mem List.not_mem_nil).bind fun _ => recordLocks (by simp)

/-! ### Relocating -/

theorem releaseBucketLocks (bs : List ℕ) :
    LocksIn T (CuckooTrie.releaseBucketLocks bs : M g Unit) := by
  induction bs with
  | nil => exact pure _
  | cons b bs ih => exact (releaseBucketLock b).bind fun _ => ih

theorem moveEntries (free : Loc) (sources : List Loc) :
    LocksIn T (CuckooTrie.moveEntries free sources : M g Unit) := by
  have write : ∀ loc e, LocksIn T (CuckooTrie.writeEntry loc e : M g Unit) := fun _ _ =>
    of_leaves fun _ => ⟨rfl, rfl, rfl, rfl⟩
  induction sources generalizing free with
  | nil => exact pure _
  | cons occupied rest ih =>
    exact (read _).bind fun _ => (write _ _).bind fun _ => (moveEntryLock _ _).bind fun _ =>
      ite (write _ _) (ih occupied)

theorem releasePath (queue : List QueueEntry) (found : FreeCell) (upgraded : List ℕ) :
    LocksIn T (CuckooTrie.releasePath queue found upgraded : M g Unit) :=
  (releaseBucketLock _).bind fun _ => (releaseBucketLocks _).bind fun _ => assertThat (by decide) _

end LocksIn

/-- **One step of the way**, if the peak is within the set. -/
theorem upgradeBucketLock_stays {l : BucketReadLock} (lock : l = readLockBucket s.trie l.bucket)
    {bs : List ℕ} (inside : s.peak (l.bucket :: bs) ⊆ T) :
    (upgradeBucketLock l).Returns s fun ret s' => StaysIn T s s' ∧
      ((ret = .ok ∧ s'.trie.seq = s.trie.seq ∧ s'.peak bs ⊆ T) ∨ ret = .retry) := by
  have current : s.trie.seq l.bucket = l.seq := by rw [lock]; rfl
  by_cases mem : l.bucket ∈ T
  · refine ((LocksIn.upgradeBucketLock mem).and_returns
      (upgradeBucketLock_outcome l current)).weaken fun ret s' _ h => ?_
    obtain ⟨⟨-, outcome⟩, stays⟩ := h
    refine ⟨stays, ?_⟩
    split at outcome
    · next granted =>
      obtain ⟨ok, upgraded⟩ := outcome
      exact Or.inl ⟨ok, upgraded.seq, upgraded.peak_cons granted bs ▸ inside⟩
    · exact Or.inr outcome
  · -- the lock byte of a bucket outside is not taken
    have unlisted : s.listed l.bucket ≠ true := fun listed =>
      mem (inside (s.buckets_subset_peak _ (Sys.mem_buckets.mpr listed)))
    have refused : ¬ (s.env s.checks && !s.trie.writeLock l.bucket) = true := by
      intro free
      refine mem (inside ?_)
      rw [Sys.peak, upgradePeak, if_neg (mt Sys.mem_buckets.mp unlisted), if_pos free]
      split
      · exact subset_upgradePeak _ _ _ (Finset.mem_insert_self _ _)
      · exact Finset.mem_insert_self _ _
    have denied : (tryTakeLock l.bucket).Returns s fun taken _ => taken = false :=
      (tryTakeLock_outcome s l.bucket).weaken fun _ _ _ h =>
        h.1.trans (Bool.eq_false_of_not_eq_true refused)
    rw [upgradeBucketLock]
    refine Prog.Returns.bind (Q := fun found s' => found = none ∧ s' = s) (.read ⟨?_, rfl⟩) ?_
    · rwa [Sys.listed, ne_eq, Bool.not_eq_true, Option.isSome_eq_false_iff,
        Option.isNone_iff_eq_none] at unlisted
    rintro - s - ⟨rfl, rfl⟩
    refine ((LocksIn.tryTakeLock (T := T) l.bucket).and_returns denied).bind ?_
    rintro - s₁ - ⟨rfl, stays⟩
    exact .pure ⟨stays, Or.inr rfl⟩

theorem upgradePath_stays {path : List QueueEntry}
    (readLocks : ∀ q ∈ path, q.readLock = readLockBucket s.trie q.bucket)
    (inside : s.peak (path.map (·.bucket)) ⊆ T) :
    (upgradePath path).Keeps (StaysIn T s) s fun _ s' => StaysIn T s s' := by
  induction path generalizing s with
  | nil => exact .pure (StaysIn.refl T s) (StaysIn.refl T s)
  | cons q path ih =>
    have lock := readLocks q List.mem_cons_self
    have bucket : q.readLock.bucket = q.bucket := by rw [lock]; rfl
    rw [List.map_cons, ← bucket] at inside
    rw [upgradePath]
    refine .after (upgradeBucketLock_stays (by rw [bucket, ← lock]) inside) ?_
    rintro ret s₁ ⟨stays, ⟨rfl, seq, inside₁⟩ | rfl⟩
    · refine ((ih (fun q' mem => ?_) inside₁).mono fun _ => stays.trans).bind
        fun _ s₂ stays₂ => .pure (stays.trans stays₂) (stays.trans stays₂)
      rw [readLocks q' (List.mem_cons_of_mem _ mem), readLockBucket_congr seq]
    · exact .pure stays stays

/-- **A relocation lists no buckets beyond its peak**, besides those listed before. -/
theorem relocateAlong_stays {queue : List QueueEntry} {found : FreeCell}
    (cell : found.readLock = readLockBucket s.trie found.readLock.bucket)
    (readLocks : ∀ q ∈ queuePath queue queue.length found.queuePos,
      q.readLock = readLockBucket s.trie q.bucket)
    (inside : s.peak (pathBuckets queue found) ⊆ T) :
    StaysIn T s ((relocateAlong queue found).run s).2 := by
  suffices h : (relocateAlong queue found).Keeps (StaysIn T s) s fun _ _ => True from h.1
  rw [relocateAlong]
  refine .after (upgradeBucketLock_stays cell inside) ?_
  rintro ret s₁ ⟨stays, ⟨rfl, seq, inside₁⟩ | rfl⟩
  · refine ((upgradePath_stays (fun q mem => ?_) inside₁).mono fun _ => stays.trans).bind
      fun upgraded s₂ stays₂ => ?_
    · rw [readLocks q mem, readLockBucket_congr seq]
    · refine .of_frames (LocksIn.ite ?_ ?_) (fun _ => (stays.trans stays₂).trans)
        fun _ _ _ => trivial
      · exact (LocksIn.moveEntries _ _).bind fun _ => (LocksIn.releasePath _ _ _).bind
          fun _ => .pure _
      · exact (LocksIn.releasePath _ _ _).bind fun _ => .pure _
  · exact .pure stays trivial

/-! ## Counting the slots -/

/-- Each bucket is listed at most once. -/
theorem Sys.Bookkept.nodup (past : s.Bookkept others) {r : LockRecord} (mem : r ∈ s.lockLog) :
    (r.locks.map (·.bucket)).Nodup := by
  obtain ⟨later, earlier, split⟩ := List.append_of_mem mem
  exact (past.balanced r earlier ⟨later, split.symm⟩).nodup

theorem length_le_card {locks : List BucketWriteLock} (nodup : (locks.map (·.bucket)).Nodup)
    (inside : ∀ l ∈ locks, l.bucket ∈ T) : locks.length ≤ T.card := by
  have subset : (locks.map (·.bucket)).toFinset ⊆ T := by
    intro b mem
    obtain ⟨l, listed, rfl⟩ := List.mem_map.mp (List.mem_toFinset.mp mem)
    exact inside l listed
  have fewer := Finset.card_le_card subset
  rwa [List.toFinset_card_of_nodup nodup, List.length_map] at fewer

/-- **The slots suffice for a call exactly when they do for its relocations**, if all other
records list few enough buckets. -/
theorem Sys.Within.locksFit_iff (within : s.Within maxLocks) (past : s.Bookkept others)
    (tell : s.RecordsTell) : s.LocksFit ↔ s.PathsFit := by
  refine ⟨fun fit p mem path event => ?_, fun fit => ?_⟩
  · obtain ⟨r, listed, subset⟩ := tell.paths p mem path event
    calc (p.peak s.env path).card ≤ r.buckets.card := Finset.card_le_card subset
      _ ≤ (r.locks.map (·.bucket)).length := List.toFinset_card_le _
      _ = r.locks.length := List.length_map _
      _ ≤ maxLocks := fit.records r listed
  · have records : ∀ r ∈ s.lockLog, r.locks.length ≤ maxLocks := by
      intro r mem
      rcases within r mem with few | ⟨p, hp, path, event, inside⟩
      · exact_mod_cast few
      · refine (length_le_card (past.nodup mem) fun l listed => inside ?_).trans
          (fit p hp path event)
        exact List.mem_toFinset.mpr (List.mem_map_of_mem listed)
    exact ⟨records, tell.slots records⟩

/-- There are not more locks than references. -/
theorem References.Listed.length_le {R : References} {bytes : ℕ → Bool}
    {locks : List BucketWriteLock} (listed : R.Listed others bytes locks) :
    locks.length ≤ R.buckets.card + R.entries.card := by
  refine (length_le_card (T := R.buckets.toFinset ∪ (R.entries.map (·.bucket)).toFinset)
    listed.nodup fun l mem => ?_).trans ?_
  · have positive := ((listed.mem l).mp mem).1
    rw [References.total, Nat.add_pos_iff_pos_or_pos] at positive
    rw [Finset.mem_union, Multiset.mem_toFinset, Multiset.mem_toFinset, Multiset.mem_map]
    refine positive.imp Multiset.count_pos.mp fun some_ => ?_
    obtain ⟨i, -, marked⟩ := Finset.exists_ne_zero_of_sum_ne_zero some_.ne'
    exact ⟨⟨l.bucket, i⟩, Multiset.count_ne_zero.mp marked, rfl⟩
  · refine (Finset.card_union_le _ _).trans (Nat.add_le_add (Multiset.toFinset_card_le _) ?_)
    exact (Multiset.toFinset_card_le _).trans (Multiset.card_map _ _).le

/-- The slots have sufficed so far; there may be no limit to them. -/
structure Sys.Roomy (N : ℕ∞) (s : Sys g) : Prop where
  within : s.Within N
  tell : N ≠ ⊤ → s.RecordsTell
  room : (s.locks.length : ℕ∞) ≤ N

/-- The books are balanced and the slots suffice. -/
structure Sys.Audited (others : ℕ → Bool) (N : ℕ∞) (s : Sys g) : Prop where
  bookkept : s.Bookkept others
  within : s.Within N
  tell : N ≠ ⊤ → s.RecordsTell

/-- What a program does to the books and the slots. -/
abbrev Audit (others : ℕ → Bool) (N : ℕ∞) (f : M g α) (s : Sys g) (Q : α → Sys g → Prop) : Prop :=
  f.Keeps (Sys.Audited others N) s Q

/-- Records that stay within a set are within the limit if the set is small or the peak of
a relocation. -/
theorem Sys.Within.audit {f : M g α} {Q : α → Sys g → Prop} (within : s.Within N)
    (books : Books others f s Q) (stays : StaysIn T s (f.run s).2)
    (tell : N ≠ ⊤ → (f.run s).2.RecordsTell) (inside : ∀ l ∈ s.locks, l.bucket ∈ T)
    (small : ∀ r : LockRecord, (r.locks.map (·.bucket)).Nodup → (∀ l ∈ r.locks, l.bucket ∈ T) →
      (r.locks.length : ℕ∞) ≤ N ∨ ∃ p ∈ s.lockLog, r.OnPath p s.env) :
    Audit others N f s fun a s' => Q a s' ∧ s'.Within N ∧ (N ≠ ⊤ → s'.RecordsTell) ∧
      ∀ l ∈ s'.locks, l.bucket ∈ T := by
  have within' : (f.run s).2.Within N := by
    intro r mem
    have here : (r.locks.length : ℕ∞) ≤ N ∨ ∃ p ∈ s.lockLog, r.OnPath p s.env := by
      rcases stays.records inside r mem with earlier | new
      · exact within r earlier
      · exact small r (books.1.nodup mem) new
    rw [(f.le_run s).env]
    exact here.imp_right fun ⟨p, hp, onPath⟩ => ⟨p, (f.le_run s).lockLog.subset hp, onPath⟩
  exact ⟨⟨books.1, within', tell⟩, fun a ret => ⟨books.2 a ret, within', tell, stays.locks inside⟩⟩

/-- The books are balanced, with a limited number of references on entries. -/
def Held (others : ℕ → Bool) (n : ℕ) (H : Multiset ℕ) (s : Sys g) : Prop :=
  ∃ entries : Multiset Loc, entries.card ≤ n ∧ Kept others ⟨H, entries⟩ s

/-- They are, and the slots have sufficed. -/
structure Counted (others : ℕ → Bool) (N : ℕ∞) (n : ℕ) (H : Multiset ℕ) (s : Sys g) : Prop where
  held : Held others n H s
  roomy : s.Roomy N

variable {n m : ℕ} {H H' : Multiset ℕ}

theorem Held.mono (held : Held others n H s) (le : n ≤ m) : Held others m H s := by
  obtain ⟨entries, few, kept⟩ := held
  exact ⟨entries, few.trans le, kept⟩

theorem Held.length_le (held : Held others n H s) : s.locks.length ≤ H.card + n := by
  obtain ⟨entries, few, kept⟩ := held
  exact kept.listed.length_le.trans (Nat.add_le_add_left few _)

theorem Held.nodup (held : Held others n H s) : (s.locks.map (·.bucket)).Nodup := by
  obtain ⟨entries, -, kept⟩ := held
  exact kept.listed.nodup

namespace Counted

theorem audited (counted : Counted others N n H s) : s.Audited others N := by
  obtain ⟨⟨entries, -, kept⟩, roomy⟩ := counted
  exact ⟨kept.past, roomy.within, roomy.tell⟩

theorem mono (counted : Counted others N n H s) (le : n ≤ m) : Counted others N m H s :=
  ⟨counted.held.mono le, counted.roomy⟩

/-- A program that only lists buckets of a small set. -/
theorem of_card_le {f : M g α} {Q : α → Sys g → Prop} (counted : Counted others N n H s)
    (books : Books others f s Q) (stays : LocksIn T f) (inside : ∀ l ∈ s.locks, l.bucket ∈ T)
    (few : (T.card : ℕ∞) ≤ N) (nodup : ∀ a s', Q a s' → (s'.locks.map (·.bucket)).Nodup) :
    Audit others N f s fun a s' => Q a s' ∧ s'.Roomy N := by
  have small : ∀ locks : List BucketWriteLock, (locks.map (·.bucket)).Nodup →
      (∀ l ∈ locks, l.bucket ∈ T) → (locks.length : ℕ∞) ≤ N := fun locks nodup inside =>
    (Nat.cast_le.mpr (length_le_card nodup inside)).trans few
  have tell : N ≠ ⊤ → (f.run s).2.RecordsTell := fun limited =>
    have tell := counted.roomy.tell limited
    (stays s).tell (f.le_run s) tell.slots fun p mem path event =>
      (tell.paths p mem path event).of_le (f.le_run s)
  refine (counted.roomy.within.audit books (stays s) tell inside fun r nodup inside =>
    Or.inl (small _ nodup inside)).weaken ?_
  rintro a s' ⟨hQ, within, tell, inside'⟩
  exact ⟨hQ, within, tell, small _ (nodup a s' hQ) inside'⟩

/-- A program that lists no new bucket needs no slot. -/
theorem stay {f : M g α} {Q : α → Sys g → Prop} (counted : Counted others N n H s)
    (books : Books others f s Q) (stays : ∀ T, LocksIn T f)
    (nodup : ∀ a s', Q a s' → (s'.locks.map (·.bucket)).Nodup) :
    Audit others N f s fun a s' => Q a s' ∧ s'.Roomy N := by
  refine counted.of_card_le books (stays (s.locks.map (·.bucket)).toFinset)
    (fun l mem => List.mem_toFinset.mpr (List.mem_map_of_mem mem)) ?_ nodup
  rw [List.toFinset_card_of_nodup counted.held.nodup, List.length_map]
  exact counted.roomy.room

/-- A program that lists at most one new bucket needs one slot. -/
theorem add {f : M g α} {Q : α → Sys g → Prop} (counted : Counted others N n H s)
    (books : Books others f s Q) (stays : ∀ T, b ∈ T → LocksIn T f)
    (room : ((H.card + n + 1 : ℕ) : ℕ∞) ≤ N)
    (nodup : ∀ a s', Q a s' → (s'.locks.map (·.bucket)).Nodup) :
    Audit others N f s fun a s' => Q a s' ∧ s'.Roomy N := by
  refine counted.of_card_le books (stays (insert b (s.locks.map (·.bucket)).toFinset)
    (Finset.mem_insert_self _ _)) (fun l mem => Finset.mem_insert_of_mem
      (List.mem_toFinset.mpr (List.mem_map_of_mem mem))) ?_ nodup
  refine (Nat.cast_le.mpr ((Finset.card_insert_le _ _).trans (Nat.add_le_add_right ?_ 1))).trans
    room
  rw [List.toFinset_card_of_nodup counted.held.nodup, List.length_map]
  exact counted.held.length_le

end Counted

end CuckooTrie
