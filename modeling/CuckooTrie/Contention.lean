import CuckooTrie.Relocation
import CuckooTrie.Upgrades

/-!
# Contention on a relocation path

`relocate_entry` upgrades the read locks of the buckets on its path one by one.
The others decide which of the upgrades pass (`Sys.grants`); when one of them is
refused after the first, the buckets upgraded so far are released, but the walk
that releases them ends in the middle of the path, where the closing assertion
does not expect it (`relocate_closing_assertion_iff`).
-/

namespace CuckooTrie

open Sys

variable {g : Geometry} {α β : Type} {t : Trie g} {immovable : Option Loc} {start : ℕ}

/-! ## Which assertions a program meets -/

namespace Sys

/-- All assertions met between two states are of one kind. -/
def Asserts (P : Assertion → Prop) (s s' : Sys g) : Prop :=
  ∀ a ∈ s'.asserts, a ∈ s.asserts ∨ P a.1

/-- The closing assertion of `relocate_entry` held each time it was met. -/
def PathStartsHold (s : Sys g) : Prop :=
  ∀ holds, (Assertion.pathStart, holds) ∈ s.asserts → holds = true

end Sys

/-- A program meets only assertions of one kind. -/
def AssertsOnly (P : Assertion → Prop) (f : M g α) : Prop := f.Frames (Sys.Asserts P)

namespace AssertsOnly

variable {P : Assertion → Prop}

theorem same {s s' : Sys g} (asserts : s'.asserts = s.asserts) : s.Asserts P s' :=
  fun _ mem => Or.inl (asserts ▸ mem)

theorem pure (a : α) : AssertsOnly P (pure a : M g α) := Prog.Frames.pure (fun _ => same rfl) a

theorem read (f : Sys g → α) : AssertsOnly P (Prog.read f : M g α) :=
  Prog.Frames.read (fun _ => same rfl) f

theorem bind {f : M g α} {k : α → M g β} (first : AssertsOnly P f)
    (rest : ∀ a, AssertsOnly P (k a)) : AssertsOnly P (f >>= k) :=
  Prog.Frames.bind (fun _ _ _ h h' a mem => (h' a mem).elim (h a) Or.inr) first rest

theorem ite {c : Prop} [Decidable c] {f f' : M g α} (pos : AssertsOnly P f)
    (neg : AssertsOnly P f') : AssertsOnly P (if c then f else f') := Prog.Frames.ite pos neg

theorem assertThat {assertion : Assertion} (holds : Sys g → Bool) (allowed : P assertion) :
    AssertsOnly P (CuckooTrie.assertThat assertion holds) :=
  Prog.Frames.update fun _ a mem => by
    rcases List.mem_cons.mp mem with rfl | mem
    · exact Or.inr allowed
    · exact Or.inl mem

theorem recordLocks (event : LockEvent) : AssertsOnly P (CuckooTrie.recordLocks event : M g Unit) :=
  Prog.Frames.update fun _ => same rfl

theorem lockStep
    (f : (ℕ → Bool) → List BucketWriteLock → α × (ℕ → Bool) × List BucketWriteLock) :
    AssertsOnly P (CuckooTrie.lockStep f : M g α) := Prog.Frames.update fun _ => same rfl

theorem othersAllow : AssertsOnly P (CuckooTrie.othersAllow : M g Bool) :=
  Prog.Frames.update fun _ => same rfl

theorem writeEntry (loc : Loc) (e : Entry) :
    AssertsOnly P (CuckooTrie.writeEntry loc e : M g Unit) :=
  Prog.Frames.update fun _ => same rfl

theorem readUnlockBucket (l : BucketReadLock) :
    AssertsOnly P (CuckooTrie.readUnlockBucket l : M g Bool) :=
  othersAllow.bind fun _ => (read _).bind fun _ => pure _

theorem tryTakeLock (b : ℕ) : AssertsOnly P (CuckooTrie.tryTakeLock b : M g Bool) :=
  othersAllow.bind fun _ => ite (pure _) (lockStep _)

theorem addLock (b : ℕ) (allowed : P .slotFree) :
    AssertsOnly P (CuckooTrie.addLock b : M g Unit) :=
  (assertThat _ allowed).bind fun _ => (lockStep _).bind fun _ => recordLocks _

theorem releaseBucketLock (b : ℕ) (listed : P .lockListed) (positive : P .refcountPositive) :
    AssertsOnly P (CuckooTrie.releaseBucketLock b : M g Unit) := by
  refine (read _).bind fun lock => (assertThat _ listed).bind fun _ => ?_
  cases lock with
  | none => exact pure _
  | some l =>
    exact (assertThat _ positive).bind fun _ => (lockStep _).bind fun _ =>
      (ite (pure _) (lockStep _)).bind fun _ => recordLocks _

theorem releaseBucketLocks (bs : List ℕ) (listed : P .lockListed) (positive : P .refcountPositive) :
    AssertsOnly P (CuckooTrie.releaseBucketLocks bs : M g Unit) := by
  induction bs with
  | nil => exact pure _
  | cons b bs ih => exact (releaseBucketLock b listed positive).bind fun _ => ih

theorem upgradeBucketLock (l : BucketReadLock) (slot : P .slotFree) (listed : P .lockListed)
    (positive : P .refcountPositive) :
    AssertsOnly P (CuckooTrie.upgradeBucketLock l : M g InternalStatus) := by
  refine (read _).bind fun lock => ?_
  cases lock with
  | some _ =>
    exact (readUnlockBucket l).bind fun _ => ite (pure _)
      ((lockStep _).bind fun _ => (recordLocks _).bind fun _ => pure _)
  | none =>
    exact (tryTakeLock _).bind fun _ => ite (pure _) ((addLock _ slot).bind fun _ =>
      (readUnlockBucket l).bind fun _ => ite
        ((releaseBucketLock _ listed positive).bind fun _ => pure _) (pure _))

theorem moveEntryLock (dst src : Loc) (listed : P .lockListed) :
    AssertsOnly P (CuckooTrie.moveEntryLock dst src : M g Unit) := by
  refine (read _).bind fun lock => (assertThat _ listed).bind fun _ =>
    (assertThat _ listed).bind fun _ => ?_
  cases lock with
  | none => exact pure _
  | some l =>
    exact ite (pure _) ((lockStep _).bind fun _ => (lockStep _).bind fun _ => recordLocks _)

theorem moveEntries (free : Loc) (sources : List Loc) (listed : P .lockListed) :
    AssertsOnly P (CuckooTrie.moveEntries free sources : M g Unit) := by
  induction sources generalizing free with
  | nil => exact pure _
  | cons src rest ih =>
    exact (read _).bind fun _ => (writeEntry _ _).bind fun _ =>
      (moveEntryLock _ _ listed).bind fun _ => ite (writeEntry _ _) (ih src)

theorem upgradePath (path : List QueueEntry) (slot : P .slotFree) (listed : P .lockListed)
    (positive : P .refcountPositive) :
    AssertsOnly P (CuckooTrie.upgradePath path : M g (List ℕ)) := by
  induction path with
  | nil => exact pure _
  | cons q path ih =>
    refine (upgradeBucketLock _ slot listed positive).bind fun ret => ?_
    cases ret with
    | ok => exact ih.bind fun _ => pure _
    | retry => exact pure _
    | exist => exact pure _
    | fail => exact pure _

end AssertsOnly

/-! ## Which upgrades pass -/

/-- Between two states neither the memory, as far as it decides upgrades, nor the
others have changed, except for one bucket. -/
structure SameBut (s s' : Sys g) (b : ℕ) : Prop where
  env : s'.env = s.env
  seq : s'.trie.seq = s.trie.seq
  listed : ∀ b' ≠ b, s'.listed b' = s.listed b'
  writeLock : ∀ b' ≠ b, s'.trie.writeLock b' = s.trie.writeLock b'

theorem SameBut.grants {s s' : Sys g} {b : ℕ} (same : SameBut s s' b) {bs : List ℕ}
    (others : b ∉ bs) (check : ℕ) : s'.grants check bs = s.grants check bs := by
  induction bs generalizing check with
  | nil => rfl
  | cons b' bs ih =>
    have ne : b' ≠ b := fun equal => others (equal ▸ List.mem_cons_self)
    have rest : b ∉ bs := fun mem => others (List.mem_cons_of_mem _ mem)
    simp only [Sys.grants, same.env, same.listed b' ne, same.writeLock b' ne, ih rest]

/-- **`upgrade_bucket_lock`** on a bucket that was not written succeeds exactly when
the others grant it. -/
theorem upgradeBucketLock_grants (l : BucketReadLock) {s : Sys g}
    (same : s.trie.seq l.bucket = l.seq) :
    (upgradeBucketLock l).Returns s fun ret s' =>
      if s.grants s.checks [l.bucket] then ret = .ok ∧ SameBut s s' l.bucket ∧
        s'.checks = s.checks + if s.listed l.bucket then 1 else 2
      else ret = .retry := by
  refine (upgradeBucketLock_outcome l same).weaken fun ret s' _ h => ?_
  obtain ⟨-, outcome⟩ := h
  split at outcome
  · next granted =>
    obtain ⟨ok, upgraded⟩ := outcome
    rw [if_pos granted]
    refine ⟨ok, ⟨upgraded.env, upgraded.seq, fun b' ne => ?_, upgraded.writeLock⟩, upgraded.checks⟩
    rw [Bool.eq_iff_iff, ← Sys.mem_buckets, ← Sys.mem_buckets, upgraded.buckets, Finset.mem_insert]
    exact or_iff_right ne
  · next denied =>
    rw [if_neg denied]
    exact outcome

/-- **The upgrades along a path** of different buckets all succeed exactly when the
others grant all of them. -/
theorem upgradePath_grants {path : List QueueEntry} {s : Sys g}
    (readLocks : ∀ q ∈ path, q.readLock = readLockBucket s.trie q.bucket)
    (distinct : (path.map (·.bucket)).Nodup) :
    (upgradePath path).Returns s fun upgraded _ => upgraded.length ≤ path.length ∧
      (upgraded.length = path.length ↔ s.grants s.checks (path.map (·.bucket)) = true) := by
  induction path generalizing s with
  | nil => exact .pure ⟨le_rfl, by simp [Sys.grants]⟩
  | cons q path ih =>
    have lock := readLocks q List.mem_cons_self
    rw [List.map_cons, List.nodup_cons] at distinct
    have bucket : q.readLock.bucket = q.bucket := by rw [lock]; rfl
    have current : s.trie.seq q.readLock.bucket = q.readLock.seq := by rw [lock]; rfl
    rw [upgradePath]
    refine (upgradeBucketLock_grants q.readLock current).bind fun ret s₁ _ h => ?_
    rw [bucket] at h
    -- the first grant decides whether the rest is asked for
    have split : s.grants s.checks (q.bucket :: path.map (·.bucket)) =
        (s.grants s.checks [q.bucket] && s.grants
          (s.checks + if s.listed q.bucket then 1 else 2) (path.map (·.bucket))) := by
      simp only [Sys.grants]
      split <;> simp
    rw [List.map_cons, split]
    split at h
    · next granted =>
      obtain ⟨rfl, same, checks⟩ := h
      have readLocks₁ : ∀ q' ∈ path, q'.readLock = readLockBucket s₁.trie q'.bucket := by
        intro q' mem
        rw [readLocks q' (List.mem_cons_of_mem _ mem), readLockBucket_congr same.seq]
      refine (ih readLocks₁ distinct.2).bind fun upgraded _ _ h => .pure ?_
      rw [same.grants distinct.1, checks] at h
      simpa [granted] using h
    · next denied =>
      subst h
      refine .pure ⟨Nat.zero_le _, ?_⟩
      simp [denied]

/-! ## The closing assertion -/

/-- Following the parents for the length of the path leads to its start, and not
before. -/
theorem queuePosAfter_eq_zero_iff {queue : List QueueEntry}
    (inv : QueueInv t immovable start queue) {fuel pos steps : ℕ} (inside : pos < queue.length)
    (enough : pos < fuel) (few : steps ≤ (queuePath queue fuel pos).length) :
    queuePosAfter queue steps pos = 0 ↔ steps = (queuePath queue fuel pos).length := by
  induction fuel generalizing pos steps with
  | zero => omega
  | succ fuel ih =>
    cases pos with
    | zero =>
      have none : steps = 0 := Nat.le_zero.mp few
      subst none
      exact iff_of_true rfl rfl
    | succ pos =>
      rw [queuePath, List.length_cons] at few ⊢
      cases steps with
      | zero => exact iff_of_false (Nat.succ_ne_zero pos) (Nat.succ_ne_zero _).symm
      | succ steps =>
        have here := List.getElem?_eq_getElem inside
        obtain ⟨q', parent, before, -⟩ := (inv.reached _ _ here).parent (Nat.succ_pos pos)
        have value : queue.getD (pos + 1) default = queue[pos + 1] := by
          rw [List.getD_eq_getElem?_getD, here]
          rfl
        rw [queuePosAfter, value, Nat.succ_inj]
        rw [value] at few
        exact ih (List.getElem?_eq_some_iff.mp parent).1 (by omega) (Nat.le_of_succ_le_succ few)

/-- The buckets on the way back are different ones. -/
theorem QueueInv.path_nodup {queue : List QueueEntry} (inv : QueueInv t immovable start queue)
    {fuel pos : ℕ} (inside : pos < queue.length) :
    ((queuePath queue fuel pos).map (·.bucket)).Nodup ∧
      ∀ q ∈ queuePath queue fuel pos, ∃ i ≤ pos, queue[i]? = some q := by
  induction fuel generalizing pos with
  | zero => exact ⟨List.nodup_nil, nofun⟩
  | succ fuel ih =>
    cases pos with
    | zero => exact ⟨List.nodup_nil, nofun⟩
    | succ pos =>
      have here := List.getElem?_eq_getElem inside
      obtain ⟨q', parent, before, -⟩ := (inv.reached _ _ here).parent (Nat.succ_pos pos)
      have value : queue.getD (pos + 1) default = queue[pos + 1] := by
        rw [List.getD_eq_getElem?_getD, here]
        rfl
      obtain ⟨nodup, back⟩ := ih (List.getElem?_eq_some_iff.mp parent).1
      rw [queuePath, value, List.map_cons, List.nodup_cons]
      refine ⟨⟨fun mem => ?_, nodup⟩, fun q mem => ?_⟩
      · obtain ⟨q, memq, bucket⟩ := List.mem_map.mp mem
        obtain ⟨i, le, at_⟩ := back q memq
        have := inv.eq_of_bucket at_ here bucket
        omega
      · rcases List.mem_cons.mp mem with rfl | mem
        · exact ⟨pos + 1, le_rfl, here⟩
        · obtain ⟨i, le, at_⟩ := back q mem
          exact ⟨i, by omega, at_⟩

/-- Other assertions do not matter for the closing one. -/
theorem pathStartsHold_iff {s s' : Sys g} (other : s.Asserts (· ≠ .pathStart) s') (le : s ≤ s') :
    s'.PathStartsHold ↔ s.PathStartsHold := by
  refine ⟨fun h holds mem => h holds (le.asserts.subset mem), fun h holds mem => ?_⟩
  rcases other _ mem with before | ne
  · exact h holds before
  · exact absurd rfl ne

/-- The record of the run does not matter for the upgrades. -/
theorem grants_recorded (s : Sys g) (asserts : List (Assertion × Bool)) (log : List LockRecord)
    (check : ℕ) (bs : List ℕ) :
    ({ s with asserts := asserts, lockLog := log } : Sys g).grants check bs =
      s.grants check bs := by
  induction bs generalizing check with
  | nil => rfl
  | cons b bs ih =>
    simp only [Sys.grants, ih]
    rfl

/-- The walk that releases the path ends at its start if all of it was upgraded. -/
theorem releasePath_pathStarts {queue : List QueueEntry} {found : FreeCell} {upgraded : List ℕ}
    (s : Sys g) :
    (releasePath queue found upgraded).Returns s fun _ s' => s'.PathStartsHold ↔
      s.PathStartsHold ∧ queuePosAfter queue upgraded.length found.queuePos = 0 := by
  rw [releasePath]
  refine ((AssertsOnly.releaseBucketLock (P := (· ≠ .pathStart)) _ nofun nofun).and_returns
    (Quietly.releaseBucketLock _ s)).bind fun _ s₁ le₁ h₁ => ?_
  refine ((AssertsOnly.releaseBucketLocks (P := (· ≠ .pathStart)) _ nofun nofun).and_returns
    (Quietly.releaseBucketLocks _ s₁)).bind fun _ s₂ le₂ h₂ => ?_
  rw [← pathStartsHold_iff h₁.2 le₁, ← pathStartsHold_iff h₂.2 le₂]
  refine .update ⟨fun h => ⟨fun holds mem => h holds (List.mem_cons_of_mem _ mem), ?_⟩,
    fun h holds mem => ?_⟩
  · simpa using h _ List.mem_cons_self
  · rcases List.mem_cons.mp mem with same | mem
    · rw [(Prod.mk.inj same).2]
      simpa using h.2
    · exact h.1 holds mem

theorem moveEntries_returns (free : Loc) (sources : List Loc) (s : Sys g) :
    (moveEntries free sources).Returns s fun _ _ => True := by
  induction sources generalizing free s with
  | nil => exact .pure trivial
  | cons src rest ih =>
    refine Prog.Returns.bind (Q := fun _ _ => True) (.read trivial) fun _ s₁ _ _ => ?_
    refine Prog.Returns.bind (Q := fun _ _ => True) (.update trivial) fun _ s₂ _ _ => ?_
    refine (Quietly.moveEntryLock free src s₂).bind fun _ s₃ _ _ => ?_
    exact .ite (fun _ => .update trivial) fun _ => ih src s₃

/-- Upgrading the path and what follows. -/
theorem relocateAlong_pathStarts {s : Sys g} {queue : List QueueEntry} {found : FreeCell}
    (right : found.Right s.trie immovable start queue) :
    (relocateAlong queue found).Returns s fun _ s' => s'.PathStartsHold ↔ s.PathStartsHold ∧
      (s.grants s.checks [found.readLock.bucket] = true →
        s.grants s.checks (found.readLock.bucket ::
          (queuePath queue queue.length found.queuePos).map (·.bucket)) = true) := by
  obtain ⟨q, hq, -⟩ := right.source
  have inside := (List.getElem?_eq_some_iff.mp hq).1
  obtain ⟨distinct, onQueue⟩ := @QueueInv.path_nodup g s.trie immovable start queue right.inv
    queue.length found.queuePos inside
  have current : s.trie.seq found.readLock.bucket = found.readLock.seq := by
    rw [right.readLock]
    rfl
  have bucket : found.readLock.bucket = found.freeCell.bucket := by
    rw [right.readLock]
    rfl
  have fresh : found.readLock.bucket ∉
      (queuePath queue queue.length found.queuePos).map (·.bucket) := by
    intro mem
    obtain ⟨q', memq, same⟩ := List.mem_map.mp mem
    obtain ⟨i, -, at_⟩ := onQueue q' memq
    have isFull := (right.inv.reached i q' at_).full found.freeCell.cell
    rw [same, bucket, right.free] at isFull
    cases isFull
  have readLocks : ∀ q' ∈ queuePath queue queue.length found.queuePos,
      q'.readLock = readLockBucket s.trie q'.bucket := right.inv.path_readLock hq
  rw [relocateAlong]
  refine ((AssertsOnly.upgradeBucketLock (P := (· ≠ .pathStart)) _ (by decide) (by decide)
    (by decide)).and_returns (upgradeBucketLock_grants found.readLock current)).bind
      fun ret s₁ le₁ h => ?_
  obtain ⟨h, asserts₁⟩ := h
  rw [← pathStartsHold_iff asserts₁ le₁]
  split at h
  · next granted =>
    obtain ⟨rfl, same, checks⟩ := h
    simp only
    have readLocks₁ : ∀ q' ∈ queuePath queue queue.length found.queuePos,
        q'.readLock = readLockBucket s₁.trie q'.bucket := by
      intro q' mem
      rw [readLocks q' mem, readLockBucket_congr same.seq]
    refine ((AssertsOnly.upgradePath (P := (· ≠ .pathStart)) _ (by decide) (by decide)
      (by decide)).and_returns (upgradePath_grants readLocks₁ distinct)).bind
        fun upgraded s₂ le₂ h => ?_
    obtain ⟨⟨few, whole⟩, asserts₂⟩ := h
    have allGranted : s.grants s.checks (found.readLock.bucket ::
        (queuePath queue queue.length found.queuePos).map (·.bucket)) = true ↔
          upgraded.length = (queuePath queue queue.length found.queuePos).length := by
      rw [whole, same.grants fresh, checks]
      simp only [Sys.grants] at granted ⊢
      split <;> simp_all
    have walk := queuePosAfter_eq_zero_iff right.inv inside inside few
    rw [← pathStartsHold_iff asserts₂ le₂, allGranted]
    refine .ite (fun whole => ?_) fun partly => ?_
    · refine ((AssertsOnly.moveEntries (P := (· ≠ .pathStart)) _ _ (by decide)).and_returns
        (moveEntries_returns _ _ s₂)).bind fun _ s₃ le₃ h₃ => ?_
      rw [← pathStartsHold_iff h₃.2 le₃]
      refine (releasePath_pathStarts s₃).bind fun _ _ _ h => .pure (h.trans ?_)
      exact and_congr_right fun _ => ⟨fun _ _ => whole, fun _ => walk.mpr whole⟩
    · refine (releasePath_pathStarts s₂).bind fun _ _ _ h => .pure (h.trans ?_)
      refine and_congr_right fun _ => ⟨fun start => absurd (walk.mp start) partly, fun h => ?_⟩
      exact absurd (h granted) partly
  · next denied =>
    subst h
    exact .pure ⟨fun h => ⟨h, fun granted => absurd granted denied⟩, fun h => h.1⟩

/-- **The closing assertion of `relocate_entry` fails exactly on contention in the
middle of the path**: when the others grant the bucket with the free cell and refuse
one of the buckets between it and the full one. -/
theorem relocate_closing_assertion_iff {s : Sys g} {bucketNum : ℕ} (immovable : Option Loc)
    (full : BucketFull s.trie bucketNum) (inTable : bucketNum < g.numBuckets) :
    ((relocateEntry bucketNum immovable).run s).2.PathStartsHold ↔
      s.PathStartsHold ∧ ∀ queue found,
        searchFreeCell s.trie immovable relocateQueueSize 0
          [⟨bucketNum, readLockBucket s.trie bucketNum, 0, 0⟩] = some (queue, found) →
        s.grants s.checks [found.readLock.bucket] = true →
        s.grants s.checks (found.readLock.bucket ::
          (queuePath queue queue.length found.queuePos).map (·.bucket)) = true := by
  suffices h : (relocateEntry bucketNum immovable).Returns s fun _ s' => s'.PathStartsHold ↔
      s.PathStartsHold ∧ ∀ queue found,
        searchFreeCell s.trie immovable relocateQueueSize 0
          [⟨bucketNum, readLockBucket s.trie bucketNum, 0, 0⟩] = some (queue, found) →
        s.grants s.checks [found.readLock.bucket] = true →
        s.grants s.checks (found.readLock.bucket ::
          (queuePath queue queue.length found.queuePos).map (·.bucket)) = true by
    obtain ⟨_, _, h⟩ := h
    exact h
  rw [relocateEntry]
  refine Prog.Returns.bind (Q := fun locked s' => s' = s) (.read rfl) ?_
  rintro locked s - rfl
  refine Prog.Returns.bind (Q := fun _ s' =>
    s' = { s with asserts := (.lockListed, locked) :: s.asserts }) (.update rfl) ?_
  rintro - s₀ le₀ rfl
  have before := pathStartsHold_iff (s := s)
    (fun a mem => (List.mem_cons.mp mem).elim (fun same => Or.inr (by simp [same])) Or.inl) le₀
  refine Prog.Returns.bind (Q := fun t s' => t = s.trie ∧
    s' = { s with asserts := (.lockListed, locked) :: s.asserts }) (.read ⟨rfl, rfl⟩) ?_
  rintro t s' - ⟨rfl, rfl⟩
  cases hsearch : searchFreeCell s.trie immovable relocateQueueSize 0
      [⟨bucketNum, readLockBucket s.trie bucketNum, 0, 0⟩] with
  | none =>
    refine .pure (before.trans ⟨fun h => ⟨h, fun queue found isFound => ?_⟩, fun h => h.1⟩)
    cases isFound
  | some result =>
    obtain ⟨queue, found⟩ := result
    have right := searchFreeCell_spec (.initial full inTable) hsearch
    refine Prog.Returns.bind (Q := fun _ s' => s' = { s with
      asserts := (.lockListed, locked) :: s.asserts
      lockLog := ⟨.path (pathBuckets queue found), s.trie.writeLock, s.locks, s.checks⟩ ::
        s.lockLog }) (.update rfl) ?_
    rintro - s₁ le₁ rfl
    have before := pathStartsHold_iff (s := s)
      (fun a mem => (List.mem_cons.mp mem).elim (fun same => Or.inr (by simp [same])) Or.inl)
      (le₀.trans le₁)
    refine (relocateAlong_pathStarts (s := { s with
      asserts := (.lockListed, locked) :: s.asserts
      lockLog := ⟨.path (pathBuckets queue found), s.trie.writeLock, s.locks, s.checks⟩ ::
        s.lockLog }) right).weaken fun _ s' _ h => h.trans ?_
    simp only [before, grants_recorded]
    refine and_congr_right fun _ => ⟨fun granted queue' found' isFound => ?_, fun h => ?_⟩
    · cases isFound
      exact granted
    · exact h queue found rfl

/-- A table in which bucket 20 is full and its entries can be moved to bucket 5 only;
that one is full too, but its entries can be moved to bucket 28.  Bucket 20 is locked. -/
def contendedTrie : Trie smallGeometry where
  cells loc :=
    if loc.bucket = 20 ∨ loc.bucket = 5 then
      ⟨0, false, false, loc.cell, if loc.bucket = 20 then 0 else 1, 1, .leaf default default⟩
    else unusedEntry
  seq _ := 0
  writeLock b := b = 20
  isEmpty := false

/-- A call that has locked bucket 20, before another thread takes bucket 5. -/
def contended : Sys smallGeometry :=
  { Sys.init contendedTrie fun check => check ≠ 2 with locks := [⟨20, fun _ => 0, 1⟩] }

theorem full_contended : BucketFull contended.trie 20 := fun i => by
  revert i
  decide

theorem relocate_closing_assertion_iff_contended :
    ((relocateEntry 20 none).run contended).2.PathStartsHold ↔
      contended.PathStartsHold ∧ ∀ queue found,
        searchFreeCell contended.trie none relocateQueueSize 0
          [⟨20, readLockBucket contended.trie 20, 0, 0⟩] = some (queue, found) →
        contended.grants contended.checks [found.readLock.bucket] = true →
        contended.grants contended.checks (found.readLock.bucket ::
          (queuePath queue queue.length found.queuePos).map (·.bucket)) = true :=
  relocate_closing_assertion_iff none full_contended (by decide)

/-- Bucket 28 is upgraded and bucket 5 is not, so the walk that releases the path ends
at position 1 of the queue. -/
theorem relocate_closing_assertion_fails :
    ¬ ∀ (s : Sys (.ctAlloc 256 (by decide) (by decide))) (bucketNum : ℕ) (immovable : Option Loc),
      BucketFull s.trie bucketNum → bucketNum < bucketsForCells 256 → s.PathStartsHold →
        ((relocateEntry bucketNum immovable).run s).2.PathStartsHold := by
  intro holds
  have failed :
      (Assertion.pathStart, false) ∈ ((relocateEntry 20 none).run contended).2.asserts := by
    decide +kernel
  have start : contended.PathStartsHold := fun _ mem => absurd mem List.not_mem_nil
  exact absurd (holds contended 20 none full_contended (by decide) start _ failed) (by decide)

end CuckooTrie
