import CuckooTrie.Atomics
import Mathlib.Algebra.BigOperators.Fin
import Mathlib.Data.Multiset.Count

/-!
# The references of a call

What the lock manager is for: a call has references out, on whole buckets and on
single entries (`References`), and a bucket is locked as long as there is one on it.
The list of locks and the lock bytes are the books about them (`References.Listed`).
Each operation of the lock manager keeps the books (`Kept`): this file has one
specification for each.
-/

namespace CuckooTrie

variable {g : Geometry} {others : ℕ → Bool}

/-- The references a call has out, on whole buckets and on entries. -/
structure References where
  buckets : Multiset ℕ
  entries : Multiset Loc

namespace References

/-- No references. -/
def none : References := ⟨0, 0⟩

/-- One more reference on a bucket. -/
def hold (R : References) (b : ℕ) : References := ⟨b ::ₘ R.buckets, R.entries⟩

/-- One more reference on an entry. -/
def mark (R : References) (loc : Loc) : References := ⟨R.buckets, loc ::ₘ R.entries⟩

/-- The number of references on a bucket or one of its entries. -/
def total (R : References) (b : ℕ) : ℕ := R.buckets.count b + ∑ i, R.entries.count ⟨b, i⟩

/-- The lock that stands for the references on a bucket. -/
def lock (R : References) (b : ℕ) : BucketWriteLock :=
  ⟨b, fun i => R.entries.count ⟨b, i⟩, R.total b⟩

variable {R R' : References} {b b' : ℕ} {loc : Loc}

@[simp] theorem total_none (b : ℕ) : none.total b = 0 := by simp [total, none]

@[simp] theorem total_hold_self (R : References) (b : ℕ) :
    (R.hold b).total b = R.total b + 1 := by
  simp only [total, hold, Multiset.count_cons_self]
  omega

theorem total_hold_of_ne (ne : b' ≠ b) : (R.hold b).total b' = R.total b' := by
  simp only [total, hold, Multiset.count_cons_of_ne ne]

@[simp] theorem total_mark_self (R : References) (loc : Loc) :
    (R.mark loc).total loc.bucket = R.total loc.bucket + 1 := by
  obtain ⟨b, i⟩ := loc
  have counts : ∀ j, (⟨b, i⟩ ::ₘ R.entries).count ⟨b, j⟩ =
      R.entries.count ⟨b, j⟩ + if j = i then 1 else 0 := by
    intro j
    simp [Multiset.count_cons]
  simp only [total, mark, counts, Finset.sum_add_distrib, Finset.sum_ite_eq', Finset.mem_univ,
    if_true]
  omega

theorem total_mark_of_ne (ne : b ≠ loc.bucket) : (R.mark loc).total b = R.total b := by
  have counts : ∀ j, (loc ::ₘ R.entries).count ⟨b, j⟩ = R.entries.count ⟨b, j⟩ := fun j =>
    Multiset.count_cons_of_ne (fun equal => ne (congrArg Loc.bucket equal)) _
  simp only [total, mark, counts]

theorem lock_hold_of_ne (ne : b' ≠ b) : (R.hold b).lock b' = R.lock b' := by
  rw [lock, lock, total_hold_of_ne ne]
  rfl

theorem lock_mark_of_ne (ne : b ≠ loc.bucket) : (R.mark loc).lock b = R.lock b := by
  rw [lock, lock, total_mark_of_ne ne]
  congr 1
  funext i
  exact Multiset.count_cons_of_ne (fun equal => ne (congrArg Loc.bucket equal)) _

@[simp] theorem hold_lock (R : References) (b : ℕ) : (R.lock b).hold = (R.hold b).lock b := by
  rw [lock, lock, total_hold_self]
  rfl

@[simp] theorem drop_lock (R : References) (b : ℕ) : ((R.hold b).lock b).drop = R.lock b := by
  rw [lock, lock, total_hold_self]
  rfl

theorem markEntry_lock (R : References) (loc : Loc) :
    ((R.lock loc.bucket).markEntry loc.cell).hold = (R.mark loc).lock loc.bucket := by
  rw [lock, lock, total_mark_self, BucketWriteLock.markEntry, BucketWriteLock.hold]
  congr 1
  funext i
  obtain ⟨b, j⟩ := loc
  simp only [mark, Multiset.count_cons, Loc.mk.injEq, true_and]
  split <;> rfl

theorem unmarkEntry_lock (R : References) (loc : Loc) :
    (((R.mark loc).lock loc.bucket).unmarkEntry loc.cell).drop = R.lock loc.bucket := by
  rw [lock, lock, total_mark_self, BucketWriteLock.unmarkEntry, BucketWriteLock.drop]
  congr 1
  funext i
  obtain ⟨b, j⟩ := loc
  simp only [mark, Multiset.count_cons, Loc.mk.injEq, true_and]
  split <;> rfl

end References

/-! ## The list of locks -/

/-- The list of locks after `remove_lock`. -/
def dropSlot (bucket : ℕ) : List BucketWriteLock → List BucketWriteLock
  | [] => []
  | last :: rest => if last.bucket = bucket then rest else replaceLock bucket last rest

section Slots

variable {locks : List BucketWriteLock} {b : ℕ} {f : BucketWriteLock → BucketWriteLock}

theorem map_bucket_modifyLock (same : ∀ l, (f l).bucket = l.bucket) :
    (modifyLock f b locks).map (·.bucket) = locks.map (·.bucket) := by
  induction locks with
  | nil => rfl
  | cons l locks ih =>
    rw [modifyLock]
    split
    · rw [List.map_cons, List.map_cons, same]
    · rw [List.map_cons, List.map_cons, ih]

/-- What is listed after a change of the lock of a bucket. -/
theorem mem_modifyLock (nodup : (locks.map (·.bucket)).Nodup) {l : BucketWriteLock} :
    l ∈ modifyLock f b locks ↔
      l ∈ locks ∧ l.bucket ≠ b ∨ ∃ l₀ ∈ locks, l₀.bucket = b ∧ l = f l₀ := by
  induction locks with
  | nil => simp [modifyLock]
  | cons head locks ih =>
    rw [List.map_cons, List.nodup_cons] at nodup
    obtain ⟨notIn, nodup⟩ := nodup
    rw [modifyLock]
    split
    · next atHead =>
      have others : ∀ l' ∈ locks, l'.bucket ≠ b := fun l' mem equal =>
        notIn (atHead.trans equal.symm ▸ List.mem_map_of_mem mem)
      simp only [List.mem_cons]
      constructor
      · rintro (rfl | mem)
        · exact Or.inr ⟨head, Or.inl rfl, atHead, rfl⟩
        · exact Or.inl ⟨Or.inr mem, others l mem⟩
      · rintro (⟨rfl | mem, ne⟩ | ⟨l₀, rfl | mem, at_, rfl⟩)
        · exact absurd atHead ne
        · exact Or.inr mem
        · exact Or.inl rfl
        · exact absurd at_ (others l₀ mem)
    · next elsewhere =>
      simp only [List.mem_cons, ih nodup]
      constructor
      · rintro (rfl | ⟨mem, ne⟩ | ⟨l₀, mem, at_, rfl⟩)
        · exact Or.inl ⟨Or.inl rfl, elsewhere⟩
        · exact Or.inl ⟨Or.inr mem, ne⟩
        · exact Or.inr ⟨l₀, Or.inr mem, at_, rfl⟩
      · rintro (⟨rfl | mem, ne⟩ | ⟨l₀, rfl | mem, at_, rfl⟩)
        · exact Or.inl rfl
        · exact Or.inr (Or.inl ⟨mem, ne⟩)
        · exact absurd at_ elsewhere
        · exact Or.inr (Or.inr ⟨l₀, mem, at_, rfl⟩)

theorem replaceLock_perm (last : BucketWriteLock) (nodup : (locks.map (·.bucket)).Nodup)
    (listed : b ∈ locks.map (·.bucket)) :
    (replaceLock b last locks).Perm (last :: locks.filter (·.bucket ≠ b)) := by
  induction locks with
  | nil => cases listed
  | cons head locks ih =>
    rw [List.map_cons, List.nodup_cons] at nodup
    obtain ⟨notIn, nodup⟩ := nodup
    rw [replaceLock, modifyLock]
    split
    · next atHead =>
      have keep : (head :: locks).filter (·.bucket ≠ b) = locks := by
        rw [List.filter_cons_of_neg (by simpa using atHead), List.filter_eq_self]
        intro l mem
        simp only [decide_eq_true_eq, ne_eq]
        exact fun equal => notIn (atHead.trans equal.symm ▸ List.mem_map_of_mem mem)
      rw [keep]
    · next elsewhere =>
      rw [List.filter_cons_of_pos (by simpa using elsewhere)]
      have inRest : b ∈ locks.map (·.bucket) := by
        rcases List.mem_cons.mp listed with rfl | mem
        · exact absurd rfl elsewhere
        · exact mem
      exact ((ih nodup inRest).cons head).trans (List.Perm.swap _ _ _)

/-- **`remove_lock`** removes the slot of the bucket, up to the order of the slots. -/
theorem dropSlot_perm (nodup : (locks.map (·.bucket)).Nodup)
    (listed : b ∈ locks.map (·.bucket)) :
    (dropSlot b locks).Perm (locks.filter (·.bucket ≠ b)) := by
  cases locks with
  | nil => cases listed
  | cons last rest =>
    rw [List.map_cons, List.nodup_cons] at nodup
    obtain ⟨notIn, nodup⟩ := nodup
    rw [dropSlot]
    split
    · next atLast =>
      rw [List.filter_cons_of_neg (by simpa using atLast), List.filter_eq_self.mpr]
      intro l mem
      simp only [decide_eq_true_eq, ne_eq]
      exact fun equal => notIn (atLast.trans equal.symm ▸ List.mem_map_of_mem mem)
    · next elsewhere =>
      rw [List.filter_cons_of_pos (by simpa using elsewhere)]
      refine replaceLock_perm last nodup ?_
      rcases List.mem_cons.mp listed with rfl | mem
      · exact absurd rfl elsewhere
      · exact mem

end Slots

namespace References

/-- The list of locks and the lock bytes are the books about the references: there is
one lock for each bucket with a reference, and its byte is set in addition to those of
the other threads. -/
structure Listed (R : References) (others : ℕ → Bool) (writeLock : ℕ → Bool)
    (locks : List BucketWriteLock) : Prop where
  nodup : (locks.map (·.bucket)).Nodup
  mem : ∀ l, l ∈ locks ↔ 0 < R.total l.bucket ∧ l = R.lock l.bucket
  byte : ∀ b, writeLock b = (others b || decide (0 < R.total b))
  own : ∀ b, others b = true → R.total b = 0

namespace Listed

variable {R R' : References} {writeLock : ℕ → Bool} {locks : List BucketWriteLock} {b : ℕ}
  {f : BucketWriteLock → BucketWriteLock}

theorem total_eq_of_lock (same : R'.lock b = R.lock b) : R'.total b = R.total b :=
  congrArg BucketWriteLock.totalRefcount same

theorem mem_buckets (listed : R.Listed others writeLock locks) :
    b ∈ locks.map (·.bucket) ↔ 0 < R.total b := by
  constructor
  · intro isIn
    obtain ⟨l, mem, rfl⟩ := List.mem_map.mp isIn
    exact ((listed.mem l).mp mem).1
  · intro positive
    exact List.mem_map.mpr ⟨R.lock b, (listed.mem _).mpr ⟨positive, rfl⟩, rfl⟩

/-- **`find_write_lock`** finds the lock that stands for the references. -/
theorem findWriteLock_eq (listed : R.Listed others writeLock locks) (b : ℕ) :
    findWriteLock locks b = if 0 < R.total b then some (R.lock b) else Option.none := by
  cases found : findWriteLock locks b with
  | some l =>
    have at_ : l.bucket = b := by simpa using List.find?_some found
    obtain ⟨positive, isLock⟩ := (listed.mem l).mp (List.mem_of_find?_eq_some found)
    rw [at_] at positive isLock
    rw [if_pos positive, isLock]
  | none =>
    split
    · next positive =>
      have mem : R.lock b ∈ locks := (listed.mem _).mpr ⟨positive, rfl⟩
      have absent := List.find?_eq_none.mp found _ mem
      exact absurd (decide_eq_true rfl) absent
    · rfl

/-- Change the lock of a bucket that is listed before and after. -/
theorem modify (listed : R.Listed others writeLock locks)
    (same : ∀ l, (f l).bucket = l.bucket) (at_ : f (R.lock b) = R'.lock b)
    (off : ∀ b' ≠ b, R'.lock b' = R.lock b') (before : 0 < R.total b) (after : 0 < R'.total b) :
    R'.Listed others writeLock (modifyLock f b locks) where
  nodup := by
    rw [map_bucket_modifyLock same]
    exact listed.nodup
  mem l := by
    rw [mem_modifyLock listed.nodup]
    constructor
    · rintro (⟨mem, ne⟩ | ⟨l₀, mem, rfl, rfl⟩)
      · rw [off _ ne, total_eq_of_lock (off _ ne)]
        exact (listed.mem l).mp mem
      · obtain ⟨-, isLock⟩ := (listed.mem l₀).mp mem
        rw [same, ← at_, ← isLock]
        exact ⟨after, rfl⟩
    · rintro ⟨positive, isLock⟩
      by_cases here : l.bucket = b
      · refine Or.inr ⟨R.lock b, (listed.mem _).mpr ⟨before, rfl⟩, rfl, ?_⟩
        rw [at_, isLock, here]
      · rw [off _ here] at isLock
        rw [total_eq_of_lock (off _ here)] at positive
        exact Or.inl ⟨(listed.mem l).mpr ⟨positive, isLock⟩, here⟩
  byte b' := by
    rw [listed.byte b']
    by_cases here : b' = b
    · rw [here, decide_eq_true before, decide_eq_true after]
    · rw [total_eq_of_lock (off _ here)]
  own b' other := by
    have unlisted := listed.own b' other
    by_cases here : b' = b
    · rw [here] at unlisted
      omega
    · rw [total_eq_of_lock (off _ here), unlisted]

/-- Add a lock for a bucket that is not listed. -/
theorem add (listed : R.Listed others writeLock locks) (free : writeLock b = false)
    (at_ : R'.lock b = ⟨b, fun _ => 0, 1⟩) (off : ∀ b' ≠ b, R'.lock b' = R.lock b') :
    R'.Listed others (setLockByte writeLock b true) (⟨b, fun _ => 0, 1⟩ :: locks) := by
  have byte := listed.byte b
  rw [free, eq_comm, Bool.or_eq_false_iff, decide_eq_false_iff_not] at byte
  have total : R'.total b = 1 := congrArg BucketWriteLock.totalRefcount at_
  refine ⟨?_, fun l => ?_, fun b' => ?_, fun b' other => ?_⟩
  · rw [List.map_cons, List.nodup_cons, listed.mem_buckets]
    exact ⟨byte.2, listed.nodup⟩
  · rw [List.mem_cons, listed.mem]
    by_cases here : l.bucket = b
    · rw [here, at_, total]
      constructor
      · rintro (isLock | ⟨positive, -⟩)
        · exact ⟨Nat.one_pos, isLock⟩
        · exact absurd positive byte.2
      · exact fun h => Or.inl h.2
    · rw [off _ here, total_eq_of_lock (off _ here)]
      constructor
      · rintro (rfl | isListed)
        · exact absurd rfl here
        · exact isListed
      · exact Or.inr
  · rw [setLockByte]
    split
    · next here => rw [here, total, byte.1]; rfl
    · next here => rw [listed.byte, total_eq_of_lock (off _ here)]
  · by_cases here : b' = b
    · rw [here, byte.1] at other
      cases other
    · rw [total_eq_of_lock (off _ here)]
      exact listed.own b' other

/-- Remove the lock of a bucket after its last reference is gone. -/
theorem remove (listed : R.Listed others writeLock locks)
    (same : ∀ l, (f l).bucket = l.bucket) (off : ∀ b' ≠ b, R'.lock b' = R.lock b')
    (before : 0 < R.total b) (gone : R'.total b = 0) :
    R'.Listed others (setLockByte writeLock b false) (dropSlot b (modifyLock f b locks)) := by
  have buckets : (modifyLock f b locks).map (·.bucket) = locks.map (·.bucket) :=
    map_bucket_modifyLock same
  have perm : (dropSlot b (modifyLock f b locks)).Perm _ := dropSlot_perm
    (by rw [buckets]; exact listed.nodup) (by rw [buckets]; exact listed.mem_buckets.mpr before)
  refine ⟨?_, fun l => ?_, fun b' => ?_, fun b' other => ?_⟩
  · rw [(perm.map _).nodup_iff]
    refine List.Nodup.sublist (List.filter_sublist.map _) ?_
    rw [buckets]
    exact listed.nodup
  · rw [perm.mem_iff, List.mem_filter, mem_modifyLock listed.nodup]
    simp only [decide_eq_true_eq, ne_eq]
    constructor
    · rintro ⟨⟨mem, ne⟩ | ⟨l₀, -, at_, rfl⟩, ne⟩
      · rw [off _ ne, total_eq_of_lock (off _ ne)]
        exact (listed.mem l).mp mem
      · exact absurd ((same l₀).trans at_) ne
    · rintro ⟨positive, isLock⟩
      have ne : l.bucket ≠ b := by
        intro here
        rw [here, gone] at positive
        exact lt_irrefl 0 positive
      rw [off _ ne] at isLock
      rw [total_eq_of_lock (off _ ne)] at positive
      exact ⟨Or.inl ⟨(listed.mem l).mpr ⟨positive, isLock⟩, ne⟩, ne⟩
  · rw [setLockByte]
    split
    · next here =>
      rw [here, gone]
      cases other : others b with
      | false => rfl
      | true =>
        have unlisted := listed.own b other
        omega
    · next here => rw [listed.byte, total_eq_of_lock (off _ here)]
  · by_cases here : b' = b
    · rw [here, gone]
    · rw [total_eq_of_lock (off _ here)]
      exact listed.own b' other

/-- **`release_all_locks`** restores the lock bytes of the other threads. -/
theorem release_all (listed : R.Listed others writeLock locks) :
    none.Listed others
      (locks.foldr (fun l bytes => setLockByte bytes l.bucket false) writeLock) [] := by
  have cleared : ∀ (ls : List BucketWriteLock) (b : ℕ),
      ls.foldr (fun l bytes => setLockByte bytes l.bucket false) writeLock b =
        (writeLock b && !decide (b ∈ ls.map (·.bucket))) := by
    intro ls b
    induction ls with
    | nil => simp
    | cons l ls ih =>
      rw [List.foldr_cons, setLockByte]
      split
      · next here => simp [here]
      · next elsewhere => simp [ih, elsewhere]
  refine ⟨List.nodup_nil, fun l => by simp, fun b => ?_, fun b _ => total_none b⟩
  rw [cleared, listed.byte, total_none]
  cases other : others b with
  | false =>
    by_cases positive : 0 < R.total b
    · simp [listed.mem_buckets.mpr positive]
    · simp [positive]
  | true =>
    have unlisted : b ∉ locks.map (·.bucket) := by
      rw [listed.mem_buckets, listed.own b other]
      exact lt_irrefl 0
    simp only [decide_eq_false unlisted]
    rfl

end Listed

end References

/-! ## The books over a run -/

/-- The references on whole buckets that are out after a number of operations of the
lock manager, the latest of which is listed first. -/
def outstanding : List LockRecord → ℕ → ℕ
  | [], _ => 0
  | r :: log, b =>
    match r.event with
    | .held b' => if b = b' then outstanding log b + 1 else outstanding log b
    | .dropped b' => if b = b' then outstanding log b - 1 else outstanding log b
    | .cleared => 0
    | .entry => outstanding log b
    | .path _ => outstanding log b

/-- **The books are balanced**: each bucket is listed at most once, those listed are
exactly the ones whose byte is set and is not another thread's, and the references on a
listed bucket are those on its entries and those outstanding on the bucket itself. -/
structure LockRecord.Balanced (r : LockRecord) (others : ℕ → Bool) (holds : ℕ → ℕ) : Prop where
  nodup : (r.locks.map (·.bucket)).Nodup
  bytes : ∀ b, r.writeLock b = true ↔ others b = true ∨ b ∈ r.locks.map (·.bucket)
  own : ∀ b ∈ r.locks.map (·.bucket), others b = false
  totals : ∀ l ∈ r.locks, l.totalRefcount = holds l.bucket + ∑ i, l.entryRefcounts i
  positive : ∀ l ∈ r.locks, 0 < l.totalRefcount
  unlisted : ∀ b, b ∉ r.locks.map (·.bucket) → holds b = 0

/-- The books were balanced after each operation of the lock manager so far, and each
assertion that a lock is listed, that a count to decrement is positive or that the byte
of a listed bucket is set has held. -/
structure Sys.Bookkept (others : ℕ → Bool) (s : Sys g) : Prop where
  balanced : ∀ r log, r :: log <:+ s.lockLog → r.Balanced others (outstanding (r :: log))
  asserted : ∀ a holds, (a, holds) ∈ s.asserts →
    a = .lockListed ∨ a = .refcountPositive ∨ a = .byteSet → holds = true

/-- No lock is left. -/
structure Sys.Idle (others : ℕ → Bool) (s : Sys g) : Prop where
  locks : s.locks = []
  bytes : s.trie.writeLock = others
  outstanding : ∀ b, outstanding s.lockLog b = 0

/-- The books so far were balanced, and now they are the ones about some references. -/
structure Kept (others : ℕ → Bool) (R : References) (s : Sys g) : Prop where
  past : s.Bookkept others
  listed : R.Listed others s.trie.writeLock s.locks
  outstanding : ∀ b, outstanding s.lockLog b = R.buckets.count b

theorem References.Listed.balanced {R : References} {r : LockRecord}
    (listed : R.Listed others r.writeLock r.locks) :
    r.Balanced others fun b => R.buckets.count b where
  nodup := listed.nodup
  bytes b := by rw [listed.byte, listed.mem_buckets, Bool.or_eq_true, decide_eq_true_eq]
  own b isListed := by
    by_contra other
    have unlisted := listed.own b (by simpa using other)
    have positive := listed.mem_buckets.mp isListed
    omega
  totals l mem := by
    obtain ⟨-, isLock⟩ := (listed.mem l).mp mem
    rw [isLock]
    rfl
  positive l mem := by
    obtain ⟨positive, isLock⟩ := (listed.mem l).mp mem
    rw [isLock]
    exact positive
  unlisted b isNot := by
    rw [listed.mem_buckets, References.total] at isNot
    omega

theorem Kept.of_idle {s : Sys g} (past : s.Bookkept others) (idle : s.Idle others) :
    Kept others .none s := by
  refine ⟨past, ?_, fun b => (idle.outstanding b).trans (Multiset.count_zero b).symm⟩
  rw [idle.locks, idle.bytes]
  exact ⟨List.nodup_nil, fun l => by simp, fun b => by simp, fun b _ => References.total_none b⟩

theorem Kept.idle {s : Sys g} (kept : Kept others .none s) : s.Idle others := by
  refine ⟨?_, ?_, fun b => (kept.outstanding b).trans (Multiset.count_zero b)⟩
  · refine List.eq_nil_iff_forall_not_mem.mpr fun l mem => ?_
    have positive := ((kept.listed.mem l).mp mem).1
    rw [References.total_none] at positive
    exact lt_irrefl 0 positive
  · funext b
    rw [kept.listed.byte, References.total_none]
    simp

/-- The lock bytes, the locks and the records about them are the same. -/
structure SameLocks (s s' : Sys g) : Prop where
  writeLock : s'.trie.writeLock = s.trie.writeLock
  locks : s'.locks = s.locks
  lockLog : s'.lockLog = s.lockLog
  asserts : s'.asserts = s.asserts

theorem SameLocks.refl (s : Sys g) : SameLocks s s := ⟨rfl, rfl, rfl, rfl⟩

theorem SameLocks.trans {s s' s'' : Sys g} (h : SameLocks s s') (h' : SameLocks s' s'') :
    SameLocks s s'' :=
  ⟨h'.writeLock.trans h.writeLock, h'.locks.trans h.locks, h'.lockLog.trans h.lockLog,
    h'.asserts.trans h.asserts⟩

/-- A program leaves the lock manager alone. -/
def LeavesLocks {α : Type} (f : M g α) : Prop := f.Frames SameLocks

theorem Sys.Bookkept.congr {s s' : Sys g} (past : s.Bookkept others)
    (lockLog : s'.lockLog = s.lockLog) (asserts : s'.asserts = s.asserts) :
    s'.Bookkept others := by
  refine ⟨?_, ?_⟩
  · rw [lockLog]
    exact past.balanced
  · rw [asserts]
    exact past.asserted

theorem Kept.congr {R : References} {s s' : Sys g} (kept : Kept others R s)
    (same : SameLocks s s') : Kept others R s' := by
  refine ⟨kept.past.congr same.lockLog same.asserts, ?_, ?_⟩
  · rw [same.writeLock, same.locks]
    exact kept.listed
  · rw [same.lockLog]
    exact kept.outstanding

/-- What a program does to the books. -/
abbrev Books {α : Type} (others : ℕ → Bool) (f : M g α) (s : Sys g) (Q : α → Sys g → Prop) : Prop :=
  f.Keeps (Sys.Bookkept others) s Q

/-! ## The operations of the lock manager -/

section Operations

variable {α : Type} {R R' : References} {s : Sys g} {event : LockEvent} {b : ℕ} {loc : Loc}

/-- The lock manager has changed the locks but not recorded it yet. -/
structure Unrecorded (others : ℕ → Bool) (R : References) (event : LockEvent) (s : Sys g) :
    Prop where
  past : s.Bookkept others
  listed : R.Listed others s.trie.writeLock s.locks
  outstanding : ∀ b, outstanding (⟨event, s.trie.writeLock, s.locks, s.checks⟩ :: s.lockLog) b =
    R.buckets.count b

theorem Unrecorded.recordLocks (changed : Unrecorded others R event s) :
    Books others (recordLocks event) s fun _ s' => Kept others R s' := by
  have past : ({ s with lockLog := ⟨event, s.trie.writeLock, s.locks, s.checks⟩ :: s.lockLog } :
      Sys g).Bookkept others := by
    refine ⟨fun r log suffix => ?_, changed.past.asserted⟩
    rcases List.suffix_cons_iff.mp suffix with equal | earlier
    · cases equal
      rw [funext changed.outstanding]
      exact changed.listed.balanced
    · exact changed.past.balanced r log earlier
  exact .update past ⟨past, changed.listed, changed.outstanding⟩

theorem Kept.assertThat (kept : Kept others R s) {a : Assertion} {holds : Sys g → Bool}
    (asserted : a = .lockListed ∨ a = .refcountPositive ∨ a = .byteSet → holds s = true) :
    Books others (assertThat a holds) s fun _ s' => Kept others R s' := by
  have past : ({ s with asserts := (a, holds s) :: s.asserts } : Sys g).Bookkept others := by
    refine ⟨kept.past.balanced, fun a' holds' mem kind => ?_⟩
    rcases List.mem_cons.mp mem with equal | mem
    · cases equal
      exact asserted kind
    · exact kept.past.asserted a' holds' mem kind
  exact .update past ⟨past, kept.listed, kept.outstanding⟩

theorem Kept.lookupLock (kept : Kept others R s) (b : ℕ) :
    Books others (lookupLock b) s fun lock s' =>
      lock = (if 0 < R.total b then some (R.lock b) else none) ∧ Kept others R s' :=
  .read kept.past ⟨kept.listed.findWriteLock_eq b, kept⟩

theorem Kept.quiet (kept : Kept others R s) {f : M g α} (leaves : LeavesLocks f) :
    Books others f s fun _ s' => Kept others R s' :=
  .of_frames leaves (fun _ same => (kept.congr same).past) fun _ _ same => kept.congr same

/-- Add a reference to a bucket that is listed. -/
theorem Kept.updateLock (kept : Kept others R s) (f : BucketWriteLock → BucketWriteLock)
    (event : LockEvent)
    (same : ∀ l, (f l).bucket = l.bucket) (at_ : f (R.lock b) = R'.lock b)
    (off : ∀ b' ≠ b, R'.lock b' = R.lock b') (before : 0 < R.total b) (after : 0 < R'.total b)
    (holds : ∀ writeLock locks checks b',
      CuckooTrie.outstanding (⟨event, writeLock, locks, checks⟩ :: s.lockLog) b' =
        R'.buckets.count b') :
    Books others (updateLock b f) s fun _ s' => Unrecorded others R' event s' :=
  .update (kept.past.congr rfl rfl) ⟨kept.past.congr rfl rfl,
    kept.listed.modify same at_ off before after, holds _ _ _⟩

/-- Give up a reference, and with the last one the lock. -/
theorem Kept.dropReference (kept : Kept others R s) (f : BucketWriteLock → BucketWriteLock)
    (event : LockEvent)
    (same : ∀ l, (f l).bucket = l.bucket) (at_ : f (R.lock b) = R'.lock b)
    (off : ∀ b' ≠ b, R'.lock b' = R.lock b') (before : 0 < R.total b)
    (holds : ∀ writeLock locks checks b',
      CuckooTrie.outstanding (⟨event, writeLock, locks, checks⟩ :: s.lockLog) b' =
        R'.buckets.count b')
    {k : Unit → M g α} {Q : α → Sys g → Prop}
    (rest : ∀ s', Unrecorded others R' event s' → Books others (k ()) s' Q) :
    Books others (CuckooTrie.updateLock b f >>= fun _ => removeUnusedLock b (R'.total b) >>= k)
      s Q := by
  refine Prog.Keeps.bind (Q := fun _ s' => s' = { s with locks := modifyLock f b s.locks })
    (.update (kept.past.congr rfl rfl) rfl) ?_
  rintro - s₁ rfl
  refine Prog.Keeps.bind (Q := fun _ s' => Unrecorded others R' event s') ?_ fun _ => rest
  have past : ({ s with locks := modifyLock f b s.locks } : Sys g).Bookkept others :=
    kept.past.congr rfl rfl
  rw [removeUnusedLock]
  refine .ite (fun remaining => ?_) fun gone => ?_
  · exact .pure past ⟨past, kept.listed.modify same at_ off before (Nat.pos_of_ne_zero remaining),
      holds _ _ _⟩
  · exact .update (kept.past.congr rfl rfl) ⟨kept.past.congr rfl rfl,
      kept.listed.remove same off before (not_not.mp gone), holds _ _ _⟩

theorem outstanding_held (kept : Kept others R s) (b : ℕ)
    (writeLock locks checks b') :
    outstanding (⟨.held b, writeLock, locks, checks⟩ :: s.lockLog) b' =
      (R.hold b).buckets.count b' := by
  simp only [outstanding, kept.outstanding, References.hold, Multiset.count_cons]
  split <;> rfl

theorem outstanding_dropped (kept : Kept others (R.hold b) s) (writeLock locks checks b') :
    outstanding (⟨.dropped b, writeLock, locks, checks⟩ :: s.lockLog) b' =
      R.buckets.count b' := by
  simp only [outstanding, kept.outstanding, References.hold, Multiset.count_cons]
  split <;> rfl

theorem LeavesLocks.othersAllow : LeavesLocks (CuckooTrie.othersAllow : M g Bool) :=
  fun _ => ⟨rfl, rfl, rfl, rfl⟩

/-- **`try_take_lock`**: a lock that is taken belongs to a bucket without references. -/
theorem Kept.tryTakeLock (kept : Kept others R s) (b : ℕ) :
    Books others (tryTakeLock b) s fun taken s' =>
      (taken = true ∧ Unrecorded others (R.hold b) (.held b)
        { s' with locks := ⟨b, fun _ => 0, 1⟩ :: s'.locks }) ∨
      (taken = false ∧ Kept others R s') := by
  rw [CuckooTrie.tryTakeLock]
  refine (kept.quiet LeavesLocks.othersAllow).bind fun allowed s₁ kept => ?_
  refine .ite (fun _ => .pure kept.past (Or.inr ⟨rfl, kept⟩)) fun _ => ?_
  refine .update (kept.past.congr rfl rfl) ?_
  cases byte : s₁.trie.writeLock b with
  | true =>
    refine Or.inr ⟨congrArg not byte, kept.past.congr rfl rfl, ?_, kept.outstanding⟩
    have same : setLockByte s₁.trie.writeLock b true = s₁.trie.writeLock := by
      funext b'
      rw [setLockByte]
      split
      · next here => rw [here, byte]
      · rfl
    change R.Listed others (setLockByte s₁.trie.writeLock b true) s₁.locks
    rw [same]
    exact kept.listed
  | false =>
    refine Or.inl ⟨congrArg not byte, kept.past.congr rfl rfl, ?_, outstanding_held kept b _ _ _⟩
    have none : R.total b = 0 := by
      have byte' := kept.listed.byte b
      rw [byte, eq_comm, Bool.or_eq_false_iff, decide_eq_false_iff_not] at byte'
      omega
    refine kept.listed.add byte ?_ fun b' => References.lock_hold_of_ne
    rw [References.lock, References.total_hold_self, none]
    congr 1
    funext i
    rw [References.total] at none
    have entries := Nat.eq_zero_of_add_eq_zero_left none
    exact (Finset.sum_eq_zero_iff.mp entries) i (Finset.mem_univ i)

theorem Unrecorded.addLock
    (taken : Unrecorded others R (.held b) { s with locks := ⟨b, fun _ => 0, 1⟩ :: s.locks }) :
    Books others (addLock b) s fun _ s' => Kept others R s' := by
  rw [CuckooTrie.addLock]
  refine Prog.Keeps.bind (Q := fun _ s' => Unrecorded others R (.held b)
    { s' with locks := ⟨b, fun _ => 0, 1⟩ :: s'.locks }) ?_ fun _ s₁ taken => ?_
  · have past : ({ s with asserts := (.slotFree, decide (s.locks.length < maxLocks)) ::
        s.asserts } : Sys g).Bookkept others := by
      refine ⟨taken.past.balanced, fun a holds mem kind => ?_⟩
      rcases List.mem_cons.mp mem with equal | mem
      · cases equal
        simp at kind
      · exact taken.past.asserted a holds mem kind
    exact .update past ⟨past.congr rfl rfl, taken.listed, taken.outstanding⟩
  · refine Prog.Keeps.bind (Q := fun _ s' => Unrecorded others R (.held b) s')
      (.update (taken.past.congr rfl rfl) taken) fun _ s₂ changed => changed.recordLocks

theorem LeavesLocks.readUnlockBucket (l : BucketReadLock) :
    LeavesLocks (CuckooTrie.readUnlockBucket l : M g Bool) :=
  fun _ => ⟨rfl, rfl, rfl, rfl⟩

theorem LeavesLocks.validateEntry (lc : LocalCopy) :
    LeavesLocks (CuckooTrie.validateEntry lc : M g Bool) :=
  fun _ => ⟨rfl, rfl, rfl, rfl⟩

/-- **`release_bucket_lock`**, of a bucket with an outstanding reference. -/
theorem Kept.releaseBucketLock (kept : Kept others (R.hold b) s) :
    Books others (releaseBucketLock b) s fun _ s' => Kept others R s' := by
  have positive : 0 < (R.hold b).total b := by
    rw [References.total_hold_self]
    exact Nat.succ_pos _
  rw [CuckooTrie.releaseBucketLock]
  refine (kept.lookupLock b).bind ?_
  rintro - s₁ ⟨rfl, kept⟩
  rw [if_pos positive]
  refine (kept.assertThat fun _ => rfl).bind fun _ s₂ kept => ?_
  refine (kept.assertThat (a := .refcountPositive) fun _ => ?_).bind fun _ s₃ kept => ?_
  · exact decide_eq_true positive.ne'
  · have remaining : ((R.hold b).lock b).totalRefcount - 1 = R.total b := by
      rw [References.lock, References.total_hold_self, Nat.add_sub_cancel]
    rw [remaining]
    exact kept.dropReference .drop (.dropped b) (fun _ => rfl) (References.drop_lock R b)
      (fun _ ne => (References.lock_hold_of_ne ne).symm) positive (outstanding_dropped kept)
      fun s₄ changed => changed.recordLocks

/-- **`upgrade_bucket_lock`** adds a reference to the bucket, or leaves the books as they
are. -/
theorem Kept.upgradeBucketLock (kept : Kept others R s) (l : BucketReadLock) :
    Books others (upgradeBucketLock l) s fun ret s' =>
      (ret = .ok ∧ Kept others (R.hold l.bucket) s') ∨ (ret = .retry ∧ Kept others R s') := by
  rw [CuckooTrie.upgradeBucketLock]
  refine (kept.lookupLock l.bucket).bind ?_
  rintro - s₁ ⟨rfl, kept⟩
  split
  · next listed =>
    split at listed
    · next positive =>
      refine (kept.quiet (LeavesLocks.readUnlockBucket l)).bind fun unchanged s₂ kept => ?_
      refine .ite (fun _ => .pure kept.past (Or.inr ⟨rfl, kept⟩)) fun _ => ?_
      refine (kept.updateLock .hold (.held l.bucket) (fun _ => rfl)
        (References.hold_lock R l.bucket)
        (fun _ => References.lock_hold_of_ne) positive (by simp)
        (outstanding_held kept l.bucket)).bind fun _ s₃ changed => ?_
      refine changed.recordLocks.bind fun _ s₄ kept => ?_
      exact .pure kept.past (Or.inl ⟨rfl, kept⟩)
    · cases listed
  · refine (kept.tryTakeLock l.bucket).bind fun taken s₂ h => ?_
    obtain ⟨rfl, changed⟩ | ⟨rfl, kept⟩ := h
    · refine changed.addLock.bind fun _ s₃ kept => ?_
      refine (kept.quiet (LeavesLocks.readUnlockBucket l)).bind fun unchanged s₄ kept => ?_
      refine .ite (fun _ => ?_) fun _ => .pure kept.past (Or.inl ⟨rfl, kept⟩)
      refine kept.releaseBucketLock.bind fun _ s₅ kept => ?_
      exact .pure kept.past (Or.inr ⟨rfl, kept⟩)
    · exact .pure kept.past (Or.inr ⟨rfl, kept⟩)

/-- **`write_lock_bucket`**. -/
theorem Kept.writeLockBucket (kept : Kept others R s) (b : ℕ) :
    Books others (writeLockBucket b) s fun locked s' =>
      (locked = true ∧ Kept others (R.hold b) s') ∨ (locked = false ∧ Kept others R s') := by
  rw [CuckooTrie.writeLockBucket]
  refine (kept.tryTakeLock b).bind fun taken s₁ h => ?_
  obtain ⟨rfl, changed⟩ | ⟨rfl, kept⟩ := h
  · refine changed.addLock.bind fun _ s₂ kept => ?_
    exact .pure kept.past (Or.inl ⟨rfl, kept⟩)
  · refine (kept.lookupLock b).bind ?_
    rintro - s₂ ⟨rfl, kept⟩
    split
    · next listed =>
      split at listed
      · next positive =>
        refine (kept.assertThat (a := .byteSet) fun _ => ?_).bind fun _ s₃ kept => ?_
        · rw [kept.listed.byte, decide_eq_true positive, Bool.or_true]
        refine (kept.updateLock .hold (.held b) (fun _ => rfl) (References.hold_lock R b)
          (fun _ => References.lock_hold_of_ne) positive (by simp)
          (outstanding_held kept b)).bind fun _ s₄ changed => ?_
        refine changed.recordLocks.bind fun _ s₅ kept => ?_
        exact .pure kept.past (Or.inl ⟨rfl, kept⟩)
      · cases listed
    · exact .pure kept.past (Or.inr ⟨rfl, kept⟩)

/-- **`write_lock_entry_in_locked_bucket`**. -/
theorem Kept.writeLockEntryInLockedBucket (kept : Kept others R s)
    (positive : 0 < R.total loc.bucket) :
    Books others (writeLockEntryInLockedBucket loc) s fun _ s' => Kept others (R.mark loc) s' := by
  rw [CuckooTrie.writeLockEntryInLockedBucket]
  refine (kept.assertThat fun _ => ?_).bind fun _ s₁ kept => ?_
  · rw [kept.listed.findWriteLock_eq, if_pos positive]
    rfl
  · refine (kept.updateLock (fun l => (l.markEntry loc.cell).hold) .entry (fun _ => rfl)
      (References.markEntry_lock R loc) (fun _ => References.lock_mark_of_ne) positive (by simp)
      fun _ _ _ => kept.outstanding).bind fun _ s₂ changed => changed.recordLocks

/-- **`move_entry_lock`** moves the references on an entry between two buckets that are
held. -/
theorem Kept.moveEntryLock {dst src : Loc} (kept : Kept others R s)
    (heldDst : dst.bucket ∈ R.buckets) (heldSrc : src.bucket ∈ R.buckets) :
    Books others (moveEntryLock dst src) s fun _ s' =>
      ∃ entries, entries.card = R.entries.card ∧ Kept others ⟨R.buckets, entries⟩ s' := by
  have positive : ∀ {T : References} {b}, b ∈ T.buckets → 0 < T.total b := fun mem =>
    Nat.add_pos_left (Multiset.count_pos.mpr mem) _
  rw [CuckooTrie.moveEntryLock]
  refine (kept.lookupLock src.bucket).bind ?_
  rintro - s₁ ⟨rfl, kept⟩
  rw [if_pos (positive heldSrc)]
  refine (kept.assertThat fun _ => rfl).bind fun _ s₂ kept => ?_
  refine (kept.assertThat fun _ => ?_).bind fun _ s₃ kept => ?_
  · rw [kept.listed.findWriteLock_eq, if_pos (positive heldDst)]
    rfl
  refine .ite (fun _ => .pure kept.past ⟨_, rfl, kept⟩) fun marked => ?_
  -- the entry has a reference, so the references are some others and this one
  have mem : src ∈ R.entries := Multiset.count_pos.mp (Nat.pos_of_ne_zero marked)
  obtain ⟨entries, hentries⟩ := Multiset.exists_cons_of_mem mem
  have isMark : R = (⟨R.buckets, entries⟩ : References).mark src := by
    cases R
    simp only at hentries
    rw [hentries]
    rfl
  rw [isMark] at kept
  refine (kept.updateLock (fun l => (l.unmarkEntry src.cell).drop) .entry (fun _ => rfl)
    (References.unmarkEntry_lock ⟨R.buckets, entries⟩ src)
    (fun _ ne => (References.lock_mark_of_ne ne).symm) (positive heldSrc)
    (positive (T := ⟨_, entries⟩) heldSrc)
    fun _ _ _ => kept.outstanding).bind fun _ s₄ unmarked => ?_
  have kept₄ : Unrecorded others ((⟨R.buckets, entries⟩ : References).mark dst) .entry
      { s₄ with locks := modifyLock (fun l => (l.markEntry dst.cell).hold) dst.bucket s₄.locks } :=
    ⟨unmarked.past.congr rfl rfl, unmarked.listed.modify (fun _ => rfl)
      (References.markEntry_lock _ dst) (fun _ => References.lock_mark_of_ne)
      (positive (T := ⟨_, entries⟩) heldDst) (by simp), unmarked.outstanding⟩
  refine Prog.Keeps.bind (Q := fun _ s' => Unrecorded others _ .entry s')
    (.update kept₄.past kept₄) fun _ s₅ changed => ?_
  refine changed.recordLocks.weaken fun _ _ kept => ⟨_, ?_, kept⟩
  rw [hentries, Multiset.card_cons, Multiset.card_cons]

/-- **`upgrade_lock`** adds a reference to the entry, or leaves the books as they are. -/
theorem Kept.upgradeLock (kept : Kept others R s) (lc : LocalCopy) :
    Books others (upgradeLock lc) s fun ret s' =>
      (ret = .ok ∧ Kept others (R.mark lc.lastPos) s') ∨ (ret = .retry ∧ Kept others R s') := by
  rw [CuckooTrie.upgradeLock]
  refine (kept.tryTakeLock lc.lastPos.bucket).bind fun taken s₁ h => ?_
  obtain ⟨rfl, changed⟩ | ⟨rfl, kept⟩ := h
  · refine changed.addLock.bind fun _ s₂ kept => ?_
    refine (kept.quiet (LeavesLocks.validateEntry lc)).bind fun unchanged s₃ kept => ?_
    refine .ite (fun _ => ?_) fun _ => ?_
    · refine kept.releaseBucketLock.bind fun _ s₄ kept => ?_
      exact .pure kept.past (Or.inr ⟨rfl, kept⟩)
    · have marked : ((R.hold lc.lastPos.bucket).lock lc.lastPos.bucket).markEntry lc.lastPos.cell =
          (R.mark lc.lastPos).lock lc.lastPos.bucket := by
        rw [← References.hold_lock, ← References.markEntry_lock]
        rfl
      refine (kept.updateLock (·.markEntry lc.lastPos.cell) (.dropped lc.lastPos.bucket)
        (fun _ => rfl) marked
        (fun b' ne => (References.lock_mark_of_ne ne).trans (References.lock_hold_of_ne ne).symm)
        (by simp) (by simp) fun _ _ _ => ?_).bind fun _ s₄ changed => ?_
      · exact outstanding_dropped kept _ _ _
      · refine changed.recordLocks.bind fun _ s₅ kept => ?_
        exact .pure kept.past (Or.inl ⟨rfl, kept⟩)
  · refine (kept.lookupLock lc.lastPos.bucket).bind ?_
    rintro - s₂ ⟨rfl, kept⟩
    split
    · next listed =>
      split at listed
      · next positive =>
        refine (kept.quiet (LeavesLocks.validateEntry lc)).bind fun unchanged s₃ kept => ?_
        refine .ite (fun _ => .pure kept.past (Or.inr ⟨rfl, kept⟩)) fun _ => ?_
        refine (kept.updateLock (fun l => (l.markEntry lc.lastPos.cell).hold) .entry (fun _ => rfl)
          (References.markEntry_lock R lc.lastPos) (fun _ => References.lock_mark_of_ne) positive
          (by simp)
          fun _ _ _ => kept.outstanding).bind fun _ s₄ changed => ?_
        refine changed.recordLocks.bind fun _ s₅ kept => ?_
        exact .pure kept.past (Or.inl ⟨rfl, kept⟩)
      · cases listed
    · exact .pure kept.past (Or.inr ⟨rfl, kept⟩)

/-- **`write_unlock`**, of an entry with a reference. -/
theorem Kept.writeUnlock (kept : Kept others (R.mark loc) s) :
    Books others (writeUnlock loc) s fun _ s' => Kept others R s' := by
  have positive : 0 < (R.mark loc).total loc.bucket := by simp
  rw [CuckooTrie.writeUnlock]
  refine (kept.lookupLock loc.bucket).bind ?_
  rintro - s₁ ⟨rfl, kept⟩
  rw [if_pos positive]
  refine (kept.assertThat fun _ => rfl).bind fun _ s₂ kept => ?_
  refine (kept.assertThat (a := .refcountPositive) fun _ => ?_).bind fun _ s₃ kept => ?_
  · have marked : 0 < (loc ::ₘ R.entries).count loc := by simp
    exact decide_eq_true marked.ne'
  · have remaining : ((R.mark loc).lock loc.bucket).totalRefcount - 1 = R.total loc.bucket := by
      rw [References.lock, References.total_mark_self, Nat.add_sub_cancel]
    rw [remaining]
    exact kept.dropReference (fun l => (l.unmarkEntry loc.cell).drop) .entry (fun _ => rfl)
      (References.unmarkEntry_lock R loc)
      (fun _ ne => (References.lock_mark_of_ne ne).symm) positive
      (fun _ _ _ => kept.outstanding) fun s₄ changed => changed.recordLocks

/-- **`release_all_locks`** gives up all references. -/
theorem Kept.releaseAllLocks (kept : Kept others R s) :
    Books others releaseAllLocks s fun _ s' => Kept others .none s' := by
  rw [CuckooTrie.releaseAllLocks]
  refine Prog.Keeps.bind (Q := fun _ s' => Unrecorded others .none .cleared s') ?_
    fun _ s₁ changed => changed.recordLocks
  exact .update (kept.past.congr rfl rfl) ⟨kept.past.congr rfl rfl, kept.listed.release_all,
    fun b => (Multiset.count_zero b).symm⟩

end Operations

end CuckooTrie
