import CuckooTrie.Frame
import CuckooTrie.References

/-!
# How far the upgrades along a path get

`relocate_entry` upgrades the read locks of the buckets on its path one by one.  The others
decide how many of the upgrades pass (`Sys.grants`), and with that how many buckets are locked
at most at a time (`Sys.peak`).  The last of these may be one whose upgrade is refused, when its
sequence is found to have changed after its lock byte was taken.
-/

namespace CuckooTrie

open Sys

variable {g : Geometry} {s s' : Sys g} {b : ℕ} {bs : List ℕ}

/-- The buckets that are locked at most at a time when several are upgraded one after the
other, until one is refused. -/
def upgradePeak (env writeLock : ℕ → Bool) : ℕ → Finset ℕ → List ℕ → Finset ℕ
  | _, locked, [] => locked
  | check, locked, b :: bs =>
    if b ∈ locked then
      if env check then upgradePeak env writeLock (check + 1) locked bs else locked
    else if env check && !writeLock b then
      if env (check + 1) then upgradePeak env writeLock (check + 2) (insert b locked) bs
      else insert b locked
    else locked

/-- The buckets a record lists. -/
def LockRecord.buckets (r : LockRecord) : Finset ℕ := (r.locks.map (·.bucket)).toFinset

/-- The buckets locked at most at a time while those on a path are upgraded, from the state
in which a record was made. -/
def LockRecord.peak (r : LockRecord) (env : ℕ → Bool) (path : List ℕ) : Finset ℕ :=
  upgradePeak env r.writeLock r.checks r.buckets path

namespace Sys

/-- Whether this thread has a bucket locked. -/
def listed (s : Sys g) (b : ℕ) : Bool := (findWriteLock s.locks b).isSome

/-- Whether the others let the upgrades of several buckets pass, from one of their
checks on: they leave the sequence of a bucket alone, and a bucket that this thread
has not locked yet is not locked by them either. -/
def grants (s : Sys g) : ℕ → List ℕ → Bool
  | _, [] => true
  | check, b :: bs =>
    if s.listed b then s.env check && s.grants (check + 1) bs
    else s.env check && !s.trie.writeLock b && s.env (check + 1) && s.grants (check + 2) bs

/-- The buckets this thread has locked. -/
def buckets (s : Sys g) : Finset ℕ := (s.locks.map (·.bucket)).toFinset

/-- The buckets locked at most at a time while those on a path are upgraded. -/
def peak (s : Sys g) (path : List ℕ) : Finset ℕ :=
  upgradePeak s.env s.trie.writeLock s.checks s.buckets path

/-- All buckets of a set were listed at a time. -/
def Lists (T : Finset ℕ) (s : Sys g) : Prop := ∃ r ∈ s.lockLog, T ⊆ r.buckets

end Sys

theorem Sys.Lists.of_le {T : Finset ℕ} (lists : Lists T s) (le : s ≤ s') : Lists T s' := by
  obtain ⟨r, mem, subset⟩ := lists
  exact ⟨r, le.lockLog.subset mem, subset⟩

theorem Sys.mem_buckets : b ∈ s.buckets ↔ s.listed b = true := by
  rw [Sys.buckets, List.mem_toFinset, List.mem_map, Sys.listed, findWriteLock,
    List.find?_isSome]
  simp

/-! ## The peak of a path -/

/-- Only the bytes of other buckets matter. -/
theorem upgradePeak_congr {env writeLock writeLock' : ℕ → Bool} {locked : Finset ℕ} (check : ℕ)
    (same : ∀ b ∉ locked, writeLock' b = writeLock b) (bs : List ℕ) :
    upgradePeak env writeLock' check locked bs = upgradePeak env writeLock check locked bs := by
  induction bs generalizing check locked with
  | nil => rfl
  | cons b bs ih =>
    rw [upgradePeak, upgradePeak]
    split
    · rw [ih (check + 1) same]
    · next unlisted =>
      rw [same b unlisted, ih (check + 2) fun b' out => same b' fun mem =>
        out (Finset.mem_insert_of_mem mem)]

theorem subset_upgradePeak {env writeLock : ℕ → Bool} (check : ℕ) (locked : Finset ℕ)
    (bs : List ℕ) : locked ⊆ upgradePeak env writeLock check locked bs := by
  induction bs generalizing check locked with
  | nil => exact Finset.Subset.refl locked
  | cons b bs ih =>
    rw [upgradePeak]
    split
    · split
      · exact ih _ _
      · exact Finset.Subset.refl locked
    · split
      · split
        · exact (Finset.subset_insert b locked).trans (ih _ _)
        · exact Finset.subset_insert b locked
      · exact Finset.Subset.refl locked

theorem Sys.buckets_subset_peak (s : Sys g) (path : List ℕ) : s.buckets ⊆ s.peak path :=
  subset_upgradePeak _ _ path

/-- If the others refuse nothing, all of the path is locked. -/
theorem upgradePeak_alone {writeLock : ℕ → Bool} {locked : Finset ℕ} (check : ℕ)
    (free : ∀ b ∉ locked, writeLock b = false) (bs : List ℕ) :
    upgradePeak alone writeLock check locked bs = locked ∪ bs.toFinset := by
  induction bs generalizing check locked with
  | nil => exact (Finset.union_empty locked).symm
  | cons b bs ih =>
    rw [upgradePeak, List.toFinset_cons, Finset.union_insert]
    split
    · next listed =>
      rw [if_pos (show alone check = true from rfl), ih (check + 1) free,
        Finset.insert_eq_of_mem (Finset.mem_union_left _ listed)]
    · next unlisted =>
      rw [free b unlisted, if_pos (show (alone check && !false) = true from rfl),
        if_pos (show alone (check + 1) = true from rfl), ← Finset.insert_union]
      exact ih (check + 2) fun b' out => free b' fun mem => out (Finset.mem_insert_of_mem mem)

/-- What an upgrade that passes leaves behind. -/
structure Upgraded (s s' : Sys g) (b : ℕ) : Prop where
  env : s'.env = s.env
  seq : s'.trie.seq = s.trie.seq
  checks : s'.checks = s.checks + if s.listed b then 1 else 2
  buckets : s'.buckets = insert b s.buckets
  writeLock : ∀ b' ≠ b, s'.trie.writeLock b' = s.trie.writeLock b'

/-- After an upgrade that passes the others decide about the rest of the path. -/
theorem Upgraded.peak_cons (upgraded : Upgraded s s' b) (granted : s.grants s.checks [b] = true)
    (bs : List ℕ) : s.peak (b :: bs) = s'.peak bs := by
  have bytes : ∀ b' ∉ insert b s.buckets, s'.trie.writeLock b' = s.trie.writeLock b' :=
    fun b' out => upgraded.writeLock b' fun equal => out (Finset.mem_insert.mpr (Or.inl equal))
  rw [Sys.peak, Sys.peak, upgraded.env, upgraded.buckets, upgraded.checks,
    upgradePeak_congr _ bytes, upgradePeak]
  rw [Sys.grants] at granted
  by_cases here : s.listed b = true
  · rw [if_pos here, Sys.grants, Bool.and_true] at granted
    rw [if_pos (Sys.mem_buckets.mpr here), if_pos granted, if_pos here,
      Finset.insert_eq_of_mem (Sys.mem_buckets.mpr here)]
  · rw [if_neg here, Sys.grants, Bool.and_true, Bool.and_eq_true] at granted
    rw [if_neg (mt Sys.mem_buckets.mp here), if_pos granted.1, if_pos granted.2, if_neg here]

/-- A refused upgrade is the last one. -/
theorem Sys.peak_cons_of_denied (denied : ¬ s.grants s.checks [b] = true) (bs : List ℕ) :
    s.peak (b :: bs) = s.peak [b] := by
  rw [Sys.grants, Sys.grants, Sys.grants, Bool.and_true, Bool.and_true] at denied
  rw [Sys.peak, Sys.peak, upgradePeak, upgradePeak]
  by_cases here : s.listed b = true
  · rw [if_pos here] at denied
    rw [if_pos (Sys.mem_buckets.mpr here), if_pos (Sys.mem_buckets.mpr here), if_neg denied,
      if_neg denied]
  · rw [if_neg here, Bool.and_eq_true, not_and] at denied
    rw [if_neg (mt Sys.mem_buckets.mp here), if_neg (mt Sys.mem_buckets.mp here)]
    split
    · next taken => rw [if_neg (denied taken), if_neg (denied taken)]
    · rfl

/-! ## One upgrade -/

theorem buckets_modifyLock {f : BucketWriteLock → BucketWriteLock}
    (same : ∀ l, (f l).bucket = l.bucket) (s : Sys g) (b : ℕ) :
    ({ s with locks := modifyLock f b s.locks } : Sys g).buckets = s.buckets := by
  rw [Sys.buckets, map_bucket_modifyLock same]
  rfl

theorem readLockBucket_congr {t t' : Trie g} (seq : t'.seq = t.seq) (b : ℕ) :
    readLockBucket t' b = readLockBucket t b := by rw [readLockBucket, readLockBucket, seq]

/-- A lock byte is taken if the others let this thread take it. -/
theorem tryTakeLock_outcome (s : Sys g) (b : ℕ) :
    (tryTakeLock b).Returns s fun taken s' =>
      taken = (s.env s.checks && !s.trie.writeLock b) ∧ (taken = true → s' = { s with
        checks := s.checks + 1
        trie := { s.trie with writeLock := setLockByte s.trie.writeLock b true } }) := by
  rw [tryTakeLock]
  refine Prog.Returns.bind (Q := fun allowed s' => allowed = s.env s.checks ∧
    s' = { s with checks := s.checks + 1 }) (.update ⟨rfl, rfl⟩) ?_
  rintro allowed s' - ⟨rfl, rfl⟩
  cases s.env s.checks with
  | false => exact .pure ⟨rfl, fun taken => absurd taken Bool.false_ne_true⟩
  | true => exact .update ⟨rfl, fun _ => rfl⟩

/-- The sequence of a bucket that was not written is found unchanged if the others let it. -/
theorem readUnlockBucket_outcome (l : BucketReadLock) (same : s.trie.seq l.bucket = l.seq) :
    (readUnlockBucket l).Returns s fun unchanged s' =>
      unchanged = s.env s.checks ∧ s' = { s with checks := s.checks + 1 } :=
  ⟨_, rfl, by simp [sameSeq, same], rfl⟩

/-- **`upgrade_bucket_lock`** on a bucket that was not written succeeds exactly when the others
grant it.  A bucket whose lock byte it takes was listed, whatever the second check says. -/
theorem upgradeBucketLock_outcome (l : BucketReadLock) (same : s.trie.seq l.bucket = l.seq) :
    (upgradeBucketLock l).Returns s fun ret s' =>
      (s.Lists s.buckets → s'.Lists (s.peak [l.bucket])) ∧
        if s.grants s.checks [l.bucket] then ret = .ok ∧ Upgraded s s' l.bucket
        else ret = .retry := by
  refine Prog.Returns.weaken (Q := fun ret s' => (s.listed l.bucket = false →
    (s.env s.checks && !s.trie.writeLock l.bucket) = true → s'.Lists (insert l.bucket s.buckets)) ∧
      if s.grants s.checks [l.bucket] then ret = .ok ∧ Upgraded s s' l.bucket
      else ret = .retry) ?_ ?_
  swap
  · rintro ret s' le ⟨taken, outcome⟩
    refine ⟨fun before => ?_, outcome⟩
    rw [Sys.peak, upgradePeak]
    cases listed : s.listed l.bucket with
    | true =>
      rw [if_pos (Sys.mem_buckets.mpr listed)]
      split <;> exact before.of_le le
    | false =>
      rw [if_neg (by rw [Sys.mem_buckets, listed]; exact Bool.false_ne_true)]
      split
      · next free => split <;> exact taken listed free
      · exact before.of_le le
  rw [upgradeBucketLock]
  refine Prog.Returns.bind (Q := fun found s' => found = findWriteLock s.locks l.bucket ∧ s' = s)
    (.read ⟨rfl, rfl⟩) ?_
  rintro found s - ⟨rfl, rfl⟩
  cases found : findWriteLock s.locks l.bucket with
  | some lock =>
    have listed : s.listed l.bucket = true := by rw [Sys.listed, found]; rfl
    refine (readUnlockBucket_outcome l same).bind ?_
    rintro unchanged s' - ⟨rfl, rfl⟩
    simp only [Sys.grants, listed, if_true, Bool.and_true]
    cases granted : s.env s.checks with
    | false => exact .pure ⟨fun unlisted => absurd unlisted.symm Bool.false_ne_true, rfl⟩
    | true =>
      refine ⟨_, rfl, fun unlisted => absurd unlisted.symm Bool.false_ne_true, rfl,
        ⟨rfl, rfl, by rw [listed]; rfl, ?_, fun _ _ => rfl⟩⟩
      rw [Finset.insert_eq_of_mem (Sys.mem_buckets.mpr listed)]
      exact buckets_modifyLock (by intro l; rfl) s l.bucket
  | none =>
    have unlisted : s.listed l.bucket = false := by rw [Sys.listed, found]; rfl
    simp only [Sys.grants, unlisted, Bool.false_eq_true, if_false, Bool.and_true]
    refine (tryTakeLock_outcome s l.bucket).bind fun taken s' _ h => ?_
    obtain ⟨rfl, stored⟩ := h
    cases free : s.env s.checks && !s.trie.writeLock l.bucket with
    | false => exact .pure ⟨fun _ free => absurd free Bool.false_ne_true, rfl⟩
    | true =>
      obtain rfl := stored free
      simp only [Bool.not_true, Bool.false_eq_true, if_false, Bool.true_and]
      refine Prog.Returns.bind (Q := fun _ s'' => s''.Lists (insert l.bucket s.buckets) ∧
        s''.env = s.env ∧ s''.trie.seq = s.trie.seq ∧ s''.checks = s.checks + 1 ∧
        s''.buckets = insert l.bucket s.buckets ∧
        s''.trie.writeLock = setLockByte s.trie.writeLock l.bucket true) ?_ ?_
      · have buckets : ((⟨l.bucket, fun _ => 0, 1⟩ :: s.locks).map (·.bucket)).toFinset =
            insert l.bucket s.buckets := List.toFinset_cons
        exact ⟨_, rfl, ⟨_, List.mem_cons_self, buckets.symm.le⟩, rfl, rfl, rfl, buckets, rfl⟩
      rintro - s₁ - ⟨lists, env, seq, checks, buckets, writeLock⟩
      refine (readUnlockBucket_outcome l (by rw [seq, same])).bind ?_
      rintro unchanged s' - ⟨rfl, rfl⟩
      rw [show s₁.env s₁.checks = s.env (s.checks + 1) by rw [env, checks]]
      cases granted : s.env (s.checks + 1) with
      | false =>
        refine (Quietly.releaseBucketLock l.bucket _).bind fun _ s₂ le _ =>
          .pure ⟨fun _ _ => ?_, rfl⟩
        exact Sys.Lists.of_le (s := { s₁ with checks := s₁.checks + 1 }) lists le
      | true =>
        refine .pure ⟨fun _ _ => lists, rfl, ⟨env, seq, ?_, buckets, fun b' ne => ?_⟩⟩
        · rw [unlisted]
          exact congrArg (· + 1) checks
        · exact (congrFun writeLock b').trans (if_neg ne)

/-! ## A path of upgrades -/

/-- **One step of the way to a peak**, from a state in which all locked buckets are listed. -/
theorem upgradeBucketLock_lists {l : BucketReadLock} (lock : l = readLockBucket s.trie l.bucket)
    (lists : s.Lists s.buckets) (bs : List ℕ) :
    (upgradeBucketLock l).Returns s fun ret s' =>
      (ret = .ok ∧ s'.trie.seq = s.trie.seq ∧ s'.Lists s'.buckets ∧
        s.peak (l.bucket :: bs) = s'.peak bs) ∨
      (ret = .retry ∧ s'.Lists (s.peak (l.bucket :: bs))) := by
  have current : s.trie.seq l.bucket = l.seq := by rw [lock]; rfl
  refine (upgradeBucketLock_outcome l current).weaken fun ret s' _ h => ?_
  obtain ⟨reached, outcome⟩ := h
  have lists' := reached lists
  split at outcome
  · next granted =>
    obtain ⟨ok, upgraded⟩ := outcome
    rw [upgraded.peak_cons granted []] at lists'
    exact Or.inl ⟨ok, upgraded.seq, lists', upgraded.peak_cons granted bs⟩
  · next denied =>
    rw [← Sys.peak_cons_of_denied denied bs] at lists'
    exact Or.inr ⟨outcome, lists'⟩

/-- **The peak of a path is reached**: as many buckets are listed at a time, if none of those
on the path was written. -/
theorem upgradePath_lists {path : List QueueEntry}
    (readLocks : ∀ q ∈ path, q.readLock = readLockBucket s.trie q.bucket)
    (lists : s.Lists s.buckets) :
    (upgradePath path).Leads (Sys.Lists (s.peak (path.map (·.bucket)))) s := by
  induction path generalizing s with
  | nil => exact lists
  | cons q path ih =>
    have lock := readLocks q List.mem_cons_self
    have bucket : q.readLock.bucket = q.bucket := by rw [lock]; rfl
    rw [upgradePath, List.map_cons, ← bucket]
    refine .bind (upgradeBucketLock_lists (by rw [bucket, ← lock]) lists (path.map (·.bucket))) ?_
    rintro ret s₁ (⟨rfl, seq, lists₁, peak⟩ | ⟨rfl, lists₁⟩)
    · rw [peak]
      refine .first (fun _ _ le lists => lists.of_le le) (ih (fun q' mem => ?_) lists₁)
      rw [readLocks q' (List.mem_cons_of_mem _ mem), readLockBucket_congr seq]
    · exact lists₁

/-- **A relocation locks as many buckets at a time as the peak of its path.** -/
theorem relocateAlong_lists {queue : List QueueEntry} {found : FreeCell}
    (cell : found.readLock = readLockBucket s.trie found.readLock.bucket)
    (readLocks : ∀ q ∈ queuePath queue queue.length found.queuePos,
      q.readLock = readLockBucket s.trie q.bucket) (lists : s.Lists s.buckets) :
    (relocateAlong queue found).Leads (Sys.Lists (s.peak (pathBuckets queue found))) s := by
  rw [relocateAlong, pathBuckets]
  refine .bind (upgradeBucketLock_lists cell lists
    ((queuePath queue queue.length found.queuePos).map (·.bucket))) ?_
  rintro ret s₁ (⟨rfl, seq, lists₁, peak⟩ | ⟨rfl, lists₁⟩)
  · rw [peak]
    refine .first (fun _ _ le lists => lists.of_le le) (upgradePath_lists (fun q mem => ?_) lists₁)
    rw [readLocks q mem, readLockBucket_congr seq]
  · exact lists₁

end CuckooTrie
