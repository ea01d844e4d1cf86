import CuckooTrie.UsedEntries

/-!
# Adding an entry on any table

On any table in which entries with the same hash have different colors, `add_entry`
either puts exactly one new entry into a bucket of its pair, under a color by which a
search finds it and nothing else, or leaves the entries as they are
(`add_entry_places`).
-/

namespace CuckooTrie

open Sys

variable {g : Geometry} {t t' t₁ : Trie g} {immovable : Option Loc} {h : ℕ} {loc : Loc}
  {entry entry' : Entry}

/-! ## Colors of entries with the same hash -/

/-- What tells an entry from all others in the table: its hash with its tag, and its
color. -/
def entryName (p : ℕ × Entry) : ℕ × ℕ × ℕ := (p.1, p.2.tag, p.2.color)

/-- Entries with the same primary bucket and tag have different colors. -/
def Trie.DistinctColors (t : Trie g) : Prop :=
  ∀ l l' : Loc, l.bucket < g.numBuckets → l'.bucket < g.numBuckets →
    (t.cells l).body.used = true → (t.cells l').body.used = true →
    cellHash g l (t.cells l) = cellHash g l' (t.cells l') →
    (t.cells l).tag = (t.cells l').tag → (t.cells l).color = (t.cells l').color → l = l'

theorem Trie.distinctColors_iff (t : Trie g) :
    t.DistinctColors ↔ (t.usedEntries.map entryName).Nodup := by
  rw [usedEntries, Multiset.map_map, Multiset.nodup_map_iff_inj_on (Finset.nodup _)]
  simp only [Finset.mem_val, Finset.mem_filter, mem_tableCells, Function.comp, entryName,
    Prod.mk.injEq]
  constructor
  · intro distinct l hl l' hl' same
    exact distinct l l' hl.1 hl'.1 hl.2 hl'.2 same.1 same.2.1 same.2.2
  · intro distinct l l' inside inside' used used' hash tag color
    exact distinct l ⟨inside, used⟩ l' ⟨inside', used'⟩ ⟨hash, tag, color⟩

/-- An entry is in one of the two buckets of its hash. -/
theorem bucket_of_cellHash {e : Entry} (inTable : loc.bucket < g.numBuckets)
    (hash : cellHash g loc e = h) (tag : e.tag = hashToTag h) :
    loc.bucket = hashToBucket h ∨ loc.bucket = g.mixBucket (hashToBucket h) (hashToTag h) := by
  obtain ⟨-, -, place⟩ := (cellHash_eq_iff (tag ▸ hashToTag_lt h) inTable).mp hash
  rw [tag] at place
  cases hs : e.secondary <;> simp only [hs, Bool.false_eq_true, if_false, if_true] at place
  · exact Or.inl place
  · exact Or.inr place

/-! ## The outcomes -/

/-- The tables differ at most by a relocation that makes room in a bucket. -/
def UpToRelocation (t t₁ : Trie g) (immovable : Option Loc) (bucketNum : ℕ) : Prop :=
  t₁.cells = t.cells ∨ ∃ free sources, Permuted t t₁ immovable bucketNum free sources

theorem UpToRelocation.usedEntries {b : ℕ} (same : UpToRelocation t t₁ immovable b) :
    t₁.usedEntries = t.usedEntries := by
  rcases same with cells | ⟨free, sources, permuted⟩
  · exact Trie.usedEntries_congr cells
  · exact permuted.entries

theorem UpToRelocation.congr {b : ℕ} (same : UpToRelocation t t₁ immovable b)
    (cells : t'.cells = t₁.cells) : UpToRelocation t t' immovable b := by
  rcases same with same | ⟨free, sources, permuted⟩
  · exact Or.inl (cells.trans same)
  · exact Or.inr ⟨free, sources, permuted.congr cells⟩

/-- **One new entry**: up to a relocation the table has changed in one free cell, which
holds the entry under a color that no other cell of its pair has. -/
structure Placed (t t' : Trie g) (immovable : Option Loc) (h : ℕ) (entry entry' : Entry)
    (loc : Loc) : Prop where
  table : ∃ t₁, UpToRelocation t t₁ immovable (hashToBucket h) ∧
    (t₁.cells loc).body.used = false ∧ ∀ l, t'.cells l = if l = loc then entry' else t₁.cells l
  place : loc.bucket = if entry'.secondary then g.mixBucket (hashToBucket h) (hashToTag h)
    else hashToBucket h
  stored : entry' = { entry with
    secondary := entry'.secondary, color := entry'.color, tag := hashToTag h }
  color : entry'.color ≤ maxValidColor
  fresh : ∀ l, l ≠ loc →
    l.bucket = hashToBucket h ∨ l.bucket = g.mixBucket (hashToBucket h) (hashToTag h) →
    (t'.cells l).color ≠ entry'.color
  entries : t'.usedEntries = t.usedEntries +
    if entry.body.used then {(h, newEntry entry h entry'.color)} else 0
  distinct : t'.DistinctColors
  found : findEntryInPairByColor t' (hashToBucket h) (hashToTag h) entry'.color =
    some (t'.localCopy loc (hashToBucket h))

/-- **No new entry**: up to a relocation the table has changed at most in a free cell,
which is still free. -/
structure Unplaced (t t' : Trie g) (immovable : Option Loc) (h : ℕ) : Prop where
  table : ∃ t₁, UpToRelocation t t₁ immovable (hashToBucket h) ∧ ∀ l,
    t'.cells l = t₁.cells l ∨ (t₁.cells l).body.used = false ∧ t'.cells l = unusedEntry
  entries : t'.usedEntries = t.usedEntries

/-- A scan that only one cell of the bucket passes. -/
theorem findInBucket_eq {b : ℕ} {accepts : Entry → Bool} (bucket : loc.bucket = b)
    (accepted : accepts (t.cells loc) = true)
    (only : ∀ l : Loc, l.bucket = b → accepts (t.cells l) = true → l = loc) :
    findInBucket t b accepts = some loc := by
  cases scan : findInBucket t b accepts with
  | none =>
    rw [findInBucket_eq_none scan bucket] at accepted
    cases accepted
  | some l =>
    obtain ⟨bucket', accepted'⟩ := findInBucket_eq_some scan
    rw [only l bucket' accepted']

/-- The search by color accepts the only cell of the pair that has it. -/
theorem findEntryInPairByColor_eq {c : ℕ} (tag : (t.cells loc).tag = hashToTag h)
    (color : (t.cells loc).color = c)
    (place : loc.bucket = if (t.cells loc).secondary then
      g.mixBucket (hashToBucket h) (hashToTag h) else hashToBucket h)
    (fresh : ∀ l, l ≠ loc →
      l.bucket = hashToBucket h ∨ l.bucket = g.mixBucket (hashToBucket h) (hashToTag h) →
      (t.cells l).color ≠ c)
    (apart : g.mixBucket (hashToBucket h) (hashToTag h) ≠ hashToBucket h) :
    findEntryInPairByColor t (hashToBucket h) (hashToTag h) c =
      some (t.localCopy loc (hashToBucket h)) := by
  have only : ∀ {b : ℕ} {secondary : Bool},
      b = hashToBucket h ∨ b = g.mixBucket (hashToBucket h) (hashToTag h) → ∀ l : Loc,
      l.bucket = b → matchesColor secondary (hashToTag h) c (t.cells l) = true → l = loc := by
    intro b secondary inPair l bucket accepted
    by_contra ne
    refine fresh l ne (bucket ▸ inPair) ?_
    simp only [matchesColor, Bool.and_eq_true, decide_eq_true_eq] at accepted
    exact accepted.1.2
  rw [findEntryInPairByColor, findEntryInBucketByColor, findEntryInBucketByColor]
  cases hs : (t.cells loc).secondary with
  | false =>
    simp only [hs, Bool.false_eq_true, if_false] at place
    have atPrimary : findInBucket t (hashToBucket h) (matchesColor false (hashToTag h) c) =
        some loc :=
      findInBucket_eq place (by simp [matchesColor, tag, color, hs]) (only (Or.inl rfl))
    rw [atPrimary]
    rfl
  | true =>
    simp only [hs, if_true] at place
    have notPrimary : findInBucket t (hashToBucket h) (matchesColor false (hashToTag h) c) =
        none := by
      cases scan : findInBucket t (hashToBucket h) (matchesColor false (hashToTag h) c) with
      | none => rfl
      | some l =>
        obtain ⟨bucket, accepted⟩ := findInBucket_eq_some scan
        rw [only (Or.inl rfl) l bucket accepted] at bucket
        exact absurd (place.symm.trans bucket) apart
    have atSecondary : findInBucket t (g.mixBucket (hashToBucket h) (hashToTag h))
        (matchesColor true (hashToTag h) c) = some loc :=
      findInBucket_eq place (by simp [matchesColor, tag, color, hs]) (only (Or.inr rfl))
    rw [notPrimary, atSecondary]
    rfl

/-! ## Writing the entry -/

/-- The bucket of a cell of the pair is one of the table. -/
theorem bucket_lt_of_place {secondary : Bool} (hh : h < g.numPairs)
    (place : loc.bucket = if secondary then g.mixBucket (hashToBucket h) (hashToTag h)
      else hashToBucket h) : loc.bucket < g.numBuckets := by
  rw [place]
  split
  · exact g.mixBucket_lt _ (g.hashToBucket_lt hh)
  · exact g.hashToBucket_lt hh

/-- **Writing the entry** into a free cell of its pair. -/
theorem placed_of_write (hh : h < g.numPairs)
    (apart : g.mixBucket (hashToBucket h) (hashToTag h) ≠ hashToBucket h)
    (distinct : t.DistinctColors) (relocated : UpToRelocation t t₁ immovable (hashToBucket h))
    (free : (t₁.cells loc).body.used = false) (puts : t₁.Puts loc entry' t')
    (stored : entry' = { entry with
      secondary := entry'.secondary, color := entry'.color, tag := hashToTag h })
    (place : loc.bucket = if entry'.secondary then g.mixBucket (hashToBucket h) (hashToTag h)
      else hashToBucket h)
    (color : entry'.color = unusedColorInPair t₁ (hashToBucket h)
      (g.mixBucket (hashToBucket h) (hashToTag h))) :
    Placed t t' immovable h entry entry' loc := by
  obtain ⟨valid, unused⟩ := unusedColorInPair_spec t₁ (hashToBucket h)
    (g.mixBucket (hashToBucket h) (hashToTag h))
  rw [← color] at valid unused
  have primaryLt := g.hashToBucket_lt hh
  have inTable := bucket_lt_of_place hh place
  have tag : entry'.tag = hashToTag h := by rw [stored]
  have hash : cellHash g loc entry' = h :=
    (cellHash_eq_iff (tag ▸ hashToTag_lt h) inTable).mpr ⟨tag, primaryLt, tag ▸ place⟩
  have content : entry'.content = newEntry entry h entry'.color := by
    rw [Entry.content, newEntry]
    conv_lhs => rw [stored]
  have used : entry'.body = entry.body := by rw [stored]
  -- all cells of the pair but the new one have another color
  have fresh : ∀ l, l ≠ loc →
      l.bucket = hashToBucket h ∨ l.bucket = g.mixBucket (hashToBucket h) (hashToTag h) →
      (t'.cells l).color ≠ entry'.color := by
    rintro ⟨b, i⟩ ne inPair
    rw [puts.of_ne ne]
    rcases inPair with rfl | rfl
    · exact (unused i).1
    · exact (unused i).2
  have entries : t'.usedEntries = t.usedEntries +
      if entry.body.used then {(h, newEntry entry h entry'.color)} else 0 := by
    have balance := puts.usedEntries inTable
    rw [contribution_of_unused free, add_zero, relocated.usedEntries] at balance
    rw [balance, contribution, hash, content, used]
  refine ⟨⟨t₁, relocated, free, puts.cells⟩, place, stored, valid, fresh, entries, ?_, ?_⟩
  · rw [Trie.distinctColors_iff] at distinct ⊢
    rw [entries, Multiset.map_add]
    split
    · rw [Multiset.map_singleton, distinct.add_iff (Multiset.nodup_singleton _),
        Multiset.disjoint_singleton]
      intro taken
      obtain ⟨p, mem, name⟩ := Multiset.mem_map.mp taken
      rw [← relocated.usedEntries, Trie.usedEntries] at mem
      obtain ⟨l, hl, rfl⟩ := Multiset.mem_map.mp mem
      obtain ⟨inside, inUse⟩ := Finset.mem_filter.mp hl
      simp only [entryName, newEntry, Entry.content, Prod.mk.injEq] at name
      obtain ⟨sameHash, sameTag, sameColor⟩ := name
      have ne : l ≠ loc := by
        rintro rfl
        rw [free] at inUse
        cases inUse
      refine fresh l ne (bucket_of_cellHash (mem_tableCells.mp inside) sameHash sameTag) ?_
      rw [puts.of_ne ne, sameColor]
    · rwa [Multiset.map_zero, add_zero]
  · refine findEntryInPairByColor_eq ?_ ?_ ?_ fresh apart
    · rw [puts.self, tag]
    · rw [puts.self]
    · rw [puts.self]
      exact place

/-- **Removing the entry again** from its cell. -/
theorem unplaced_of_write {secondary : Bool} (hh : h < g.numPairs)
    (relocated : UpToRelocation t t₁ immovable (hashToBucket h))
    (free : (t₁.cells loc).body.used = false) (puts : t₁.Puts loc unusedEntry t')
    (place : loc.bucket = if secondary then g.mixBucket (hashToBucket h) (hashToTag h)
      else hashToBucket h) : Unplaced t t' immovable h := by
  refine ⟨⟨t₁, relocated, fun l => ?_⟩, ?_⟩
  · by_cases at_ : l = loc
    · exact Or.inr (at_ ▸ ⟨free, puts.self⟩)
    · exact Or.inl (puts.of_ne at_)
  · have balance := puts.usedEntries (bucket_lt_of_place hh place)
    rw [contribution_of_unused free, contribution_of_unused (e := unusedEntry) rfl, add_zero,
      add_zero] at balance
    rw [balance, relocated.usedEntries]

/-- The part of `add_entry` after its free cell is found. -/
theorem addEntryAt_places {s : Sys g} {lock flagSecondary : Bool} {result : Loc}
    {alternateBucketLock : BucketReadLock} (hh : h < g.numPairs)
    (apart : g.mixBucket (hashToBucket h) (hashToTag h) ≠ hashToBucket h)
    (primary : entry.secondary = false) (distinct : t.DistinctColors)
    (relocated : UpToRelocation t s.trie immovable (hashToBucket h))
    (free : (s.trie.cells result).body.used = false)
    (place : result.bucket = if flagSecondary then
      g.mixBucket (hashToBucket h) (hashToTag h) else hashToBucket h) :
    (addEntryAt h entry lock result alternateBucketLock flagSecondary).Returns s fun r s' =>
      r.1 = .ok ∧ Placed t s'.trie immovable h entry r.2.1 r.2.2 ∨
        r.1 = .retry ∧ Unplaced t s'.trie immovable h := by
  rw [addEntryAt]
  have enter : ∀ {α : Type} {k : Unit → M g α} {R : α → Sys g → Prop},
      (∀ s₁, Quiet s s₁ → (k ()).Returns s₁ R) →
      (if lock = true then writeLockEntryInLockedBucket result >>= k else k ()).Returns s R := by
    intro α k R rest
    cases lock with
    | false => exact rest s (Quiet.refl s)
    | true => exact (Quietly.writeLockEntryInLockedBucket result s).bind fun _ s₁ _ => rest s₁
  refine enter fun s₁ quiet₁ => ?_
  refine Prog.Returns.bind (Q := fun t s' => t = s₁.trie ∧ s' = s₁) (.read ⟨rfl, rfl⟩) ?_
  rintro t₁ s₁ - ⟨rfl, rfl⟩
  simp only
  generalize hentry : ({ entry with
    secondary := entry.secondary || flagSecondary
    color := unusedColorInPair s₁.trie (hashToBucket h)
      (g.mixBucket (hashToBucket h) (hashToTag h))
    tag := hashToTag h } : Entry) = entry'
  refine Prog.Returns.bind (Q := fun _ s' => s' = s₁.stored (s₁.trie.write result entry'))
    (.update rfl) ?_
  rintro - s₂ - rfl
  have free₁ : (s₁.trie.cells result).body.used = false := by
    rw [quiet₁.cells]
    exact free
  have relocated₁ : UpToRelocation t s₁.trie immovable (hashToBucket h) :=
    relocated.congr quiet₁.cells
  refine (Quietly.readUnlockBucket alternateBucketLock _).bind fun ok s₃ _ quiet₃ => ?_
  cases ok with
  | true =>
    simp only [if_true]
    refine (Quietly.releaseBucketLock _ s₃).bind fun _ s₄ _ quiet₄ => ?_
    have puts : s₁.trie.Puts result entry' s₄.trie :=
      ⟨fun l => by rw [quiet₄.cells, quiet₃.cells]; rfl,
        (quiet₄.isEmpty.trans quiet₃.isEmpty)⟩
    refine .pure (Or.inl ⟨rfl, placed_of_write hh apart distinct relocated₁ free₁ puts ?_ ?_ ?_⟩)
    · rw [← hentry]
    · rw [← hentry, primary, Bool.false_or]
      exact place
    · rw [← hentry]
  | false =>
    simp only [Bool.false_eq_true, if_false]
    refine Prog.Returns.bind (Q := fun _ s' => s' = s₃.stored (s₃.trie.write result unusedEntry))
      (.update rfl) ?_
    rintro - s₄ - rfl
    refine (Quietly.releaseBucketLock _ _).bind fun _ s₅ _ quiet₅ => ?_
    have puts : s₁.trie.Puts result unusedEntry s₅.trie := by
      refine ⟨fun l => ?_, quiet₅.isEmpty.trans quiet₃.isEmpty⟩
      rw [quiet₅.cells]
      by_cases at_ : l = result
      · subst at_
        exact ((s₃.trie.puts_write l unusedEntry).self).trans (if_pos rfl).symm
      · rw [if_neg at_]
        refine ((s₃.trie.puts_write result unusedEntry).of_ne at_).trans ?_
        rw [quiet₃.cells]
        exact (s₁.trie.puts_write result entry').of_ne at_
    exact .pure (Or.inr ⟨rfl, unplaced_of_write hh relocated₁ free₁ puts place⟩)

/-! ## The three routes -/

theorem Permuted.of_cells {t₀ : Trie g} {bucketNum : ℕ} {free : Loc} {sources : List Loc}
    (permuted : Permuted t t' immovable bucketNum free sources) (same : t.cells = t₀.cells) :
    Permuted t₀ t' immovable bucketNum free sources where
  vacant := by rw [← same, permuted.vacant]
  moved i src hi := by
    rw [← same]
    exact permuted.moved i src hi
  output := permuted.output
  entries := by rw [permuted.entries, Trie.usedEntries_congr same]
  others l off := by rw [← same, permuted.others l off]
  fixed l isFixed := by
    rw [← same]
    exact permuted.fixed l isFixed

theorem UpToRelocation.unplaced (same : UpToRelocation t t₁ immovable (hashToBucket h)) :
    Unplaced t t₁ immovable h :=
  ⟨⟨t₁, same, fun _ => Or.inl rfl⟩, same.usedEntries⟩

/-- **`add_entry` adds one entry that a search finds**, on any table in which entries with
the same hash have different colors and whatever the other threads do.  With `SI_RETRY`
and `SI_FAIL` the new entry is in no cell. -/
theorem add_entry_places {s : Sys g} (immovable : Option Loc) (lock : Bool)
    (hh : h < g.numPairs)
    (apart : g.mixBucket (hashToBucket h) (hashToTag h) ≠ hashToBucket h)
    (primary : entry.secondary = false) (distinct : s.trie.DistinctColors) :
    (addEntry h entry immovable lock).Returns s fun r s' =>
      r.1 = .ok ∧ Placed s.trie s'.trie immovable h entry r.2.1 r.2.2 ∨
        (r.1 = .retry ∨ r.1 = .fail) ∧ Unplaced s.trie s'.trie immovable h := by
  have outcome : ∀ {r : InternalStatus × Entry × Loc} {s' : Sys g},
      r.1 = .ok ∧ Placed s.trie s'.trie immovable h entry r.2.1 r.2.2 ∨
        r.1 = .retry ∧ Unplaced s.trie s'.trie immovable h →
      r.1 = .ok ∧ Placed s.trie s'.trie immovable h entry r.2.1 r.2.2 ∨
        (r.1 = .retry ∨ r.1 = .fail) ∧ Unplaced s.trie s'.trie immovable h :=
    Or.imp_right (And.imp_left Or.inl)
  have unchanged : ∀ {s' : Sys g}, s'.trie.cells = s.trie.cells →
      Unplaced s.trie s'.trie immovable h := fun same => UpToRelocation.unplaced (Or.inl same)
  rw [addEntry]
  refine Prog.Returns.bind (Q := fun t s' => t = s.trie ∧ s' = s) (.read ⟨rfl, rfl⟩) ?_
  rintro t s - ⟨rfl, rfl⟩
  simp only
  cases primaryFree : findFreeCellInBucket s.trie (hashToBucket h) with
  | some result =>
    obtain ⟨bucket, free⟩ := findFreeCellInBucket_eq_some primaryFree
    simp only
    refine (Quietly.upgradeBucketLock _ s).bind fun ret s₁ _ quiet => ?_
    cases ret with
    | ok =>
      exact (addEntryAt_places hh apart primary distinct (Or.inl quiet.cells)
        (by rw [quiet.cells]; exact free) bucket).weaken fun _ _ _ => outcome
    | retry => exact .pure (Or.inr ⟨Or.inl rfl, unchanged quiet.cells⟩)
    | exist => exact .pure (Or.inr ⟨Or.inl rfl, unchanged quiet.cells⟩)
    | fail => exact .pure (Or.inr ⟨Or.inl rfl, unchanged quiet.cells⟩)
  | none =>
    simp only
    cases secondaryFree : findFreeCellInBucket s.trie
        (g.mixBucket (hashToBucket h) (hashToTag h)) with
    | some result =>
      obtain ⟨bucket, free⟩ := findFreeCellInBucket_eq_some secondaryFree
      simp only
      refine (Quietly.upgradeBucketLock _ s).bind fun ret s₁ _ quiet => ?_
      cases ret with
      | ok =>
        exact (addEntryAt_places hh apart primary distinct (Or.inl quiet.cells)
          (by rw [quiet.cells]; exact free) bucket).weaken fun _ _ _ => outcome
      | retry => exact .pure (Or.inr ⟨Or.inl rfl, unchanged quiet.cells⟩)
      | exist => exact .pure (Or.inr ⟨Or.inl rfl, unchanged quiet.cells⟩)
      | fail => exact .pure (Or.inr ⟨Or.inl rfl, unchanged quiet.cells⟩)
    | none =>
      simp only
      refine (Quietly.upgradeBucketLock _ s).bind fun ret s₁ _ quiet => ?_
      cases ret with
      | retry => exact .pure (Or.inr ⟨Or.inl rfl, unchanged quiet.cells⟩)
      | exist => exact .pure (Or.inr ⟨Or.inl rfl, unchanged quiet.cells⟩)
      | fail => exact .pure (Or.inr ⟨Or.inl rfl, unchanged quiet.cells⟩)
      | ok =>
        -- both buckets are full: room is made in the primary one
        simp only
        have full : BucketFull s₁.trie (hashToBucket h) := by
          intro i
          rw [quiet.cells]
          exact findFreeCellInBucket_eq_none primaryFree i
        refine (relocateEntry_permuted immovable full (g.hashToBucket_lt hh)).bind ?_
        rintro ⟨ret, sources⟩ s₂ - moved
        obtain ⟨rfl, free, permuted⟩ | ⟨rfl, same⟩ | ⟨rfl, same, -⟩ := moved
        · simp only [if_true]
          refine Prog.Returns.bind (Q := fun _ s' => s'.trie = s₂.trie) (.update rfl) ?_
          intro _ s₃ _ h₃
          have permuted := (permuted.of_cells quiet.cells).congr (congrArg Trie.cells h₃)
          obtain ⟨output, isLast, bucket, freed, -⟩ := permuted.output
          have last : sources.getLastD default = output := by
            rw [List.getLastD_eq_getLast?, isLast, Option.getD_some]
          rw [last]
          exact (addEntryAt_places hh apart primary distinct (Or.inr ⟨free, sources, permuted⟩)
            freed (show _ = if false = true then _ else _ from bucket)).weaken fun _ _ _ => outcome
        all_goals
          simp only [reduceCtorEq, if_false]
          refine (Quietly.releaseBucketLock _ s₂).bind fun _ s₃ _ quiet₃ => ?_
          refine .pure (Or.inr ⟨?_, unchanged (quiet₃.cells.trans (same.trans quiet.cells))⟩)
        · exact Or.inl rfl
        · exact Or.inr rfl

/-- A table in which the buckets 20 and 43 are full, with entries that have tag 0. -/
def crowdedTrie : Trie smallGeometry where
  cells loc :=
    if loc.bucket = 20 ∨ loc.bucket = 43 then
      ⟨0, false, false, loc.cell, 0, 1, .leaf default default⟩
    else unusedEntry
  seq _ := 0
  writeLock _ := false
  isEmpty := false

theorem crowdedTrie_distinctColors : crowdedTrie.DistinctColors := by
  have filled : ∀ l, (crowdedTrie.cells l).body.used = true →
      crowdedTrie.cells l = ⟨0, false, false, l.cell, 0, 1, .leaf default default⟩ := by
    intro l used
    unfold crowdedTrie at used ⊢
    dsimp only at used ⊢
    split at used
    · next full => rw [if_pos full]
    · cases used
  intro l l' _ _ used used' hash _ color
  rw [filled l used, filled l' used'] at hash color
  have bucket : l.bucket = l'.bucket := by simpa [cellHash] using hash
  have cell : l.cell = l'.cell := Fin.ext color
  cases l
  cases l'
  congr

/-- Both buckets of the pair of the hash are full: an entry of bucket 20 is moved to bucket 5. -/
theorem add_entry_places_crowded :
    (addEntry 321 ⟨0, false, false, 0, 0, 1, .leaf default default⟩ none true).Returns
      (Sys.init crowdedTrie alone) fun r s' =>
        r.1 = .ok ∧ r.2.2.bucket = 20 ∧ r.2.1.color = 4 ∧
          Placed crowdedTrie s'.trie none 321 ⟨0, false, false, 0, 0, 1, .leaf default default⟩
            r.2.1 r.2.2 := by
  obtain ⟨r, ret, outcome⟩ := @add_entry_places smallGeometry 321
    ⟨0, false, false, 0, 0, 1, .leaf default default⟩ (Sys.init crowdedTrie alone) none true
    (by decide) (by decide) rfl crowdedTrie_distinctColors
  have result : ((addEntry 321 ⟨0, false, false, 0, 0, 1, .leaf default default⟩ none true).run
      (Sys.init crowdedTrie alone)).1.map (fun r => (r.1, r.2.2.bucket, r.2.1.color)) =
        some (.ok, 20, 4) := by decide +kernel
  rw [ret, Option.map_some, Option.some_inj, Prod.mk.injEq, Prod.mk.injEq] at result
  obtain ⟨ok, bucket, color⟩ := result
  rcases outcome with ⟨-, placed⟩ | ⟨retry | fail, -⟩
  · exact ⟨r, ret, ok, bucket, color, placed⟩
  · rw [ok] at retry
    cases retry
  · rw [ok] at fail
    cases fail
end CuckooTrie
