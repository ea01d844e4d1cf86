import CuckooTrie.Geometry

/-!
# Allocating a trie

`ct_alloc` with the 64-bit arithmetic it computes its sizes in.  Rounding the number of
cells up to whole buckets wraps at the end of the range, and nothing keeps the number of
buckets away from zero or inside the 32 bits a locator has for it:
`ct_alloc_usable_iff` says for which numbers of cells the trie can be used, and
`ctAlloc_geometry` that it has the `Geometry` of the other modules then.  `ct_free`
computes the length of the mapping once more, in another way (`ct_free_unmaps`).
-/

namespace CuckooTrie

/-- Unsigned 64-bit arithmetic. -/
def wrap64 (x : ℕ) : ℕ := x % 2 ^ 64

/-- `HUGEPAGE_SIZE`. -/
abbrev hugepageSize : ℕ := 2 ^ 21

/-- `sizeof(ct_bucket)`. -/
abbrev bucketBytes : ℕ := 64

/-- The fields `ct_alloc` fills in, and the length it passes to `mmap_hugepage`. -/
structure Allocation where
  mappedBytes : ℕ
  numBuckets : ℕ
  numPairs : ℕ
  numShuffleBlocks : ℕ
  bucketMixTable : ℕ → ℕ

/-- `init_bucket_mix_table`; `none` is its division by zero. -/
def initBucketMixTable (numBuckets : ℕ) : Option (ℕ → ℕ) :=
  if numBuckets = 0 then none else some fun tag => randUint64 tag % numBuckets

/-- `num_buckets` as `ct_alloc` computes it. -/
def allocBuckets (numCells : ℕ) : ℕ :=
  let numBuckets := wrap64 (numCells + bucketSize - 1) / bucketSize
  wrap64 (wrap64 (numBuckets + fanout * 2 - 1) / (fanout * 2) * (fanout * 2))

/-- `ct_alloc`, when `mmap` and `malloc` succeed. -/
def ctAlloc (numCells : ℕ) : Option Allocation :=
  let numBuckets := allocBuckets numCells
  let bucketsToAlloc := wrap64 (numBuckets + 1)
  let bucketsPages := wrap64 (wrap64 (bucketsToAlloc * bucketBytes) / hugepageSize + 1)
  let numPairs := wrap64 (numBuckets * 2 ^ tagBits)
  (initBucketMixTable numBuckets).map fun bucketMixTable =>
    { mappedBytes := wrap64 (bucketsPages * hugepageSize)
      numBuckets := numBuckets
      numPairs := numPairs
      numShuffleBlocks := numPairs >>> bitsPerSymbol
      bucketMixTable := bucketMixTable }

/-- **A usable trie** of at least so many cells: the hashes are a whole number of blocks of
the bucket numbers, and each bucket number fits a locator and is not its mark for the
end of the list. -/
structure Allocation.Usable (a : Allocation) (numCells : ℕ) : Prop where
  cells : numCells ≤ a.numBuckets * bucketSize
  positive : 0 < a.numBuckets
  aligned : 2 * fanout ∣ a.numBuckets
  pairs : a.numPairs = a.numBuckets * 2 ^ tagBits
  shuffleBlocks : a.numShuffleBlocks * fanout = a.numPairs
  mix : ∀ tag < 2 ^ tagBits, a.bucketMixTable tag < a.numBuckets
  locator : ∀ b < a.numBuckets, b < 2 ^ 32 ∧ b ≠ endOfList

/-- The arithmetic does not wrap before the last three numbers of cells. -/
theorem allocBuckets_eq {numCells : ℕ} (small : numCells + 3 < 2 ^ 64) :
    allocBuckets numCells = bucketsForCells numCells := by
  unfold allocBuckets bucketsForCells wrap64
  simp only [bucketSize, fanout]
  omega

/-- For the last three numbers of cells the rounding wraps to zero, as it yields zero for
no cells at all. -/
theorem allocBuckets_eq_zero {numCells : ℕ} (small : numCells < 2 ^ 64)
    (ends : numCells = 0 ∨ 2 ^ 64 ≤ numCells + 3) : allocBuckets numCells = 0 := by
  unfold allocBuckets wrap64
  simp only [bucketSize, fanout]
  omega

theorem le_bucketsForCells (numCells : ℕ) : numCells ≤ bucketsForCells numCells * bucketSize := by
  unfold bucketsForCells
  simp only [bucketSize, fanout]
  omega

theorem dvd_bucketsForCells (numCells : ℕ) : 2 * fanout ∣ bucketsForCells numCells :=
  Dvd.intro_left _ (by rw [bucketsForCells, Nat.mul_comm 2 fanout])

/-- The bucket numbers fit a locator up to the greatest multiple of 64 below `2 ^ 32`. -/
theorem bucketsForCells_le_iff (numCells : ℕ) :
    bucketsForCells numCells ≤ endOfList ↔ numCells ≤ 2 ^ 34 - 256 := by
  unfold bucketsForCells
  simp only [bucketSize, fanout, endOfList]
  omega

/-- Without buckets there is no mixing table. -/
theorem ctAlloc_eq_none {numCells : ℕ} (zero : allocBuckets numCells = 0) :
    ctAlloc numCells = none := by
  unfold ctAlloc initBucketMixTable
  simp only [zero, if_true, Option.map_none]

/-- With buckets `ct_alloc` returns. -/
theorem ctAlloc_eq_some {numCells : ℕ} (positive : 0 < allocBuckets numCells) :
    ∃ a, ctAlloc numCells = some a ∧ a.numBuckets = allocBuckets numCells ∧
      a.numPairs = wrap64 (allocBuckets numCells * 2 ^ tagBits) ∧
      a.numShuffleBlocks = a.numPairs >>> bitsPerSymbol ∧
      a.bucketMixTable = fun tag => randUint64 tag % allocBuckets numCells := by
  unfold ctAlloc initBucketMixTable
  simp only [if_neg positive.ne', Option.map_some]
  exact ⟨_, rfl, rfl, rfl, rfl, rfl⟩

/-- **`ct_alloc` yields a usable trie** for every number of cells from one to the
`2 ^ 34 - 256` whose buckets a locator can name.  For no cells and for the last three
64-bit numbers it divides by zero; in between there are bucket numbers that do not fit a
locator. -/
theorem ct_alloc_usable_iff (numCells : ℕ) (small : numCells < 2 ^ 64) :
    (∃ a, ctAlloc numCells = some a ∧ a.Usable numCells) ↔
      1 ≤ numCells ∧ numCells ≤ 2 ^ 34 - 256 := by
  constructor
  · rintro ⟨a, alloc, usable⟩
    have inside : ¬ (numCells = 0 ∨ 2 ^ 64 ≤ numCells + 3) := fun ends => by
      rw [ctAlloc_eq_none (allocBuckets_eq_zero small ends)] at alloc
      cases alloc
    push Not at inside
    have buckets := allocBuckets_eq inside.2
    have positive : 0 < allocBuckets numCells := by
      rw [buckets]
      exact bucketsForCells_pos (Nat.one_le_iff_ne_zero.mpr inside.1)
    obtain ⟨a', alloc', num, -⟩ := ctAlloc_eq_some positive
    obtain rfl : a = a' := Option.some.inj (alloc.symm.trans alloc')
    refine ⟨Nat.one_le_iff_ne_zero.mpr inside.1, (bucketsForCells_le_iff numCells).mp ?_⟩
    rw [← buckets, ← num]
    by_contra many
    exact (usable.locator endOfList (not_le.mp many)).2 rfl
  · rintro ⟨some, few⟩
    have buckets : allocBuckets numCells = bucketsForCells numCells := allocBuckets_eq (by omega)
    have positive := bucketsForCells_pos some
    have fits := (bucketsForCells_le_iff numCells).mpr few
    obtain ⟨a, alloc, num, pairs, blocks, mix⟩ := ctAlloc_eq_some (buckets ▸ positive)
    rw [buckets] at num pairs mix
    obtain ⟨k, hk⟩ := dvd_bucketsForCells numCells
    have bound : bucketsForCells numCells ≤ 2 ^ 32 - 1 := fits
    have unwrapped : wrap64 (bucketsForCells numCells * 2 ^ tagBits) =
        bucketsForCells numCells * 2 ^ tagBits := Nat.mod_eq_of_lt (by
      simp only [tagBits]
      omega)
    rw [unwrapped] at pairs
    refine ⟨a, alloc, ?_⟩
    constructor
    · rw [num]
      exact le_bucketsForCells numCells
    · rw [num]
      exact positive
    · rw [num]
      exact dvd_bucketsForCells numCells
    · rw [num]
      exact pairs
    · rw [blocks, pairs, Nat.shiftRight_eq_div_pow, hk]
      simp only [fanout, tagBits, bitsPerSymbol]
      omega
    · intro tag _
      rw [num, mix]
      exact Nat.mod_lt _ positive
    · intro b inTable
      rw [num] at inTable
      have below : b < 2 ^ 32 - 1 := lt_of_lt_of_le inTable bound
      exact ⟨by omega, below.ne⟩

/-- A trie for one cell. -/
theorem ct_alloc_usable_one : ∃ a, ctAlloc 1 = some a ∧ a.Usable 1 :=
  (ct_alloc_usable_iff 1 (by decide)).mpr ⟨le_rfl, by decide⟩

/-- A trie for no cells has no buckets, and the mixing table divides by their number. -/
theorem ct_alloc_no_cells :
    ¬ ∀ numCells < 2 ^ 64, ∃ a, ctAlloc numCells = some a ∧ a.Usable numCells := by
  intro usable
  obtain ⟨a, alloc, -⟩ := usable 0 (by decide)
  rw [ctAlloc_eq_none (allocBuckets_eq_zero (by decide) (Or.inl rfl))] at alloc
  cases alloc

/-- **The trie `ct_alloc` returns has the geometry** `Geometry.ctAlloc`. -/
theorem ctAlloc_geometry {numCells : ℕ} (positive : 1 ≤ numCells)
    (fits : bucketsForCells numCells < 2 ^ 32) :
    ∃ a, ctAlloc numCells = some a ∧
      a.numBuckets = (Geometry.ctAlloc numCells positive fits).numBuckets ∧
      a.numPairs = (Geometry.ctAlloc numCells positive fits).numPairs ∧
      a.numShuffleBlocks = (Geometry.ctAlloc numCells positive fits).numShuffleBlocks ∧
      a.bucketMixTable = (Geometry.ctAlloc numCells positive fits).bucketMixTable := by
  have few := le_bucketsForCells numCells
  simp only [bucketSize] at few
  have buckets : allocBuckets numCells = bucketsForCells numCells := allocBuckets_eq (by omega)
  have buckets_pos := bucketsForCells_pos positive
  obtain ⟨a, alloc, num, pairs, blocks, mix⟩ := ctAlloc_eq_some (buckets ▸ buckets_pos)
  rw [buckets] at num pairs mix
  have unwrapped : a.numPairs = (Geometry.ctAlloc numCells positive fits).numPairs := by
    rw [pairs]
    refine Nat.mod_eq_of_lt ?_
    simp only [tagBits]
    omega
  refine ⟨a, alloc, num, unwrapped, ?_, mix⟩
  rw [blocks, unwrapped, Geometry.numShuffleBlocks]

/-! ## The mapping -/

/-- The length of the mapping for some buckets, in whole huge pages. -/
def mappingBytes (buckets : ℕ) : ℕ :=
  let bucketsPages := wrap64 (wrap64 (buckets * bucketBytes) / hugepageSize + 1)
  wrap64 (bucketsPages * hugepageSize)

/-- The length `ct_alloc` passes to `mmap`, before it fills in the mixing table.  It counts
the bucket of the list head. -/
def allocMappedBytes (numCells : ℕ) : ℕ := mappingBytes (wrap64 (allocBuckets numCells + 1))

/-- The length `ct_free` passes to `munmap`. -/
def ctFree (trie : Allocation) : ℕ := mappingBytes trie.numBuckets

/-- Whatever wraps, the number of buckets is a multiple of 64 and the next one is a number. -/
theorem allocBuckets_mod (numCells : ℕ) :
    allocBuckets numCells % 64 = 0 ∧ allocBuckets numCells + 64 ≤ 2 ^ 64 := by
  unfold allocBuckets wrap64
  simp only [fanout]
  omega

/-- **One more bucket than a multiple of 64** takes no other page. -/
theorem mappingBytes_succ {buckets : ℕ} (whole : buckets % 64 = 0) :
    mappingBytes (buckets + 1) = mappingBytes buckets := by
  unfold mappingBytes wrap64
  simp only [bucketBytes, hugepageSize]
  congr 4
  omega

/-- A mapping whose length does not wrap has room for its buckets. -/
theorem le_mappingBytes {buckets : ℕ}
    (exact : (buckets * bucketBytes / hugepageSize + 1) * hugepageSize < 2 ^ 64) :
    buckets * bucketBytes ≤ mappingBytes buckets := by
  unfold mappingBytes wrap64
  simp only [bucketBytes, hugepageSize] at exact ⊢
  omega

theorem ctAlloc_mappedBytes {numCells : ℕ} {trie : Allocation}
    (alloc : ctAlloc numCells = some trie) :
    trie.mappedBytes = allocMappedBytes numCells ∧ trie.numBuckets = allocBuckets numCells := by
  obtain ⟨table, -, rfl⟩ := Option.map_eq_some_iff.mp alloc
  exact ⟨rfl, rfl⟩

/-- **`ct_free` unmaps what `ct_alloc` mapped**, for every number of cells: the one bucket
that only `ct_alloc` counts never needs another page, also where the arithmetic wraps.  If
the length does not wrap, all buckets and the one of the list head are mapped. -/
theorem ct_free_unmaps (numCells : ℕ) :
    allocMappedBytes numCells = mappingBytes (allocBuckets numCells) ∧
      (∀ trie, ctAlloc numCells = some trie →
        trie.mappedBytes = allocMappedBytes numCells ∧ ctFree trie = trie.mappedBytes) ∧
      (((allocBuckets numCells + 1) * bucketBytes / hugepageSize + 1) * hugepageSize < 2 ^ 64 →
        ∀ bucket ≤ allocBuckets numCells, (bucket + 1) * bucketBytes ≤ allocMappedBytes numCells) := by
  obtain ⟨whole, small⟩ := allocBuckets_mod numCells
  have next : wrap64 (allocBuckets numCells + 1) = allocBuckets numCells + 1 :=
    Nat.mod_eq_of_lt (by omega)
  have same : allocMappedBytes numCells = mappingBytes (allocBuckets numCells) := by
    rw [allocMappedBytes, next, mappingBytes_succ whole]
  refine ⟨same, fun trie alloc => ?_, fun exact bucket inTable => ?_⟩
  · obtain ⟨mapped, buckets⟩ := ctAlloc_mappedBytes alloc
    rw [ctFree, mapped, buckets, same]
    exact ⟨rfl, rfl⟩
  · rw [allocMappedBytes, next]
    exact (Nat.mul_le_mul_right _ (by omega)).trans (le_mappingBytes exact)

end CuckooTrie
