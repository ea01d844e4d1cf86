import CuckooTrie.Config

/-!
# The geometry of the table

The number of buckets and the mixing table of a trie, with what `ct_alloc`
guarantees about them carried as fields, and the hash arithmetic over it:
`mix_bucket`, `unmix_bucket`, `accumulate_hash`, `hash_to_bucket`, `hash_to_tag`.
-/

namespace CuckooTrie

/-- The fields of `struct cuckoo_trie` that never change after `ct_alloc`, with
the facts `ct_alloc` establishes about them: the number of buckets is a positive
multiple of `2 * FANOUT` that fits a locator, and the mixing values are bucket
numbers. -/
structure Geometry where
  numBuckets : ℕ
  bucketMixTable : ℕ → ℕ
  numBuckets_pos : 0 < numBuckets
  fanout_dvd : 2 * fanout ∣ numBuckets
  numBuckets_lt : numBuckets < 2 ^ 32
  mix_lt : ∀ tag, bucketMixTable tag < numBuckets

namespace Geometry

variable (g : Geometry)

/-- `num_pairs`. -/
def numPairs : ℕ := g.numBuckets * 2 ^ tagBits

/-- `num_shuffle_blocks`. -/
def numShuffleBlocks : ℕ := g.numPairs >>> bitsPerSymbol

/-- `mix_bucket`: the secondary bucket number given the primary. -/
def mixBucket (bucketNum tag : ℕ) : ℕ :=
  let result : ℤ := (bucketNum : ℤ) - g.bucketMixTable tag
  (if result < 0 then result + g.numBuckets else result).toNat

/-- `unmix_bucket`: the primary bucket number given the secondary. -/
def unmixBucket (bucketNum tag : ℕ) : ℕ :=
  let result := bucketNum + g.bucketMixTable tag
  if result ≥ g.numBuckets then result - g.numBuckets else result

/-- `accumulate_hash`: the hash of a prefix extended by one symbol. -/
def accumulateHash (x symbol : ℕ) : ℕ :=
  let x := x ^^^ symbol
  let block := x >>> bitsPerSymbol
  let depth := x &&& (fanout - 1)
  depth * g.numShuffleBlocks + block

/-- The hash of a whole prefix: `accumulate_hash` folded over its symbols. -/
def prefixHash (symbols : List ℕ) : ℕ :=
  symbols.foldl g.accumulateHash hashStartValue

end Geometry

/-- `hash_to_bucket`. -/
def hashToBucket (x : ℕ) : ℕ := x >>> tagBits

/-- `hash_to_tag`. -/
def hashToTag (x : ℕ) : ℕ := x &&& (2 ^ tagBits - 1)

theorem hashToBucket_eq (x : ℕ) : hashToBucket x = x / 16 := Nat.shiftRight_eq_div_pow x 4

theorem hashToTag_eq (x : ℕ) : hashToTag x = x % 16 := Nat.and_two_pow_sub_one_eq_mod x 4

theorem hashToTag_lt (x : ℕ) : hashToTag x < 16 := by
  rw [hashToTag_eq]
  omega

/-- A hash is its bucket and its tag. -/
theorem bucket_tag_eq (x : ℕ) : hashToBucket x * 16 + hashToTag x = x := by
  rw [hashToBucket_eq, hashToTag_eq]
  omega

theorem hashToBucket_of_pair {b tag : ℕ} (h : tag < 16) : hashToBucket (b * 16 + tag) = b := by
  rw [hashToBucket_eq]
  omega

theorem hashToTag_of_pair {b tag : ℕ} (h : tag < 16) : hashToTag (b * 16 + tag) = tag := by
  rw [hashToTag_eq]
  omega

namespace Geometry

variable (g : Geometry)

theorem numPairs_eq : g.numPairs = g.numBuckets * 16 := rfl

theorem numShuffleBlocks_eq : g.numShuffleBlocks = g.numPairs / 32 :=
  Nat.shiftRight_eq_div_pow g.numPairs 5

/-- The number of pairs is a multiple of 1024. -/
theorem dvd_numPairs : 1024 ∣ g.numPairs := by
  obtain ⟨k, hk⟩ := g.fanout_dvd
  exact ⟨k, by rw [numPairs_eq, hk]; ring⟩

theorem numPairs_pos : 0 < g.numPairs := Nat.mul_pos g.numBuckets_pos (by decide)

theorem hashToBucket_lt {x : ℕ} (h : x < g.numPairs) : hashToBucket x < g.numBuckets := by
  rw [hashToBucket_eq]
  rw [numPairs_eq] at h
  omega

/-- A bucket number never is the mark that ends the list of leaves. -/
theorem hashToBucket_ne_endOfList {x : ℕ} (h : x < g.numPairs) : hashToBucket x ≠ endOfList := by
  have small := g.hashToBucket_lt h
  have fits := g.numBuckets_lt
  change _ ≠ 2 ^ 32 - 1
  omega

/-! ### Mixing a bucket number -/

theorem mixBucket_eq (b tag : ℕ) :
    g.mixBucket b tag =
      if b < g.bucketMixTable tag then b + g.numBuckets - g.bucketMixTable tag
      else b - g.bucketMixTable tag := by
  have mix := g.mix_lt tag
  simp only [mixBucket]
  split_ifs <;> omega

theorem unmixBucket_eq (b tag : ℕ) :
    g.unmixBucket b tag =
      if b + g.bucketMixTable tag ≥ g.numBuckets then b + g.bucketMixTable tag - g.numBuckets
      else b + g.bucketMixTable tag := rfl

theorem mixBucket_lt {b : ℕ} (tag : ℕ) (h : b < g.numBuckets) :
    g.mixBucket b tag < g.numBuckets := by
  have mix := g.mix_lt tag
  rw [mixBucket_eq]
  split <;> omega

theorem unmixBucket_lt {b : ℕ} (tag : ℕ) (h : b < g.numBuckets) :
    g.unmixBucket b tag < g.numBuckets := by
  have mix := g.mix_lt tag
  rw [unmixBucket_eq]
  split <;> omega

theorem unmix_mix {b : ℕ} (tag : ℕ) (h : b < g.numBuckets) :
    g.unmixBucket (g.mixBucket b tag) tag = b := by
  have mix := g.mix_lt tag
  rw [unmixBucket_eq, mixBucket_eq]
  split_ifs <;> omega

theorem mix_unmix {b : ℕ} (tag : ℕ) (h : b < g.numBuckets) :
    g.mixBucket (g.unmixBucket b tag) tag = b := by
  have mix := g.mix_lt tag
  rw [mixBucket_eq, unmixBucket_eq]
  split_ifs <;> omega

/-! ### Accumulating a hash -/

/-- A symbol changes only the lowest six bits of a hash. -/
theorem xor_div {x symbol : ℕ} (h : symbol ≤ fanout) : (x ^^^ symbol) / 64 = x / 64 := by
  have high : symbol / 2 ^ 6 = 0 := Nat.div_eq_of_lt (lt_of_le_of_lt h (by decide))
  rw [show (64 : ℕ) = 2 ^ 6 from rfl, Nat.xor_div_two_pow, high, Nat.xor_zero]

theorem xor_lt {x symbol : ℕ} (hx : x < g.numPairs) (h : symbol ≤ fanout) :
    x ^^^ symbol < g.numPairs := by
  have high := xor_div (x := x) h
  obtain ⟨k, hk⟩ := g.dvd_numPairs
  omega

/-- `accumulate_hash` as arithmetic. -/
theorem accumulateHash_eq (x symbol : ℕ) :
    g.accumulateHash x symbol =
      (x ^^^ symbol) % 32 * (g.numPairs / 32) + (x ^^^ symbol) / 32 := by
  have depth : (x ^^^ symbol) &&& (fanout - 1) = (x ^^^ symbol) % 32 :=
    Nat.and_two_pow_sub_one_eq_mod _ 5
  have block : (x ^^^ symbol) >>> bitsPerSymbol = (x ^^^ symbol) / 32 :=
    Nat.shiftRight_eq_div_pow _ 5
  simp only [accumulateHash, numShuffleBlocks_eq, depth, block]

theorem accumulateHash_lt {x symbol : ℕ} (hx : x < g.numPairs) (h : symbol ≤ fanout) :
    g.accumulateHash x symbol < g.numPairs := by
  have hy := g.xor_lt hx h
  obtain ⟨k, hk⟩ := g.dvd_numPairs
  rw [accumulateHash_eq]
  generalize x ^^^ symbol = y at hy
  have blocks : g.numPairs / 32 = 32 * k := by omega
  have top : y % 32 * (32 * k) ≤ 31 * (32 * k) := Nat.mul_le_mul_right _ (by omega)
  rw [blocks]
  omega

/-- **The hash forgets nothing**: for one symbol, `accumulate_hash` is injective. -/
theorem accumulateHash_inj {x y symbol : ℕ} (hx : x < g.numPairs) (hy : y < g.numPairs)
    (h : symbol ≤ fanout) (same : g.accumulateHash x symbol = g.accumulateHash y symbol) :
    x = y := by
  have hx' := g.xor_lt hx h
  have hy' := g.xor_lt hy h
  obtain ⟨k, hk⟩ := g.dvd_numPairs
  rw [accumulateHash_eq, accumulateHash_eq, show g.numPairs / 32 = 32 * k by omega] at same
  have equal : x ^^^ symbol = y ^^^ symbol := by
    generalize x ^^^ symbol = x' at *
    generalize y ^^^ symbol = y' at *
    have positive : 0 < 32 * k := by omega
    -- the block is the remainder, and then the depth is the quotient
    have blocks := congrArg (· % (32 * k)) same
    simp only [Nat.mul_add_mod_self_right] at blocks
    rw [Nat.mod_eq_of_lt (by omega), Nat.mod_eq_of_lt (by omega)] at blocks
    rw [blocks] at same
    have depths := Nat.eq_of_mul_eq_mul_right positive (Nat.add_right_cancel same)
    omega
  rw [← Nat.xor_xor_cancel_right x symbol, equal, Nat.xor_xor_cancel_right]

/-- The hash determines the symbol too, given the hash it was accumulated to. -/
theorem accumulateHash_inj_symbol {x s s' : ℕ} (hx : x < g.numPairs) (h : s ≤ fanout)
    (h' : s' ≤ fanout) (same : g.accumulateHash x s = g.accumulateHash x s') : s = s' := by
  have shift : ∀ s, g.accumulateHash x s = g.accumulateHash (x ^^^ s) 0 := fun s => by
    simp only [accumulateHash, Nat.xor_zero]
  rw [shift, shift] at same
  have equal := g.accumulateHash_inj (g.xor_lt hx h) (g.xor_lt hx h') (Nat.zero_le _) same
  rw [← Nat.xor_xor_cancel_left x s, equal, Nat.xor_xor_cancel_left]

/-- **For one symbol, `accumulate_hash` is a bijection** of the pair numbers. -/
theorem accumulateHash_bijOn {symbol : ℕ} (h : symbol ≤ fanout) :
    Set.BijOn (fun x => g.accumulateHash x symbol) (Set.Iio g.numPairs) (Set.Iio g.numPairs) := by
  refine ⟨fun x hx => g.accumulateHash_lt hx h,
    fun x hx y hy same => g.accumulateHash_inj hx hy h same, fun z hz => ?_⟩
  obtain ⟨k, hk⟩ := g.dvd_numPairs
  have blocks : g.numPairs / 32 = 32 * k := by omega
  have positive : 0 < 32 * k := by
    have := g.numPairs_pos
    omega
  have hz' : z < 32 * k * 32 := by
    have : z < g.numPairs := hz
    omega
  -- the depth becomes the lowest five bits again
  have depth : z / (32 * k) < 32 := Nat.div_lt_of_lt_mul hz'
  have block := Nat.mod_lt z positive
  have whole := Nat.div_add_mod' z (32 * k)
  generalize z / (32 * k) = d at depth whole
  generalize z % (32 * k) = a at block whole
  have inside : 32 * a + d < g.numPairs := by omega
  refine ⟨(32 * a + d) ^^^ symbol, g.xor_lt inside h, ?_⟩
  simp only
  rw [accumulateHash_eq, Nat.xor_xor_cancel_right, blocks,
    show (32 * a + d) % 32 = d by omega, show (32 * a + d) / 32 = a by omega]
  exact whole

@[simp] theorem prefixHash_nil : g.prefixHash [] = 0 := rfl

theorem prefixHash_append (p q : List ℕ) :
    g.prefixHash (p ++ q) = q.foldl g.accumulateHash (g.prefixHash p) := List.foldl_append

theorem prefixHash_concat (p : List ℕ) (symbol : ℕ) :
    g.prefixHash (p ++ [symbol]) = g.accumulateHash (g.prefixHash p) symbol := by
  rw [prefixHash_append]
  rfl

theorem prefixHash_lt {p : List ℕ} (h : ∀ s ∈ p, s ≤ fanout) : g.prefixHash p < g.numPairs := by
  induction p using List.reverseRecOn with
  | nil => exact g.numPairs_pos
  | append_singleton p s ih =>
    rw [prefixHash_concat]
    exact g.accumulateHash_lt (ih fun s' mem => h s' (List.mem_append_left _ mem))
      (h s (List.mem_append_right _ (List.mem_singleton_self s)))

end Geometry

/-! ### The geometry of a new trie -/

/-- The state of `rand_dword` after a number of calls since `rand_seed(1)`. -/
def randState : ℕ → ℕ
  | 0 => 1
  | calls + 1 => (6364136223846793005 * randState calls + 1) % 2 ^ 64

/-- The `i`-th value of `rand_uint64` since `rand_seed(1)`. -/
def randUint64 (i : ℕ) : ℕ := randState (2 * i + 1) >>> 32 <<< 32 + randState (2 * i + 2) >>> 32

/-- The number of buckets `ct_alloc` allots to a number of cells. -/
def bucketsForCells (numCells : ℕ) : ℕ :=
  ((numCells + bucketSize - 1) / bucketSize + fanout * 2 - 1) / (fanout * 2) * (fanout * 2)

theorem bucketsForCells_pos {numCells : ℕ} (positive : 1 ≤ numCells) :
    0 < bucketsForCells numCells := by
  simp only [bucketsForCells, bucketSize, fanout]
  omega

/-- The geometry of the trie `ct_alloc` returns; the mixing values are those of
`init_bucket_mix_table`.  Bucket numbers have to fit the 32 bits a locator has for them. -/
def Geometry.ctAlloc (numCells : ℕ) (positive : 1 ≤ numCells)
    (fits : bucketsForCells numCells < 2 ^ 32) : Geometry where
  numBuckets := bucketsForCells numCells
  bucketMixTable tag := randUint64 tag % bucketsForCells numCells
  numBuckets_pos := bucketsForCells_pos positive
  fanout_dvd := Dvd.intro_left _ (by rw [bucketsForCells, Nat.mul_comm 2 fanout])
  numBuckets_lt := fits
  mix_lt _ := Nat.mod_lt _ (bucketsForCells_pos positive)

/-- A small table. -/
abbrev smallGeometry : Geometry := .ctAlloc 256 (by decide) (by decide)

end CuckooTrie
