import CuckooTrie.PackedBucket
import CuckooTrie.StoreWrites

/-!
# The color of a new entry, on packed buckets

`unused_color_in_pair` of `main.c` and its AVX-512 and AVX2 variants of
`main_vectorized.c`.  All three compute the same set of colors, with the cells in
different orders, and so return the same color (`unused_color_in_pair_agree`); that color
is a valid one that no cell of the two buckets has, as eight cells cannot have all of the
nine valid colors.
-/

namespace CuckooTrie.Packed

open Simd

/-- `__builtin_ctzll`, which is undefined on zero. -/
def builtinCtzll (x : BitVec 64) : ℕ := x.ctz.toNat

/-! ## The three implementations -/

/-- `used_colors` of `unused_color_in_pair`. -/
def usedColors (bucket1 bucket2 : Bucket) : BitVec 64 :=
  cellIndices.foldl (fun used i =>
    used ||| 1#64 <<< (entryColor (header bucket1 i)).toNat |||
      1#64 <<< (entryColor (header bucket2 i)).toNat) 0#64

/-- `unused_color_in_pair` of `main.c`. -/
def unusedColorInPair (bucket1 bucket2 : Bucket) : ℕ := builtinCtzll (~~~usedColors bucket1 bucket2)

/-- `color_mask`. -/
def colorMask : BitVec 64 := 0xFF#64 <<< (8 * offsetColorAndTag)

/-- Extract the colors of some headers and turn each into a bit. -/
def colorBits {n : ℕ} (headers : Lanes n) : Lanes n :=
  let colors := headers.and (Lanes.set1 colorMask)
  let colors := colors.srli (8 * offsetColorAndTag + tagBits)
  (Lanes.set1 1#64).sllv colors

/-- `unused_color_in_pair_avx512`. -/
def unusedColorInPairAvx512 (bucket1 bucket2 : Bucket) : ℕ :=
  let allHeaders := Lanes.set8 (header bucket2 3) (header bucket2 2) (header bucket2 1)
    (header bucket2 0) (header bucket1 3) (header bucket1 2) (header bucket1 1) (header bucket1 0)
  let lanes := colorBits allHeaders
  builtinCtzll (~~~(lanes 0 ||| lanes 1 ||| lanes 2 ||| lanes 3 ||| lanes 4 ||| lanes 5 |||
    lanes 6 ||| lanes 7))

/-- The AVX2 version of `unused_color_in_pair_vectorized`. -/
def unusedColorInPairAvx2 (bucket1 bucket2 : Bucket) : ℕ :=
  let headers1 :=
    Lanes.set4 (header bucket1 3) (header bucket1 2) (header bucket1 1) (header bucket1 0)
  let headers2 :=
    Lanes.set4 (header bucket2 3) (header bucket2 2) (header bucket2 1) (header bucket2 0)
  let lanes := (colorBits headers1).or (colorBits headers2)
  builtinCtzll (~~~(lanes 0 ||| lanes 1 ||| lanes 2 ||| lanes 3))

/-- `unused_color_in_pair_vectorized`, by whether the processor has AVX-512. -/
def unusedColorInPairVectorized (hasAvx512 : Bool) (bucket1 bucket2 : Bucket) : ℕ :=
  if hasAvx512 then unusedColorInPairAvx512 bucket1 bucket2
  else unusedColorInPairAvx2 bucket1 bucket2

/-! ## They agree -/

variable {bucket1 bucket2 : Bucket}

/-- A lane shows the color of its header. -/
theorem toNat_maskedColor (header : BitVec 64) :
    ((header &&& colorMask) >>> (8 * offsetColorAndTag + tagBits)).toNat =
      (entryColor header).toNat := by
  have mask : colorMask = lowMask 64 8 <<< 8 := by decide
  rw [mask, entryColor_toNat]
  exact congrArg BitVec.toNat (and_mask_ushiftRight (k := 8) (m := 4) (by decide) (by decide))

/-- Each lane is the bit of the color of its header. -/
theorem colorBits_apply {n : ℕ} (headers : Lanes n) (i : Fin n) :
    colorBits headers i = 1#64 <<< (entryColor (headers i)).toNat := by
  rw [← toNat_maskedColor]
  rfl

/-- **The AVX-512 variant** combines the bits bucket by bucket. -/
theorem unusedColorInPairAvx512_eq (bucket1 bucket2 : Bucket) :
    unusedColorInPairAvx512 bucket1 bucket2 = unusedColorInPair bucket1 bucket2 := by
  unfold unusedColorInPairAvx512 unusedColorInPair usedColors
  simp only [colorBits_apply, cellIndices, List.foldl_cons, List.foldl_nil, BitVec.zero_or]
  congr 2
  simp only [Lanes.set8, List.get_eq_getElem]
  ac_rfl

/-- **The AVX2 variant** combines the bits of the cells at one index first. -/
theorem unusedColorInPairAvx2_eq (bucket1 bucket2 : Bucket) :
    unusedColorInPairAvx2 bucket1 bucket2 = unusedColorInPair bucket1 bucket2 := by
  unfold unusedColorInPairAvx2 unusedColorInPair usedColors
  simp only [Lanes.or, colorBits_apply, cellIndices, List.foldl_cons, List.foldl_nil,
    BitVec.zero_or]
  congr 2
  simp only [Lanes.set4, List.get_eq_getElem]
  ac_rfl

/-! ## The color is fresh -/

/-- A color is in the set if some cell has it. -/
theorem getLsbD_usedColors (bucket1 bucket2 : Bucket) {c : ℕ} (inside : c < 64) :
    (usedColors bucket1 bucket2).getLsbD c = true ↔
      ∃ i, (entryColor (header bucket1 i)).toNat = c ∨
        (entryColor (header bucket2 i)).toNat = c := by
  have bit : ∀ n : ℕ, (1#64 <<< n).getLsbD c = true ↔ n = c := by
    intro n
    rw [BitVec.getLsbD_shiftLeft, BitVec.getLsbD_one]
    simp only [inside, decide_true, Bool.true_and, Bool.and_eq_true, Bool.not_eq_true',
      decide_eq_false_iff_not, decide_eq_true_eq]
    omega
  have scan : ∀ (is : List (Fin 4)) (used : BitVec 64), (is.foldl (fun used i =>
      used ||| 1#64 <<< (entryColor (header bucket1 i)).toNat |||
        1#64 <<< (entryColor (header bucket2 i)).toNat) used).getLsbD c = true ↔
      used.getLsbD c = true ∨ ∃ i ∈ is, (entryColor (header bucket1 i)).toNat = c ∨
        (entryColor (header bucket2 i)).toNat = c := by
    intro is
    induction is with
    | nil => simp
    | cons i is ih =>
      intro used
      rw [List.foldl_cons, ih]
      simp only [BitVec.getLsbD_or, Bool.or_eq_true, bit, List.mem_cons, exists_eq_or_imp, or_assoc]
  unfold usedColors
  rw [scan]
  simp [mem_cellIndices]

/-- The trailing ones of a set end at its first clear bit. -/
theorem builtinCtzll_not_le {used : BitVec 64} {c : ℕ} (inside : c < 64)
    (clear : used.getLsbD c = false) :
    builtinCtzll (~~~used) ≤ c ∧ used.getLsbD (builtinCtzll (~~~used)) = false := by
  have set : (~~~used).getLsbD c = true := by
    rw [BitVec.getLsbD_not, clear]
    simp [inside]
  have ne : ~~~used ≠ 0#64 := by
    intro zero
    rw [zero, BitVec.getLsbD_zero] at set
    cases set
  constructor
  · by_contra behind
    rw [BitVec.getLsbD_false_of_lt_ctz (not_le.mp behind)] at set
    cases set
  · have first := BitVec.getLsbD_true_ctz_of_ne_zero ne
    rw [BitVec.getLsbD_not, Bool.and_eq_true, Bool.not_eq_true'] at first
    exact first.2

/-- `unused_color_in_pair` returns the least color that no cell of the two buckets has. -/
theorem unusedColorInPair_le {c : ℕ} (inside : c < 64)
    (free : ∀ i, (entryColor (header bucket1 i)).toNat ≠ c ∧
      (entryColor (header bucket2 i)).toNat ≠ c) :
    unusedColorInPair bucket1 bucket2 ≤ c ∧ ∀ i,
      (entryColor (header bucket1 i)).toNat ≠ unusedColorInPair bucket1 bucket2 ∧
        (entryColor (header bucket2 i)).toNat ≠ unusedColorInPair bucket1 bucket2 := by
  have free_iff : ∀ c < 64, (usedColors bucket1 bucket2).getLsbD c = false ↔
      ∀ i, (entryColor (header bucket1 i)).toNat ≠ c ∧
        (entryColor (header bucket2 i)).toNat ≠ c := by
    intro c inside
    rw [← Bool.not_eq_true, getLsbD_usedColors _ _ inside]
    push Not
    rfl
  obtain ⟨le, clear⟩ := builtinCtzll_not_le inside ((free_iff c inside).mpr free)
  exact ⟨le, (free_iff _ (lt_of_le_of_lt le inside)).mp clear⟩

/-- **The implementations agree on a fresh color**, for all contents of the two buckets:
even if every cell is used, their eight colors leave a valid one. -/
theorem unused_color_in_pair_agree (bucket1 bucket2 : Bucket) :
    (∀ hasAvx512, unusedColorInPairVectorized hasAvx512 bucket1 bucket2 =
        unusedColorInPair bucket1 bucket2) ∧
      unusedColorInPair bucket1 bucket2 ≤ maxValidColor ∧
      ∀ i, (entryColor (header bucket1 i)).toNat ≠ unusedColorInPair bucket1 bucket2 ∧
        (entryColor (header bucket2 i)).toNat ≠ unusedColorInPair bucket1 bucket2 := by
  refine ⟨fun hasAvx512 => ?_, ?_⟩
  · unfold unusedColorInPairVectorized
    cases hasAvx512 with
    | true => exact unusedColorInPairAvx512_eq bucket1 bucket2
    | false => exact unusedColorInPairAvx2_eq bucket1 bucket2
  · obtain ⟨c, valid, free⟩ := @exists_unused_color
      (cellIndices.map (fun i => (entryColor (header bucket1 i)).toNat) ++
        cellIndices.map fun i => (entryColor (header bucket2 i)).toNat) le_rfl
    rw [List.mem_append, List.mem_map, List.mem_map] at free
    push Not at free
    obtain ⟨le, fresh⟩ := unusedColorInPair_le (lt_of_le_of_lt valid (by decide)) fun i =>
      ⟨free.1 i (mem_cellIndices i), free.2 i (mem_cellIndices i)⟩
    exact ⟨le.trans valid, fresh⟩

/-- **The record model's color is the one of the packed buckets.** -/
theorem unusedColorInPair_refines {g : Geometry} {t : Trie g} {b₁ b₂ : ℕ}
    (encodes₁ : ∀ i, Encodes (header bucket1 i) (t.cells ⟨b₁, i⟩))
    (encodes₂ : ∀ i, Encodes (header bucket2 i) (t.cells ⟨b₂, i⟩)) :
    unusedColorInPair bucket1 bucket2 = CuckooTrie.unusedColorInPair t b₁ b₂ := by
  obtain ⟨valid, free⟩ := unusedColorInPair_spec t b₁ b₂
  have small : CuckooTrie.unusedColorInPair t b₁ b₂ < 64 := lt_of_le_of_lt valid (by decide)
  obtain ⟨le, fresh⟩ := @unusedColorInPair_le bucket1 bucket2 _ small fun i => by
    rw [(encodes₁ i).color, (encodes₂ i).color]
    exact free i
  refine le_antisymm le (CuckooTrie.unusedColorInPair_le t (lt_of_le_of_lt le small) fun i => ?_).1
  rw [← (encodes₁ i).color, ← (encodes₂ i).color]
  exact fresh i

/-- A bucket with leaves of three more colors. -/
def pairedBucket : Bucket :=
  BitVec.ofNat 512
    (0x0a1121 + 0x033141 * 2 ^ 120 + 0x105a01 * 2 ^ 240 + 0x9090 * 2 ^ 360 + 0x0700 * 2 ^ 480)

/-- A table with both buckets. -/
def mixedPairTrie : Trie smallGeometry :=
  { mixedTrie with
    cells := fun loc =>
      if loc.bucket = 8 then
        [⟨2, false, false, 1, 1, 10, .leaf default default⟩,
          ⟨4, false, false, 3, 1, 3, .leaf default default⟩,
          ⟨0, false, false, 5, 10, 16, .leaf default default⟩].getD loc.cell unusedEntry
      else mixedTrie.cells loc }

theorem encodes_mixedPair (i : Fin 4) :
    Encodes (header mixedBucket i) (mixedPairTrie.cells ⟨7, i⟩) ∧
      Encodes (header pairedBucket i) (mixedPairTrie.cells ⟨8, i⟩) := by
  constructor <;> constructor <;> revert i <;> decide +kernel

/-- The two buckets use the colors from 0 to 5. -/
theorem unusedColorInPair_refines_mixed : unusedColorInPair mixedBucket pairedBucket = 6 :=
  (@unusedColorInPair_refines mixedBucket pairedBucket smallGeometry mixedPairTrie 7 8
    (fun i => (encodes_mixedPair i).1) fun i => (encodes_mixedPair i).2).trans (by decide +kernel)

end CuckooTrie.Packed
