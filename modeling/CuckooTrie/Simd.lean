import Mathlib.Data.List.Basic
import Mathlib.Data.Nat.Bitwise
import Mathlib.Tactic.Linarith

/-!
# Bit fields and 128-bit vector registers

A small library for programs that test several bit fields of a word at once.

* `field h k n` is the `n`-bit field of a word at bit `k`.  `field_eq_iff` turns
  a masked comparison of one field into an equation on the field, and
  `and_or_eq_or_iff` takes a comparison under a union of masks apart.
* The second part gives the lane semantics of the SSE operations on two 64-bit
  lanes, with the lemmas that push each of them into the lanes.
* `Lanes n` is a register of `n` lanes of 64 bits, for the AVX2 and AVX-512
  operations that work on each lane alone.
-/

namespace Simd

/-! ## Bit fields -/

/-- The mask of the lowest `n` bits. -/
def lowMask (w n : ℕ) : BitVec w := BitVec.ofNat w (2 ^ n - 1)

/-- The `n`-bit field of a word that starts at bit `k`. -/
def field {w : ℕ} (h : BitVec w) (k n : ℕ) : BitVec w := (h >>> k) &&& lowMask w n

variable {w : ℕ}

theorem getLsbD_lowMask (n i : ℕ) :
    (lowMask w n).getLsbD i = (decide (i < w) && decide (i < n)) := by
  simp [lowMask, BitVec.getLsbD_ofNat, Nat.testBit_two_pow_sub_one]

theorem getLsbD_eq_false_of_lt {v : BitVec w} {n : ℕ} (hv : v.toNat < 2 ^ n) {i : ℕ} (hi : n ≤ i) :
    v.getLsbD i = false :=
  Nat.testBit_lt_two_pow (lt_of_lt_of_le hv (Nat.pow_le_pow_right (by decide) hi))

/-- **One masked field.**  A shifted value that loses no bits equals a word under
the mask of a field exactly when it is the value of the field. -/
theorem and_mask_eq_shift_iff {h v : BitVec w} {k n : ℕ} (hkn : k + n ≤ w)
    (hv : v.toNat < 2 ^ (w - k)) :
    h &&& (lowMask w n <<< k) = v <<< k ↔ field h k n = v := by
  constructor
  · intro same
    apply BitVec.eq_of_getLsbD_eq
    intro i hi
    simp only [field, BitVec.getLsbD_and, BitVec.getLsbD_ushiftRight, getLsbD_lowMask]
    by_cases hik : k + i < w
    · have bit := congrArg (fun x => x.getLsbD (k + i)) same
      simp only [BitVec.getLsbD_and, BitVec.getLsbD_shiftLeft, getLsbD_lowMask,
        Nat.add_sub_cancel_left] at bit
      simpa [hik, hi] using bit
    · rw [getLsbD_eq_false_of_lt hv (by omega), BitVec.getLsbD_of_ge _ _ (by omega)]
      rfl
  · intro same
    apply BitVec.eq_of_getLsbD_eq
    intro i hi
    have bit := congrArg (fun x => x.getLsbD (i - k)) same
    simp only [field, BitVec.getLsbD_and, BitVec.getLsbD_ushiftRight, getLsbD_lowMask] at bit
    simp only [BitVec.getLsbD_and, BitVec.getLsbD_shiftLeft, getLsbD_lowMask]
    by_cases hk : i < k
    · simp [hk]
    · rw [show k + (i - k) = i by omega] at bit
      simpa [hk, hi, show i - k < w by omega] using bit

theorem toNat_field {h : BitVec w} {k n : ℕ} (hn : n ≤ w) :
    (field h k n).toNat = h.toNat / 2 ^ k % 2 ^ n := by
  have fits : 2 ^ n - 1 < 2 ^ w :=
    lt_of_lt_of_le (Nat.sub_lt (Nat.two_pow_pos n) Nat.one_pos)
      (Nat.pow_le_pow_right (by decide) hn)
  rw [field, lowMask, BitVec.toNat_and, BitVec.toNat_ushiftRight, BitVec.toNat_ofNat,
    Nat.mod_eq_of_lt fits, Nat.and_two_pow_sub_one_eq_mod, Nat.shiftRight_eq_div_pow]

/-- **Several masked fields.**  A comparison under two disjoint masks is the
conjunction of the two comparisons, if no value reaches into the other mask. -/
theorem and_or_eq_or_iff {h m₁ m₂ v₁ v₂ : BitVec w} (disjoint : m₁ &&& m₂ = 0#w)
    (h₁ : v₁ &&& m₂ = 0#w) (h₂ : v₂ &&& m₁ = 0#w) :
    h &&& (m₁ ||| m₂) = v₁ ||| v₂ ↔ h &&& m₁ = v₁ ∧ h &&& m₂ = v₂ := by
  have bits : ∀ i, (m₁.getLsbD i && m₂.getLsbD i) = false ∧
      (v₁.getLsbD i && m₂.getLsbD i) = false ∧ (v₂.getLsbD i && m₁.getLsbD i) = false := by
    intro i
    rw [← BitVec.getLsbD_and, ← BitVec.getLsbD_and, ← BitVec.getLsbD_and, disjoint, h₁, h₂]
    simp
  constructor
  · intro same
    have bit : ∀ i, (h.getLsbD i && (m₁.getLsbD i || m₂.getLsbD i)) =
        (v₁.getLsbD i || v₂.getLsbD i) := by
      intro i
      rw [← BitVec.getLsbD_or, ← BitVec.getLsbD_and, same, BitVec.getLsbD_or]
    constructor <;> apply BitVec.eq_of_getLsbD_eq <;> intro i _ <;>
      simp only [BitVec.getLsbD_and] <;> have := bits i <;> have := bit i <;> grind
  · rintro ⟨same₁, same₂⟩
    rw [← same₁, ← same₂]
    apply BitVec.eq_of_getLsbD_eq
    intro i _
    simp only [BitVec.getLsbD_and, BitVec.getLsbD_or]
    grind

/-- A shifted value does not meet the mask of a field beside it. -/
theorem shift_and_mask_eq_zero {v : BitVec w} {k k' n n' : ℕ} (hv : v.toNat < 2 ^ n)
    (apart : k + n ≤ k' ∨ k' + n' ≤ k) : (v <<< k) &&& (lowMask w n' <<< k') = 0#w := by
  apply BitVec.eq_of_getLsbD_eq
  intro i hi
  simp only [BitVec.getLsbD_and, BitVec.getLsbD_shiftLeft, getLsbD_lowMask, BitVec.getLsbD_zero]
  rcases apart with h | h
  · by_cases hk : i < k'
    · simp [hk]
    · rw [getLsbD_eq_false_of_lt hv (show n ≤ i - k by omega)]
      simp
  · by_cases hk : i < k
    · simp [hk]
    · simp [show ¬ i - k' < n' by omega]

/-- The upper part of a masked field, moved to the low end. -/
theorem and_mask_ushiftRight {h : BitVec w} {k m n : ℕ} (fits : k + n ≤ w) (inside : m ≤ n) :
    (h &&& lowMask w n <<< k) >>> (k + m) = field h (k + m) (n - m) := by
  apply BitVec.eq_of_getLsbD_eq
  intro i hi
  simp only [field, BitVec.getLsbD_ushiftRight, BitVec.getLsbD_and, BitVec.getLsbD_shiftLeft,
    getLsbD_lowMask]
  by_cases low : i < n - m
  · simp [low, hi, show k + m + i < w by omega, show k + m + i - k < w by omega,
      show k + m + i - k < n by omega, show ¬ k + m + i < k by omega]
  · simp [low, show ¬ k + m + i - k < n by omega]

/-! ## Vector registers of two lanes -/

/-- `_mm_set_epi64x`. -/
def mmSetEpi64x (hi lo : BitVec 64) : BitVec 128 := hi ++ lo

/-- `_mm_set1_epi64x`. -/
def mmSet1Epi64x (x : BitVec 64) : BitVec 128 := x ++ x

/-- `_mm_setzero_si128`. -/
def mmSetzero : BitVec 128 := 0#64 ++ 0#64

/-- `_mm_and_si128`. -/
def mmAnd (a b : BitVec 128) : BitVec 128 := a &&& b

/-- `_mm_xor_si128`. -/
def mmXor (a b : BitVec 128) : BitVec 128 := a ^^^ b

/-- The lane `_mm_cmpeq_epi64` yields for two lanes: all ones if they are equal. -/
def laneMask (c : Bool) : BitVec 64 := if c then BitVec.allOnes 64 else 0#64

/-- `_mm_cmpeq_epi64`. -/
def mmCmpeqEpi64 (a b : BitVec 128) : BitVec 128 :=
  laneMask (a.extractLsb' 64 64 == b.extractLsb' 64 64) ++
    laneMask (a.extractLsb' 0 64 == b.extractLsb' 0 64)

/-- `_mm_movemask_epi8`: the top bits of the sixteen bytes. -/
def mmMovemaskEpi8 (a : BitVec 128) : ℕ :=
  (List.range 16).foldl (fun m i => m + if a.getLsbD (8 * i + 7) then 2 ^ i else 0) 0

/-- `__builtin_ctz`, which is undefined on zero: the lowest bit that is set. -/
def builtinCtz (m : ℕ) : ℕ := ((List.range 32).find? fun i => m.testBit i).getD 32

@[simp] theorem mmAnd_append (a b c d : BitVec 64) :
    mmAnd (a ++ b) (c ++ d) = (a &&& c) ++ (b &&& d) := BitVec.and_append

@[simp] theorem mmXor_append (a b c d : BitVec 64) :
    mmXor (a ++ b) (c ++ d) = (a ^^^ c) ++ (b ^^^ d) := BitVec.xor_append

theorem extract_high (a b : BitVec 64) : (a ++ b).extractLsb' 64 64 = a := by
  apply BitVec.eq_of_getLsbD_eq
  intro i hi
  rw [BitVec.getLsbD_extractLsb', BitVec.getLsbD_append]
  simp [hi]

theorem extract_low (a b : BitVec 64) : (a ++ b).extractLsb' 0 64 = b := by
  apply BitVec.eq_of_getLsbD_eq
  intro i hi
  rw [BitVec.getLsbD_extractLsb', BitVec.getLsbD_append]
  simp [hi]

@[simp] theorem mmCmpeqEpi64_append (a b c d : BitVec 64) :
    mmCmpeqEpi64 (a ++ b) (c ++ d) = laneMask (a == c) ++ laneMask (b == d) := by
  simp only [mmCmpeqEpi64, extract_high, extract_low]

@[simp] theorem laneMask_and (a b : Bool) : laneMask a &&& laneMask b = laneMask (a && b) := by
  cases a <;> cases b <;> decide

@[simp] theorem laneMask_xor_allOnes (a : Bool) : laneMask a ^^^ BitVec.allOnes 64 = laneMask !a := by
  cases a <;> decide

/-- **Movemask and count of trailing zeros.**  On a register whose lanes are
masks, the movemask is zero exactly if both lanes are, and the trailing zeros
tell the lower lane that is not. -/
theorem movemask_laneMasks (hi lo : Bool) :
    (mmMovemaskEpi8 (laneMask hi ++ laneMask lo) = 0 ↔ hi = false ∧ lo = false) ∧
      (mmMovemaskEpi8 (laneMask hi ++ laneMask lo) ≠ 0 →
        builtinCtz (mmMovemaskEpi8 (laneMask hi ++ laneMask lo)) >>> 3 = if lo then 0 else 1) := by
  cases hi <;> cases lo <;> decide +kernel

/-! ## Vector registers by their lanes -/

/-- A register of `n` lanes of 64 bits, the lowest one first. -/
abbrev Lanes (n : ℕ) := Fin n → BitVec 64

namespace Lanes

variable {n : ℕ}

/-- `_mm256_set_epi64x`. -/
def set4 (x₃ x₂ x₁ x₀ : BitVec 64) : Lanes 4 := ([x₀, x₁, x₂, x₃].get ·)

/-- `_mm512_set_epi64`. -/
def set8 (x₇ x₆ x₅ x₄ x₃ x₂ x₁ x₀ : BitVec 64) : Lanes 8 :=
  ([x₀, x₁, x₂, x₃, x₄, x₅, x₆, x₇].get ·)

/-- `_mm256_set1_epi64x` and `_mm512_set1_epi64`. -/
def set1 (x : BitVec 64) : Lanes n := fun _ => x

/-- `_mm256_and_si256` and `_mm512_and_si512`. -/
def and (a b : Lanes n) : Lanes n := fun i => a i &&& b i

/-- `_mm256_or_si256`. -/
def or (a b : Lanes n) : Lanes n := fun i => a i ||| b i

/-- `_mm256_srli_epi64` and `_mm512_srli_epi64`. -/
def srli (a : Lanes n) (count : ℕ) : Lanes n := fun i => a i >>> count

/-- `_mm256_sllv_epi64` and `_mm512_sllv_epi64`: each lane is shifted by a count of its
own, and is zero from 64 on. -/
def sllv (a counts : Lanes n) : Lanes n := fun i => a i <<< counts i

end Lanes

end Simd
