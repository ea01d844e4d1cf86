import CuckooTrie.Key

/-!
# The order of symbol strings

The symbol string of a key ends with its only END symbol, every other symbol is
between 1 and `FANOUT`, and comparing the symbol strings of two keys symbol by
symbol is comparing the keys byte by byte.  Both comparisons look for the first
bit in which the keys differ, so the proofs go through the bits of a key.
-/

namespace CuckooTrie

/-- Bytes are ordered by value. -/
instance instLinearOrderUInt8 : LinearOrder UInt8 where
  le_refl := UInt8.le_refl
  le_trans _ _ _ := UInt8.le_trans
  le_antisymm _ _ := UInt8.le_antisymm
  le_total := UInt8.le_total
  lt_iff_le_not_ge _ _ := Std.lt_iff_le_and_not_ge
  toDecidableLE := inferInstance
  toDecidableEq := inferInstance
  toDecidableLT := inferInstance

/-! ## Comparing keys -/

theorem kvKeyCompareTo_nil_left (address : ℕ) (bytes : List UInt8) :
    kvKeyCompareTo ⟨address, []⟩ bytes = -(bytes.length : ℤ) := by
  simp [kvKeyCompareTo, memcmp]

theorem kvKeyCompareTo_nil_right (kv : CtKv) :
    kvKeyCompareTo kv [] = (kv.key.length : ℤ) := by
  simp [kvKeyCompareTo, memcmp]

theorem kvKeyCompareTo_cons (address : ℕ) (x y : UInt8) (xs ys : List UInt8) :
    kvKeyCompareTo ⟨address, x :: xs⟩ (y :: ys) =
      if x = y then kvKeyCompareTo ⟨address, xs⟩ ys else (x.toNat : ℤ) - y.toNat := by
  have size : (if xs.length + 1 < ys.length + 1 then xs.length + 1 else ys.length + 1) =
      (if xs.length < ys.length then xs.length else ys.length) + 1 := by
    split_ifs <;> omega
  simp only [kvKeyCompareTo, List.length_cons, size, List.take_succ_cons, memcmp]
  have sizes : ((xs.length + 1 : ℕ) : ℤ) - (ys.length + 1 : ℕ) = xs.length - ys.length := by
    push_cast
    ring
  by_cases same : x = y
  · simp only [same, if_true, sizes]
  · have differ : (x.toNat : ℤ) - y.toNat ≠ 0 := by
      intro zero
      exact same (UInt8.toNat_inj.mp (by omega))
    simp only [same, if_false, differ, ne_eq, not_false_eq_true, if_true]

/-- `kv_key_compare_to` compares keys lexicographically, byte by byte. -/
theorem kvKeyCompareTo_sign (address : ℕ) (a b : List UInt8) :
    (kvKeyCompareTo ⟨address, a⟩ b < 0 ↔ a < b) ∧ (kvKeyCompareTo ⟨address, a⟩ b = 0 ↔ a = b) := by
  induction a generalizing b with
  | nil =>
    rw [kvKeyCompareTo_nil_left]
    cases b with
    | nil => simp
    | cons y ys =>
      simp only [List.length_cons, reduceCtorEq, iff_false, List.nil_lt_cons, iff_true]
      constructor <;> push_cast <;> omega
  | cons x xs ih =>
    cases b with
    | nil =>
      rw [kvKeyCompareTo_nil_right]
      simp only [List.length_cons, List.not_lt_nil, iff_false, reduceCtorEq]
      constructor <;> push_cast <;> omega
    | cons y ys =>
      rw [kvKeyCompareTo_cons, List.cons_lt_cons_iff]
      by_cases same : x = y
      · simp only [same, if_true, lt_self_iff_false, false_or, true_and, List.cons.injEq]
        exact ih ys
      · have differ : x.toNat ≠ y.toNat := fun h => same (UInt8.toNat_inj.mp h)
        simp only [same, if_false, false_and, or_false, List.cons.injEq, iff_false,
          UInt8.lt_iff_toNat_lt]
        constructor <;> omega

theorem kvKeyCompareTo_lt_zero_iff {kv : CtKv} {bytes : List UInt8} :
    kvKeyCompareTo kv bytes < 0 ↔ kv.key < bytes := (kvKeyCompareTo_sign kv.address kv.key bytes).1

theorem kvKeyCompareTo_eq_zero_iff {kv : CtKv} {bytes : List UInt8} :
    kvKeyCompareTo kv bytes = 0 ↔ kv.key = bytes := (kvKeyCompareTo_sign kv.address kv.key bytes).2

theorem kvKeyCompareTo_nonneg_iff {kv : CtKv} {bytes : List UInt8} :
    kvKeyCompareTo kv bytes ≥ 0 ↔ bytes ≤ kv.key := by
  rw [ge_iff_le, ← not_lt, kvKeyCompareTo_lt_zero_iff, not_lt]

theorem kvKeyCompareTo_nonpos_iff {kv : CtKv} {bytes : List UInt8} :
    kvKeyCompareTo kv bytes ≤ 0 ↔ kv.key ≤ bytes := by
  rw [le_iff_lt_or_eq, kvKeyCompareTo_lt_zero_iff, kvKeyCompareTo_eq_zero_iff, le_iff_lt_or_eq]

/-! ## The symbols of a key -/

/-- Bit `p` of a key, the most significant bit of its first byte being bit 0. -/
def keyBit (bytes : List UInt8) (p : ℕ) : Bool := (bytes.getD (p / 8) 0).toNat.testBit (7 - p % 8)

theorem keyBit_of_ge {bytes : List UInt8} {p : ℕ} (h : 8 * bytes.length ≤ p) :
    keyBit bytes p = false := by
  have beyond : bytes.length ≤ p / 8 := by omega
  rw [keyBit, List.getD_eq_default _ _ beyond]
  simp

theorem getStringSymbol_of_ge {bytes : List UInt8} {i : ℕ} (h : 8 * bytes.length ≤ 5 * i) :
    getStringSymbol bytes i = symbolEnd := by
  have beyond : i * bitsPerSymbol / 8 ≥ bytes.length := by
    change i * 5 / 8 ≥ bytes.length
    omega
  simp only [getStringSymbol, beyond, if_true]

/-- A symbol is one more than the value of five bits of the key. -/
theorem getStringSymbol_of_lt {bytes : List UInt8} {i : ℕ} (h : 5 * i < 8 * bytes.length) :
    ∃ v < 32, getStringSymbol bytes i = v + 1 ∧
      ∀ m < 5, v.testBit m = keyBit bytes (5 * i + 4 - m) := by
  have within : ¬ i * bitsPerSymbol / 8 ≥ bytes.length := by
    change ¬ i * 5 / 8 ≥ bytes.length
    omega
  have second : (if i * bitsPerSymbol / 8 + 1 < bytes.length then
      (bytes.getD (i * bitsPerSymbol / 8 + 1) 0).toNat else 0) =
      (bytes.getD (i * bitsPerSymbol / 8 + 1) 0).toNat := by
    split
    · rfl
    · rw [List.getD_eq_default _ _ (by omega)]
      rfl
  simp only [getStringSymbol, within, if_false, second]
  refine ⟨_, ?_, rfl, ?_⟩
  · exact lt_of_le_of_lt Nat.and_le_right (by decide)
  intro m hm
  have mask : symbolMask = 2 ^ 5 - 1 := rfl
  rw [mask, Nat.and_two_pow_sub_one_eq_mod, Nat.testBit_mod_two_pow, Nat.testBit_shiftRight,
    Nat.mul_comm _ 256, show (256 : ℕ) = 2 ^ 8 from rfl,
    Nat.testBit_two_pow_mul_add _ (UInt8.toNat_lt _), keyBit]
  simp only [hm, decide_true, Bool.true_and, show i * bitsPerSymbol = i * 5 from rfl,
    show (16 : ℕ) - bitsPerSymbol = 11 from rfl]
  split
  · rw [show (5 * i + 4 - m) / 8 = i * 5 / 8 + 1 by omega]
    congr 1
    omega
  · rw [show (5 * i + 4 - m) / 8 = i * 5 / 8 by omega]
    congr 1
    omega

theorem getStringSymbol_le (bytes : List UInt8) (i : ℕ) : getStringSymbol bytes i ≤ fanout := by
  rcases lt_or_ge (5 * i) (8 * bytes.length) with h | h
  · obtain ⟨v, hv, eq, -⟩ := getStringSymbol_of_lt h
    change _ ≤ 32
    omega
  · rw [getStringSymbol_of_ge h]
    decide

theorem getStringSymbol_pos {bytes : List UInt8} {i : ℕ} (h : 5 * i < 8 * bytes.length) :
    0 < getStringSymbol bytes i := by
  obtain ⟨v, -, eq, -⟩ := getStringSymbol_of_lt h
  omega

/-! ## Symbol strings -/

theorem numKeySymbols_eq (bytes : List UInt8) :
    numKeySymbols bytes = (8 * bytes.length + 4) / 5 + 1 := by
  rw [numKeySymbols]
  change (bytes.length * 8 + 4) / 5 + 1 = _
  omega

@[simp] theorem length_keySymbols (bytes : List UInt8) :
    (keySymbols bytes).length = numKeySymbols bytes := by
  simp [keySymbols]

theorem getElem_keySymbols (bytes : List UInt8) (i : ℕ) (h : i < (keySymbols bytes).length) :
    (keySymbols bytes)[i] = getStringSymbol bytes i := by
  simp [keySymbols]

theorem getElem?_keySymbols {bytes : List UInt8} {i : ℕ} (h : i < numKeySymbols bytes) :
    (keySymbols bytes)[i]? = some (getStringSymbol bytes i) := by
  have inside : i < (keySymbols bytes).length := by simpa using h
  rw [List.getElem?_eq_getElem inside, getElem_keySymbols]

theorem keySymbols_ne_nil (bytes : List UInt8) : keySymbols bytes ≠ [] := by
  intro empty
  have := length_keySymbols bytes
  rw [empty, numKeySymbols_eq, List.length_nil] at this
  omega

theorem le_fanout_of_mem_keySymbols {bytes : List UInt8} {s : ℕ} (h : s ∈ keySymbols bytes) :
    s ≤ fanout := by
  obtain ⟨i, -, rfl⟩ := List.mem_map.mp h
  exact getStringSymbol_le bytes i

/-- The END symbol is the last one, and only the last one. -/
theorem getElem?_keySymbols_eq_end_iff {bytes : List UInt8} {i : ℕ} :
    (keySymbols bytes)[i]? = some symbolEnd ↔ i + 1 = numKeySymbols bytes := by
  have count := numKeySymbols_eq bytes
  constructor
  · intro h
    have inside : i < numKeySymbols bytes := by
      obtain ⟨h', -⟩ := List.getElem?_eq_some_iff.mp h
      simpa using h'
    rw [getElem?_keySymbols inside] at h
    by_contra notLast
    have positive : 0 < getStringSymbol bytes i := getStringSymbol_pos (by omega)
    rw [Option.some.inj h] at positive
    exact absurd positive (by decide)
  · intro last
    rw [getElem?_keySymbols (by omega), getStringSymbol_of_ge (by omega)]

/-- The END symbol of a key ends every prefix that contains it. -/
theorem eq_keySymbols_of_end_mem {p : List ℕ} {bytes : List UInt8} (h : p <+: keySymbols bytes)
    (mem : symbolEnd ∈ p) : p = keySymbols bytes := by
  obtain ⟨i, hi, eq⟩ := List.getElem_of_mem mem
  have at_i : (keySymbols bytes)[i]? = some symbolEnd := by
    obtain ⟨rest, rfl'⟩ := h
    rw [← rfl', List.getElem?_append_left hi, List.getElem?_eq_getElem hi, eq]
  have last := getElem?_keySymbols_eq_end_iff.mp at_i
  exact h.eq_of_length_le (by rw [length_keySymbols]; omega)

/-- A first bit that is clear in one key and set in the other orders the symbols. -/
theorem keySymbols_lt_of_bit {a b : List UInt8} {p : ℕ} (ha : 5 * (p / 5) < 8 * a.length)
    (hb : 5 * (p / 5) < 8 * b.length) (bitA : keyBit a p = false) (bitB : keyBit b p = true)
    (before : ∀ p' < p, keyBit a p' = keyBit b p') : keySymbols a < keySymbols b := by
  have countA := numKeySymbols_eq a
  have countB := numKeySymbols_eq b
  have insideA : p / 5 < (keySymbols a).length := by rw [length_keySymbols]; omega
  have insideB : p / 5 < (keySymbols b).length := by rw [length_keySymbols]; omega
  refine List.lt_iff_exists.mpr (Or.inr ⟨p / 5, insideA, insideB, ?_, ?_⟩)
  · intro i hi
    rw [getElem_keySymbols, getElem_keySymbols]
    obtain ⟨v, hv, eqV, bitsV⟩ := getStringSymbol_of_lt (show 5 * i < 8 * a.length by omega)
    obtain ⟨w, hw, eqW, bitsW⟩ := getStringSymbol_of_lt (show 5 * i < 8 * b.length by omega)
    have same : v = w := by
      apply Nat.eq_of_testBit_eq
      intro m
      by_cases hm : m < 5
      · rw [bitsV m hm, bitsW m hm]
        exact before _ (by omega)
      · have high : 2 ^ 5 ≤ 2 ^ m := Nat.pow_le_pow_right (by decide) (by omega)
        rw [Nat.testBit_lt_two_pow (by omega), Nat.testBit_lt_two_pow (by omega)]
    rw [eqV, eqW, same]
  · rw [getElem_keySymbols, getElem_keySymbols]
    obtain ⟨v, hv, eqV, bitsV⟩ := getStringSymbol_of_lt ha
    obtain ⟨w, hw, eqW, bitsW⟩ := getStringSymbol_of_lt hb
    have position : 5 * (p / 5) + 4 - (4 - p % 5) = p := by omega
    have less : v < w := by
      refine Nat.lt_of_testBit (4 - p % 5) ?_ ?_ ?_
      · rw [bitsV _ (by omega), position, bitA]
      · rw [bitsW _ (by omega), position, bitB]
      · intro m hm
        by_cases h5 : m < 5
        · rw [bitsV m h5, bitsW m h5]
          exact before _ (by omega)
        · have high : 2 ^ 5 ≤ 2 ^ m := Nat.pow_le_pow_right (by decide) (by omega)
          rw [Nat.testBit_lt_two_pow (by omega), Nat.testBit_lt_two_pow (by omega)]
    omega

/-- A key with all symbols of a longer one, up to its own END symbol, comes first. -/
theorem keySymbols_lt_of_shorter {a b : List UInt8} (shorter : a.length < b.length)
    (same : ∀ i, 5 * i < 8 * a.length → getStringSymbol a i = getStringSymbol b i) :
    keySymbols a < keySymbols b := by
  have countA := numKeySymbols_eq a
  have countB := numKeySymbols_eq b
  have insideA : (8 * a.length + 4) / 5 < (keySymbols a).length := by
    rw [length_keySymbols]
    omega
  have insideB : (8 * a.length + 4) / 5 < (keySymbols b).length := by
    rw [length_keySymbols]
    omega
  refine List.lt_iff_exists.mpr (Or.inr ⟨_, insideA, insideB, ?_, ?_⟩)
  · intro i hi
    rw [getElem_keySymbols, getElem_keySymbols]
    exact same i (by omega)
  · rw [getElem_keySymbols, getElem_keySymbols, getStringSymbol_of_ge (by omega)]
    exact getStringSymbol_pos (by omega)

theorem keyBit_take (b : List UInt8) {n p : ℕ} (h : p < 8 * n) :
    keyBit (b.take n) p = keyBit b p := by
  rw [keyBit, keyBit, List.getD_eq_getElem?_getD, List.getElem?_take_of_lt (by omega),
    List.getD_eq_getElem?_getD]

/-- The encoding into symbols is strictly monotone. -/
theorem keySymbols_strictMono : StrictMono keySymbols := by
  intro a b less
  rcases List.lt_iff_exists.mp less with ⟨isPrefix, shorter⟩ | ⟨j, hja, hjb, sameBytes, byte⟩
  · -- a proper prefix: the padding bits of `a` may still be smaller
    have sameBits : ∀ p < 8 * a.length, keyBit a p = keyBit b p := by
      intro p hp
      rw [isPrefix]
      exact keyBit_take b hp
    by_cases allSame : ∀ i, 5 * i < 8 * a.length → getStringSymbol a i = getStringSymbol b i
    · exact keySymbols_lt_of_shorter shorter allSame
    push Not at allSame
    obtain ⟨i, hi, differ⟩ := allSame
    have someBit : ∃ p, p / 5 ≤ i ∧ keyBit a p ≠ keyBit b p := by
      by_contra none
      push Not at none
      obtain ⟨v, hv, eqV, bitsV⟩ := getStringSymbol_of_lt hi
      obtain ⟨w, hw, eqW, bitsW⟩ := getStringSymbol_of_lt (show 5 * i < 8 * b.length by omega)
      refine differ ?_
      rw [eqV, eqW]
      congr 1
      apply Nat.eq_of_testBit_eq
      intro m
      by_cases hm : m < 5
      · rw [bitsV m hm, bitsW m hm]
        exact none _ (by omega)
      · have high : 2 ^ 5 ≤ 2 ^ m := Nat.pow_le_pow_right (by decide) (by omega)
        rw [Nat.testBit_lt_two_pow (by omega), Nat.testBit_lt_two_pow (by omega)]
    obtain ⟨hp, differs⟩ := Nat.find_spec someBit
    have first : ∀ p' < Nat.find someBit, keyBit a p' = keyBit b p' := by
      intro p' hp'
      by_contra no
      exact Nat.find_min someBit hp' ⟨by omega, no⟩
    generalize Nat.find someBit = p at *
    have beyond : 8 * a.length ≤ p := by
      by_contra inside
      exact differs (sameBits p (by omega))
    have clear := keyBit_of_ge beyond
    refine keySymbols_lt_of_bit (p := p) (by omega) (by omega) clear ?_ first
    rw [clear] at differs
    simpa using differs.symm
  · -- the first byte that differs has a first bit that differs
    have byteLt : a[j].toNat < b[j].toNat := UInt8.lt_iff_toNat_lt.mp byte
    obtain ⟨k, top, above⟩ :=
      Nat.exists_most_significant_bit (n := a[j].toNat ^^^ b[j].toNat)
        (Nat.xor_ne_zero_iff.mpr byteLt.ne)
    have hk : k < 8 := by
      by_contra big
      have high : 2 ^ 8 ≤ 2 ^ k := Nat.pow_le_pow_right (by decide) (by omega)
      have ha := UInt8.toNat_lt a[j]
      have hb := UInt8.toNat_lt b[j]
      rw [Nat.testBit_xor, Nat.testBit_lt_two_pow (by omega),
        Nat.testBit_lt_two_pow (by omega)] at top
      cases top
    have aboveSame : ∀ m, k < m → a[j].toNat.testBit m = b[j].toNat.testBit m := by
      intro m hm
      have := above m hm
      rw [Nat.testBit_xor] at this
      simpa using this
    have bits : a[j].toNat.testBit k = false ∧ b[j].toNat.testBit k = true := by
      rw [Nat.testBit_xor] at top
      cases hA : a[j].toNat.testBit k
      · rw [hA] at top
        exact ⟨rfl, by simpa using top⟩
      · have hB : b[j].toNat.testBit k = false := by
          rw [hA] at top
          simpa using top
        have greater := Nat.lt_of_testBit k hB hA fun m hm => (aboveSame m hm).symm
        omega
    have atByte : ∀ p, p / 8 = j → keyBit a p = a[j].toNat.testBit (7 - p % 8) ∧
        keyBit b p = b[j].toNat.testBit (7 - p % 8) := by
      intro p hp
      rw [keyBit, keyBit, hp, List.getD_eq_getElem _ _ hja, List.getD_eq_getElem _ _ hjb]
      exact ⟨rfl, rfl⟩
    have place : (8 * j + (7 - k)) / 8 = j ∧ 7 - (8 * j + (7 - k)) % 8 = k := by omega
    obtain ⟨bitA, bitB⟩ := atByte (8 * j + (7 - k)) place.1
    rw [place.2] at bitA bitB
    refine keySymbols_lt_of_bit (p := 8 * j + (7 - k)) (by omega) (by omega)
      (bitA.trans bits.1) (bitB.trans bits.2) ?_
    intro p' hp'
    rcases lt_or_ge (p' / 8) j with earlier | here
    · rw [keyBit, keyBit, List.getD_eq_getElem _ _ (by omega),
        List.getD_eq_getElem _ _ (by omega), sameBytes _ earlier]
    · obtain ⟨bitA', bitB'⟩ := atByte p' (by omega)
      rw [bitA', bitB']
      exact aboveSame _ (by omega)

/-- **Symbol strings order keys as the byte comparison does.** -/
theorem keySymbols_lt_iff {a b : List UInt8} : keySymbols a < keySymbols b ↔ a < b :=
  keySymbols_strictMono.lt_iff_lt

theorem keySymbols_inj {a b : List UInt8} : keySymbols a = keySymbols b ↔ a = b :=
  keySymbols_strictMono.injective.eq_iff

/-- Every symbol string has an END. -/
theorem end_mem_keySymbols (a : List UInt8) : symbolEnd ∈ keySymbols a :=
  List.mem_of_getElem? (getElem?_keySymbols_eq_end_iff.mpr
    (Nat.sub_add_cancel (show 1 ≤ numKeySymbols a by rw [numKeySymbols_eq]; omega)))

/-- No symbol string is a proper prefix of another one. -/
theorem keySymbols_eq_of_isPrefix {a b : List UInt8} (h : keySymbols a <+: keySymbols b) :
    a = b :=
  keySymbols_inj.mp (eq_keySymbols_of_end_mem h (end_mem_keySymbols a))

/-- **Symbol strings stand for keys.**  The symbol string of a key are its symbols up
to the first END, which is the last one; no symbol string is a proper prefix of
another one, different keys have different ones, and their lexicographic order is
the order `kv_key_compare` puts the keys in. -/
theorem symbol_strings_order_keys (a b : CtKv) :
    (keySymbols a.key).length = (8 * a.key.length + (bitsPerSymbol - 1)) / bitsPerSymbol + 1 ∧
      (∀ i < (keySymbols a.key).length, (keySymbols a.key)[i]? = some (getKeySymbol a i) ∧
        (getKeySymbol a i = symbolEnd ↔ i + 1 = (keySymbols a.key).length)) ∧
      (keySymbols a.key <+: keySymbols b.key → keySymbols a.key = keySymbols b.key) ∧
      (keySymbols a.key = keySymbols b.key → a.key = b.key) ∧
      (keySymbols a.key < keySymbols b.key ↔ kvKeyCompare a b < 0) ∧
      (keySymbols a.key = keySymbols b.key ↔ kvKeyCompare a b = 0) ∧
      (keySymbols b.key < keySymbols a.key ↔ 0 < kvKeyCompare a b) := by
  have equal : keySymbols a.key = keySymbols b.key ↔ kvKeyCompare a b = 0 :=
    keySymbols_inj.trans kvKeyCompareTo_eq_zero_iff.symm
  have less : keySymbols a.key < keySymbols b.key ↔ kvKeyCompare a b < 0 :=
    keySymbols_lt_iff.trans kvKeyCompareTo_lt_zero_iff.symm
  have greater : keySymbols b.key < keySymbols a.key ↔ 0 < kvKeyCompare a b := by
    rw [← not_le, le_iff_lt_or_eq, less, equal]
    omega
  refine ⟨?_, fun i inside => ?_, fun h => congrArg _ (keySymbols_eq_of_isPrefix h),
    keySymbols_inj.mp, less, equal, greater⟩
  · rw [length_keySymbols, numKeySymbols_eq]
    rfl
  · rw [length_keySymbols] at inside ⊢
    have at_i := getElem?_keySymbols inside
    refine ⟨at_i, ?_⟩
    rw [← getElem?_keySymbols_eq_end_iff, at_i, Option.some_inj]
    rfl

end CuckooTrie
