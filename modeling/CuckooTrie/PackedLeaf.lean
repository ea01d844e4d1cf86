import CuckooTrie.PackedEntry

/-!
# Leaves as bytes

The pointer of a leaf takes the low 48 bits of an address, in the bytes just before
`next_leaf`.  `entry_kv` reads it back, extending the sign (`entryKv_entrySetKv`), and
`entry_set_kv` touches no other byte, so it is the change of the record that `ct_update`
makes (`entrySetKv_refines`).  `writeEntry` puts a local entry into a cell by two stores
that overlap (`writeEntry_apply`).
-/

namespace CuckooTrie.Packed

open Bytes

/-- `offsetof(ct_entry, key)`. -/
abbrev offsetKey : ℕ := 3

/-- `sizeof(ct_small_pointer)`. -/
abbrev smallPointerSize : ℕ := 6

/-- `offsetof(ct_entry, next_leaf)`. -/
abbrev offsetNextLeaf : ℕ := 9

/-- An address whose high bits repeat bit 47, as those of a user or a kernel do. -/
def Canonical (address : BitVec 64) : Prop :=
  ∀ i < 64, address.getLsbD i = address.getLsbD (min i 47)

/-- `load_two_qwords`. -/
def loadTwoQwords (mem : Memory) (ptr : ℕ) : BitVec 128 := load 8 mem (ptr + 8) ++ load 8 mem ptr

/-- `get_bits_uint128`. -/
def getBitsUint128 (x : BitVec 128) (offset size : ℕ) : BitVec 64 :=
  let mask := (1#64 <<< size) - 1#64
  ((x >>> offset) &&& mask.setWidth 128).setWidth 64

/-- `read_entry`: the bytes of a local copy of the entry in a cell. -/
def readEntry (mem : Memory) (entry : ℕ) : CtEntry := fun i => mem (entry + i)

/-- The first word `write_entry` stores. -/
def srcPart1 (src : CtEntry) : BitVec 64 := load 8 src 0

/-- The second word `write_entry` stores. -/
def srcPart2 (src : CtEntry) : BitVec 64 :=
  (load 16 src 0 >>> (8 * (entryStorageSize - 8))).setWidth 64

/-- The two stores of `write_entry`. -/
def writeEntry (mem : Memory) (target : ℕ) (src : CtEntry) : Memory :=
  let srcPart1 : BitVec 64 := load 8 src 0
  let srcPart2 : BitVec 64 := (load 16 src 0 >>> (8 * (entryStorageSize - 8))).setWidth 64
  @store 8 (@store 8 mem target srcPart1) (target + entryStorageSize - 8) srcPart2

namespace CtEntry

/-- `entry_kv`: the address of the object. -/
def entryKv (entry : CtEntry) : BitVec 64 :=
  let result := getBitsUint128 (loadTwoQwords entry 0) (offsetKey * 8) (smallPointerSize * 8)
  if result &&& 0x800000000000#64 ≠ 0 then result ||| 0xFFFF000000000000#64 else result

/-- `entry_set_kv`. -/
def entrySetKv (entry : CtEntry) (kv : BitVec 64) : CtEntry :=
  let entry := @store 4 entry offsetKey (kv.setWidth 32)
  @store 2 entry (offsetKey + 4) (((kv >>> 32) &&& 0xFFFF#64).setWidth 16)

/-- The record of a leaf, in a heap of objects. -/
def leafEntry (heap : BitVec 64 → CtKv) (entry : CtEntry) : Entry :=
  withBody entry (.leaf (heap (entryKv entry)) (locatorAt entry offsetNextLeaf))

end CtEntry

/-- The bytes of `ct_update_internal`: the leaf in a cell is read, changed and written. -/
def updateKv (mem : Memory) (cell : ℕ) (kv : BitVec 64) : Memory :=
  writeEntry mem cell ((readEntry mem cell).entrySetKv kv)

namespace CtEntry

/-! ## The pointer -/

/-- The bits a mask of low bits keeps. -/
theorem getLsbD_getBitsUint128 (x : BitVec 128) (offset : ℕ) {size i : ℕ} (hs : size < 64)
    (hi : i < 64) :
    (getBitsUint128 x offset size).getLsbD i = (x.getLsbD (offset + i) && decide (i < size)) := by
  have mask : ((1#64 <<< size) - 1#64).getLsbD i = decide (i < size) := getLsbD_lowMask hs hi
  unfold getBitsUint128
  rw [BitVec.getLsbD_setWidth, decide_eq_true hi, Bool.true_and, BitVec.getLsbD_and,
    BitVec.getLsbD_ushiftRight, BitVec.getLsbD_setWidth, mask]
  simp [show i < 128 by omega]

/-- A bit of the pointer, as it is in its byte. -/
theorem getLsbD_entryKv (entry : CtEntry) {i : ℕ} (hi : i < 64) :
    (entryKv entry).getLsbD i =
      (entry (offsetKey + min i 47 / 8)).toNat.testBit (min i 47 % 8) := by
  unfold entryKv
  change (if getBitsUint128 (loadTwoQwords entry 0) 24 48 &&& _ ≠ 0 then _ else _ :
    BitVec 64).getLsbD i = (entry (3 + min i 47 / 8)).toNat.testBit (min i 47 % 8)
  -- the 48 bits that are stored
  have low : ∀ j < 64, (getBitsUint128 (loadTwoQwords entry 0) 24 48).getLsbD j =
      ((entry (3 + j / 8)).toNat.testBit (j % 8) && decide (j < 48)) := by
    intro j hj
    rw [getLsbD_getBitsUint128 _ _ (by decide) hj]
    by_cases inside : j < 48
    · congr 1
      rw [loadTwoQwords, BitVec.getLsbD_append]
      split
      · rw [getLsbD_load _ _ _ (by omega), show 0 + (24 + j) / 8 = 3 + j / 8 by omega,
          show (24 + j) % 8 = j % 8 by omega]
      · rw [getLsbD_load _ _ _ (by omega), show 0 + 8 + (24 + j - 8 * 8) / 8 = 3 + j / 8 by omega,
          show (24 + j - 8 * 8) % 8 = j % 8 by omega]
    · rw [decide_eq_false inside, Bool.and_false, Bool.and_false]
  generalize getBitsUint128 (loadTwoQwords entry 0) 24 48 = result at low ⊢
  have high : (0xFFFF000000000000#64).getLsbD i = decide (48 ≤ i) := by
    revert i
    decide
  have bit47 := low 47 (by decide)
  have bit := low i hi
  rw [decide_eq_true (by decide), Bool.and_true] at bit47
  have sign : result &&& 0x800000000000#64 ≠ 0 ↔ result.getLsbD 47 = true := by
    change result &&& BitVec.twoPow 64 47 ≠ 0 ↔ _
    rw [BitVec.and_twoPow]
    cases result.getLsbD 47 with
    | false => simp
    | true => exact iff_of_true (by decide) rfl
  by_cases inside : i < 48
  · rw [show min i 47 = i by omega]
    rw [decide_eq_true inside, Bool.and_true] at bit
    rw [decide_eq_false (by omega)] at high
    split
    · rw [BitVec.getLsbD_or, high, Bool.or_false, bit]
    · rw [bit]
  · rw [show min i 47 = 47 by omega, ← bit47]
    rw [decide_eq_false inside, Bool.and_false] at bit
    rw [decide_eq_true (by omega)] at high
    split
    · next set => rw [BitVec.getLsbD_or, high, Bool.or_true, sign.mp set]
    · next clear => rw [bit, eq_false_of_ne_true (sign.not.mp clear)]

/-- The bytes `entry_set_kv` writes. -/
theorem testBit_entrySetKv (entry : CtEntry) (kv : BitVec 64) {x i : ℕ}
    (inside : offsetKey ≤ x ∧ x < offsetKey + smallPointerSize) (hi : i < 8) :
    (entrySetKv entry kv x).toNat.testBit i = kv.getLsbD (8 * (x - offsetKey) + i) := by
  change 3 ≤ x ∧ x < 9 at inside
  change _ = kv.getLsbD (8 * (x - 3) + i)
  unfold entrySetKv
  by_cases high : 7 ≤ x
  · rw [testBit_store (by change 7 ≤ x ∧ x < 7 + 2; omega) hi]
    change (BitVec.setWidth 16 ((kv >>> 32) &&& 0xFFFF#64)).getLsbD (8 * (x - 7) + i) = _
    have mask : (0xFFFF#64).getLsbD (8 * (x - 7) + i) = true := by
      have lt : 8 * (x - 7) + i < 16 := by omega
      generalize 8 * (x - 7) + i = k at lt ⊢
      revert k
      decide
    rw [BitVec.getLsbD_setWidth, decide_eq_true (by omega), Bool.true_and, BitVec.getLsbD_and,
      mask, Bool.and_true, BitVec.getLsbD_ushiftRight]
    congr 1
    omega
  · rw [store_of_not_mem (by change ¬ (7 ≤ x ∧ x < 7 + 2); omega),
      testBit_store (by change 3 ≤ x ∧ x < 3 + 4; omega) hi]
    change (BitVec.setWidth 32 kv).getLsbD (8 * (x - 3) + i) = _
    rw [BitVec.getLsbD_setWidth, decide_eq_true (by omega), Bool.true_and]

/-- `entry_set_kv` changes the six bytes of the pointer only. -/
theorem entrySetKv_of_not_mem (entry : CtEntry) (kv : BitVec 64) {x : ℕ}
    (outside : ¬ (offsetKey ≤ x ∧ x < offsetKey + smallPointerSize)) :
    entrySetKv entry kv x = entry x := by
  change ¬ (3 ≤ x ∧ x < 9) at outside
  unfold entrySetKv
  rw [store_of_not_mem (by change ¬ (7 ≤ x ∧ x < 7 + 2); omega),
    store_of_not_mem (by change ¬ (3 ≤ x ∧ x < 3 + 4); omega)]

/-- **A pointer is read back** as it was stored. -/
theorem entryKv_entrySetKv (entry : CtEntry) {kv : BitVec 64} (canonical : Canonical kv) :
    entryKv (entrySetKv entry kv) = kv := by
  apply BitVec.eq_of_getLsbD_eq
  intro i hi
  rw [getLsbD_entryKv _ hi, testBit_entrySetKv _ _ _ (by omega), canonical i hi]
  · congr 1
    omega
  · change 3 ≤ 3 + min i 47 / 8 ∧ 3 + min i 47 / 8 < 9
    omega

/-- **`entry_set_kv` is the change of the record** that keeps all but the object. -/
theorem entrySetKv_refines (heap : BitVec 64 → CtKv) (entry : CtEntry) {kv : BitVec 64}
    (canonical : Canonical kv) :
    leafEntry heap (entrySetKv entry kv) =
      { leafEntry heap entry with body := (leafEntry heap entry).body.setKv (heap kv) } := by
  have frame : ∀ x, x < offsetKey ∨ offsetNextLeaf ≤ x → entrySetKv entry kv x = entry x :=
    fun x outside => entrySetKv_of_not_mem entry kv (by
      change x < 3 ∨ 9 ≤ x at outside
      change ¬ (3 ≤ x ∧ x < 9)
      omega)
  unfold leafEntry
  rw [entryKv_entrySetKv entry canonical, locatorAt_congr fun x ge _ => frame x (Or.inr ge),
    withBody_congr _ fun x lt => frame x (Or.inl lt)]
  rfl

end CtEntry

/-! ## The cell -/

/-- The word that starts at the seventh byte. -/
theorem srcPart2_eq (src : CtEntry) : srcPart2 src = load 8 src 7 := by
  refine BitVec.eq_of_getLsbD_eq fun i hi => ?_
  change (BitVec.setWidth 64 (load 16 src 0 >>> 56)).getLsbD i = _
  rw [BitVec.getLsbD_setWidth, decide_eq_true hi, Bool.true_and, BitVec.getLsbD_ushiftRight,
    getLsbD_load_bitLE _ _ _ (by omega), getLsbD_load_bitLE _ _ _ hi]
  congr 1
  omega

/-- **The two stores of `write_entry`** put the fifteen bytes of the entry in place, and
touch no other byte. -/
theorem writeEntry_apply (mem : Memory) (target : ℕ) (src : CtEntry) (x : ℕ) :
    writeEntry mem target src x =
      if target ≤ x ∧ x < target + entryStorageSize then src (x - target) else mem x := by
  change @store 8 (@store 8 mem target (srcPart1 src)) (target + 7) (srcPart2 src) x =
    if target ≤ x ∧ x < target + 15 then _ else _
  rw [srcPart1, srcPart2_eq, store_load, store_load]
  by_cases second : target + 7 ≤ x ∧ x < target + 7 + 8
  · rw [if_pos second, if_pos (by omega), show 7 + (x - (target + 7)) = x - target by omega]
  · rw [if_neg second, Nat.zero_add]
    exact if_congr (by omega) rfl rfl

/-- A cell that is rewritten with another pointer reads as the entry written. -/
theorem readEntry_updateKv (mem : Memory) (cell : ℕ) (kv : BitVec 64) :
    readEntry (updateKv mem cell kv) cell = (readEntry mem cell).entrySetKv kv := by
  funext i
  rw [readEntry, updateKv, writeEntry_apply]
  split
  · rw [Nat.add_sub_cancel_left]
  · next outside =>
    -- the byte after the entry belongs to the next cell
    refine (CtEntry.entrySetKv_of_not_mem (readEntry mem cell) kv ?_).symm
    change ¬ (cell ≤ cell + i ∧ cell + i < cell + 15) at outside
    change ¬ (3 ≤ i ∧ i < 9)
    omega

/-- **Rewriting a leaf with another pointer** changes the six bytes of the pointer, and
the record the cell stands for accordingly. -/
theorem updateKv_spec (heap : BitVec 64 → CtKv) (mem : Memory) (cell : ℕ)
    {kv : BitVec 64} (canonical : Canonical kv) :
    (∀ x, ¬ (cell + offsetKey ≤ x ∧ x < cell + offsetKey + smallPointerSize) →
      updateKv mem cell kv x = mem x) ∧
      (readEntry (updateKv mem cell kv) cell).leafEntry heap =
        { (readEntry mem cell).leafEntry heap with
          body := ((readEntry mem cell).leafEntry heap).body.setKv (heap kv) } := by
  refine ⟨fun x outside => ?_, ?_⟩
  · rw [updateKv, writeEntry_apply]
    split
    · next inside =>
      change ¬ (cell + 3 ≤ x ∧ x < cell + 3 + 6) at outside
      have pointer : ¬ (offsetKey ≤ x - cell ∧ x - cell < offsetKey + smallPointerSize) := by
        change ¬ (3 ≤ x - cell ∧ x - cell < 3 + 6)
        omega
      rw [CtEntry.entrySetKv_of_not_mem _ kv pointer, readEntry, Nat.add_sub_cancel' inside.1]
    · rfl
  · rw [readEntry_updateKv, CtEntry.entrySetKv_refines heap _ canonical]

end CuckooTrie.Packed
