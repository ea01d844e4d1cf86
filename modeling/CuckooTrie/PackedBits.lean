import CuckooTrie.Bytes

/-!
# Bit strings in memory

The helpers of `util.c` for strings of bits, the first of them the most significant bit of
the first byte.  Each reads or replaces a run of bits (`getLsbD_extractBits`, `bit_putBits`,
`bit_copyBits`, `bit_setBit`).
-/

namespace CuckooTrie.Packed

open Bytes

/-- The first byte of the dword that ends with the last of some bits. -/
def dwordStartByte (startBit numBits : ℕ) : ℕ := (startBit + numBits - 1) / 8 - 3

/-- `offset` of `extract_bits` and `put_bits`. -/
def dwordOffset (startBit numBits : ℕ) : ℕ :=
  32 + dwordStartByte startBit numBits * 8 - startBit - numBits

/-- The dword with some bits of a string, read as big-endian. -/
def containingDword (mem : Memory) (bitstring startBit numBits : ℕ) : BitVec 32 :=
  @bswap 4 (load 4 mem (bitstring + dwordStartByte startBit numBits))

/-- `extract_bits`. -/
def extractBits (mem : Memory) (bitstring startBit numBits : ℕ) : BitVec 32 :=
  bextr (containingDword mem bitstring startBit numBits) (dwordOffset startBit numBits) numBits

/-- `put_bits`. -/
def putBits (mem : Memory) (bitstring startBit numBits : ℕ) (bits : BitVec 32) : Memory :=
  let offset := dwordOffset startBit numBits
  let mask : BitVec 32 := (1#32 <<< numBits - 1#32) <<< offset
  let dword := containingDword mem bitstring startBit numBits &&& ~~~mask
  let dword := dword ||| bits <<< offset
  @store 4 mem (bitstring + dwordStartByte startBit numBits) (bswap dword)

/-- The loop of `copy_bits`, with the positions it leaves.  The bits left bound the number
of iterations. -/
def copyBitsLoop (source : Memory) (src srcOffset numBits : ℕ) :
    ℕ → ℕ → ℕ → Memory → Memory × ℕ × ℕ
  | 0, pos, dstPos, mem => (mem, pos, dstPos)
  | fuel + 1, pos, dstPos, mem =>
    if pos ≤ numBits then
      copyBitsLoop source src srcOffset numBits fuel (pos + 8) (dstPos + 1)
        (Function.update mem dstPos
          (UInt8.ofBitVec ((extractBits source src (srcOffset + pos) 8).setWidth 8)))
    else (mem, pos, dstPos)

/-- `copy_bits`, between two objects. -/
def copyBits (mem : Memory) (dest : ℕ) (source : Memory) (src srcOffset numBits : ℕ) : Memory :=
  let (mem, pos, dstPos) := copyBitsLoop source src srcOffset numBits (numBits + 1) 0 dest mem
  if pos < numBits then
    let bitsLeft := numBits - pos
    Function.update mem dstPos
      (UInt8.ofBitVec
        ((extractBits source src (srcOffset + pos) bitsLeft <<< (8 - bitsLeft)).setWidth 8))
  else mem

/-- `get_bit`. -/
def getBit (mem : Memory) (bitstring k : ℕ) : Bool :=
  (mem (bitstring + k / 8)).toNat <<< (k % 8) &&& 0x80 ≠ 0

/-- `set_bit`. -/
def setBit (mem : Memory) (bitstring k : ℕ) (value : Bool) : Memory :=
  let mask : UInt8 := UInt8.ofNat (0x80 >>> (k % 8))
  let byte := bitstring + k / 8
  Function.update mem byte (mem byte &&& ~~~mask ||| if value then mask else 0)

/-! ## Runs of bits -/

section Runs

variable {startBit numBits : ℕ}

/-- The dword has the bits, and they end in its last byte if it does not start the string. -/
theorem dword_bounds (h : 1 ≤ numBits ∧ numBits ≤ 24) :
    8 * dwordStartByte startBit numBits ≤ startBit ∧
      dwordOffset startBit numBits + startBit + numBits =
        8 * (dwordStartByte startBit numBits + 4) := by
  unfold dwordOffset dwordStartByte
  omega

/-- A bit of the dword. -/
theorem getLsbD_containingDword (mem : Memory) (bitstring : ℕ) {i : ℕ} (h : i < 32) :
    (containingDword mem bitstring startBit numBits).getLsbD i =
      bit mem (8 * (bitstring + dwordStartByte startBit numBits) + (31 - i)) :=
  getLsbD_bswap_load 4 mem _ h

/-- **`extract_bits`** returns the bits with the last as the least significant. -/
theorem getLsbD_extractBits (mem : Memory) (bitstring : ℕ) (h : 1 ≤ numBits ∧ numBits ≤ 24)
    (i : ℕ) :
    (extractBits mem bitstring startBit numBits).getLsbD i =
      (decide (i < numBits) && bit mem (8 * bitstring + startBit + (numBits - 1 - i))) := by
  obtain ⟨start, offset⟩ := @dword_bounds startBit numBits h
  rw [extractBits, getLsbD_bextr, Bool.and_comm]
  by_cases inside : i < numBits
  · rw [getLsbD_containingDword _ _ (by omega)]
    congr 2
    omega
  · rw [decide_eq_false inside, Bool.false_and, Bool.false_and]

/-- **`put_bits`** replaces the bits and leaves all others. -/
theorem bit_putBits (mem : Memory) (bitstring : ℕ) (h : 1 ≤ numBits ∧ numBits ≤ 24)
    {bits : BitVec 32} (small : bits.toNat < 2 ^ numBits) (p : ℕ) :
    bit (putBits mem bitstring startBit numBits bits) p =
      if 8 * bitstring + startBit ≤ p ∧ p < 8 * bitstring + startBit + numBits then
        bits.getLsbD (8 * bitstring + startBit + numBits - 1 - p)
      else bit mem p := by
  obtain ⟨start, offset⟩ := @dword_bounds startBit numBits h
  have mask (i : ℕ) (hi : i < 32) : (1#32 <<< numBits - 1#32).getLsbD i = decide (i < numBits) :=
    getLsbD_lowMask (by omega) hi
  have clear (i : ℕ) (hi : numBits ≤ i) : bits.getLsbD i = false :=
    Nat.testBit_lt_two_pow (lt_of_lt_of_le small (Nat.pow_le_pow_right (by decide) hi))
  unfold putBits
  simp only
  rw [bit_store_bswap]
  by_cases dword : 8 * (bitstring + dwordStartByte startBit numBits) ≤ p ∧
      p < 8 * (bitstring + dwordStartByte startBit numBits + 4)
  · rw [if_pos dword, BitVec.getLsbD_or, BitVec.getLsbD_and, BitVec.getLsbD_not,
      BitVec.getLsbD_shiftLeft, BitVec.getLsbD_shiftLeft, mask _ (by omega),
      getLsbD_containingDword _ _ (by omega)]
    obtain ⟨i, place⟩ : ∃ i, i = 8 * (bitstring + dwordStartByte startBit numBits + 4) - 1 - p :=
      ⟨_, rfl⟩
    rw [← place, show 8 * (bitstring + dwordStartByte startBit numBits) + (31 - i) = p by omega]
    have inWord : i < 32 := by omega
    by_cases low : i < dwordOffset startBit numBits
    · rw [decide_eq_true low, if_neg (by omega)]
      simp [inWord]
    · rw [decide_eq_false low]
      by_cases high : i - dwordOffset startBit numBits < numBits
      · rw [decide_eq_true high, if_pos (by omega), show i - dwordOffset startBit numBits =
          8 * bitstring + startBit + numBits - 1 - p by omega]
        simp [inWord]
      · rw [decide_eq_false high, if_neg (by omega), clear _ (not_lt.mp high)]
        simp [inWord]
  · rw [if_neg dword, if_neg (by omega)]

end Runs

/-! ## Copying bits -/

/-- The loop of `copy_bits` copies eight bits at a time, the last time past the end. -/
theorem copyBitsLoop_spec (source : Memory) (src srcOffset numBits : ℕ) {fuel pos dstPos : ℕ}
    (mem : Memory) (enough : numBits < fuel + pos) (whole : 8 ∣ pos) (start : pos ≤ numBits + 8) :
    ∃ pos',
      copyBitsLoop source src srcOffset numBits fuel pos dstPos mem =
        (fun x => if dstPos ≤ x ∧ x < dstPos + (numBits + 8 - pos) / 8 then
          UInt8.ofBitVec ((extractBits source src (srcOffset + (pos + 8 * (x - dstPos))) 8).setWidth
            8) else mem x, pos', dstPos + (numBits + 8 - pos) / 8) ∧ numBits < pos' := by
  induction fuel generalizing pos dstPos mem with
  | zero =>
    refine ⟨pos, ?_, by omega⟩
    rw [copyBitsLoop, show dstPos + (numBits + 8 - pos) / 8 = dstPos by omega]
    congr 1
    funext x
    rw [if_neg (by omega)]
  | succ fuel ih =>
    rw [copyBitsLoop]
    split
    · next more =>
      obtain ⟨pos', result, beyond⟩ := @ih (pos + 8) (dstPos + 1)
        (Function.update mem dstPos
          (UInt8.ofBitVec ((extractBits source src (srcOffset + pos) 8).setWidth 8)))
        (by omega) (by omega) (by omega)
      have last : dstPos + 1 + (numBits + 8 - (pos + 8)) / 8 =
          dstPos + (numBits + 8 - pos) / 8 := by omega
      refine ⟨pos', result.trans ?_, beyond⟩
      rw [last]
      congr 1
      funext x
      by_cases first : x = dstPos
      · rw [first, if_neg (by omega), if_pos (by omega), Function.update_self, Nat.sub_self,
          Nat.mul_zero, Nat.add_zero]
      · rw [Function.update_of_ne first]
        by_cases inside : dstPos + 1 ≤ x ∧ x < dstPos + (numBits + 8 - pos) / 8
        · rw [if_pos inside, if_pos (by omega),
            show pos + 8 + 8 * (x - (dstPos + 1)) = pos + 8 * (x - dstPos) by omega]
        · rw [if_neg inside, if_neg (by omega)]
    · next done =>
      refine ⟨pos, ?_, by omega⟩
      rw [show dstPos + (numBits + 8 - pos) / 8 = dstPos by omega]
      congr 1
      funext x
      rw [if_neg (by omega)]

/-- **`copy_bits`** replaces `num_bits / 8 + 1` bytes, by bits of the source from
`src_offset` on.  The branch after the loop is never taken. -/
theorem bit_copyBits (mem : Memory) (dest : ℕ) (source : Memory) (src srcOffset numBits p : ℕ) :
    bit (copyBits mem dest source src srcOffset numBits) p =
      if 8 * dest ≤ p ∧ p < 8 * (dest + (numBits / 8 + 1)) then
        bit source (8 * src + srcOffset + (p - 8 * dest))
      else bit mem p := by
  obtain ⟨pos', result, beyond⟩ := @copyBitsLoop_spec source src srcOffset numBits
    (numBits + 1) 0 dest mem (by omega) (by omega) (by omega)
  rw [copyBits, result]
  simp only [if_neg (not_lt.mpr beyond.le)]
  rw [bit]
  by_cases inside : 8 * dest ≤ p ∧ p < 8 * (dest + (numBits / 8 + 1))
  · rw [if_pos inside, if_pos (by omega)]
    change ((extractBits source src _ 8).setWidth 8).getLsbD (7 - p % 8) = _
    rw [BitVec.getLsbD_setWidth, getLsbD_extractBits _ _ (by decide)]
    have low : 7 - p % 8 < 8 := by omega
    rw [decide_eq_true low, Bool.true_and, Bool.true_and]
    congr 1
    omega
  · rw [if_neg inside, if_neg (by omega), bit]

/-- The other bytes stay. -/
theorem copyBits_of_not_mem {mem : Memory} {dest : ℕ} {source : Memory} {src srcOffset numBits x : ℕ}
    (outside : ¬ (dest ≤ x ∧ x < dest + (numBits / 8 + 1))) :
    copyBits mem dest source src srcOffset numBits x = mem x := by
  refine byte_eq_of_bit fun i hi => ?_
  rw [bit_copyBits, if_neg (by omega)]

/-! ## Single bits -/

theorem getBit_eq (mem : Memory) (bitstring k : ℕ) :
    getBit mem bitstring k = bit mem (8 * bitstring + k) := by
  have position : (8 * bitstring + k) / 8 = bitstring + k / 8 := by omega
  rw [getBit, bit, position, show (8 * bitstring + k) % 8 = k % 8 by omega]
  have shift : k % 8 < 8 := Nat.mod_lt _ (by decide)
  generalize mem (bitstring + k / 8) = b
  generalize k % 8 = i at shift
  have tested (x : ℕ) : decide (x &&& 0x80 ≠ 0) = x.testBit 7 := by
    rw [show 0x80 = 2 ^ 7 from rfl, Nat.and_two_pow]
    cases x.testBit 7 <;> simp
  rw [tested, Nat.testBit_shiftLeft, decide_eq_true (show 7 ≥ i by omega), Bool.true_and]

/-- **`set_bit`** changes one bit. -/
theorem bit_setBit (mem : Memory) (bitstring k : ℕ) (value : Bool) (p : ℕ) :
    bit (setBit mem bitstring k value) p = if p = 8 * bitstring + k then value else bit mem p := by
  unfold setBit
  simp only
  rw [bit]
  by_cases byte : p / 8 = bitstring + k / 8
  · rw [byte, Function.update_self]
    change BitVec.getLsbD (UInt8.toBitVec _) _ = _
    have low : 7 - p % 8 < 8 := by omega
    have mask : (UInt8.ofNat (0x80 >>> (k % 8))).toBitVec.getLsbD (7 - p % 8) =
        decide (p % 8 = k % 8) := by
      change (BitVec.ofNat 8 (0x80 >>> (k % 8))).getLsbD (7 - p % 8) = _
      rw [BitVec.getLsbD_ofNat, Nat.testBit_shiftRight, show 0x80 = 2 ^ 7 from rfl,
        Nat.testBit_two_pow, decide_eq_true low, Bool.true_and]
      exact decide_eq_decide.mpr (by omega)
    have placed : (if value then UInt8.ofNat (0x80 >>> (k % 8)) else 0).toBitVec.getLsbD
        (7 - p % 8) = (value && decide (p % 8 = k % 8)) := by
      cases value
      · exact BitVec.getLsbD_zero
      · exact mask
    rw [UInt8.toBitVec_or, UInt8.toBitVec_and, UInt8.toBitVec_not, BitVec.getLsbD_or,
      BitVec.getLsbD_and, BitVec.getLsbD_not, mask, placed, decide_eq_true low, Bool.true_and]
    by_cases same : p = 8 * bitstring + k
    · rw [if_pos same, decide_eq_true (by omega), Bool.not_true, Bool.and_false, Bool.false_or,
        Bool.and_true]
    · have other : decide (p % 8 = k % 8) = false := decide_eq_false (by omega)
      rw [if_neg same, other, Bool.not_false, Bool.and_true, Bool.and_false, Bool.or_false, bit,
        byte]
      rfl
  · rw [Function.update_of_ne byte, if_neg (by omega), bit]

theorem setBit_of_ne {mem : Memory} {bitstring k x : ℕ} {value : Bool}
    (other : x ≠ bitstring + k / 8) : setBit mem bitstring k value x = mem x :=
  Function.update_of_ne other _ _

end CuckooTrie.Packed
