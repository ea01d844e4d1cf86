import CuckooTrie.Allocation
import CuckooTrie.PackedBits

/-!
# The bit field helpers in machine arithmetic

`extract_bits`, `put_bits` and `copy_bits` compute the address and the offset of a dword in
unsigned 64-bit arithmetic, where a difference may pass zero and is clamped then.  For a
field inside a byte array they are the functions of the module on bit strings
(`extractBits_eq`, `putBits_eq`, `copyBits_eq`), and so they read and replace exactly the
bits of the field (`bit_field_helpers_exact`).
-/

namespace CuckooTrie.Packed.Word

open Bytes

/-- `dword_start_byte`: the unsigned difference is read as a signed number, and a negative
one is clamped to zero. -/
def dwordStartByte (startBit numBits : ℕ) : ℕ :=
  let lastBit := wrap64 (startBit + numBits + (2 ^ 64 - 1))
  let dwordStartByte := wrap64 (lastBit / 8 + (2 ^ 64 - 3))
  if 2 ^ 63 ≤ dwordStartByte then 0 else dwordStartByte

/-- `offset`, which keeps the low 32 bits. -/
def dwordOffset (startBit numBits : ℕ) : ℕ :=
  wrap64 (32 + (2 ^ 64 - startBit) + dwordStartByte startBit numBits * 8 + (2 ^ 64 - numBits)) %
    2 ^ 32

/-- `__builtin_ia32_bextr_u32`: the two low bytes of the control word are the start and the
length. -/
def bextrU32 (x : BitVec 32) (control : ℕ) : BitVec 32 :=
  bextr x (control % 256) (control / 256 % 256)

/-- `containing_dword`, read as big-endian. -/
def containingDword (mem : Memory) (bitstring startBit numBits : ℕ) : BitVec 32 :=
  @bswap 4 (load 4 mem (bitstring + dwordStartByte startBit numBits))

/-- `extract_bits`. -/
def extractBits (mem : Memory) (bitstring startBit numBits : ℕ) : BitVec 32 :=
  bextrU32 (containingDword mem bitstring startBit numBits)
    ((numBits <<< 8 + dwordOffset startBit numBits) % 2 ^ 32)

/-- `put_bits`. -/
def putBits (mem : Memory) (bitstring startBit numBits : ℕ) (bits : BitVec 32) : Memory :=
  let offset := dwordOffset startBit numBits
  let mask : BitVec 32 := (1#32 <<< numBits - 1#32) <<< offset
  let dword := containingDword mem bitstring startBit numBits &&& ~~~mask
  let dword := dword ||| bits <<< offset
  @store 4 mem (bitstring + dwordStartByte startBit numBits) (bswap dword)

/-- The loop of `copy_bits`, with the position and the address it leaves; `none` is a loop
that goes on after as many iterations as the first argument allows. -/
def copyBitsLoop (source : Memory) (src srcOffset numBits : ℕ) :
    ℕ → ℕ → ℕ → Memory → Option (Memory × ℕ × ℕ)
  | 0, _, _, _ => none
  | fuel + 1, pos, dstPos, mem =>
    if pos ≤ numBits then
      copyBitsLoop source src srcOffset numBits fuel (wrap64 (pos + 8)) (dstPos + 1)
        (Function.update mem dstPos
          (UInt8.ofBitVec ((extractBits source src (wrap64 (srcOffset + pos)) 8).setWidth 8)))
    else some (mem, pos, dstPos)

/-- `copy_bits`, between two objects. -/
def copyBits (mem : Memory) (dest : ℕ) (source : Memory) (src srcOffset numBits : ℕ) :
    Option Memory :=
  (copyBitsLoop source src srcOffset numBits (numBits + 2) 0 dest mem).map
    fun (mem, pos, dstPos) =>
      if pos < numBits then
        let bitsLeft := numBits - pos
        Function.update mem dstPos
          (UInt8.ofBitVec ((extractBits source src (wrap64 (srcOffset + pos)) bitsLeft <<<
            (8 - bitsLeft)).setWidth 8))
      else mem

/-! ## Fields inside an array -/

/-- A field of up to 24 bits inside an array of some bytes, whose bits have 64-bit
numbers. -/
structure Field (length startBit numBits : ℕ) : Prop where
  nonempty : 1 ≤ numBits
  small : numBits ≤ 24
  long : 4 ≤ length
  inside : startBit + numBits ≤ 8 * length
  numbered : 8 * length < 2 ^ 64

variable {length startBit numBits : ℕ}

theorem dwordStartByte_eq (field : Field length startBit numBits) :
    dwordStartByte startBit numBits = Packed.dwordStartByte startBit numBits := by
  obtain ⟨nonempty, small, long, inside, numbered⟩ := field
  unfold dwordStartByte Packed.dwordStartByte wrap64
  simp only
  split <;> omega

theorem dwordOffset_eq (field : Field length startBit numBits) :
    dwordOffset startBit numBits = Packed.dwordOffset startBit numBits := by
  have start := dwordStartByte_eq field
  obtain ⟨low, offset⟩ := @dword_bounds startBit numBits ⟨field.nonempty, field.small⟩
  obtain ⟨nonempty, small, long, inside, numbered⟩ := field
  unfold dwordOffset wrap64
  rw [start]
  unfold Packed.dwordOffset at offset ⊢
  generalize Packed.dwordStartByte startBit numBits = d at *
  omega

/-- **The dword of a field** lies in the array, and it ends with the byte of the last bit of
the field unless it starts the array. -/
theorem dword_inside (field : Field length startBit numBits) :
    dwordStartByte startBit numBits + 4 ≤ length ∧
      (dwordStartByte startBit numBits + 3 = (startBit + numBits - 1) / 8 ∨
        dwordStartByte startBit numBits = 0) := by
  rw [dwordStartByte_eq field]
  obtain ⟨nonempty, small, long, inside, numbered⟩ := field
  unfold Packed.dwordStartByte
  omega

theorem extractBits_eq (field : Field length startBit numBits) (mem : Memory) (bitstring : ℕ) :
    extractBits mem bitstring startBit numBits =
      Packed.extractBits mem bitstring startBit numBits := by
  obtain ⟨low, offset⟩ := @dword_bounds startBit numBits ⟨field.nonempty, field.small⟩
  have nonempty := field.nonempty
  have small := field.small
  have inWord : Packed.dwordOffset startBit numBits < 32 := by
    unfold Packed.dwordStartByte at low offset
    omega
  unfold extractBits bextrU32 containingDword
  rw [dwordStartByte_eq field, dwordOffset_eq field, Nat.shiftLeft_eq]
  have start : (numBits * 2 ^ 8 + Packed.dwordOffset startBit numBits) % 2 ^ 32 % 256 =
      Packed.dwordOffset startBit numBits := by omega
  have length : (numBits * 2 ^ 8 + Packed.dwordOffset startBit numBits) % 2 ^ 32 / 256 % 256 =
      numBits := by omega
  rw [start, length]
  rfl

theorem putBits_eq (field : Field length startBit numBits) (mem : Memory) (bitstring : ℕ)
    (bits : BitVec 32) :
    putBits mem bitstring startBit numBits bits =
      Packed.putBits mem bitstring startBit numBits bits := by
  unfold putBits containingDword
  rw [dwordStartByte_eq field, dwordOffset_eq field]
  rfl

/-! ## What the helpers touch -/

/-- The loads of `extract_bits` and `put_bits` are those of the dword. -/
theorem containingDword_congr {mem mem' : Memory} {bitstring : ℕ}
    (same : ∀ i < 4, mem (bitstring + dwordStartByte startBit numBits + i) =
      mem' (bitstring + dwordStartByte startBit numBits + i)) :
    containingDword mem bitstring startBit numBits =
      containingDword mem' bitstring startBit numBits := by
  unfold containingDword
  refine congrArg _ (load_congr fun x ge lt => ?_)
  obtain ⟨i, rfl⟩ := Nat.exists_eq_add_of_le ge
  exact same i (by omega)

theorem extractBits_congr {mem mem' : Memory} {bitstring : ℕ}
    (same : ∀ i < 4, mem (bitstring + dwordStartByte startBit numBits + i) =
      mem' (bitstring + dwordStartByte startBit numBits + i)) :
    extractBits mem bitstring startBit numBits = extractBits mem' bitstring startBit numBits := by
  unfold extractBits
  rw [containingDword_congr same]

/-- `put_bits` writes the dword, by what the dword was before. -/
theorem putBits_local {mem mem' : Memory} {bitstring : ℕ} (bits : BitVec 32)
    (same : ∀ i < 4, mem (bitstring + dwordStartByte startBit numBits + i) =
      mem' (bitstring + dwordStartByte startBit numBits + i)) (x : ℕ) :
    putBits mem bitstring startBit numBits bits x =
      if bitstring + dwordStartByte startBit numBits ≤ x ∧
          x < bitstring + dwordStartByte startBit numBits + 4 then
        putBits mem' bitstring startBit numBits bits x
      else mem x := by
  unfold putBits
  rw [containingDword_congr same, store, store]
  split <;> rfl

/-! ## What the bits spell -/

/-- **`extract_bits`** returns the big-endian value of the bits. -/
theorem toNat_extractBits (field : Field length startBit numBits) (mem : Memory) (bitstring : ℕ) :
    (extractBits mem bitstring startBit numBits).toNat =
      bitsValue mem (8 * bitstring + startBit) numBits := by
  rw [extractBits_eq field]
  refine Nat.eq_of_testBit_eq fun i => ?_
  exact (getLsbD_extractBits mem bitstring ⟨field.nonempty, field.small⟩ i).trans
    (testBit_bitsValue _ _ _ _).symm

/-- **`extract_bits` after `put_bits`** returns the bits put. -/
theorem extractBits_putBits (field : Field length startBit numBits) (mem : Memory) (bitstring : ℕ)
    {bits : BitVec 32} (small : bits.toNat < 2 ^ numBits) :
    extractBits (putBits mem bitstring startBit numBits bits) bitstring startBit numBits = bits := by
  have range : 1 ≤ numBits ∧ numBits ≤ 24 := ⟨field.nonempty, field.small⟩
  rw [extractBits_eq field, putBits_eq field]
  refine BitVec.eq_of_getLsbD_eq fun i _ => ?_
  rw [getLsbD_extractBits _ _ range]
  by_cases inside : i < numBits
  · rw [decide_eq_true inside, Bool.true_and, bit_putBits _ _ range small, if_pos (by omega)]
    congr 1
    omega
  · have clear : bits.getLsbD i = false := Nat.testBit_lt_two_pow
      (lt_of_lt_of_le small (Nat.pow_le_pow_right (by decide) (not_lt.mp inside)))
    rw [decide_eq_false inside, Bool.false_and, clear]

/-! ## Copying bits -/

/-- The reads of `copy_bits` are inside the array. -/
structure Source (length srcOffset numBits : ℕ) : Prop where
  long : 4 ≤ length
  inside : srcOffset + 8 * (numBits / 8 + 1) ≤ 8 * length
  numbered : 8 * length < 2 ^ 64

variable {srcOffset : ℕ}

theorem Source.field (reads : Source length srcOffset numBits) {pos : ℕ} (whole : 8 ∣ pos)
    (more : pos ≤ numBits) : Field length (srcOffset + pos) 8 := by
  obtain ⟨long, inside, numbered⟩ := reads
  exact ⟨by decide, by decide, long, by omega, numbered⟩

/-- The loop ends, and its position does not wrap. -/
theorem copyBitsLoop_eq (reads : Source length srcOffset numBits) (source : Memory) (src : ℕ)
    {fuel pos dstPos : ℕ} (mem : Memory) (enough : numBits < 8 * fuel + pos) (whole : 8 ∣ pos) :
    copyBitsLoop source src srcOffset numBits (fuel + 1) pos dstPos mem =
      some (Packed.copyBitsLoop source src srcOffset numBits fuel pos dstPos mem) := by
  induction fuel generalizing pos dstPos mem with
  | zero =>
    rw [copyBitsLoop, if_neg (by omega)]
    rfl
  | succ fuel ih =>
    rw [copyBitsLoop, Packed.copyBitsLoop]
    split
    · next more =>
      have field := reads.field whole more
      obtain ⟨long, inside, numbered⟩ := reads
      have offset : wrap64 (srcOffset + pos) = srcOffset + pos := Nat.mod_eq_of_lt (by omega)
      have next : wrap64 (pos + 8) = pos + 8 := Nat.mod_eq_of_lt (by omega)
      rw [offset, next, extractBits_eq field, ih _ (by omega) (by omega)]
    · rfl

/-- **`copy_bits`** stores into `num_bits / 8 + 1` bytes, from the first one of the
destination on, the bits of the source from `src_offset` on. -/
theorem copyBits_spec (reads : Source length srcOffset numBits) (mem : Memory) (dest : ℕ)
    (source : Memory) (src : ℕ) :
    ∃ mem' pos,
      copyBitsLoop source src srcOffset numBits (numBits + 2) 0 dest mem =
        some (mem', pos, dest + (numBits / 8 + 1)) ∧
      copyBits mem dest source src srcOffset numBits = some mem' ∧
      ∀ p, bit mem' p =
        if 8 * dest ≤ p ∧ p < 8 * (dest + (numBits / 8 + 1)) then
          bit source (8 * src + srcOffset + (p - 8 * dest))
        else bit mem p := by
  have loop := @copyBitsLoop_eq length numBits srcOffset reads source src (numBits + 1) 0 dest mem
    (by omega) (Nat.dvd_zero 8)
  obtain ⟨pos, result, beyond⟩ := @copyBitsLoop_spec source src srcOffset numBits
    (numBits + 1) 0 dest mem (by omega) (by omega) (by omega)
  rw [Nat.sub_zero, Nat.add_div_right _ (by decide)] at result
  refine ⟨_, pos, loop.trans (congrArg some result), ?_, fun p => ?_⟩
  · rw [copyBits, loop, result]
    simp only [Option.map_some, if_neg (not_lt.mpr beyond.le)]
  · rw [← bit_copyBits mem dest source src srcOffset numBits p, Packed.copyBits, result]
    simp only [if_neg (not_lt.mpr beyond.le)]

/-- **The bit field helpers are exact and local.**  The dword of a field of up to 24 bits
lies in its array and ends with the byte of the last bit, or is the first one.
`extract_bits` reads nothing else and returns the big-endian value of the field; `put_bits`
writes nothing else, makes `extract_bits` return what was put, and leaves all other bits.
`copy_bits` returns after it has stored into `num_bits / 8 + 1` bytes, which begin with the
bits of the source. -/
theorem bit_field_helpers_exact :
    (∀ (mem : Memory) (bitstring length startBit numBits : ℕ), Field length startBit numBits →
      dwordStartByte startBit numBits + 4 ≤ length ∧
      (dwordStartByte startBit numBits + 3 = (startBit + numBits - 1) / 8 ∨
        dwordStartByte startBit numBits = 0) ∧
      (extractBits mem bitstring startBit numBits).toNat =
        bitsValue mem (8 * bitstring + startBit) numBits ∧
      (∀ mem' : Memory,
        (∀ i < 4, mem (bitstring + dwordStartByte startBit numBits + i) =
          mem' (bitstring + dwordStartByte startBit numBits + i)) →
        extractBits mem' bitstring startBit numBits = extractBits mem bitstring startBit numBits ∧
          ∀ bits x, putBits mem bitstring startBit numBits bits x =
            if bitstring + dwordStartByte startBit numBits ≤ x ∧
                x < bitstring + dwordStartByte startBit numBits + 4 then
              putBits mem' bitstring startBit numBits bits x
            else mem x) ∧
      ∀ bits : BitVec 32, bits.toNat < 2 ^ numBits →
        extractBits (putBits mem bitstring startBit numBits bits) bitstring startBit numBits =
            bits ∧
          ∀ p, ¬ (8 * bitstring + startBit ≤ p ∧ p < 8 * bitstring + startBit + numBits) →
            bit (putBits mem bitstring startBit numBits bits) p = bit mem p) ∧
    ∀ (mem : Memory) (dest : ℕ) (source : Memory) (src length srcOffset numBits : ℕ),
      Source length srcOffset numBits →
      ∃ mem' pos,
        copyBitsLoop source src srcOffset numBits (numBits + 2) 0 dest mem =
          some (mem', pos, dest + (numBits / 8 + 1)) ∧
        copyBits mem dest source src srcOffset numBits = some mem' ∧
        (∀ k < numBits, bit mem' (8 * dest + k) = bit source (8 * src + srcOffset + k)) ∧
        ∀ x, (dest ≤ x ∧ x < dest + (numBits / 8 + 1) → ∀ i < 8,
            bit mem' (8 * x + i) = bit source (8 * src + srcOffset + (8 * (x - dest) + i))) ∧
          (¬ (dest ≤ x ∧ x < dest + (numBits / 8 + 1)) → mem' x = mem x) := by
  refine ⟨fun mem bitstring length startBit numBits field => ?_,
    fun mem dest source src length srcOffset numBits reads => ?_⟩
  · obtain ⟨inside, last⟩ := dword_inside field
    refine ⟨inside, last, toNat_extractBits field mem bitstring, fun mem' same => ?_,
      fun bits small => ⟨extractBits_putBits field mem bitstring small, fun p outside => ?_⟩⟩
    · exact ⟨(extractBits_congr same).symm, fun bits => putBits_local bits same⟩
    · rw [putBits_eq field, bit_putBits _ _ ⟨field.nonempty, field.small⟩ small, if_neg outside]
  · obtain ⟨mem', pos, loop, result, bits⟩ := copyBits_spec reads mem dest source src
    refine ⟨mem', pos, loop, result, fun k inside => ?_, fun x =>
      ⟨fun inside i hi => ?_, fun outside => byte_eq_of_bit fun i hi => ?_⟩⟩
    · rw [bits, if_pos (by omega), Nat.add_sub_cancel_left]
    · rw [bits, if_pos (by omega), show 8 * x + i - 8 * dest = 8 * (x - dest) + i by omega]
    · rw [bits, if_neg (by omega)]

end CuckooTrie.Packed.Word
