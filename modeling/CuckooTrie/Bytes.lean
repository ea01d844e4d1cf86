import Mathlib.Data.Nat.Bitwise

/-!
# Byte memory and bit instructions

A small library for programs that read and write words of several bytes.

* `Memory` is a memory of bytes.  `load` and `store` are the little-endian accesses of
  `n` bytes, and `bswap` reverses the bytes of a word.
* `bit mem p` counts the bits of a memory from the most significant bit of its first
  byte.  In this order a swapped load is a run of bits (`getLsbD_bswap_load`) and a swapped
  store replaces one (`bit_store_bswap`), at every address.
* `bitLE mem q` counts them from the least significant bit of the first byte, and in this
  order plain loads and stores do the same (`getLsbD_load_bitLE`, `bitLE_store`).
* `bzhi`, `bextr` and `pdep` are the bit instructions of the same names.
-/

namespace Bytes

/-- A memory of bytes. -/
abbrev Memory := ℕ → UInt8

/-- A word given by its bits. -/
def ofBits {w : ℕ} (f : Fin w → Bool) : BitVec w := BitVec.ofNat w (Nat.ofBits f)

/-- The bits of a memory, those of a byte from the most significant on. -/
def bit (mem : Memory) (p : ℕ) : Bool := (mem (p / 8)).toNat.testBit (7 - p % 8)

/-- The bits of a memory, those of a byte from the least significant on. -/
def bitLE (mem : Memory) (q : ℕ) : Bool := (mem (q / 8)).toNat.testBit (q % 8)

/-- The little-endian load of `n` bytes. -/
def load (n : ℕ) (mem : Memory) (a : ℕ) : BitVec (8 * n) :=
  ofBits fun i => (mem (a + i / 8)).toNat.testBit (i % 8)

/-- The little-endian store of `n` bytes. -/
def store {n : ℕ} (mem : Memory) (a : ℕ) (v : BitVec (8 * n)) : Memory :=
  fun x => if a ≤ x ∧ x < a + n then UInt8.ofBitVec (v.extractLsb' (8 * (x - a)) 8) else mem x

/-- The bytes of a word in the other order. -/
def bswap {n : ℕ} (v : BitVec (8 * n)) : BitVec (8 * n) :=
  ofBits fun i => v.getLsbD (8 * (n - 1 - i / 8) + i % 8)

/-- `bzhi`: the bits from one on cleared. -/
def bzhi {w : ℕ} (x : BitVec w) (n : ℕ) : BitVec w := x &&& BitVec.ofNat w (2 ^ n - 1)

/-- `bextr`: some bits from one on, moved to the low end. -/
def bextr {w : ℕ} (x : BitVec w) (start len : ℕ) : BitVec w := bzhi (x >>> start) len

/-- `pdep`: the low bits of a word, deposited in turn where the mask has its bits. -/
def pdep {w : ℕ} (x mask : BitVec w) : BitVec w :=
  ofBits fun i =>
    mask.getLsbD i && x.getLsbD ((List.range i).countP fun k => mask.getLsbD k)

/-- The number some bits spell, the first of them as the most significant. -/
def bitsValue (mem : Memory) (p : ℕ) : ℕ → ℕ
  | 0 => 0
  | n + 1 => 2 * bitsValue mem p n + (bit mem (p + n)).toNat

/-- The number some bits spell in little-endian order. -/
def bitsValueLE (mem : Memory) (q n : ℕ) : ℕ := Nat.ofBits fun i : Fin n => bitLE mem (q + i)

/-- The bytes of a range of memory. -/
def bytesAt (mem : Memory) (a size : ℕ) : List UInt8 :=
  (List.range size).map fun i => mem (a + i)

/-- A memory some bytes are copied to. -/
def overwrite (mem : Memory) (a : ℕ) (bytes : List UInt8) : Memory :=
  fun x => if a ≤ x ∧ x < a + bytes.length then bytes.getD (x - a) 0 else mem x

/-- A number as `n` bytes in little-endian order. -/
def leBytes (n x : ℕ) : List UInt8 := (List.range n).map fun i => UInt8.ofNat (x / 256 ^ i)

/-- The word with a one in each of its `n` bytes. -/
def ones : ℕ → ℕ
  | 0 => 0
  | n + 1 => 256 * ones n + 1

/-! ## Ranges of memory -/

@[simp] theorem length_bytesAt (mem : Memory) (a size : ℕ) : (bytesAt mem a size).length = size := by
  rw [bytesAt, List.length_map, List.length_range]

theorem getD_bytesAt (mem : Memory) (a size i : ℕ) :
    (bytesAt mem a size).getD i 0 = if i < size then mem (a + i) else 0 := by
  rw [bytesAt, List.getD_eq_getElem?_getD, List.getElem?_map]
  split
  · next inside => rw [List.getElem?_range inside]; rfl
  · next outside => rw [List.getElem?_eq_none (by simpa using outside)]; rfl

theorem bytesAt_drop (mem : Memory) (a size n : ℕ) :
    (bytesAt mem a size).drop n = bytesAt mem (a + n) (size - n) := by
  unfold bytesAt
  apply List.ext_getElem
  · simp
  · intro i _ _
    simp [Nat.add_assoc]

theorem bytesAt_congr {mem mem' : Memory} {a size : ℕ}
    (same : ∀ x, a ≤ x → x < a + size → mem x = mem' x) :
    bytesAt mem a size = bytesAt mem' a size :=
  List.map_congr_left fun _ mem => same _ (Nat.le_add_right _ _)
    (Nat.add_lt_add_left (List.mem_range.mp mem) a)

theorem bytesAt_add (mem : Memory) (a m n : ℕ) :
    bytesAt mem a (m + n) = bytesAt mem a m ++ bytesAt mem (a + m) n := by
  unfold bytesAt
  rw [List.range_add, List.map_append, List.map_map]
  simp [Nat.add_assoc, Function.comp_def]

theorem overwrite_of_not_mem {mem : Memory} {a x : ℕ} {bytes : List UInt8}
    (outside : ¬ (a ≤ x ∧ x < a + bytes.length)) : overwrite mem a bytes x = mem x :=
  if_neg outside

/-- **What was copied is there.** -/
theorem bytesAt_overwrite (mem : Memory) (a : ℕ) (bytes : List UInt8) :
    bytesAt (overwrite mem a bytes) a bytes.length = bytes := by
  apply List.ext_getElem
  · simp
  · intro i _ inside
    simp [bytesAt, overwrite, inside]

/-- Bytes that were not copied to. -/
theorem bytesAt_overwrite_of_disjoint (mem : Memory) {a b size : ℕ} {bytes : List UInt8}
    (disjoint : a + size ≤ b ∨ b + bytes.length ≤ a) :
    bytesAt (overwrite mem b bytes) a size = bytesAt mem a size :=
  bytesAt_congr fun _ _ _ => overwrite_of_not_mem (by omega)

@[simp] theorem length_leBytes (n x : ℕ) : (leBytes n x).length = n := by
  rw [leBytes, List.length_map, List.length_range]

/-! ## Bits of memory -/

theorem testBit_toNat_of_ge (b : UInt8) {i : ℕ} (h : 8 ≤ i) : b.toNat.testBit i = false :=
  Nat.testBit_lt_two_pow (lt_of_lt_of_le b.toNat_lt (Nat.pow_le_pow_right (by decide) h))

/-- The bits of a byte. -/
theorem bit_byte (mem : Memory) (a : ℕ) {i : ℕ} (h : i < 8) :
    bit mem (8 * a + i) = (mem a).toNat.testBit (7 - i) := by
  rw [bit, show (8 * a + i) / 8 = a by omega, show (8 * a + i) % 8 = i by omega]

theorem testBit_byte (mem : Memory) (a : ℕ) {i : ℕ} (h : i < 8) :
    (mem a).toNat.testBit i = bit mem (8 * a + (7 - i)) := by
  rw [bit_byte mem a (by omega), show 7 - (7 - i) = i by omega]

/-- The bits of a byte determine it. -/
theorem byte_eq_of_bit {mem mem' : Memory} {a a' : ℕ}
    (same : ∀ i < 8, bit mem (8 * a + i) = bit mem' (8 * a' + i)) : mem a = mem' a' := by
  refine UInt8.toNat_inj.mp (Nat.eq_of_testBit_eq fun i => ?_)
  by_cases h : i < 8
  · rw [testBit_byte mem a h, testBit_byte mem' a' h, same _ (by omega)]
  · rw [testBit_toNat_of_ge _ (not_lt.mp h), testBit_toNat_of_ge _ (not_lt.mp h)]

/-! ## Loads and stores -/

/-- **The bits of the number** that some bits spell. -/
theorem testBit_bitsValue (mem : Memory) (p n i : ℕ) :
    (bitsValue mem p n).testBit i = (decide (i < n) && bit mem (p + (n - 1 - i))) := by
  induction n generalizing i with
  | zero => simp [bitsValue]
  | succ n ih =>
    have half : (2 * bitsValue mem p n + (bit mem (p + n)).toNat) / 2 = bitsValue mem p n := by
      have := Bool.toNat_lt (bit mem (p + n))
      omega
    rw [bitsValue]
    cases i with
    | zero =>
      rw [Nat.testBit_zero, Nat.mul_add_mod, decide_eq_true n.succ_pos, Bool.true_and,
        Nat.add_sub_cancel, Nat.sub_zero]
      cases bit mem (p + n) <;> rfl
    | succ i =>
      rw [Nat.testBit_succ, half, ih, show n + 1 - 1 - (i + 1) = n - 1 - i by omega]
      congr 1
      exact decide_eq_decide.mpr (by omega)

theorem getLsbD_ofBits {w : ℕ} (f : Fin w → Bool) {i : ℕ} (h : i < w) :
    (ofBits f).getLsbD i = f ⟨i, h⟩ := by
  rw [ofBits, BitVec.getLsbD_ofNat, decide_eq_true h, Bool.true_and, Nat.testBit_ofBits_lt f i h]

theorem getLsbD_load (n : ℕ) (mem : Memory) (a : ℕ) {i : ℕ} (h : i < 8 * n) :
    (load n mem a).getLsbD i = (mem (a + i / 8)).toNat.testBit (i % 8) := by
  rw [load, getLsbD_ofBits _ h]

/-- A load depends on the bytes it reads. -/
theorem load_congr {n : ℕ} {mem mem' : Memory} {a : ℕ}
    (same : ∀ x, a ≤ x → x < a + n → mem x = mem' x) : load n mem a = load n mem' a := by
  apply BitVec.eq_of_getLsbD_eq
  intro i hi
  rw [getLsbD_load _ _ _ hi, getLsbD_load _ _ _ hi, same _ (by omega) (by omega)]

theorem getLsbD_bswap {n : ℕ} (v : BitVec (8 * n)) {i : ℕ} (h : i < 8 * n) :
    (bswap v).getLsbD i = v.getLsbD (8 * (n - 1 - i / 8) + i % 8) := by
  rw [bswap, getLsbD_ofBits _ h]

/-- **A swapped load** reads a run of bits, the first of them as the most significant. -/
theorem getLsbD_bswap_load (n : ℕ) (mem : Memory) (a : ℕ) {i : ℕ} (h : i < 8 * n) :
    (bswap (load n mem a)).getLsbD i = bit mem (8 * a + (8 * n - 1 - i)) := by
  rw [getLsbD_bswap _ h, getLsbD_load _ _ _ (by omega), bit]
  congr 2
  · congr 1
    omega
  · omega

theorem store_of_not_mem {n : ℕ} {mem : Memory} {a x : ℕ} {v : BitVec (8 * n)}
    (outside : ¬ (a ≤ x ∧ x < a + n)) : store mem a v x = mem x := if_neg outside

theorem testBit_store {n : ℕ} {mem : Memory} {a x : ℕ} {v : BitVec (8 * n)}
    (inside : a ≤ x ∧ x < a + n) {i : ℕ} (h : i < 8) :
    (store mem a v x).toNat.testBit i = v.getLsbD (8 * (x - a) + i) := by
  rw [store, if_pos inside]
  change (v.extractLsb' (8 * (x - a)) 8).getLsbD i = _
  rw [BitVec.getLsbD_extractLsb', decide_eq_true h, Bool.true_and]

/-- **A swapped store** replaces a run of bits, by those of the word from its most
significant on. -/
theorem bit_store_bswap {n : ℕ} (mem : Memory) (a : ℕ) (v : BitVec (8 * n)) (p : ℕ) :
    bit (store mem a (bswap v)) p =
      if 8 * a ≤ p ∧ p < 8 * (a + n) then v.getLsbD (8 * (a + n) - 1 - p) else bit mem p := by
  rw [bit]
  by_cases inside : 8 * a ≤ p ∧ p < 8 * (a + n)
  · rw [if_pos inside, testBit_store (by omega) (by omega), getLsbD_bswap _ (by omega)]
    congr 1
    omega
  · rw [if_neg inside, store_of_not_mem (by omega), bit]

/-- The bytes a swapped store leaves. -/
theorem store_bswap_apply {n : ℕ} (mem : Memory) (a : ℕ) (v : BitVec (8 * n)) {j : ℕ} (h : j < n) :
    store mem a (bswap v) (a + j) = UInt8.ofBitVec (v.extractLsb' (8 * (n - 1 - j)) 8) := by
  refine UInt8.toNat_inj.mp (Nat.eq_of_testBit_eq fun i => ?_)
  by_cases low : i < 8
  · rw [testBit_store (by omega) low, getLsbD_bswap _ (by omega)]
    change _ = (v.extractLsb' (8 * (n - 1 - j)) 8).getLsbD i
    rw [BitVec.getLsbD_extractLsb', decide_eq_true low, Bool.true_and]
    congr 1
    omega
  · rw [testBit_toNat_of_ge _ (not_lt.mp low), testBit_toNat_of_ge _ (not_lt.mp low)]

/-! ## Bits in little-endian order -/

theorem bitLE_byte (mem : Memory) (a : ℕ) {i : ℕ} (h : i < 8) :
    bitLE mem (8 * a + i) = (mem a).toNat.testBit i := by
  rw [bitLE, show (8 * a + i) / 8 = a by omega, show (8 * a + i) % 8 = i by omega]

theorem bitLE_eq_bit (mem : Memory) (q : ℕ) : bitLE mem q = bit mem (8 * (q / 8) + (7 - q % 8)) := by
  rw [bit_byte _ _ (by omega), bitLE, show 7 - (7 - q % 8) = q % 8 by omega]

/-- The bits of a byte determine it. -/
theorem byte_eq_of_bitLE {mem mem' : Memory} {a a' : ℕ}
    (same : ∀ i < 8, bitLE mem (8 * a + i) = bitLE mem' (8 * a' + i)) : mem a = mem' a' := by
  refine UInt8.toNat_inj.mp (Nat.eq_of_testBit_eq fun i => ?_)
  by_cases low : i < 8
  · rw [← bitLE_byte _ _ low, same i low, bitLE_byte _ _ low]
  · rw [testBit_toNat_of_ge _ (not_lt.mp low), testBit_toNat_of_ge _ (not_lt.mp low)]

/-- The bits of a memory determine it. -/
theorem memory_ext {mem mem' : Memory} (same : ∀ q, bitLE mem q = bitLE mem' q) : mem = mem' :=
  funext fun _ => byte_eq_of_bitLE fun _ _ => same _

/-- A load reads a run of bits. -/
theorem getLsbD_load_bitLE (n : ℕ) (mem : Memory) (a : ℕ) {i : ℕ} (h : i < 8 * n) :
    (load n mem a).getLsbD i = bitLE mem (8 * a + i) := by
  rw [getLsbD_load _ _ _ h, bitLE, show (8 * a + i) / 8 = a + i / 8 by omega,
    show (8 * a + i) % 8 = i % 8 by omega]

/-- **A store** replaces a run of bits. -/
theorem bitLE_store {n : ℕ} (mem : Memory) (a : ℕ) (v : BitVec (8 * n)) (q : ℕ) :
    bitLE (store mem a v) q =
      if 8 * a ≤ q ∧ q < 8 * (a + n) then v.getLsbD (q - 8 * a) else bitLE mem q := by
  rw [bitLE]
  by_cases inside : 8 * a ≤ q ∧ q < 8 * (a + n)
  · rw [if_pos inside, testBit_store (by omega) (by omega)]
    congr 1
    omega
  · rw [if_neg inside, store_of_not_mem (by omega), bitLE]

/-- **What was stored is loaded.** -/
theorem load_store {n : ℕ} (mem : Memory) (a : ℕ) (v : BitVec (8 * n)) :
    load n (store mem a v) a = v := by
  refine BitVec.eq_of_getLsbD_eq fun i hi => ?_
  rw [getLsbD_load_bitLE _ _ _ hi, bitLE_store, if_pos (by omega), Nat.add_sub_cancel_left]

theorem load_store_of_disjoint {n m : ℕ} (mem : Memory) {a b : ℕ} (v : BitVec (8 * m))
    (disjoint : a + n ≤ b ∨ b + m ≤ a) : load n (store mem b v) a = load n mem a :=
  load_congr fun _ _ _ => store_of_not_mem (by omega)

/-- A store of what was loaded copies the bytes. -/
theorem store_load (n : ℕ) (mem src : Memory) (a b x : ℕ) :
    store mem a (load n src b) x = if a ≤ x ∧ x < a + n then src (b + (x - a)) else mem x := by
  by_cases inside : a ≤ x ∧ x < a + n
  · rw [if_pos inside]
    refine byte_eq_of_bitLE fun i hi => ?_
    rw [bitLE_store, if_pos (by omega), getLsbD_load_bitLE _ _ _ (by omega)]
    congr 1
    omega
  · rw [if_neg inside, store_of_not_mem inside]

/-- The first byte of a word is its low byte. -/
theorem toNat_byte_load {n : ℕ} (mem : Memory) (a : ℕ) (positive : 0 < n) :
    (mem a).toNat = (load n mem a).toNat % 256 := by
  refine Nat.eq_of_testBit_eq fun i => ?_
  rw [show 256 = 2 ^ 8 from rfl, Nat.testBit_mod_two_pow]
  by_cases low : i < 8
  · rw [decide_eq_true low, Bool.true_and]
    exact (bitLE_byte mem a low).symm.trans (getLsbD_load_bitLE n mem a (by omega)).symm
  · rw [decide_eq_false low, Bool.false_and, testBit_toNat_of_ge _ (not_lt.mp low)]

/-- The other bytes of a word do not depend on its first one. -/
theorem load_div_congr {n : ℕ} {mem mem' : Memory} {a : ℕ}
    (same : ∀ x, a < x → x < a + n → mem x = mem' x) :
    (load n mem a).toNat / 256 = (load n mem' a).toNat / 256 := by
  refine Nat.eq_of_testBit_eq fun i => ?_
  rw [show 256 = 2 ^ 8 from rfl, Nat.testBit_div_two_pow, Nat.testBit_div_two_pow]
  change (load n mem a).getLsbD (i + 8) = (load n mem' a).getLsbD (i + 8)
  by_cases inside : i + 8 < 8 * n
  · rw [getLsbD_load _ _ _ inside, getLsbD_load _ _ _ inside, same _ (by omega) (by omega)]
  · rw [BitVec.getLsbD_of_ge _ _ (not_lt.mp inside), BitVec.getLsbD_of_ge _ _ (not_lt.mp inside)]

theorem testBit_bitsValueLE (mem : Memory) (q n i : ℕ) :
    (bitsValueLE mem q n).testBit i = (decide (i < n) && bitLE mem (q + i)) := by
  by_cases inside : i < n
  · rw [bitsValueLE, Nat.testBit_ofBits_lt _ i inside, decide_eq_true inside, Bool.true_and]
  · rw [bitsValueLE, Nat.testBit_ofBits_ge _ i (not_lt.mp inside), decide_eq_false inside,
      Bool.false_and]

/-- The number is in its bits. -/
theorem bitsValueLE_congr {mem mem' : Memory} {q n : ℕ}
    (same : ∀ p, q ≤ p → p < q + n → bitLE mem' p = bitLE mem p) :
    bitsValueLE mem' q n = bitsValueLE mem q n :=
  congrArg Nat.ofBits (funext fun i => same _ (Nat.le_add_right _ _) (by omega))

/-- Bits that are those of a number spell it. -/
theorem bitsValueLE_eq {mem : Memory} {q n value : ℕ} (small : value < 2 ^ n)
    (bits : ∀ i < n, bitLE mem (q + i) = value.testBit i) : bitsValueLE mem q n = value := by
  refine Nat.eq_of_testBit_eq fun i => ?_
  rw [testBit_bitsValueLE]
  by_cases inside : i < n
  · rw [decide_eq_true inside, Bool.true_and, bits i inside]
  · rw [decide_eq_false inside, Bool.false_and, Nat.testBit_lt_two_pow
      (lt_of_lt_of_le small (Nat.pow_le_pow_right (by decide) (not_lt.mp inside)))]

theorem toNat_load (n : ℕ) (mem : Memory) (a : ℕ) :
    (load n mem a).toNat = bitsValueLE mem (8 * a) (8 * n) := by
  refine Nat.eq_of_testBit_eq fun i => ?_
  rw [testBit_bitsValueLE]
  change (load n mem a).getLsbD i = _
  by_cases inside : i < 8 * n
  · rw [decide_eq_true inside, Bool.true_and, getLsbD_load_bitLE _ _ _ inside]
  · rw [decide_eq_false inside, Bool.false_and, BitVec.getLsbD_of_ge _ _ (not_lt.mp inside)]

/-- The bits of a digit. -/
theorem testBit_ofNat_div (x i : ℕ) {k : ℕ} (hk : k < 8) :
    (UInt8.ofNat (x / 256 ^ i)).toNat.testBit k = x.testBit (8 * i + k) := by
  rw [UInt8.toNat_ofNat', Nat.testBit_mod_two_pow, decide_eq_true hk,
    Bool.true_and, show 256 = 2 ^ 8 from rfl, ← Nat.pow_mul, Nat.testBit_div_two_pow, Nat.add_comm]

/-- **The bytes of a word** are the digits of its number. -/
theorem bytesAt_store {n : ℕ} (mem : Memory) (a : ℕ) (v : BitVec (8 * n)) :
    bytesAt (store mem a v) a n = leBytes n v.toNat := by
  refine List.map_congr_left fun i inside => ?_
  have lt := List.mem_range.mp inside
  refine UInt8.toNat_inj.mp (Nat.eq_of_testBit_eq fun k => ?_)
  by_cases hk : k < 8
  · rw [testBit_store (by omega) hk, testBit_ofNat_div _ _ hk, Nat.add_sub_cancel_left]
    rfl
  · rw [testBit_toNat_of_ge _ (not_lt.mp hk), testBit_toNat_of_ge _ (not_lt.mp hk)]

/-- **Bytes that are the digits of a number** are loaded as the number. -/
theorem toNat_load_of_bytesAt {n x : ℕ} {mem : Memory} {a : ℕ} (small : x < 256 ^ n)
    (bytes : bytesAt mem a n = leBytes n x) : (load n mem a).toNat = x := by
  have byte (i : ℕ) (hi : i < n) : mem (a + i) = UInt8.ofNat (x / 256 ^ i) :=
    List.map_inj_left.mp bytes i (List.mem_range.mpr hi)
  refine Nat.eq_of_testBit_eq fun k => ?_
  change (load n mem a).getLsbD k = _
  by_cases hk : k < 8 * n
  · rw [getLsbD_load _ _ _ hk, byte _ (by omega), testBit_ofNat_div _ _ (by omega)]
    congr 1
    omega
  · rw [BitVec.getLsbD_of_ge _ _ (not_lt.mp hk), Nat.testBit_lt_two_pow]
    refine lt_of_lt_of_le small ?_
    rw [show 256 = 2 ^ 8 from rfl, ← Nat.pow_mul]
    exact Nat.pow_le_pow_right (by decide) (not_lt.mp hk)

/-- Every word is the digits of a number. -/
theorem bytesAt_eq_leBytes (n : ℕ) (mem : Memory) (a : ℕ) :
    bytesAt mem a n = leBytes n (load n mem a).toNat := by
  rw [← bytesAt_store mem a]
  refine bytesAt_congr fun x ge lt => ?_
  rw [store_load, if_pos ⟨ge, lt⟩, Nat.add_sub_cancel' ge]

/-- Some bits of a byte. -/
theorem byte_div_mod (mem : Memory) (a : ℕ) {k n : ℕ} (inside : k + n ≤ 8) :
    (mem a).toNat / 2 ^ k % 2 ^ n = bitsValueLE mem (8 * a + k) n := by
  refine Nat.eq_of_testBit_eq fun i => ?_
  rw [Nat.testBit_mod_two_pow, Nat.testBit_div_two_pow, testBit_bitsValueLE]
  by_cases hi : i < n
  · rw [Nat.add_assoc, bitLE_byte _ _ (by omega), Nat.add_comm k i]
  · rw [decide_eq_false hi, Bool.false_and, Bool.false_and]

/-- The word whose low bits are set. -/
theorem getLsbD_lowMask {w n i : ℕ} (hn : n < w) (hi : i < w) :
    ((1#w <<< n) - 1#w).getLsbD i = decide (i < n) := by
  have lt : 2 ^ n < 2 ^ w := Nat.pow_lt_pow_right (by decide) hn
  have one : 1 < 2 ^ w := lt_of_le_of_lt Nat.one_le_two_pow lt
  have ones : (1#w <<< n) - 1#w = BitVec.ofNat w (2 ^ n - 1) := by
    rw [← BitVec.ofNat_sub_ofNat_of_le _ _ one Nat.one_le_two_pow]
    congr 1
    apply BitVec.eq_of_toNat_eq
    rw [BitVec.toNat_shiftLeft, BitVec.toNat_ofNat, BitVec.toNat_ofNat, Nat.shiftLeft_eq,
      Nat.mod_eq_of_lt one, Nat.one_mul]
  rw [ones, BitVec.getLsbD_ofNat, Nat.testBit_two_pow_sub_one, decide_eq_true hi, Bool.true_and]

/-- The word that has one bit set. -/
theorem getLsbD_one_shiftLeft {w : ℕ} (k i : ℕ) (inside : k < w) :
    (1#w <<< k).getLsbD i = decide (i = k) := by
  rw [BitVec.getLsbD_shiftLeft, BitVec.getLsbD_one]
  by_cases h : i < w <;> grind

/-- Setting one bit of a word in place. -/
theorem bitLE_store_or_one (n : ℕ) (mem : Memory) (a : ℕ) {k : ℕ} (inside : k < 8 * n) (q : ℕ) :
    bitLE (store mem a (load n mem a ||| 1#(8 * n) <<< k)) q =
      (bitLE mem q || decide (q = 8 * a + k)) := by
  rw [bitLE_store]
  by_cases here : 8 * a ≤ q ∧ q < 8 * (a + n)
  · rw [if_pos here, BitVec.getLsbD_or, getLsbD_one_shiftLeft _ _ inside,
      getLsbD_load_bitLE _ _ _ (by omega), show 8 * a + (q - 8 * a) = q by omega]
    congr 1
    exact decide_eq_decide.mpr (by omega)
  · rw [if_neg here, decide_eq_false (by omega), Bool.or_false]

/-! ## The instructions -/

theorem getLsbD_bzhi {w : ℕ} (x : BitVec w) (n i : ℕ) :
    (bzhi x n).getLsbD i = (x.getLsbD i && decide (i < n)) := by
  rw [bzhi, BitVec.getLsbD_and, BitVec.getLsbD_ofNat, Nat.testBit_two_pow_sub_one]
  by_cases h : i < w
  · rw [decide_eq_true h, Bool.true_and]
  · rw [BitVec.getLsbD_of_ge _ _ (not_lt.mp h), Bool.false_and, Bool.false_and]

theorem getLsbD_bextr {w : ℕ} (x : BitVec w) (start len i : ℕ) :
    (bextr x start len).getLsbD i = (x.getLsbD (start + i) && decide (i < len)) := by
  rw [bextr, getLsbD_bzhi, BitVec.getLsbD_ushiftRight]

theorem getLsbD_pdep {w : ℕ} (x mask : BitVec w) {i : ℕ} (h : i < w) :
    (pdep x mask).getLsbD i =
      (mask.getLsbD i && x.getLsbD ((List.range i).countP fun k => mask.getLsbD k)) := by
  rw [pdep, getLsbD_ofBits _ h]

/-- **One added to each byte** stays inside the bytes, if none of them is 255. -/
theorem add_ones_byte {n x : ℕ} (small : ∀ k < n, x / 256 ^ k % 256 < 255) {k : ℕ} (h : k < n) :
    (x + ones n) / 256 ^ k % 256 = x / 256 ^ k % 256 + 1 := by
  induction n generalizing x k with
  | zero => omega
  | succ n ih =>
    have first : x % 256 < 255 := by simpa using small 0 (by omega)
    rcases k with _ | k
    · rw [ones, Nat.pow_zero, Nat.div_one, Nat.div_one]
      omega
    · have rest : (x + ones (n + 1)) / 256 = x / 256 + ones n := by
        rw [ones]
        omega
      rw [Nat.pow_succ', ← Nat.div_div_eq_div_mul, ← Nat.div_div_eq_div_mul, rest]
      refine ih (fun k hk => ?_) (by omega)
      rw [Nat.div_div_eq_div_mul, ← Nat.pow_succ']
      exact small (k + 1) (by omega)

end Bytes
