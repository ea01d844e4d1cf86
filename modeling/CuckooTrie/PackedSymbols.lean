import CuckooTrie.Bytes
import CuckooTrie.Prefetcher

/-!
# The fast symbol encoder, on memory

`key_to_symbols` as it reads a key from memory: 64-bit loads that reach past the end of the
key, or before its start where the end may be in another page, and a byte swap, a shift
and a parallel bit deposit for eight symbols at a time.  It stores what the encoder of
`Prefetcher` stores (`keyToSymbols_refines`), whatever the address of the key and the bytes
around it, and so the symbols of the key (`key_to_symbols_encodes`).
-/

namespace CuckooTrie.Packed

open Bytes

/-- `read_qword_zfill`.  `size` is not zero. -/
def readQwordZfill (mem : Memory) (source size : ℕ) : BitVec 64 :=
  if size ≥ 8 then load 8 mem source
  else if source &&& 0xFFF > 8 then load 8 mem (source - 8 + size) >>> (64 - 8 * size)
  else bzhi (load 8 mem source) (8 * size)

/-- The store of `key_to_symbols` for one `key_qword`. -/
def symbolsQword (keyQword : BitVec 64) : BitVec 64 :=
  pdep keyQword (BitVec.ofNat 64 (ones 8 * (fanout - 1))) + BitVec.ofNat 64 (ones 8)

/-- The loop of `key_to_symbols`.  The bytes left bound the number of iterations, and the
array of symbols is an object of its own. -/
def keyToSymbolsLoop (mem : Memory) : ℕ → ℕ → ℕ → ℕ → Memory → Memory
  | 0, _, _, _, symbols => symbols
  | fuel + 1, keyPtr, bytesLeft, nextSymPtr, symbols =>
    if bytesLeft > 0 then
      let keyQword : BitVec 64 := @bswap 8 (readQwordZfill mem keyPtr bytesLeft)
      let keyQword := keyQword >>> (64 - 8 * bitsPerSymbol)
      let symbols := @store 8 symbols nextSymPtr (bswap (symbolsQword keyQword))
      keyToSymbolsLoop mem fuel (keyPtr + bitsPerSymbol) (bytesLeft - bitsPerSymbol)
        (nextSymPtr + 8) symbols
    else symbols

/-- `key_to_symbols`. -/
def keyToSymbols (mem : Memory) (key size : ℕ) (symbols : Memory) : Memory :=
  keyToSymbolsLoop mem size key size 0 symbols

/-- `key_symbols` when `prefetcher_start` starts hashing. -/
def prefetcherSymbols (mem : Memory) (keySize keyBytes : ℕ) (symbols : Memory) : Memory :=
  let numKeySymbols := (keySize * 8 + bitsPerSymbol - 1) / bitsPerSymbol + 1
  Function.update (keyToSymbols mem keyBytes keySize symbols) (numKeySymbols - 1)
    (UInt8.ofNat symbolEnd)

/-! ## The zero-filled read -/

/-- **`read_qword_zfill`** reads the bytes of the key in all of its branches, with zeros
after them. -/
theorem getLsbD_readQwordZfill (mem : Memory) (source : ℕ) {size i : ℕ} (some : 0 < size)
    (h : i < 64) :
    (readQwordZfill mem source size).getLsbD i =
      (decide (i / 8 < size) && (mem (source + i / 8)).toNat.testBit (i % 8)) := by
  unfold readQwordZfill
  split
  · rw [getLsbD_load 8 mem source h, decide_eq_true (show i / 8 < size by omega), Bool.true_and]
  · split
    · next inPage =>
      have masked : source &&& 0xFFF = source % 4096 := Nat.and_two_pow_sub_one_eq_mod source 12
      rw [BitVec.getLsbD_ushiftRight]
      by_cases inside : i / 8 < size
      · rw [getLsbD_load 8 mem _ (by omega), decide_eq_true inside, Bool.true_and,
          show source - 8 + size + (64 - 8 * size + i) / 8 = source + i / 8 by omega,
          show (64 - 8 * size + i) % 8 = i % 8 by omega]
      · rw [decide_eq_false inside, Bool.false_and]
        exact BitVec.getLsbD_of_ge _ _ (by omega)
    · rw [getLsbD_bzhi, getLsbD_load 8 mem source h, Bool.and_comm]
      congr 1
      exact decide_eq_decide.mpr (by omega)

/-- A qword of the key, with its most significant byte first. -/
theorem testBit_keyQword (mem : Memory) (source : ℕ) {size k : ℕ} (some : 0 < size) (h : k < 40) :
    ((@bswap 8 (readQwordZfill mem source size) : BitVec 64) >>> (64 - 8 * bitsPerSymbol)).getLsbD
      k = (keyQword (bytesAt mem source size)).testBit k := by
  have position : 64 - 8 * bitsPerSymbol = 24 := rfl
  rw [BitVec.getLsbD_ushiftRight, getLsbD_bswap _ (by omega),
    getLsbD_readQwordZfill mem source some (by omega), keyQword, Nat.testBit_shiftRight, position,
    show 24 + k = 8 * 8 - 1 - (39 - k) by omega, testBit_bigEndian _ (by omega), getD_bytesAt]
  have byte : (8 * (8 - 1 - (8 * 8 - 1 - (39 - k)) / 8) + (8 * 8 - 1 - (39 - k)) % 8) / 8 =
      (39 - k) / 8 := by omega
  have inByte : (8 * (8 - 1 - (8 * 8 - 1 - (39 - k)) / 8) + (8 * 8 - 1 - (39 - k)) % 8) % 8 =
      7 - (39 - k) % 8 := by omega
  rw [byte, inByte]
  split
  · next inside => rw [decide_eq_true inside, Bool.true_and]
  · next outside => rw [decide_eq_false outside, Bool.false_and]; simp

/-! ## Eight symbols in a qword -/

/-- The deposit mask has five bits in each byte, and `pdep` fills them in turn. -/
theorem pdep_place : ∀ k < 8, ∀ m < 8,
    ((BitVec.ofNat 64 (ones 8 * (fanout - 1))).getLsbD (8 * k + m) = decide (m < 5)) ∧
      (m < 5 → (List.range (8 * k + m)).countP
        (fun i => (BitVec.ofNat 64 (ones 8 * (fanout - 1))).getLsbD i) = 5 * k + m) := by
  decide +kernel

/-- A byte of the deposited qword. -/
theorem testBit_deposit (keyQword : BitVec 64) {k m : ℕ} (hk : k < 8) (hm : m < 8) :
    (pdep keyQword (BitVec.ofNat 64 (ones 8 * (fanout - 1)))).getLsbD (8 * k + m) =
      (decide (m < 5) && keyQword.getLsbD (5 * k + m)) := by
  obtain ⟨mask, count⟩ := pdep_place k hk m hm
  rw [getLsbD_pdep _ _ (by omega), mask]
  by_cases low : m < 5
  · rw [count low]
  · rw [decide_eq_false low, Bool.false_and, Bool.false_and]

/-- The deposited bytes are five-bit numbers. -/
theorem deposit_byte (keyQword : BitVec 64) {k : ℕ} (hk : k < 8) :
    (pdep keyQword (BitVec.ofNat 64 (ones 8 * (fanout - 1)))).toNat / 256 ^ k % 256 =
      keyQword.toNat >>> (5 * k) &&& symbolMask := by
  refine Nat.eq_of_testBit_eq fun m => ?_
  rw [show symbolMask = 2 ^ 5 - 1 from rfl, Nat.testBit_and, Nat.testBit_two_pow_sub_one,
    Nat.testBit_shiftRight, show 256 = 2 ^ 8 from rfl, ← Nat.pow_mul, Nat.testBit_mod_two_pow,
    Nat.testBit_div_two_pow]
  change (decide (m < 8) && BitVec.getLsbD _ (m + 8 * k)) =
    (keyQword.getLsbD (5 * k + m) && decide (m < 5))
  by_cases low : m < 8
  · rw [Nat.add_comm m, testBit_deposit keyQword hk low, decide_eq_true low, Bool.true_and,
      Bool.and_comm]
  · rw [decide_eq_false low, decide_eq_false (show ¬ m < 5 by omega), Bool.false_and,
      Bool.and_false]

/-- **The bytes of the stored qword** are the symbols of the group. -/
theorem symbolsQword_byte (keyQword : BitVec 64) {k : ℕ} (hk : k < 8) :
    ((symbolsQword keyQword).extractLsb' (8 * k) 8).toNat =
      (keyQword.toNat >>> (5 * k) &&& symbolMask) + 1 := by
  have wrapped (y : ℕ) : (y % 2 ^ 64) >>> (8 * k) % 2 ^ 8 = y / 256 ^ k % 256 := by
    have divides : 2 ^ 8 ∣ 2 ^ (64 - 8 * k) := Nat.pow_dvd_pow 2 (by omega)
    rw [show 256 = 2 ^ 8 from rfl, Nat.shiftRight_eq_div_pow,
      show 64 = 8 * k + (64 - 8 * k) by omega, Nat.pow_add, Nat.mod_mul_right_div_self,
      Nat.mod_mod_of_dvd _ divides, Nat.pow_mul]
  have small (j : ℕ) (hj : j < 8) :
      (pdep keyQword (BitVec.ofNat 64 (ones 8 * (fanout - 1)))).toNat / 256 ^ j % 256 < 255 := by
    rw [deposit_byte keyQword hj]
    exact lt_of_le_of_lt Nat.and_le_right (by decide)
  rw [BitVec.extractLsb'_toNat, symbolsQword, BitVec.toNat_add, wrapped, BitVec.toNat_ofNat,
    Nat.mod_eq_of_lt (show ones 8 < 2 ^ 64 by decide), add_ones_byte small hk,
    deposit_byte keyQword hk]

/-- **The store of one group** puts the symbols of the next five bytes into the array. -/
theorem store_symbolsQword (mem symbols : Memory) (keyPtr nextSymPtr : ℕ) {bytesLeft : ℕ}
    (more : 0 < bytesLeft) (i : ℕ) :
    (@store 8 symbols nextSymPtr (bswap (symbolsQword
      ((@bswap 8 (readQwordZfill mem keyPtr bytesLeft) : BitVec 64) >>>
        (64 - 8 * bitsPerSymbol)))) i).toNat =
      if nextSymPtr ≤ i ∧ i < nextSymPtr + 8 then
        groupSymbol (keyQword (bytesAt mem keyPtr bytesLeft)) (i - nextSymPtr)
      else (symbols i).toNat := by
  split
  · next inside =>
    obtain ⟨j, rfl⟩ := Nat.exists_eq_add_of_le inside.1
    have hj : j < 8 := by omega
    rw [store_bswap_apply _ _ _ hj, Nat.add_sub_cancel_left, groupSymbol]
    change ((symbolsQword _).extractLsb' (8 * (8 - 1 - j)) 8).toNat = _
    rw [symbolsQword_byte _ (by omega), show 5 * (8 - 1 - j) = 35 - 5 * j by omega]
    congr 1
    refine Nat.eq_of_testBit_eq fun m => ?_
    rw [show symbolMask = 2 ^ 5 - 1 from rfl, Nat.testBit_and, Nat.testBit_and,
      Nat.testBit_two_pow_sub_one, Nat.testBit_shiftRight, Nat.testBit_shiftRight]
    by_cases low : m < 5
    · exact congrArg (· && _) (testBit_keyQword mem keyPtr more (by omega))
    · rw [decide_eq_false low, Bool.and_false, Bool.and_false]
  · next outside => rw [store_of_not_mem outside]

/-! ## The encoder -/

/-- **`key_to_symbols` on memory refines the encoder on byte strings**, from one of its
iterations on. -/
theorem keyToSymbolsLoop_refines (mem : Memory) (fuel keyPtr bytesLeft nextSymPtr : ℕ)
    {symbols : Memory} {p : PrefetcherArrays} (same : ∀ i, (symbols i).toNat = p.keySymbols i)
    (i : ℕ) :
    (keyToSymbolsLoop mem fuel keyPtr bytesLeft nextSymPtr symbols i).toNat =
      (PrefetcherArrays.keyToSymbolsLoop fuel (bytesAt mem keyPtr bytesLeft) nextSymPtr p).keySymbols
        i := by
  induction fuel generalizing keyPtr bytesLeft nextSymPtr symbols p with
  | zero => exact same i
  | succ fuel ih =>
    rw [keyToSymbolsLoop, PrefetcherArrays.keyToSymbolsLoop, length_bytesAt]
    split
    · next more =>
      rw [bytesAt_drop]
      refine ih _ _ _ fun i => ?_
      rw [store_symbolsQword mem symbols keyPtr nextSymPtr more, PrefetcherArrays.storeGroup]
      simp only [same]
    · exact same i

/-- The array after `key_to_symbols`, from any contents of it. -/
theorem keyToSymbols_refines (mem : Memory) (key size : ℕ) (symbols : Memory)
    {p : PrefetcherArrays} (same : ∀ i, (symbols i).toNat = p.keySymbols i) (i : ℕ) :
    (keyToSymbols mem key size symbols i).toNat =
      (p.keyToSymbols (bytesAt mem key size)).keySymbols i := by
  rw [keyToSymbols, PrefetcherArrays.keyToSymbols, length_bytesAt]
  exact keyToSymbolsLoop_refines mem size key size 0 same i

/-- **The fast encoder computes the symbols of the key**: one for each index that
`get_string_symbol` has bits for, and with the END symbol stored the whole symbol string.
They depend on the bytes of the key alone, not on its address or on the bytes around it. -/
theorem key_to_symbols_encodes (mem : Memory) (key size : ℕ) (symbols : Memory) :
    (∀ i < (8 * size + bitsPerSymbol - 1) / bitsPerSymbol,
      (keyToSymbols mem key size symbols i).toNat = getStringSymbol (bytesAt mem key size) i) ∧
    (List.range (numKeySymbols (bytesAt mem key size))).map
      (fun i => (prefetcherSymbols mem size key symbols i).toNat) =
        keySymbols (bytesAt mem key size) ∧
    ∀ mem' key', bytesAt mem' key' size = bytesAt mem key size →
      keyToSymbols mem' key' size symbols = keyToSymbols mem key size symbols := by
  obtain ⟨p, same⟩ : ∃ p : PrefetcherArrays, ∀ i, (symbols i).toNat = p.keySymbols i :=
    ⟨⟨fun i => (symbols i).toNat, fun _ => 0, 0, 0, 0, [], []⟩, fun _ => rfl⟩
  have encoded : ∀ i < (8 * size + bitsPerSymbol - 1) / bitsPerSymbol,
      (keyToSymbols mem key size symbols i).toNat = getStringSymbol (bytesAt mem key size) i := by
    intro i inside
    change i < (8 * size + 4) / 5 at inside
    obtain ⟨-, spec, -⟩ := @PrefetcherArrays.keyToSymbolsLoop_spec (bytesAt mem key size)
      (bytesAt mem key size).length 0 p (by omega)
    have symbol := spec i (by rw [length_bytesAt]; omega)
    rw [if_pos (Nat.zero_le _)] at symbol
    rw [keyToSymbols_refines mem key size symbols same]
    exact symbol
  refine ⟨encoded, ?_, fun mem' key' sameBytes => ?_⟩
  · refine List.map_congr_left fun i inside => ?_
    have count := numKeySymbols_eq (bytesAt mem key size)
    rw [length_bytesAt] at count
    rw [List.mem_range, count] at inside
    have final : (size * 8 + bitsPerSymbol - 1) / bitsPerSymbol + 1 - 1 = (8 * size + 4) / 5 := by
      change (size * 8 + 4) / 5 + 1 - 1 = _
      omega
    rw [prefetcherSymbols, final]
    by_cases last : i = (8 * size + 4) / 5
    · rw [last, Function.update_self, getStringSymbol_of_ge (by rw [length_bytesAt]; omega)]
      rfl
    · rw [Function.update_of_ne last]
      exact encoded i (show i < (8 * size + 4) / 5 by omega)
  · funext i
    apply UInt8.toNat_inj.mp
    rw [keyToSymbols_refines mem' key' size symbols same,
      keyToSymbols_refines mem key size symbols same, sameBytes]

end CuckooTrie.Packed
