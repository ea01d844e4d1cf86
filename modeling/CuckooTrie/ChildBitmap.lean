import CuckooTrie.PackedEntry

/-!
# The views of the child bitmap

The 33 bits of `child_bitmap` are set by `set_bit` in a byte and by `entry_set_child_bit` in
the 128-bit word of the entry, tested by `get_bit` in a byte, and searched by
`last_bit_before` in a swapped 64-bit word that reaches past the field.  All of them mean
the same bits (`child_bitmap_views_agree`), which are those of the number the other modules
have for the bitmap (`bitmapEntry_entrySetChildBit`, `lastBitBefore_eq`).
-/

namespace CuckooTrie.Packed

open Bytes

/-- `bitstring_value` of `last_bit_before`, without the uninteresting bits. -/
def bitstringValue (mem : Memory) (bitstring stop : ℕ) : BitVec 64 :=
  let mask : BitVec 64 := BitVec.allOnes 64 >>> stop
  @bswap 8 (load 8 mem bitstring) &&& ~~~mask

/-- `last_bit_before`. -/
def lastBitBefore (mem : Memory) (bitstring stop : ℕ) : ℤ :=
  let value := bitstringValue mem bitstring stop
  if value = 0 then -1 else 63 - value.ctz.toNat

namespace CtEntry

/-- `entry_set_child_bit`. -/
def entrySetChildBit (entry : CtEntry) (child : ℕ) : CtEntry :=
  let childByte := offsetChildBitmap + child / 8
  let childPos := childByte * 8 + (7 - child % 8)
  let entryVal : BitVec 128 := load 16 entry 0
  @store 16 entry 0 (entryVal ||| 1#128 <<< childPos)

/-- `bitmap_child_before`: the result as an unsigned number. -/
def bitmapChildBefore (bitmapNode : CtEntry) (symbol : ℕ) : BitVec 64 :=
  BitVec.ofInt 64 (lastBitBefore bitmapNode offsetChildBitmap symbol)

end CtEntry

/-! ## The last bit before a bound -/

/-- The bits the mask leaves. -/
theorem getLsbD_bitstringValue (mem : Memory) (bitstring stop : ℕ) {i : ℕ} (hi : i < 64) :
    (bitstringValue mem bitstring stop).getLsbD i =
      (getBit mem bitstring (63 - i) && decide (63 - i < stop)) := by
  unfold bitstringValue
  rw [BitVec.getLsbD_and, getLsbD_bswap_load _ _ _ hi, getBit_eq, BitVec.getLsbD_not,
    BitVec.getLsbD_ushiftRight, BitVec.getLsbD_allOnes, decide_eq_true hi, Bool.true_and]
  congr 1
  rw [← decide_not]
  exact decide_eq_decide.mpr (by omega)

/-- **`last_bit_before`** returns the greatest bit before the bound, or -1. -/
theorem lastBitBefore_spec (mem : Memory) (bitstring : ℕ) {stop : ℕ} (small : stop < 64) :
    (lastBitBefore mem bitstring stop = -1 ∧ ∀ c < stop, getBit mem bitstring c = false) ∨
      ∃ c < stop, lastBitBefore mem bitstring stop = c ∧ getBit mem bitstring c = true ∧
        ∀ c' < stop, getBit mem bitstring c' = true → c' ≤ c := by
  have bits {i : ℕ} (hi : i < 64) := getLsbD_bitstringValue mem bitstring stop hi
  unfold lastBitBefore
  generalize bitstringValue mem bitstring stop = value at bits ⊢
  -- a bit of the bitmap is the one at the other end of the word
  have found {c : ℕ} (before : c < stop) (bit : getBit mem bitstring c = true) :
      value.getLsbD (63 - c) = true := by
    rw [bits (by omega), show 63 - (63 - c) = c by omega, bit, decide_eq_true before]
    rfl
  by_cases zero : value = 0#64
  · refine Or.inl ⟨if_pos zero, fun c before => eq_false_of_ne_true fun bit => ?_⟩
    have set := found before bit
    rw [zero, BitVec.getLsbD_zero] at set
    cases set
  · have lowest := BitVec.getLsbD_true_ctz_of_ne_zero zero
    have inside : value.ctz.toNat < 64 := by
      by_contra out
      rw [BitVec.getLsbD_of_ge _ _ (not_lt.mp out)] at lowest
      cases lowest
    rw [bits inside, Bool.and_eq_true, decide_eq_true_eq] at lowest
    refine Or.inr ⟨63 - value.ctz.toNat, lowest.2, ?_, lowest.1, fun c' before bit => ?_⟩
    · refine (if_neg zero).trans ?_
      omega
    · by_contra later
      have clear := @BitVec.getLsbD_false_of_lt_ctz 64 (63 - c') value (by omega)
      rw [found before bit] at clear
      cases clear

/-- The result says which bit it is. -/
theorem lastBitBefore_eq_iff (mem : Memory) (bitstring : ℕ) {stop : ℕ} (small : stop < 64) :
    (∀ c : ℕ, lastBitBefore mem bitstring stop = c ↔
      c < stop ∧ getBit mem bitstring c = true ∧
        ∀ c' < stop, getBit mem bitstring c' = true → c' ≤ c) ∧
      (lastBitBefore mem bitstring stop = -1 ↔ ∀ c < stop, getBit mem bitstring c = false) := by
  obtain ⟨none, clear⟩ | ⟨c, before, some, bit, last⟩ := lastBitBefore_spec mem bitstring small
  · refine ⟨fun c => iff_of_false (by omega) ?_, iff_of_true none clear⟩
    rintro ⟨before, bit, -⟩
    rw [clear c before] at bit
    cases bit
  · refine ⟨fun c' => ⟨fun same => ?_, fun ⟨before', bit', last'⟩ => ?_⟩, iff_of_false ?_ ?_⟩
    · obtain rfl : c = c' := by omega
      exact ⟨before, bit, last⟩
    · rw [some, le_antisymm (last c' before' bit') (last' c before bit)]
    · omega
    · intro clear
      rw [clear c before] at bit
      cases bit

namespace CtEntry

/-! ## Setting a bit -/

/-- **`entry_set_child_bit` is `set_bit`** on the bytes of the bitmap. -/
theorem entrySetChildBit_eq_setBit (entry : CtEntry) {child : ℕ} (le : child ≤ fanout) :
    entrySetChildBit entry child = setBit entry offsetChildBitmap child true := by
  refine memory_ext fun q => ?_
  change child ≤ 32 at le
  have inside : (offsetChildBitmap + child / 8) * 8 + (7 - child % 8) < 8 * 16 := by
    change (3 + child / 8) * 8 + (7 - child % 8) < 128
    omega
  rw [entrySetChildBit, bitLE_store_or_one 16 _ _ inside, bitLE_eq_bit (setBit _ _ _ _),
    bit_setBit, bitLE_eq_bit]
  by_cases here : q = 8 * 0 + ((offsetChildBitmap + child / 8) * 8 + (7 - child % 8))
  · rw [decide_eq_true here, Bool.or_true, if_pos (by omega)]
  · rw [decide_eq_false here, Bool.or_false, if_neg (by omega)]

/-- The bits of the bitmap after one was set. -/
theorem getBit_entrySetChildBit (entry : CtEntry) {child : ℕ} (le : child ≤ fanout) (c : ℕ) :
    getBit (entrySetChildBit entry child) offsetChildBitmap c =
      (decide (c = child) || getBit entry offsetChildBitmap c) := by
  rw [entrySetChildBit_eq_setBit entry le, getBit_eq, bit_setBit, getBit_eq]
  by_cases same : c = child
  · rw [if_pos (by omega), decide_eq_true same, Bool.true_or]
  · rw [if_neg (by omega), decide_eq_false same, Bool.false_or]

/-- A bit of the number of the children. -/
theorem testBit_childBits (entry : CtEntry) {c : ℕ} (inside : c < 8 * childBitmapBytes) :
    (childBits entry).testBit c = getBit entry offsetChildBitmap c := by
  rw [childBits, Nat.testBit_ofBits_lt _ _ inside]

theorem testBit_childBits_of_ge (entry : CtEntry) {c : ℕ} (outside : 8 * childBitmapBytes ≤ c) :
    (childBits entry).testBit c = false := Nat.testBit_ofBits_ge _ _ outside

/-- **The record of a bitmap** with one more child. -/
theorem bitmapEntry_entrySetChildBit (entry : CtEntry) {child : ℕ} (le : child ≤ fanout) :
    bitmapEntry (entrySetChildBit entry child) =
      { bitmapEntry entry with
        body := .bitmap (setChildBit (childBits entry) child) (entry offsetMaxChild).toNat
          (locatorAt entry offsetMaxLeaf) } := by
  have frame {x : ℕ} (outside : x ≠ offsetChildBitmap + child / 8) :
      entrySetChildBit entry child x = entry x := by
    rw [entrySetChildBit_eq_setBit entry le]
    exact setBit_of_ne outside
  change child ≤ 32 at le
  have bits : childBits (entrySetChildBit entry child) = setChildBit (childBits entry) child := by
    refine Nat.eq_of_testBit_eq fun c => ?_
    rw [testBit_setChildBit]
    by_cases inside : c < 8 * childBitmapBytes
    · rw [testBit_childBits _ inside, testBit_childBits _ inside, getBit_entrySetChildBit _ le,
        Bool.or_comm]
    · change ¬ c < 40 at inside
      rw [testBit_childBits_of_ge _ (by change 40 ≤ c; omega),
        testBit_childBits_of_ge _ (by change 40 ≤ c; omega), decide_eq_false (by omega)]
      rfl
  unfold bitmapEntry
  rw [bits, frame (x := offsetMaxChild) (by change 8 ≠ 3 + child / 8; omega),
    locatorAt_congr fun x ge _ => frame (by change 9 ≤ x at ge; change x ≠ 3 + child / 8; omega),
    withBody_congr _ fun x lt => frame (by change x < 3 at lt; change x ≠ 3 + child / 8; omega)]
  rfl

/-- **The search in the word** is the search in the number of the children. -/
theorem lastBitBefore_eq (entry : CtEntry) {stop : ℕ} (le : stop ≤ fanout + 1) :
    lastBitBefore entry offsetChildBitmap stop =
      ((CuckooTrie.lastBitBefore (childBits entry) stop).map fun c => (c : ℤ)).getD (-1) := by
  change stop ≤ 33 at le
  have iff := @lastBitBefore_eq_iff entry offsetChildBitmap stop (by omega)
  have bits {c : ℕ} (before : c < stop) :
      (childBits entry).testBit c = getBit entry offsetChildBitmap c :=
    testBit_childBits entry (by change c < 40; omega)
  cases found : CuckooTrie.lastBitBefore (childBits entry) stop with
  | none =>
    refine iff.2.mpr fun c before => ?_
    rw [← bits before]
    exact lastBitBefore_eq_none found c before
  | some c =>
    obtain ⟨bit, before, last⟩ := lastBitBefore_eq_some found
    refine (iff.1 c).mpr ⟨before, (bits before).symm.trans bit, fun c' before' bit' => ?_⟩
    exact last c' before' ((bits before').trans bit')

/-- The search reads other bytes than those of the bitmap, and ignores them. -/
theorem lastBitBefore_congr {entry entry' : CtEntry} {stop : ℕ} (le : stop ≤ fanout + 1)
    (same : ∀ x, offsetChildBitmap ≤ x → x < offsetChildBitmap + childBitmapBytes →
      entry' x = entry x) :
    lastBitBefore entry' offsetChildBitmap stop = lastBitBefore entry offsetChildBitmap stop := by
  have bits : childBits entry' = childBits entry := by
    refine Nat.eq_of_testBit_eq fun c => ?_
    by_cases inside : c < 8 * childBitmapBytes
    · rw [testBit_childBits _ inside, testBit_childBits _ inside, getBit, getBit, same]
      · exact Nat.le_add_right _ _
      · change c < 40 at inside
        change 3 + c / 8 < 3 + 5
        omega
    · rw [testBit_childBits_of_ge _ (not_lt.mp inside), testBit_childBits_of_ge _ (not_lt.mp inside)]
  rw [lastBitBefore_eq _ le, lastBitBefore_eq _ le, bits]

/-- **All views of the child bitmap agree.**  Setting a child in its byte and in the word
of the entry is the same, and changes the one bit, which is then set beside those set
before.  The search returns the greatest child before a bound, or -1 if there is none, by
the bytes of the bitmap alone. -/
theorem child_bitmap_views_agree (entry : CtEntry) :
    (∀ child ≤ fanout,
      setBit entry offsetChildBitmap child true = entrySetChildBit entry child ∧
        (∀ p, p ≠ 8 * offsetChildBitmap + child →
          bit (entrySetChildBit entry child) p = bit entry p) ∧
        ∀ c, getBit (entrySetChildBit entry child) offsetChildBitmap c = true ↔
          c = child ∨ getBit entry offsetChildBitmap c = true) ∧
      ∀ stop ≤ fanout + 1,
        ((lastBitBefore entry offsetChildBitmap stop = -1 ∧ bitmapChildBefore entry stop = -1 ∧
            ∀ c < stop, getBit entry offsetChildBitmap c = false) ∨
          ∃ c < stop, lastBitBefore entry offsetChildBitmap stop = c ∧
            bitmapChildBefore entry stop = BitVec.ofNat 64 c ∧
            getBit entry offsetChildBitmap c = true ∧
            ∀ c' < stop, getBit entry offsetChildBitmap c' = true → c' ≤ c) ∧
        ∀ entry' : CtEntry,
          (∀ x, offsetChildBitmap ≤ x → x < offsetChildBitmap + childBitmapBytes →
            entry' x = entry x) →
          lastBitBefore entry' offsetChildBitmap stop =
              lastBitBefore entry offsetChildBitmap stop ∧
            bitmapChildBefore entry' stop = bitmapChildBefore entry stop := by
  refine ⟨fun child le => ⟨(entrySetChildBit_eq_setBit entry le).symm, fun p other => ?_,
    fun c => ?_⟩, fun stop le => ⟨?_, fun entry' same => ?_⟩⟩
  · rw [entrySetChildBit_eq_setBit entry le, bit_setBit, if_neg other]
  · rw [getBit_entrySetChildBit entry le, Bool.or_eq_true, decide_eq_true_eq]
  · change stop ≤ 33 at le
    unfold bitmapChildBefore
    obtain ⟨none, clear⟩ | ⟨c, before, some, found⟩ :=
      @lastBitBefore_spec entry offsetChildBitmap stop (by omega)
    · exact Or.inl ⟨none, by rw [none]; rfl, clear⟩
    · exact Or.inr ⟨c, before, some, by rw [some]; exact BitVec.ofInt_natCast 64 c, found⟩
  · have result := lastBitBefore_congr le same
    exact ⟨result, by rw [bitmapChildBefore, result, bitmapChildBefore]⟩

end CtEntry

end CuckooTrie.Packed
