import CuckooTrie.ChildBitmap
import CuckooTrie.PackedJumps
import CuckooTrie.ReadEntry

/-!
# The packed entry as a record

The setters of `cuckoo_trie_internal.h` update an entry of sixteen bytes through words of
8, 64 and 128 bits, under masks.  `Field` lists what the getters return, with the bits each
of them reads; the fields of one type of node do not overlap (`Node.fields_disjoint`), and
those of different types do.

Each setter puts a value into the bits of its own field and changes no other (`Puts`,
`Only`), so that the getter of that field returns the value, and all other getters of the
type what they returned before (`Only.keeps`).  `packed_entry_is_record` collects this for
all setters, with `write_entry` and `read_entry` on a whole entry.
-/

namespace CuckooTrie.Packed

open Bytes

/-- `FLAG_DIRTY`, as a word. -/
abbrev flagDirtyQword : BitVec 64 := 8

/-- `put_bits_uint128`. -/
def putBitsUint128 (x : BitVec 128) (offset size : ℕ) (bits : BitVec 64) : BitVec 128 :=
  let mask := ((1#128 <<< size) - 1#128) <<< offset
  (x &&& ~~~mask) ||| bits.setWidth 128 <<< offset

namespace CtEntry

/-! ## Setters -/

/-- `entry_set_dirty`. -/
def entrySetDirty (entry : CtEntry) : CtEntry :=
  let mask := flagDirtyQword <<< (offsetParentColorAndFlags * 8)
  let entryVal : BitVec 64 := load 8 entry 0
  @store 8 entry 0 (entryVal ||| mask)

/-- `entry_set_clean`. -/
def entrySetClean (entry : CtEntry) : CtEntry :=
  let mask := flagDirtyQword <<< (offsetParentColorAndFlags * 8)
  let entryVal : BitVec 64 := load 8 entry 0
  @store 8 entry 0 (entryVal &&& ~~~mask)

/-- `entry_add_flags`, in the word it uses. -/
def entryAddFlagsQword (entry : CtEntry) (flags : BitVec 64) : CtEntry :=
  let entryVal : BitVec 64 := load 8 entry 0
  @store 8 entry 0 (entryVal ||| flags <<< (offsetParentColorAndFlags * 8))

/-- `entry_set_color_and_tag`, in the word it uses. -/
def entrySetColorAndTagQword (entry : CtEntry) (newValue : BitVec 64) : CtEntry :=
  let mask := 0xFF#64 <<< (offsetColorAndTag * 8)
  let entryVal : BitVec 64 := load 8 entry 0
  let entry := @store 8 entry 0 (entryVal &&& ~~~mask)
  let entryVal : BitVec 64 := load 8 entry 0
  @store 8 entry 0 (entryVal ||| newValue <<< (offsetColorAndTag * 8))

/-- `entry_set_parent_color`. -/
def entrySetParentColor (entry : CtEntry) (color : UInt8) : CtEntry :=
  let entry := Function.update entry offsetParentColorAndFlags
    (entry offsetParentColorAndFlags &&& (15 : UInt8))
  Function.update entry offsetParentColorAndFlags
    (entry offsetParentColorAndFlags ||| color <<< (4 : UInt8))

/-- `next_leaf_value` of `entry_set_next_leaf`: the bytes of a `ct_entry_locator`. -/
def locatorValue (locator : Locator) : BitVec 64 :=
  BitVec.ofNat 64 locator.primaryBucket <<< (0 * 8) ||| BitVec.ofNat 64 locator.color <<< (5 * 8) |||
    BitVec.ofNat 64 locator.tag <<< (4 * 8)

/-- `entry_set_next_leaf`. -/
def entrySetNextLeaf (entry : CtEntry) (nextLeaf : Locator) : CtEntry :=
  let entryVal : BitVec 128 := load 16 entry 0
  @store 16 entry 0
    (putBitsUint128 entryVal (offsetNextLeaf * 8) (entryLocatorSize * 8) (locatorValue nextLeaf))

end CtEntry

/-! ## Fields -/

/-- What a getter of an entry returns. -/
inductive Value where
  | number (n : ℕ)
  | flag (b : Bool)
  | symbols (list : List ℕ)
  | locator (locator : Locator)
  | pointer (address : BitVec 64)

/-- The fields of a packed entry. -/
inductive Field where
  | type | secondary | dirty | parentColor | tag | color | lastSymbol
  | childBitmap | maxChild
  | jumpBits | jumpSize | childColor
  | maxLeaf
  | kv | nextLeaf
deriving DecidableEq, Repr

/-- The types of an entry in use. -/
inductive Node where
  | leaf | bitmap | jump
deriving DecidableEq, Repr

namespace Field

/-- What the getter of a field returns. -/
def get (entry : CtEntry) : Field → Value
  | type => .number (CtEntry.entryType entry).toNat
  | secondary => .flag (CtEntry.entryIsSecondary entry)
  | dirty => .flag (CtEntry.entryDirty entry)
  | parentColor => .number (CtEntry.entryParentColor entry).toNat
  | tag => .number (CtEntry.entryTag entry).toNat
  | color => .number (CtEntry.entryColor entry).toNat
  | lastSymbol => .number (entry offsetLastSymbol).toNat
  | childBitmap => .number (CtEntry.childBits entry)
  | maxChild => .number (entry offsetMaxChild).toNat
  | jumpBits => .symbols ((List.range maxJumpSymbols).map (CtEntry.getJumpSymbol entry))
  | jumpSize => .number (CtEntry.entryJumpSize entry)
  | childColor => .number (CtEntry.entryChildColor entry).toNat
  | maxLeaf => .locator (CtEntry.locatorAt entry offsetMaxLeaf)
  | kv => .pointer (CtEntry.entryKv entry)
  | nextLeaf => .locator (CtEntry.locatorAt entry offsetNextLeaf)

/-- The first bit of a field, and how many there are. -/
def bits : Field → ℕ × ℕ
  | type => (0, 2)
  | secondary => (2, 1)
  | dirty => (3, 1)
  | parentColor => (4, 4)
  | tag => (8, 4)
  | color => (12, 4)
  | lastSymbol => (16, 8)
  | childBitmap => (24, 40)
  | maxChild => (64, 8)
  | jumpBits => (24, 40)
  | jumpSize => (64, 4)
  | childColor => (68, 4)
  | maxLeaf => (72, 48)
  | kv => (24, 48)
  | nextLeaf => (72, 48)

/-- The bits of a field. -/
def Has (f : Field) (q : ℕ) : Prop := f.bits.1 ≤ q ∧ q < f.bits.1 + f.bits.2

instance (f : Field) (q : ℕ) : Decidable (f.Has q) := inferInstanceAs (Decidable (_ ∧ _))

/-- The fields whose getter returns their bits as a number. -/
def numbers : List Field :=
  [type, parentColor, tag, color, lastSymbol, maxChild, jumpSize, childColor]

/-- The fields every entry has. -/
def header : List Field := [type, secondary, dirty, parentColor, tag, color, lastSymbol]

end Field

/-- The fields of an entry of some type. -/
def Node.fields : Node → List Field
  | leaf => Field.header ++ [.kv, .nextLeaf]
  | bitmap => Field.header ++ [.childBitmap, .maxChild, .maxLeaf]
  | jump => Field.header ++ [.jumpBits, .jumpSize, .childColor, .maxLeaf]

/-- Some bits, given by the first one and how many there are, are replaced by a number. -/
def Puts (place : ℕ × ℕ) (value : ℕ) (entry entry' : CtEntry) : Prop :=
  ∀ q, bitLE entry' q =
    if place.1 ≤ q ∧ q < place.1 + place.2 then value.testBit (q - place.1) else bitLE entry q

/-- No bits but those of some fields change. -/
def Only (set : List Field) (entry entry' : CtEntry) : Prop :=
  ∀ q, (∀ f ∈ set, ¬ f.Has q) → bitLE entry' q = bitLE entry q

/-- All getters of a type of node but some return what they did. -/
def Keeps (node : Node) (set : List Field) (entry entry' : CtEntry) : Prop :=
  ∀ f ∈ node.fields, f ∉ set → f.get entry' = f.get entry

/-! ## What the getters read -/

section Getters

variable (entry : CtEntry)

/-- A flag is one bit. -/
theorem and_flag (b : UInt8) {i : ℕ} (hi : i < 8) :
    decide (b &&& UInt8.ofNat (2 ^ i) = UInt8.ofNat (2 ^ i)) = b.toNat.testBit i := by
  have bytes : ∀ i < 8, ∀ n < 256, decide (UInt8.ofNat n &&& UInt8.ofNat (2 ^ i) =
      UInt8.ofNat (2 ^ i)) = n.testBit i := by
    decide +kernel
  have := bytes i hi b.toNat b.toNat_lt
  rwa [UInt8.ofNat_toNat] at this

theorem CtEntry.entryIsSecondary_eq_bit : CtEntry.entryIsSecondary entry = bitLE entry 2 :=
  and_flag (entry 0) (by decide : 2 < 8)

theorem CtEntry.entryDirty_eq_bit : CtEntry.entryDirty entry = bitLE entry 3 :=
  and_flag (entry 0) (by decide : 3 < 8)

theorem toNat_highNibble_bits (a : ℕ) :
    (entry a >>> 4).toNat = bitsValueLE entry (8 * a + 4) 4 := by
  have := (entry a).toNat_lt
  rw [← byte_div_mod entry a (by decide : 4 + 4 ≤ 8), CtEntry.toNat_highNibble]
  omega

theorem toNat_lowNibble_bits (a : ℕ) :
    (entry a &&& 15).toNat = bitsValueLE entry (8 * a + 0) 4 := by
  rw [← byte_div_mod entry a (by decide : 0 + 4 ≤ 8), CtEntry.toNat_lowNibble, Nat.pow_zero,
    Nat.div_one]
  rfl

theorem toNat_byte_bits (a : ℕ) : (entry a).toNat = bitsValueLE entry (8 * a + 0) 8 := by
  have := (entry a).toNat_lt
  rw [← byte_div_mod entry a (by decide : 0 + 8 ≤ 8)]
  omega

theorem CtEntry.toNat_entryType : (CtEntry.entryType entry).toNat = bitsValueLE entry 0 2 := by
  rw [← byte_div_mod entry 0 (by decide : 0 + 2 ≤ 8), CtEntry.entryType, UInt8.toNat_and,
    Nat.pow_zero, Nat.div_one]
  exact Nat.and_two_pow_sub_one_eq_mod _ 2

/-- **A field that is a number** is the number its bits spell. -/
theorem Field.get_eq_number {f : Field} (numeric : f ∈ numbers) :
    f.get entry = .number (bitsValueLE entry f.bits.1 f.bits.2) := by
  cases f with
  | type => exact congrArg Value.number (CtEntry.toNat_entryType entry)
  | parentColor => exact congrArg Value.number (toNat_highNibble_bits entry 0)
  | tag => exact congrArg Value.number (toNat_lowNibble_bits entry 1)
  | color => exact congrArg Value.number (toNat_highNibble_bits entry 1)
  | lastSymbol => exact congrArg Value.number (toNat_byte_bits entry 2)
  | maxChild => exact congrArg Value.number (toNat_byte_bits entry 8)
  | jumpSize => exact congrArg Value.number (toNat_lowNibble_bits entry 8)
  | childColor => exact congrArg Value.number (toNat_highNibble_bits entry 8)
  | secondary | dirty | childBitmap | jumpBits | maxLeaf | kv | nextLeaf =>
    exact absurd numeric (by decide)

end Getters

variable {entry entry' : CtEntry}

/-- Bytes whose bits are the same. -/
theorem byte_eq {first stop : ℕ}
    (same : ∀ q, 8 * first ≤ q → q < 8 * stop → bitLE entry' q = bitLE entry q) {x : ℕ}
    (ge : first ≤ x) (lt : x < stop) : entry' x = entry x :=
  byte_eq_of_bitLE fun i hi => same _ (by omega) (by omega)

/-- **A getter reads the bits of its field**, and no others. -/
theorem Field.get_congr (f : Field) (same : ∀ q, f.Has q → bitLE entry' q = bitLE entry q) :
    f.get entry' = f.get entry := by
  by_cases numeric : f ∈ numbers
  · rw [get_eq_number entry' numeric, get_eq_number entry numeric,
      bitsValueLE_congr fun q ge lt => same q ⟨ge, lt⟩]
  · cases f with
    | type | parentColor | tag | color | lastSymbol | maxChild | jumpSize | childColor =>
      exact absurd (by decide) numeric
    | secondary =>
      rw [Field.get, Field.get, CtEntry.entryIsSecondary_eq_bit, CtEntry.entryIsSecondary_eq_bit,
        same 2 (by decide)]
    | dirty =>
      rw [Field.get, Field.get, CtEntry.entryDirty_eq_bit, CtEntry.entryDirty_eq_bit,
        same 3 (by decide)]
    | childBitmap =>
      have bytes := @byte_eq entry entry' 3 8 fun q ge lt => same q ⟨ge, lt⟩
      refine congrArg Value.number (congrArg Nat.ofBits (funext fun c => ?_))
      have inside : c.val < 40 := c.isLt
      unfold getBit
      rw [bytes (by change 3 ≤ 3 + c.val / 8; omega) (by change 3 + c.val / 8 < 8; omega)]
    | jumpBits =>
      have bytes := @byte_eq entry entry' 3 8 fun q ge lt => same q ⟨ge, lt⟩
      refine congrArg Value.symbols (List.map_congr_left fun i mem => ?_)
      exact CtEntry.getJumpSymbol_of_bytes (List.mem_range.mp mem) fun x => bytes
    | maxLeaf | nextLeaf =>
      have bytes := @byte_eq entry entry' 9 15 fun q ge lt => same q ⟨ge, lt⟩
      exact congrArg Value.locator (CtEntry.locatorAt_congr fun x => bytes)
    | kv =>
      have bytes := @byte_eq entry entry' 3 9 fun q ge lt => same q ⟨ge, lt⟩
      refine congrArg Value.pointer (BitVec.eq_of_getLsbD_eq fun i hi => ?_)
      rw [CtEntry.getLsbD_entryKv _ hi, CtEntry.getLsbD_entryKv _ hi,
        bytes (by change 3 ≤ 3 + min i 47 / 8; omega) (by change 3 + min i 47 / 8 < 9; omega)]

/-- **The fields of one type of entry do not overlap.** -/
theorem Node.fields_disjoint {node : Node} {f g : Field} (hf : f ∈ node.fields)
    (hg : g ∈ node.fields) (ne : f ≠ g) {q : ℕ} (has : f.Has q) : ¬ g.Has q := by
  have apart : ∀ node : Node, ∀ f ∈ node.fields, ∀ g ∈ node.fields, f ≠ g →
      f.bits.1 + f.bits.2 ≤ g.bits.1 ∨ g.bits.1 + g.bits.2 ≤ f.bits.1 := by
    intro node
    cases node <;> decide
  have := apart node f hf g hg ne
  unfold Field.Has at has ⊢
  omega

/-- **A change to some fields of a type** keeps the others of this type. -/
theorem Only.keeps {node : Node} {set : List Field} (only : Only set entry entry')
    (inNode : ∀ f ∈ set, f ∈ node.fields) : Keeps node set entry entry' :=
  fun g hg out => g.get_congr fun q has => only q fun f hf =>
    Node.fields_disjoint hg (inNode f hf) (fun same => out (same ▸ hf)) has

/-- Every type of entry has the header. -/
theorem Node.header_subset (node : Node) {f : Field} (mem : f ∈ Field.header) :
    f ∈ node.fields := by
  cases node <;> exact List.mem_append_left _ mem

/-! ## What the setters write -/

namespace Puts

variable {place : ℕ × ℕ} {value : ℕ}

/-- The bits of some fields are replaced. -/
theorem only {set : List Field} (puts : Puts place value entry entry')
    (cover : ∀ q, place.1 ≤ q → q < place.1 + place.2 → ∃ f ∈ set, f.Has q) :
    Only set entry entry' := fun q out => by
  rw [puts q, if_neg]
  rintro ⟨ge, lt⟩
  obtain ⟨f, mem, has⟩ := cover q ge lt
  exact out f mem has

theorem only_field {f : Field} (puts : Puts f.bits value entry entry') : Only [f] entry entry' :=
  puts.only fun _ ge lt => ⟨f, List.mem_singleton_self f, ge, lt⟩

/-- Some of the bits that were replaced. -/
theorem bitsValueLE_eq (puts : Puts place value entry entry') {k n : ℕ}
    (inside : k + n ≤ place.2) : bitsValueLE entry' (place.1 + k) n = value / 2 ^ k % 2 ^ n := by
  refine Nat.eq_of_testBit_eq fun i => ?_
  rw [testBit_bitsValueLE, Nat.testBit_mod_two_pow, Nat.testBit_div_two_pow]
  by_cases hi : i < n
  · rw [puts, if_pos (by omega), show place.1 + k + i - place.1 = i + k by omega]
  · rw [decide_eq_false hi, Bool.false_and, Bool.false_and]

/-- **A number that was put** is what its getter returns. -/
theorem get_number {f : Field} (puts : Puts f.bits value entry entry')
    (numeric : f ∈ Field.numbers) (small : value < 2 ^ f.bits.2) :
    f.get entry' = .number value := by
  rw [Field.get_eq_number entry' numeric]
  have read := @bitsValueLE_eq _ _ _ _ puts 0 f.bits.2 (by omega)
  rw [Nat.pow_zero, Nat.div_one, Nat.mod_eq_of_lt small] at read
  exact congrArg Value.number read

/-- A byte is written. -/
theorem update {a k n : ℕ} {v : UInt8} (inside : k + n ≤ 8)
    (bits : ∀ i < 8, v.toNat.testBit i =
      if k ≤ i ∧ i < k + n then value.testBit (i - k) else (entry a).toNat.testBit i) :
    Puts (8 * a + k, n) value entry (Function.update entry a v) := fun q => by
  change bitLE _ q = if 8 * a + k ≤ q ∧ q < 8 * a + k + n then _ else _
  by_cases here : q / 8 = a
  · rw [bitLE, here, Function.update_self, bits _ (by omega), bitLE, here]
    by_cases field : k ≤ q % 8 ∧ q % 8 < k + n
    · rw [if_pos field, if_pos (by omega), show q % 8 - k = q - (8 * a + k) by omega]
    · rw [if_neg field, if_neg (by omega)]
  · rw [bitLE, Function.update_of_ne here, if_neg (by omega), bitLE]

/-- A word at the start of the entry is written. -/
theorem store {n : ℕ} {v : BitVec (8 * n)} (inside : place.1 + place.2 ≤ 8 * n)
    (bits : ∀ i < 8 * n, v.getLsbD i =
      if place.1 ≤ i ∧ i < place.1 + place.2 then value.testBit (i - place.1) else bitLE entry i) :
    Puts place value entry (store entry 0 v) := fun q => by
  rw [bitLE_store]
  by_cases word : 8 * 0 ≤ q ∧ q < 8 * (0 + n)
  · rw [if_pos word, Nat.mul_zero, Nat.sub_zero, bits q (by omega)]
  · rw [if_neg word, if_neg (by omega)]

/-- A word is written under a mask. -/
theorem masked {n : ℕ} {mask word : BitVec (8 * n)} (inside : place.1 + place.2 ≤ 8 * n)
    (maskBits : ∀ i < 8 * n,
      mask.getLsbD i = decide (place.1 ≤ i ∧ i < place.1 + place.2))
    (wordBits : ∀ i < 8 * n, word.getLsbD i =
      (decide (place.1 ≤ i ∧ i < place.1 + place.2) && value.testBit (i - place.1))) :
    Puts place value entry (Bytes.store entry 0 (load n entry 0 &&& ~~~mask ||| word)) := by
  refine store inside fun i hi => ?_
  rw [BitVec.getLsbD_or, BitVec.getLsbD_and, BitVec.getLsbD_not, maskBits i hi, wordBits i hi,
    getLsbD_load_bitLE _ _ _ hi, Nat.mul_zero, Nat.zero_add, decide_eq_true hi]
  by_cases field : place.1 ≤ i ∧ i < place.1 + place.2
  · rw [decide_eq_true field, if_pos field, Bool.not_true, Bool.and_false, Bool.and_false,
      Bool.false_or, Bool.true_and]
  · rw [decide_eq_false field, if_neg field, Bool.not_false, Bool.and_true, Bool.and_true,
      Bool.false_and, Bool.or_false]

end Puts

/-- A number with other low bits. -/
theorem testBit_setLow (b : ℕ) {value k : ℕ} (small : value < 2 ^ k) (i : ℕ) :
    (b / 2 ^ k * 2 ^ k + value).testBit i =
      if 0 ≤ i ∧ i < 0 + k then value.testBit (i - 0) else b.testBit i := by
  rw [Nat.mul_comm, Nat.testBit_two_pow_mul_add _ small]
  by_cases low : i < k
  · rw [if_pos low, if_pos (by omega), Nat.sub_zero]
  · rw [if_neg low, if_neg (by omega), Nat.testBit_div_two_pow, Nat.sub_add_cancel (by omega)]

/-- A number with other high bits. -/
theorem testBit_setHigh (b value k : ℕ) {n i : ℕ} (inside : i < k + n) :
    (value * 2 ^ k + b % 2 ^ k).testBit i =
      if k ≤ i ∧ i < k + n then value.testBit (i - k) else b.testBit i := by
  rw [Nat.mul_comm, Nat.testBit_two_pow_mul_add _ (Nat.mod_lt _ (Nat.two_pow_pos k)),
    Nat.testBit_mod_two_pow]
  by_cases low : i < k
  · rw [if_pos low, if_neg (by omega), decide_eq_true low, Bool.true_and]
  · rw [if_neg low, if_pos (by omega)]

namespace CtEntry

variable (entry : CtEntry)

theorem puts_entrySetType {type : UInt8} (small : type.toNat < 4) :
    Puts Field.type.bits type.toNat entry (entrySetType entry type) := by
  have value : (entry 0 &&& ~~~(3 : UInt8) ||| type).toNat = (entry 0).toNat / 4 * 4 + type.toNat := by
    have bytes : ∀ i < 256, ∀ j < 4, (UInt8.ofNat i &&& ~~~(3 : UInt8) ||| UInt8.ofNat j).toNat =
        i / 4 * 4 + j := by
      decide +kernel
    have := bytes _ (entry 0).toNat_lt _ small
    rwa [UInt8.ofNat_toNat, UInt8.ofNat_toNat] at this
  refine @Puts.update entry _ 0 0 2 _ (by decide) fun i hi => ?_
  rw [offsetParentColorAndFlags, value]
  exact testBit_setLow _ (k := 2) small i

theorem puts_entrySetParentColor {color : UInt8} (small : color.toNat < 16) :
    Puts Field.parentColor.bits color.toNat entry (entrySetParentColor entry color) := by
  have same : entrySetParentColor entry color =
      Function.update entry 0 (entry 0 &&& (15 : UInt8) ||| color <<< (4 : UInt8)) := by
    rw [entrySetParentColor, Function.update_idem, Function.update_self]
  rw [same]
  refine @Puts.update entry _ 0 4 4 _ (by decide) fun i hi => ?_
  rw [toNat_setHighNibble _ _ small]
  exact testBit_setHigh _ _ 4 hi

theorem puts_entrySetJumpSize {jumpSize : ℕ} (small : jumpSize < 16) :
    Puts Field.jumpSize.bits jumpSize entry (entrySetJumpSize entry jumpSize) := by
  have byte : (UInt8.ofNat jumpSize).toNat = jumpSize := by
    rw [UInt8.toNat_ofNat']
    exact Nat.mod_eq_of_lt (lt_trans small (by decide))
  refine @Puts.update entry _ 8 0 4 _ (by decide) fun i hi => ?_
  rw [offsetChildColorAndJumpSize, toNat_setLowNibble _ _ (byte.trans_lt small), byte]
  exact testBit_setLow _ (k := 4) small i

theorem puts_entrySetChildColor {childColor : UInt8} (small : childColor.toNat < 16) :
    Puts Field.childColor.bits childColor.toNat entry (entrySetChildColor entry childColor) := by
  refine @Puts.update entry _ 8 4 4 _ (by decide) fun i hi => ?_
  rw [offsetChildColorAndJumpSize, toNat_setHighNibble _ _ small]
  exact testBit_setHigh _ _ 4 hi

theorem puts_entrySetDirty : Puts Field.dirty.bits 1 entry (entrySetDirty entry) := by
  have mask : ∀ i < 64, (flagDirtyQword <<< (offsetParentColorAndFlags * 8)).getLsbD i =
      decide (3 ≤ i ∧ i < 3 + 1) := by
    decide
  have set (word mask : BitVec 64) : word ||| mask = word &&& ~~~mask ||| mask := by
    refine BitVec.eq_of_getLsbD_eq fun i hi => ?_
    rw [BitVec.getLsbD_or, BitVec.getLsbD_or, BitVec.getLsbD_and, BitVec.getLsbD_not,
      decide_eq_true hi]
    cases word.getLsbD i <;> cases mask.getLsbD i <;> rfl
  rw [entrySetDirty, set]
  refine @Puts.masked entry (3, 1) 1 8 _ _ (by decide) mask fun i hi => ?_
  rw [mask i hi]
  change decide (3 ≤ i ∧ i < 3 + 1) = (decide (3 ≤ i ∧ i < 3 + 1) && (1 : ℕ).testBit (i - 3))
  by_cases field : 3 ≤ i ∧ i < 3 + 1
  · rw [show i - 3 = 0 by omega]
    exact (Bool.and_true _).symm
  · rw [decide_eq_false field, Bool.false_and]

theorem puts_entrySetClean : Puts Field.dirty.bits 0 entry (entrySetClean entry) := by
  have mask : ∀ i < 64, (flagDirtyQword <<< (offsetParentColorAndFlags * 8)).getLsbD i =
      decide (3 ≤ i ∧ i < 3 + 1) := by
    decide
  have set (word mask : BitVec 64) : word &&& ~~~mask = word &&& ~~~mask ||| 0#64 :=
    (BitVec.or_zero).symm
  rw [entrySetClean, set]
  refine @Puts.masked entry (3, 1) 0 8 _ _ (by decide) mask fun i hi => ?_
  rw [BitVec.getLsbD_zero, Nat.zero_testBit, Bool.and_false]

/-- The color and the tag are written together. -/
theorem puts_entrySetColorAndTagQword {newValue : BitVec 64} (small : newValue.toNat < 256) :
    Puts (8, 8) newValue.toNat entry (entrySetColorAndTagQword entry newValue) := by
  have mask : ∀ i < 64, (0xFF#64 <<< (offsetColorAndTag * 8)).getLsbD i =
      decide (8 ≤ i ∧ i < 8 + 8) := by
    decide
  have again (word word' : BitVec 64) :
      @store 8 (@store 8 entry 0 word) 0 word' = @store 8 entry 0 word' := by
    refine memory_ext fun q => ?_
    rw [bitLE_store, bitLE_store, bitLE_store]
    split <;> rfl
  rw [entrySetColorAndTagQword, again, load_store]
  refine @Puts.masked entry (8, 8) newValue.toNat 8 _ _ (by decide) mask fun i hi => ?_
  change (newValue <<< 8).getLsbD i = (decide (8 ≤ i ∧ i < 8 + 8) && newValue.getLsbD (i - 8))
  rw [BitVec.getLsbD_shiftLeft, decide_eq_true hi, Bool.true_and]
  by_cases high : 16 ≤ i
  · have clear : newValue.getLsbD (i - 8) = false :=
      Nat.testBit_lt_two_pow
        (lt_of_lt_of_le small (Nat.pow_le_pow_right (by decide) (by omega) : 2 ^ 8 ≤ _))
    rw [clear, Bool.and_false, Bool.and_false]
  · congr 1
    rw [← decide_not]
    exact decide_eq_decide.mpr (by omega)

/-- The numbers a locator can hold. -/
def Fits (locator : Locator) : Prop :=
  locator.primaryBucket < 2 ^ 32 ∧ locator.tag < 2 ^ 8 ∧ locator.color < 2 ^ 8

/-- A number in its place in a word. -/
theorem getLsbD_ofNat_shiftLeft (x k : ℕ) {i : ℕ} (hi : i < 64) :
    (BitVec.ofNat 64 x <<< k).getLsbD i = (decide (k ≤ i) && x.testBit (i - k)) := by
  rw [BitVec.getLsbD_shiftLeft, BitVec.getLsbD_ofNat, decide_eq_true hi, Bool.true_and,
    decide_eq_true (show i - k < 64 by omega), Bool.true_and, ← decide_not]
  congr 1
  exact decide_eq_decide.mpr (by omega)

/-- The bits of a locator, in the order of its bytes. -/
theorem testBit_locatorValue {locator : Locator} (fits : Fits locator) {i : ℕ} (hi : i < 64) :
    (locatorValue locator).toNat.testBit i =
      if i < 32 then locator.primaryBucket.testBit i
      else if i < 40 then locator.tag.testBit (i - 32) else locator.color.testBit (i - 40) := by
  obtain ⟨primaryBucket, tag, color⟩ := fits
  have above {x n : ℕ} (small : x < 2 ^ n) {j : ℕ} (ge : n ≤ j) : x.testBit j = false :=
    Nat.testBit_lt_two_pow (lt_of_lt_of_le small (Nat.pow_le_pow_right (by decide) ge))
  change (locatorValue locator).getLsbD i = _
  rw [locatorValue, BitVec.getLsbD_or, BitVec.getLsbD_or, getLsbD_ofNat_shiftLeft _ _ hi,
    getLsbD_ofNat_shiftLeft _ _ hi, getLsbD_ofNat_shiftLeft _ _ hi, decide_eq_true (by omega),
    Bool.true_and, Nat.zero_mul, Nat.sub_zero]
  split
  · rw [decide_eq_false (by omega), decide_eq_false (by omega), Bool.false_and, Bool.false_and,
      Bool.or_false, Bool.or_false]
  · rw [above primaryBucket (by omega), Bool.false_or, decide_eq_true (show 4 * 8 ≤ i by omega),
      Bool.true_and]
    split
    · rw [decide_eq_false (by omega), Bool.false_and, Bool.false_or]
    · rw [above tag (by omega), decide_eq_true (by omega), Bool.true_and, Bool.or_false]

theorem puts_entrySetNextLeaf {nextLeaf : Locator} (fits : Fits nextLeaf) :
    Puts Field.nextLeaf.bits (locatorValue nextLeaf).toNat entry
      (entrySetNextLeaf entry nextLeaf) := by
  refine @Puts.masked entry (72, 48) (locatorValue nextLeaf).toNat 16 _ _ (by decide)
    (fun i hi => ?_) fun i hi => ?_
  · change (((1#128 <<< 48) - 1#128) <<< 72).getLsbD i = decide (72 ≤ i ∧ i < 72 + 48)
    rw [BitVec.getLsbD_shiftLeft, decide_eq_true hi, Bool.true_and,
      getLsbD_lowMask (by decide) (by omega), ← decide_not, ← Bool.decide_and]
    exact decide_eq_decide.mpr (by omega)
  · change ((locatorValue nextLeaf).setWidth 128 <<< 72).getLsbD i =
      (decide (72 ≤ i ∧ i < 72 + 48) && (locatorValue nextLeaf).getLsbD (i - 72))
    rw [BitVec.getLsbD_shiftLeft, BitVec.getLsbD_setWidth, decide_eq_true hi, Bool.true_and,
      decide_eq_true (show i - 72 < 128 by omega), Bool.true_and, ← decide_not]
    by_cases high : 120 ≤ i
    · have clear : (locatorValue nextLeaf).getLsbD (i - 72) = false := by
        refine (testBit_locatorValue fits (by omega)).trans ?_
        rw [if_neg (by omega), if_neg (by omega)]
        exact Nat.testBit_lt_two_pow
          (lt_of_lt_of_le fits.2.2 (Nat.pow_le_pow_right (by decide) (by omega)))
      rw [clear, Bool.and_false, Bool.and_false]
    · congr 1
      exact decide_eq_decide.mpr (by omega)

/-- **The next leaf is read back.** -/
theorem locatorAt_entrySetNextLeaf {nextLeaf : Locator} (fits : Fits nextLeaf) :
    locatorAt (entrySetNextLeaf entry nextLeaf) offsetNextLeaf = nextLeaf := by
  have puts := puts_entrySetNextLeaf entry fits
  have bits {i : ℕ} (hi : i < 64) := testBit_locatorValue fits hi
  have primaryBucket := (toNat_load 4 _ 9).trans (puts.bitsValueLE_eq (k := 0) (n := 32) (by decide))
  have tag := (toNat_byte_bits _ 13).trans (puts.bitsValueLE_eq (k := 32) (n := 8) (by decide))
  have color := (toNat_byte_bits _ 14).trans (puts.bitsValueLE_eq (k := 40) (n := 8) (by decide))
  have part {k n x : ℕ} (small : x < 2 ^ n)
      (same : ∀ i < n, (locatorValue nextLeaf).toNat.testBit (i + k) = x.testBit i) :
      (locatorValue nextLeaf).toNat / 2 ^ k % 2 ^ n = x := by
    refine Nat.eq_of_testBit_eq fun i => ?_
    rw [Nat.testBit_mod_two_pow, Nat.testBit_div_two_pow]
    by_cases inside : i < n
    · rw [decide_eq_true inside, Bool.true_and, same i inside]
    · rw [decide_eq_false inside, Bool.false_and, Nat.testBit_lt_two_pow
        (lt_of_lt_of_le small (Nat.pow_le_pow_right (by decide) (not_lt.mp inside)))]
  rw [part fits.1 fun i hi => by rw [bits (by omega), if_pos (by omega), Nat.add_zero]]
    at primaryBucket
  rw [part fits.2.1 fun i hi => by
    rw [bits (by omega), if_neg (by omega), if_pos (by omega), Nat.add_sub_cancel]] at tag
  rw [part fits.2.2 fun i hi => by
    rw [bits (by omega), if_neg (by omega), if_neg (by omega), Nat.add_sub_cancel]] at color
  change Locator.mk _ _ _ = nextLeaf
  rw [primaryBucket, tag, color]

/-- The bits `entry_add_flags` sets. -/
theorem bitLE_entryAddFlagsQword (flags : BitVec 64) (q : ℕ) :
    bitLE (entryAddFlagsQword entry flags) q = (bitLE entry q || flags.getLsbD q) := by
  rw [entryAddFlagsQword, bitLE_store]
  by_cases word : 8 * 0 ≤ q ∧ q < 8 * (0 + 8)
  · rw [if_pos word, Nat.mul_zero, Nat.sub_zero, BitVec.getLsbD_or,
      getLsbD_load_bitLE _ _ _ (by omega), Nat.mul_zero, Nat.zero_add]
    change (bitLE entry q || (flags <<< 0).getLsbD q) = _
    rw [BitVec.shiftLeft_zero]
  · rw [if_neg word, BitVec.getLsbD_of_ge _ _ (by omega), Bool.or_false]

/-- The pointer is written as bits. -/
theorem puts_entrySetKv (kv : BitVec 64) :
    Puts Field.kv.bits kv.toNat entry (entrySetKv entry kv) := fun q => by
  change _ = if 24 ≤ q ∧ q < 24 + 48 then kv.getLsbD (q - 24) else _
  rw [bitLE, bitLE]
  by_cases inside : 24 ≤ q ∧ q < 24 + 48
  · rw [if_pos inside, testBit_entrySetKv _ _ (by change 3 ≤ q / 8 ∧ q / 8 < 3 + 6; omega) (by omega)]
    congr 1
    change 8 * (q / 8 - 3) + q % 8 = q - 24
    omega
  · rw [if_neg inside, entrySetKv_of_not_mem _ _ (by change ¬ (3 ≤ q / 8 ∧ q / 8 < 3 + 6); omega)]

/-- A child is one bit of the bitmap. -/
theorem only_entrySetChildBit {child : ℕ} (le : child ≤ fanout) :
    Only [.childBitmap] entry (entrySetChildBit entry child) := fun q out => by
  have outside : ¬ (24 ≤ q ∧ q < 24 + 40) := out .childBitmap (List.mem_singleton_self _)
  change child ≤ 32 at le
  rw [entrySetChildBit_eq_setBit entry le, bitLE_eq_bit, bit_setBit, if_neg, ← bitLE_eq_bit]
  change ¬ 8 * (q / 8) + (7 - q % 8) = 8 * 3 + child
  omega

end CtEntry

/-! ## The setters on other models of an entry -/

/-- What is put determines the entry. -/
theorem Puts.unique {place : ℕ × ℕ} {value : ℕ} {entry'' : CtEntry}
    (puts : Puts place value entry entry') (puts' : Puts place value entry entry'') :
    entry' = entry'' := memory_ext fun q => (puts q).trans (puts' q).symm

namespace CtEntry

/-- **`entry_set_color_and_tag`** writes one byte, through a word. -/
theorem entrySetColorAndTagQword_eq (entry : CtEntry) (newValue : UInt8) :
    entrySetColorAndTagQword entry (BitVec.ofNat 64 newValue.toNat) =
      entrySetColorAndTag entry newValue := by
  have value : (BitVec.ofNat 64 newValue.toNat).toNat = newValue.toNat := by
    rw [BitVec.toNat_ofNat]
    exact Nat.mod_eq_of_lt (lt_trans newValue.toNat_lt (by decide))
  have puts := puts_entrySetColorAndTagQword entry (value.trans_lt newValue.toNat_lt)
  rw [value] at puts
  refine puts.unique (@Puts.update entry _ 1 0 8 _ (by decide) fun i hi => ?_)
  rw [if_pos (by omega), Nat.sub_zero]

/-- **`entry_add_flags`** writes one byte, through a word. -/
theorem entryAddFlagsQword_eq (entry : CtEntry) (flags : UInt8) :
    entryAddFlagsQword entry (BitVec.ofNat 64 flags.toNat) = entryAddFlags entry flags := by
  refine memory_ext fun q => ?_
  rw [bitLE_entryAddFlagsQword, BitVec.getLsbD_ofNat, entryAddFlags, bitLE, bitLE]
  by_cases first : q / 8 = offsetParentColorAndFlags
  · change q / 8 = 0 at first
    rw [first, Function.update_self, UInt8.toNat_or, Nat.testBit_or, decide_eq_true (by omega),
      Bool.true_and, show q % 8 = q by omega]
  · rw [Function.update_of_ne first]
    change ¬ q / 8 = 0 at first
    rw [testBit_toNat_of_ge flags (by omega), Bool.and_false, Bool.or_false]

/-- **`entry_set_next_leaf` is the change of the record** that keeps all but the locator. -/
theorem entrySetNextLeaf_refines (heap : BitVec 64 → CtKv) (entry : CtEntry) {nextLeaf : Locator}
    (fits : Fits nextLeaf) :
    leafEntry heap (entrySetNextLeaf entry nextLeaf) =
      { leafEntry heap entry with
        body := (leafEntry heap entry).body.setNextLeaf nextLeaf } := by
  have puts := puts_entrySetNextLeaf entry fits
  have bytes := @byte_eq entry (entrySetNextLeaf entry nextLeaf) 0 9 fun q _ lt => by
    rw [puts q, if_neg]
    change ¬ (72 ≤ q ∧ q < 72 + 48)
    omega
  have keeps : Keeps .leaf [.nextLeaf] entry (entrySetNextLeaf entry nextLeaf) :=
    puts.only_field.keeps (by decide)
  have kv := keeps .kv (by decide) (by decide)
  unfold leafEntry
  rw [locatorAt_entrySetNextLeaf entry fits, Value.pointer.inj kv,
    withBody_congr _ fun x lt => bytes (Nat.zero_le x) (lt_trans lt (by decide))]
  rfl

/-- The link of a leaf is replaced, between fields that hold other bits. -/
theorem entrySetNextLeaf_refines_patterned :
    let leaf : CtEntry := fun x => UInt8.ofNat (8 * x + 1)
    leafEntry (fun kv => ⟨kv.toNat, [0x80]⟩) (entrySetNextLeaf leaf ⟨5, 3, 2⟩) =
      { leafEntry (fun kv => ⟨kv.toNat, [0x80]⟩) leaf with
        body := .leaf ⟨0x413931292119, [0x80]⟩ ⟨5, 3, 2⟩ } :=
  (entrySetNextLeaf_refines (fun kv => ⟨kv.toNat, [0x80]⟩) (fun x => UInt8.ofNat (8 * x + 1))
    ⟨by decide, by decide, by decide⟩).trans (by decide +kernel)

end CtEntry

/-! ## A whole entry -/

open Interleaved

/-- `write_entry` by the holder of the lock, without interruption: the memory it leaves and
the counter it returns. -/
def writeEntryLocked (mem : Memory) (target : ℕ) (src : CtEntry) : Memory × BitVec 32 :=
  let counter := counterPtr target
  let seq := readIntAtomic mem counter
  let mem := writeIntAtomic mem counter (seq + seqIncrement)
  let mem := writeEntry mem target src
  (writeIntAtomic mem counter (seq + 2 * seqIncrement), seq + 2 * seqIncrement)

/-- One round of the loop of `read_entry`, without interruption; `none` goes round again. -/
def readEntryRound (mem : Memory) (entry : ℕ) : Option (CtEntry × BitVec 32) :=
  let counter := counterPtr entry
  let seq1 := readIntAtomic mem counter
  if seq1 &&& seqIncrement ≠ 0 then none
  else
    let result := resultOf (load 8 mem entry) (load 8 mem (entry + 8))
    let seq2 := readIntAtomic mem counter
    if seq2 ≠ seq1 then none else some (result, seq1)

variable (mem : Memory) (bucket : ℕ) (cell : Fin 4) (src : CtEntry)

/-- The accesses of a writer that is not interrupted. -/
theorem writeEntryLocked_steps {s : State} (outside : s.writer = .outside)
    (locked : s.mem (writeLockPtr bucket) = 1) :
    Relation.ReflTransGen (WriterStep bucket) s
      { s with
        mem := (writeEntryLocked s.mem (cellPtr bucket cell) src).1
        writes := s.writes + 1
        held := Function.update s.held cell src } := by
  have load := Relation.ReflTransGen.single (WriterStep.load cell src outside locked)
  have count := load.tail (WriterStep.count rfl)
  have part1 := count.tail (WriterStep.part1 rfl)
  have part2 := part1.tail (WriterStep.part2 rfl)
  have finish := part2.tail (WriterStep.finish rfl)
  rw [← outside] at finish
  exact finish

/-- The bytes of the cells after a write. -/
theorem writeEntryLocked_cell (cell' : Fin 4) {x : ℕ} (hx : x < entryStorageSize) :
    (writeEntryLocked mem (cellPtr bucket cell) src).1 (cellPtr bucket cell' + x) =
      if cell' = cell then src x else mem (cellPtr bucket cell' + x) := by
  unfold writeEntryLocked
  simp only [counterPtr_cellPtr]
  rw [writeIntAtomic_cellPtr _ _ _ hx, writeEntry_apply]
  change x < 15 at hx
  by_cases same : cell' = cell
  · subst same
    rw [if_pos ⟨Nat.le_add_right _ _, Nat.add_lt_add_left hx _⟩, if_pos rfl,
      Nat.add_sub_cancel_left]
  · have ne := Fin.val_ne_of_ne same
    rw [if_neg, if_neg same, writeIntAtomic_cellPtr _ _ _ hx]
    change ¬ (64 * bucket + 15 * cell.val ≤ 64 * bucket + 15 * cell'.val + x ∧
      64 * bucket + 15 * cell'.val + x < 64 * bucket + 15 * cell.val + 15)
    omega

/-- A round of `read_entry` while no write is in progress. -/
theorem readEntryRound_eq
    (even : readIntAtomic mem (writeLockPtr bucket) &&& seqIncrement = 0) :
    readEntryRound mem (cellPtr bucket cell) =
      some (resultOf (load 8 mem (cellPtr bucket cell)) (load 8 mem (cellPtr bucket cell + 8)),
        readIntAtomic mem (writeLockPtr bucket)) := by
  unfold readEntryRound
  simp only [counterPtr_cellPtr]
  rw [if_neg (not_not.mpr even), if_neg (not_not.mpr rfl)]

/-- **An entry that was written is read back.** -/
theorem readEntryRound_writeEntryLocked
    (even : readIntAtomic mem (writeLockPtr bucket) &&& seqIncrement = 0) :
    ∃ result, readEntryRound (writeEntryLocked mem (cellPtr bucket cell) src).1
          (cellPtr bucket cell) =
        some (result, (writeEntryLocked mem (cellPtr bucket cell) src).2) ∧
      ∀ x < entryStorageSize, result x = src x := by
  have counter : readIntAtomic (writeEntryLocked mem (cellPtr bucket cell) src).1
      (writeLockPtr bucket) = (writeEntryLocked mem (cellPtr bucket cell) src).2 := by
    unfold writeEntryLocked
    simp only [counterPtr_cellPtr]
    exact load_store ..
  have even' : (writeEntryLocked mem (cellPtr bucket cell) src).2 &&& seqIncrement = 0 := by
    rw [and_seqIncrement_eq_zero_iff] at even
    rw [and_seqIncrement_eq_zero_iff, writeEntryLocked, counterPtr_cellPtr, add_two_seqIncrement,
      sequence_add, sequence_add]
    omega
  have round := readEntryRound_eq _ bucket cell (counter ▸ even')
  rw [counter] at round
  refine ⟨_, round, fun x hx => ?_⟩
  rw [resultOf_load _ _ _ (lt_trans hx (by decide)), ite_self, writeEntryLocked_cell _ _ _ _ _ hx,
    if_pos rfl]

/-! ## All setters -/

/-- A flag of a word. -/
theorem decide_and_twoPow_ne_zero (x : BitVec 64) {i : ℕ} (hi : i < 64) :
    decide (x &&& BitVec.twoPow 64 i ≠ 0) = x.getLsbD i := by
  rw [BitVec.and_twoPow]
  cases x.getLsbD i with
  | false => rfl
  | true =>
    refine decide_eq_true fun zero => ?_
    rw [if_pos rfl] at zero
    have bit : (BitVec.twoPow 64 i).getLsbD i = true := by
      rw [BitVec.getLsbD_twoPow, decide_eq_true hi, decide_eq_true rfl]
      rfl
    rw [zero] at bit
    exact absurd bit (by simp)

/-- **Flags that are added** are those of the word. -/
theorem CtEntry.entryAddFlagsQword_spec (entry : CtEntry) {flags : BitVec 64}
    (known : flags &&& ~~~(flagSecondaryBucket ||| flagDirtyQword) = 0) :
    entryIsSecondary (entryAddFlagsQword entry flags) =
        (entryIsSecondary entry || decide (flags &&& flagSecondaryBucket ≠ 0)) ∧
      entryDirty (entryAddFlagsQword entry flags) =
        (entryDirty entry || decide (flags &&& flagDirtyQword ≠ 0)) ∧
      Only [.secondary, .dirty] entry (entryAddFlagsQword entry flags) := by
  refine ⟨?_, ?_, fun q out => ?_⟩
  · rw [entryIsSecondary_eq_bit, entryIsSecondary_eq_bit, bitLE_entryAddFlagsQword]
    exact congrArg _ (@decide_and_twoPow_ne_zero flags 2 (by decide)).symm
  · rw [entryDirty_eq_bit, entryDirty_eq_bit, bitLE_entryAddFlagsQword]
    exact congrArg _ (@decide_and_twoPow_ne_zero flags 3 (by decide)).symm
  · rw [bitLE_entryAddFlagsQword]
    by_cases word : q < 64
    · have mask : ∀ i < 64, (~~~(flagSecondaryBucket ||| flagDirtyQword)).getLsbD i =
          decide (¬ (2 ≤ i ∧ i < 2 + 1) ∧ ¬ (3 ≤ i ∧ i < 3 + 1)) := by
        decide
      have clear : (flags &&& ~~~(flagSecondaryBucket ||| flagDirtyQword)).getLsbD q = false := by
        rw [known]
        exact BitVec.getLsbD_zero
      rw [BitVec.getLsbD_and, mask q word, decide_eq_true
        ⟨out .secondary (by decide), out .dirty (by decide)⟩, Bool.and_true] at clear
      rw [clear, Bool.or_false]
    · rw [BitVec.getLsbD_of_ge _ _ (not_lt.mp word), Bool.or_false]

/-- **The color and the tag** are the nibbles of the byte that is written. -/
theorem CtEntry.entrySetColorAndTagQword_spec (entry : CtEntry) {newValue : BitVec 64}
    (small : newValue.toNat < 256) :
    (entryColor (entrySetColorAndTagQword entry newValue)).toNat = newValue.toNat / 16 ∧
      (entryTag (entrySetColorAndTagQword entry newValue)).toNat = newValue.toNat % 16 ∧
      Only [.color, .tag] entry (entrySetColorAndTagQword entry newValue) := by
  have puts := puts_entrySetColorAndTagQword entry small
  have color := (toNat_highNibble_bits _ 1).trans (puts.bitsValueLE_eq (k := 4) (n := 4) (by decide))
  have tag := (toNat_lowNibble_bits _ 1).trans (puts.bitsValueLE_eq (k := 0) (n := 4) (by decide))
  refine ⟨color.trans (by omega), tag.trans (by omega), puts.only fun q ge lt => ?_⟩
  by_cases low : q < 12
  · exact ⟨.tag, by decide, ge, low⟩
  · exact ⟨.color, by decide, not_lt.mp low, lt⟩

/-- A change to a field of the header keeps all others, in an entry of any type. -/
theorem Only.keeps_header {set : List Field} (only : Only set entry entry')
    (header : set ⊆ Field.header) (node : Node) : Keeps node set entry entry' :=
  only.keeps fun _ mem => node.header_subset (header mem)

/-- **The packed entry is a faithful record.**  For every entry and every value a field can
have, each setter makes the matching getter return the value, and leaves what all other
getters of the type of the entry return.  An entry that `write_entry` puts into a cell is
the one `read_entry` returns, with the sequence of the write, and no other cell of the
bucket changes. -/
theorem packed_entry_is_record (entry : CtEntry) :
    (∀ type : UInt8, type.toNat < 4 →
      CtEntry.entryType (CtEntry.entrySetType entry type) = type ∧
        ∀ node, Keeps node [.type] entry (CtEntry.entrySetType entry type)) ∧
    (CtEntry.entryDirty (CtEntry.entrySetDirty entry) = true ∧
      ∀ node, Keeps node [.dirty] entry (CtEntry.entrySetDirty entry)) ∧
    (CtEntry.entryDirty (CtEntry.entrySetClean entry) = false ∧
      ∀ node, Keeps node [.dirty] entry (CtEntry.entrySetClean entry)) ∧
    (∀ flags : BitVec 64, flags &&& ~~~(flagSecondaryBucket ||| flagDirtyQword) = 0 →
      CtEntry.entryIsSecondary (CtEntry.entryAddFlagsQword entry flags) =
          (CtEntry.entryIsSecondary entry || decide (flags &&& flagSecondaryBucket ≠ 0)) ∧
        CtEntry.entryDirty (CtEntry.entryAddFlagsQword entry flags) =
          (CtEntry.entryDirty entry || decide (flags &&& flagDirtyQword ≠ 0)) ∧
        ∀ node, Keeps node [.secondary, .dirty] entry (CtEntry.entryAddFlagsQword entry flags)) ∧
    (∀ newValue : BitVec 64, newValue.toNat < 256 →
      (CtEntry.entryColor (CtEntry.entrySetColorAndTagQword entry newValue)).toNat =
          newValue.toNat / 16 ∧
        (CtEntry.entryTag (CtEntry.entrySetColorAndTagQword entry newValue)).toNat =
          newValue.toNat % 16 ∧
        ∀ node, Keeps node [.color, .tag] entry
          (CtEntry.entrySetColorAndTagQword entry newValue)) ∧
    (∀ color : UInt8, color.toNat < 16 →
      CtEntry.entryParentColor (CtEntry.entrySetParentColor entry color) = color ∧
        ∀ node, Keeps node [.parentColor] entry (CtEntry.entrySetParentColor entry color)) ∧
    (∀ jumpSize < 16,
      CtEntry.entryJumpSize (CtEntry.entrySetJumpSize entry jumpSize) = jumpSize ∧
        Keeps .jump [.jumpSize] entry (CtEntry.entrySetJumpSize entry jumpSize)) ∧
    (∀ childColor : UInt8, childColor.toNat < 16 →
      CtEntry.entryChildColor (CtEntry.entrySetChildColor entry childColor) = childColor ∧
        Keeps .jump [.childColor] entry (CtEntry.entrySetChildColor entry childColor)) ∧
    (∀ child ≤ fanout,
      (∀ c, getBit (CtEntry.entrySetChildBit entry child) offsetChildBitmap c =
        (decide (c = child) || getBit entry offsetChildBitmap c)) ∧
        Keeps .bitmap [.childBitmap] entry (CtEntry.entrySetChildBit entry child)) ∧
    (∀ kv, Canonical kv →
      CtEntry.entryKv (CtEntry.entrySetKv entry kv) = kv ∧
        Keeps .leaf [.kv] entry (CtEntry.entrySetKv entry kv)) ∧
    (∀ nextLeaf, CtEntry.Fits nextLeaf →
      CtEntry.locatorAt (CtEntry.entrySetNextLeaf entry nextLeaf) offsetNextLeaf = nextLeaf ∧
        Keeps .leaf [.nextLeaf] entry (CtEntry.entrySetNextLeaf entry nextLeaf)) ∧
    ∀ mem bucket cell, readIntAtomic mem (writeLockPtr bucket) &&& seqIncrement = 0 →
      (∃ result, readEntryRound (writeEntryLocked mem (cellPtr bucket cell) entry).1
            (cellPtr bucket cell) =
          some (result, (writeEntryLocked mem (cellPtr bucket cell) entry).2) ∧
        ∀ x < entryStorageSize, result x = entry x) ∧
      ∀ cell' ≠ cell, ∀ x < entryStorageSize,
        (writeEntryLocked mem (cellPtr bucket cell) entry).1 (cellPtr bucket cell' + x) =
          mem (cellPtr bucket cell' + x) := by
  refine ⟨fun type small => ?_, ?_, ?_, fun flags known => ?_, fun newValue small => ?_,
    fun color small => ?_, fun jumpSize small => ?_, fun childColor small => ?_,
    fun child le => ?_, fun kv canonical => ?_, fun nextLeaf fits => ?_,
    fun mem bucket cell even => ?_⟩
  · have puts := CtEntry.puts_entrySetType entry small
    exact ⟨UInt8.toNat_inj.mp (Value.number.inj (puts.get_number (by decide) small)),
      puts.only_field.keeps_header (by decide)⟩
  · have puts := CtEntry.puts_entrySetDirty entry
    exact ⟨(CtEntry.entryDirty_eq_bit _).trans ((puts 3).trans rfl),
      puts.only_field.keeps_header (by decide)⟩
  · have puts := CtEntry.puts_entrySetClean entry
    exact ⟨(CtEntry.entryDirty_eq_bit _).trans ((puts 3).trans rfl),
      puts.only_field.keeps_header (by decide)⟩
  · obtain ⟨secondary, dirty, only⟩ := CtEntry.entryAddFlagsQword_spec entry known
    exact ⟨secondary, dirty, only.keeps_header (by decide)⟩
  · obtain ⟨color, tag, only⟩ := CtEntry.entrySetColorAndTagQword_spec entry small
    exact ⟨color, tag, only.keeps_header (by decide)⟩
  · have puts := CtEntry.puts_entrySetParentColor entry small
    exact ⟨UInt8.toNat_inj.mp (Value.number.inj (puts.get_number (by decide) small)),
      puts.only_field.keeps_header (by decide)⟩
  · have puts := CtEntry.puts_entrySetJumpSize entry small
    exact ⟨Value.number.inj (puts.get_number (by decide) small), puts.only_field.keeps (by decide)⟩
  · have puts := CtEntry.puts_entrySetChildColor entry small
    exact ⟨UInt8.toNat_inj.mp (Value.number.inj (puts.get_number (by decide) small)),
      puts.only_field.keeps (by decide)⟩
  · exact ⟨CtEntry.getBit_entrySetChildBit entry le,
      (CtEntry.only_entrySetChildBit entry le).keeps (by decide)⟩
  · exact ⟨CtEntry.entryKv_entrySetKv entry canonical,
      (CtEntry.puts_entrySetKv entry kv).only_field.keeps (by decide)⟩
  · exact ⟨CtEntry.locatorAt_entrySetNextLeaf entry fits,
      (CtEntry.puts_entrySetNextLeaf entry fits).only_field.keeps (by decide)⟩
  · refine ⟨readEntryRound_writeEntryLocked mem bucket cell entry even, fun cell' ne x hx => ?_⟩
    rw [writeEntryLocked_cell mem bucket cell entry cell' hx, if_neg ne]

end CuckooTrie.Packed
