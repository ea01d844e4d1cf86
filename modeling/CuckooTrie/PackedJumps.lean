import CuckooTrie.PackedEntry

/-!
# Jump nodes as bytes

The symbols of a jump node are five-bit fields, the first in the most significant bits of
`jump_bits`.  `extend_jump_node` appends one (`jumpSymbols_extendJumpNode`), and
`split_jump_node` cuts the string of symbols at the finger: the head keeps the symbols
before it, the bitmap has the one at it as its only child, and `copy_bits` moves the rest
into the tail (`jump_strings_survive`).
-/

namespace CuckooTrie.Packed

open Bytes

namespace CtEntry

/-! ## Nibbles -/

theorem toNat_lowNibble (b : UInt8) : (b &&& 15).toNat = b.toNat % 16 := by
  rw [UInt8.toNat_and]
  exact Nat.and_two_pow_sub_one_eq_mod b.toNat 4

theorem toNat_highNibble (b : UInt8) : (b >>> 4).toNat = b.toNat / 16 := by
  rw [UInt8.toNat_shiftRight]
  exact Nat.shiftRight_eq_div_pow b.toNat 4

/-- A byte with a new low nibble. -/
theorem toNat_setLowNibble (b low : UInt8) (small : low.toNat < 16) :
    (b &&& ~~~(15 : UInt8) ||| low).toNat = b.toNat / 16 * 16 + low.toNat := by
  have bytes : ∀ i < 256, ∀ j < 16, (UInt8.ofNat i &&& ~~~(15 : UInt8) ||| UInt8.ofNat j).toNat =
      i / 16 * 16 + j := by
    decide +kernel
  have := bytes b.toNat b.toNat_lt low.toNat small
  rwa [UInt8.ofNat_toNat, UInt8.ofNat_toNat] at this

/-- A byte with a new high nibble. -/
theorem toNat_setHighNibble (b high : UInt8) (small : high.toNat < 16) :
    (b &&& (15 : UInt8) ||| high <<< (4 : UInt8)).toNat = high.toNat * 16 + b.toNat % 16 := by
  have bytes : ∀ i < 256, ∀ j < 16, (UInt8.ofNat i &&& (15 : UInt8) |||
      UInt8.ofNat j <<< (4 : UInt8)).toNat =
      j * 16 + i % 16 := by
    decide +kernel
  have := bytes b.toNat b.toNat_lt high.toNat small
  rwa [UInt8.ofNat_toNat, UInt8.ofNat_toNat] at this

/-- A byte of two nibbles. -/
theorem toNat_nibbles (high low : UInt8) (smallHigh : high.toNat < 16) (smallLow : low.toNat < 16) :
    (high <<< (4 : UInt8) ||| low).toNat = high.toNat * 16 + low.toNat := by
  have bytes : ∀ i < 16, ∀ j < 16, (UInt8.ofNat i <<< (4 : UInt8) ||| UInt8.ofNat j).toNat =
      i * 16 + j := by
    decide +kernel
  have := bytes high.toNat smallHigh low.toNat smallLow
  rwa [UInt8.ofNat_toNat, UInt8.ofNat_toNat] at this

theorem toNat_highNibble_lt (b : UInt8) : (b >>> 4).toNat < 16 := by
  have := b.toNat_lt
  rw [toNat_highNibble]
  omega

theorem entryJumpSize_eq (entry : CtEntry) :
    entryJumpSize entry = (entry offsetChildColorAndJumpSize).toNat % 16 := toNat_lowNibble _

theorem toNat_entryChildColor (entry : CtEntry) :
    (entryChildColor entry).toNat = (entry offsetChildColorAndJumpSize).toNat / 16 :=
  toNat_highNibble _

/-! ## Symbols of a jump node -/

/-- A symbol is one more than the value of its five bits. -/
theorem getJumpSymbol_bits (entry : CtEntry) {i : ℕ} (h : i < maxJumpSymbols) :
    ∃ v < 32, getJumpSymbol entry i = v + 1 ∧
      ∀ m < 5, v.testBit m = bit entry (8 * offsetJumpBits + 5 * i + (4 - m)) := by
  change i < 8 at h
  refine ⟨_, lt_of_le_of_lt Nat.and_le_right (show symbolMask < 32 by decide), rfl, fun m hm => ?_⟩
  rw [show symbolMask = 2 ^ 5 - 1 from rfl, Nat.testBit_and, Nat.testBit_two_pow_sub_one,
    decide_eq_true hm, Bool.and_true]
  change ((@bswap 8 (load 8 entry offsetJumpBits) : BitVec 64) >>> (64 - 5 - 5 * i)).getLsbD m = _
  rw [BitVec.getLsbD_ushiftRight, getLsbD_bswap_load _ _ _ (by omega)]
  congr 1
  omega

/-- Bits that spell a symbol. -/
theorem getJumpSymbol_of_bits {entry : CtEntry} {i symbol : ℕ} (h : i < maxJumpSymbols)
    (valid : 1 ≤ symbol ∧ symbol ≤ fanout)
    (bits : ∀ m < 5, bit entry (8 * offsetJumpBits + 5 * i + (4 - m)) = (symbol - 1).testBit m) :
    getJumpSymbol entry i = symbol := by
  obtain ⟨v, small, value, spelled⟩ := getJumpSymbol_bits entry h
  have le : symbol ≤ 32 := valid.2
  have same : v = symbol - 1 := by
    refine Nat.eq_of_testBit_eq fun m => ?_
    by_cases low : m < 5
    · rw [spelled m low, bits m low]
    · have power : 2 ^ 5 ≤ 2 ^ m := Nat.pow_le_pow_right (by decide) (not_lt.mp low)
      rw [Nat.testBit_lt_two_pow (lt_of_lt_of_le small power),
        Nat.testBit_lt_two_pow (lt_of_lt_of_le (show symbol - 1 < 2 ^ 5 by omega) power)]
  omega

/-- The same bits spell the same symbol. -/
theorem getJumpSymbol_congr {entry entry' : CtEntry} {i i' : ℕ} (h : i < maxJumpSymbols)
    (h' : i' < maxJumpSymbols)
    (bits : ∀ m < 5, bit entry (8 * offsetJumpBits + 5 * i + m) =
      bit entry' (8 * offsetJumpBits + 5 * i' + m)) :
    getJumpSymbol entry i = getJumpSymbol entry' i' := by
  obtain ⟨v, small, value, spelled⟩ := getJumpSymbol_bits entry' h'
  refine getJumpSymbol_of_bits h ⟨?_, ?_⟩ fun m hm => ?_
  · omega
  · change _ ≤ 32
    omega
  · rw [bits _ (by omega), value, Nat.add_sub_cancel, spelled m hm]

theorem getJumpSymbol_mem (entry : CtEntry) (i : ℕ) :
    1 ≤ getJumpSymbol entry i ∧ getJumpSymbol entry i ≤ fanout :=
  ⟨Nat.succ_pos _, Nat.succ_le_of_lt (lt_of_le_of_lt Nat.and_le_right (by decide))⟩

/-- The symbols lie in `jump_bits`. -/
theorem getJumpSymbol_of_bytes {entry entry' : CtEntry} {i : ℕ} (h : i < maxJumpSymbols)
    (same : ∀ x, offsetJumpBits ≤ x → x < offsetChildColorAndJumpSize → entry x = entry' x) :
    getJumpSymbol entry i = getJumpSymbol entry' i := by
  change i < 8 at h
  refine getJumpSymbol_congr h h fun m hm => ?_
  rw [bit, bit, same _ (show 3 ≤ (8 * 3 + _ + _) / 8 by omega)
    (show (8 * 3 + _ + _) / 8 < 8 by omega)]

/-- The string of a jump node is in the bytes after the header. -/
theorem jumpSymbols_of_bytes {entry entry' : CtEntry} (valid : entryJumpSize entry ≤ maxJumpSymbols)
    (same : ∀ x, offsetJumpBits ≤ x → x < offsetMaxLeaf → entry' x = entry x) :
    jumpSymbols entry' = jumpSymbols entry ∧ entryChildColor entry' = entryChildColor entry := by
  have size : entry' offsetChildColorAndJumpSize = entry offsetChildColorAndJumpSize :=
    same 8 (by decide) (by decide)
  have sizes : entryJumpSize entry' = entryJumpSize entry := by
    rw [entryJumpSize, size, entryJumpSize]
  refine ⟨?_, by rw [entryChildColor, size, entryChildColor]⟩
  rw [jumpSymbols, jumpSymbols, sizes]
  refine List.map_congr_left fun i hi => ?_
  refine getJumpSymbol_of_bytes (lt_of_lt_of_le (List.mem_range.mp hi) valid) fun x ge lt => ?_
  exact same x ge (lt_trans lt (by decide))

theorem getElem_jumpSymbols (entry : CtEntry) (i : ℕ) (h : i < (jumpSymbols entry).length) :
    (jumpSymbols entry)[i] = getJumpSymbol entry i := by
  simp [jumpSymbols]

@[simp] theorem length_jumpSymbols (entry : CtEntry) :
    (jumpSymbols entry).length = entryJumpSize entry := by
  rw [jumpSymbols, List.length_map, List.length_range]

/-! ## Extending a jump node -/

/-- The bits of a jump node while `extend_jump_node` has not changed its size. -/
theorem bit_extended (jumpNode : CtEntry) {symbol : ℕ} (valid : 1 ≤ symbol ∧ symbol ≤ fanout)
    (p : ℕ) :
    bit (putBits jumpNode offsetJumpBits (entryJumpSize jumpNode * bitsPerSymbol) bitsPerSymbol
        (BitVec.ofNat 32 (symbol - 1))) p =
      if 8 * offsetJumpBits + 5 * entryJumpSize jumpNode ≤ p ∧
          p < 8 * offsetJumpBits + 5 * entryJumpSize jumpNode + 5 then
        (symbol - 1).testBit (8 * offsetJumpBits + 5 * entryJumpSize jumpNode + 5 - 1 - p)
      else bit jumpNode p := by
  have le : symbol ≤ 32 := valid.2
  have fits : (BitVec.ofNat 32 (symbol - 1)).toNat = symbol - 1 := by
    rw [BitVec.toNat_ofNat, Nat.mod_eq_of_lt (by omega)]
  rw [bit_putBits _ _ (by decide) (by rw [fits]; change _ < 32; omega), Nat.mul_comm _ bitsPerSymbol,
    ← BitVec.testBit_toNat, fits]

/-- **`extend_jump_node` appends a symbol** and changes nothing but the bits of the symbol and
the size. -/
theorem extendJumpNode_spec (jumpNode : CtEntry) {symbol : ℕ}
    (room : entryJumpSize jumpNode < maxJumpSymbols) (valid : 1 ≤ symbol ∧ symbol ≤ fanout) :
    jumpSymbols (extendJumpNode jumpNode symbol) = jumpSymbols jumpNode ++ [symbol] ∧
      entryChildColor (extendJumpNode jumpNode symbol) = entryChildColor jumpNode ∧
      ∀ x, x < offsetJumpBits ∨ offsetMaxLeaf ≤ x →
        extendJumpNode jumpNode symbol x = jumpNode x := by
  change _ < 8 at room
  have put := bit_extended jumpNode valid
  have stays (x : ℕ) (outside : x < offsetJumpBits ∨ offsetMaxChild ≤ x) :
      putBits jumpNode offsetJumpBits (entryJumpSize jumpNode * bitsPerSymbol) bitsPerSymbol
        (BitVec.ofNat 32 (symbol - 1)) x = jumpNode x := by
    refine byte_eq_of_bit fun i hi => ?_
    rw [put, if_neg]
    change x < 3 ∨ 8 ≤ x at outside
    change ¬ (8 * 3 + _ ≤ _ ∧ _ < 8 * 3 + _ + 5)
    omega
  have extended : extendJumpNode jumpNode symbol =
      Function.update (putBits jumpNode offsetJumpBits (entryJumpSize jumpNode * bitsPerSymbol)
        bitsPerSymbol (BitVec.ofNat 32 (symbol - 1))) offsetChildColorAndJumpSize
        (jumpNode offsetChildColorAndJumpSize + 1) := by
    rw [extendJumpNode, stays offsetChildColorAndJumpSize (Or.inr le_rfl)]
  have sizeByte : (extendJumpNode jumpNode symbol offsetChildColorAndJumpSize).toNat =
      (jumpNode offsetChildColorAndJumpSize).toNat + 1 := by
    have size := entryJumpSize_eq jumpNode
    rw [extended, Function.update_self, UInt8.toNat_add]
    change (_ + 1) % 2 ^ 8 = _
    have := (jumpNode offsetChildColorAndJumpSize).toNat_lt
    omega
  have size : entryJumpSize (extendJumpNode jumpNode symbol) = entryJumpSize jumpNode + 1 := by
    have before := entryJumpSize_eq jumpNode
    rw [entryJumpSize_eq, sizeByte]
    omega
  have bits (p : ℕ) (inside : p < 8 * offsetChildColorAndJumpSize) :
      bit (extendJumpNode jumpNode symbol) p = bit (putBits jumpNode offsetJumpBits
        (entryJumpSize jumpNode * bitsPerSymbol) bitsPerSymbol (BitVec.ofNat 32 (symbol - 1))) p := by
    change p < 8 * 8 at inside
    rw [extended, bit, Function.update_of_ne (show p / 8 ≠ 8 by omega), bit]
  refine ⟨?_, ?_, fun x outside => ?_⟩
  · have kept : (List.range (entryJumpSize jumpNode)).map
        (getJumpSymbol (extendJumpNode jumpNode symbol)) = jumpSymbols jumpNode := by
      refine List.map_congr_left fun i hi => ?_
      have before := List.mem_range.mp hi
      refine getJumpSymbol_congr (show i < 8 by omega) (show i < 8 by omega) fun m hm => ?_
      rw [bits _ (show _ < 8 * 8 by change 8 * 3 + _ + _ < _; omega), put, if_neg (by omega)]
    have new : getJumpSymbol (extendJumpNode jumpNode symbol) (entryJumpSize jumpNode) = symbol := by
      refine getJumpSymbol_of_bits room valid fun m hm => ?_
      rw [bits _ (show _ < 8 * 8 by change 8 * 3 + _ + _ < _; omega), put, if_pos (by omega),
        show 8 * offsetJumpBits + 5 * entryJumpSize jumpNode + 5 - 1 -
          (8 * offsetJumpBits + 5 * entryJumpSize jumpNode + (4 - m)) = m by omega]
    rw [jumpSymbols, size, List.range_succ, List.map_append, List.map_singleton, kept, new]
  · apply UInt8.toNat_inj.mp
    have before := entryJumpSize_eq jumpNode
    rw [toNat_entryChildColor, toNat_entryChildColor, sizeByte]
    omega
  · change x < 3 ∨ 9 ≤ x at outside
    rw [extended, Function.update_of_ne (show x ≠ 8 by omega)]
    exact stays x (show x < 3 ∨ 8 ≤ x by omega)

/-- **A string of symbols is appended symbol by symbol.** -/
theorem extendJumpNodes_spec (jumpNode : CtEntry) (symbols : List ℕ)
    (room : entryJumpSize jumpNode + symbols.length ≤ maxJumpSymbols)
    (valid : ∀ symbol ∈ symbols, 1 ≤ symbol ∧ symbol ≤ fanout) :
    jumpSymbols (symbols.foldl extendJumpNode jumpNode) = jumpSymbols jumpNode ++ symbols ∧
      entryChildColor (symbols.foldl extendJumpNode jumpNode) = entryChildColor jumpNode ∧
      ∀ x, x < offsetJumpBits ∨ offsetMaxLeaf ≤ x →
        symbols.foldl extendJumpNode jumpNode x = jumpNode x := by
  induction symbols generalizing jumpNode with
  | nil => exact ⟨(List.append_nil _).symm, rfl, fun _ _ => rfl⟩
  | cons symbol symbols ih =>
    rw [List.length_cons] at room
    obtain ⟨validFirst, validRest⟩ := List.forall_mem_cons.mp valid
    obtain ⟨string, color, frame⟩ := extendJumpNode_spec jumpNode (by omega) validFirst
    have size := congrArg List.length string
    rw [length_jumpSymbols, List.length_append, length_jumpSymbols, List.length_singleton] at size
    obtain ⟨string', color', frame'⟩ := ih (extendJumpNode jumpNode symbol) (by omega) validRest
    rw [List.foldl_cons]
    refine ⟨?_, color'.trans color, fun x outside => (frame' x outside).trans (frame x outside)⟩
    rw [string', string, List.append_assoc, List.singleton_append]

/-! ## Splitting a jump node -/

/-- What `add_entry` stores into the entry it is given: the flag of the bucket and the color
and the tag. -/
structure Added where
  secondary : Bool
  colorAndTag : UInt8

/-- The entry after `add_entry`. -/
def Added.store (added : Added) (entry : CtEntry) : CtEntry :=
  entrySetColorAndTag (entryAddFlags entry (if added.secondary then flagSecondary else 0))
    added.colorAndTag

/-- What `split_jump_node` leaves below the bitmap: a tail, or the old child with a new parent
color. -/
inductive BelowBitmap where
  | tail (tailEntry : CtEntry)
  | child (parentColor : UInt8)

/-- The entries `split_jump_node` makes of a jump node. -/
structure SplitJump where
  newHead : CtEntry
  bitmapNode : CtEntry
  below : BelowBitmap

/-- The part of `split_jump_node` that makes a symbol the only child of a bitmap. -/
def setOnlyChild (bitmapNode : CtEntry) (splitSymbol : ℕ) : CtEntry :=
  let bitmapNode := setBit (clearChildBitmap bitmapNode) offsetChildBitmap splitSymbol true
  Function.update bitmapNode offsetMaxChild (UInt8.ofNat splitSymbol)

/-- `new_bitmap`, which becomes the child of the head. -/
def newBitmap (jumpNode uninit : CtEntry) (lastPrefixSymbol splitSymbol : ℕ) : CtEntry :=
  let bitmapNode := Function.update uninit offsetParentColorAndFlags
    (UInt8.ofNat invalidColor <<< (4 : UInt8) ||| typeBitmap)
  let bitmapNode := Function.update bitmapNode offsetLastSymbol (UInt8.ofNat lastPrefixSymbol)
  setOnlyChild (copyMaxLeaf bitmapNode jumpNode) splitSymbol

/-- `tail_entry`. -/
def tailEntry (jumpNode uninit : CtEntry) (depthInJump : ℕ) (bitmapColor : UInt8) : CtEntry :=
  let numTailSymbols := entryJumpSize jumpNode - depthInJump - 1
  let tail := Function.update uninit offsetParentColorAndFlags
    (bitmapColor <<< (4 : UInt8) ||| typeJump)
  let tail := Function.update tail offsetChildColorAndJumpSize
    (entryChildColor jumpNode <<< (4 : UInt8) ||| UInt8.ofNat numTailSymbols)
  let tail := Function.update tail offsetLastSymbol
    (UInt8.ofNat (getJumpSymbol jumpNode depthInJump))
  copyBits (copyMaxLeaf tail jumpNode) offsetJumpBits jumpNode offsetJumpBits
    ((depthInJump + 1) * bitsPerSymbol) (numTailSymbols * bitsPerSymbol)

/-- `new_head` and `bitmap_node`, which is `new_head` itself when no symbol is left before
it. -/
def headAndBitmap (jumpNode uninitBitmap : CtEntry) (depthInJump lastPrefixSymbol : ℕ)
    (addedBitmap : Added) : CtEntry × CtEntry :=
  let splitSymbol := getJumpSymbol jumpNode depthInJump
  let newHead := entrySetJumpSize jumpNode depthInJump
  if depthInJump = 0 then
    let newHead := setOnlyChild (entrySetType newHead typeBitmap) splitSymbol
    (newHead, newHead)
  else
    let bitmapNode :=
      addedBitmap.store (newBitmap jumpNode uninitBitmap lastPrefixSymbol splitSymbol)
    (entrySetChildColor newHead (entryColor bitmapNode), bitmapNode)

/-- The part of `split_jump_node` below the bitmap. -/
def belowBitmap (jumpNode uninitTail : CtEntry) (depthInJump : ℕ) (bitmapColor : UInt8)
    (addedTail : Added) : BelowBitmap :=
  if depthInJump + 1 < entryJumpSize jumpNode then
    .tail (addedTail.store (tailEntry jumpNode uninitTail depthInJump bitmapColor))
  else .child bitmapColor

/-- The entries of `split_jump_node`, by what `add_entry` stores into the new ones and by the
prior contents of their local variables. -/
def splitJumpNode (jumpNode uninitBitmap uninitTail : CtEntry) (depthInJump lastPrefixSymbol : ℕ)
    (addedBitmap addedTail : Added) : SplitJump :=
  let nodes := headAndBitmap jumpNode uninitBitmap depthInJump lastPrefixSymbol addedBitmap
  ⟨nodes.1, nodes.2,
    belowBitmap jumpNode uninitTail depthInJump (entryColor nodes.2) addedTail⟩

/-! ### The bitmap -/

theorem setOnlyChild_of_ne (bitmapNode : CtEntry) {splitSymbol x : ℕ} (le : splitSymbol ≤ fanout)
    (outside : x < offsetChildBitmap ∨ offsetMaxLeaf ≤ x) :
    setOnlyChild bitmapNode splitSymbol x = bitmapNode x := by
  change splitSymbol ≤ 32 at le
  change x < 3 ∨ 9 ≤ x at outside
  unfold setOnlyChild clearChildBitmap
  rw [Function.update_of_ne (show x ≠ 8 by omega),
    setBit_of_ne (show x ≠ 3 + splitSymbol / 8 by omega)]
  exact if_neg (show ¬ (3 ≤ x ∧ x < 3 + 5) by omega)

theorem setOnlyChild_maxChild (bitmapNode : CtEntry) (splitSymbol : ℕ) :
    setOnlyChild bitmapNode splitSymbol offsetMaxChild = UInt8.ofNat splitSymbol := by
  unfold setOnlyChild
  exact Function.update_self _ _ _

/-- The bitmap has the one bit. -/
theorem getBit_setOnlyChild (bitmapNode : CtEntry) (splitSymbol : ℕ) {c : ℕ}
    (h : c < 8 * childBitmapBytes) :
    getBit (setOnlyChild bitmapNode splitSymbol) offsetChildBitmap c = decide (c = splitSymbol) := by
  change c < 40 at h
  rw [getBit_eq, setOnlyChild, bit, Function.update_of_ne (show (8 * 3 + c) / 8 ≠ 8 by omega), ← bit,
    bit_setBit]
  by_cases same : c = splitSymbol
  · rw [if_pos (by rw [same]), decide_eq_true same]
  · have cleared : clearChildBitmap bitmapNode ((8 * 3 + c) / 8) = 0 :=
      if_pos (show 3 ≤ (8 * 3 + c) / 8 ∧ (8 * 3 + c) / 8 < 3 + 5 by omega)
    rw [if_neg (show ¬ 8 * 3 + c = 8 * 3 + splitSymbol by omega), decide_eq_false same, bit, cleared]
    exact Nat.zero_testBit _

/-! ### The head and the tail -/

/-- **The head keeps the symbols before the finger**, with a new child. -/
theorem newHead_spec (jumpNode : CtEntry) {depthInJump : ℕ} {childColor : UInt8}
    (valid : entryJumpSize jumpNode ≤ maxJumpSymbols) (inside : depthInJump < entryJumpSize jumpNode)
    (small : childColor.toNat < 16) :
    let newHead := entrySetChildColor (entrySetJumpSize jumpNode depthInJump) childColor
    jumpSymbols newHead = (jumpSymbols jumpNode).take depthInJump ∧
      entryChildColor newHead = childColor ∧
      ∀ x ≠ offsetChildColorAndJumpSize, newHead x = jumpNode x := by
  change _ ≤ 8 at valid
  have depth : (UInt8.ofNat depthInJump).toNat = depthInJump := by
    rw [UInt8.toNat_ofNat']
    exact Nat.mod_eq_of_lt (by omega)
  have stays : ∀ x ≠ offsetChildColorAndJumpSize,
      entrySetChildColor (entrySetJumpSize jumpNode depthInJump) childColor x = jumpNode x := by
    intro x other
    rw [entrySetChildColor, Function.update_of_ne other, entrySetJumpSize,
      Function.update_of_ne other]
  have byte : (entrySetChildColor (entrySetJumpSize jumpNode depthInJump) childColor
      offsetChildColorAndJumpSize).toNat = childColor.toNat * 16 + depthInJump := by
    rw [entrySetChildColor, Function.update_self, toNat_setHighNibble _ _ small, entrySetJumpSize,
      Function.update_self, toNat_setLowNibble _ _ (by omega), depth]
    omega
  refine ⟨?_, ?_, stays⟩
  · have size : entryJumpSize (entrySetChildColor (entrySetJumpSize jumpNode depthInJump)
        childColor) = depthInJump := by
      rw [entryJumpSize_eq, byte]
      omega
    apply List.ext_getElem
    · rw [length_jumpSymbols, size, List.length_take, length_jumpSymbols, Nat.min_eq_left inside.le]
    · intro i hi _
      rw [length_jumpSymbols, size] at hi
      rw [List.getElem_take, getElem_jumpSymbols, getElem_jumpSymbols]
      exact getJumpSymbol_of_bytes (show i < 8 by omega) fun x _ lt => stays x lt.ne
  · apply UInt8.toNat_inj.mp
    rw [toNat_entryChildColor, byte]
    omega

/-- `copy_bits` writes into the `jump_bits` of the tail alone. -/
theorem copyBits_inside_jumpBits (tail jumpNode : CtEntry) {depthInJump x : ℕ}
    (valid : entryJumpSize jumpNode ≤ maxJumpSymbols)
    (outside : x < offsetJumpBits ∨ offsetChildColorAndJumpSize ≤ x) :
    copyBits tail offsetJumpBits jumpNode offsetJumpBits ((depthInJump + 1) * bitsPerSymbol)
      ((entryJumpSize jumpNode - depthInJump - 1) * bitsPerSymbol) x = tail x := by
  change _ ≤ 8 at valid
  change x < 3 ∨ 8 ≤ x at outside
  refine copyBits_of_not_mem (show ¬ (3 ≤ x ∧ x < 3 + (_ * 5 / 8 + 1)) from ?_)
  omega

/-- The bytes of the tail outside its `jump_bits`. -/
theorem tailEntry_bytes (jumpNode uninit : CtEntry) (depthInJump : ℕ) (bitmapColor : UInt8)
    (valid : entryJumpSize jumpNode ≤ maxJumpSymbols) :
    let tail := tailEntry jumpNode uninit depthInJump bitmapColor
    tail offsetParentColorAndFlags = bitmapColor <<< (4 : UInt8) ||| typeJump ∧
      tail offsetLastSymbol = UInt8.ofNat (getJumpSymbol jumpNode depthInJump) ∧
      tail offsetChildColorAndJumpSize = entryChildColor jumpNode <<< (4 : UInt8) |||
        UInt8.ofNat (entryJumpSize jumpNode - depthInJump - 1) ∧
      ∀ x, offsetMaxLeaf ≤ x → x < offsetMaxLeaf + entryLocatorSize → tail x = jumpNode x := by
  unfold tailEntry copyMaxLeaf
  refine ⟨?_, ?_, ?_, fun x ge lt => ?_⟩
  · rw [copyBits_inside_jumpBits _ _ valid (by decide), if_neg (by decide),
      Function.update_of_ne (by decide), Function.update_of_ne (by decide), Function.update_self]
  · rw [copyBits_inside_jumpBits _ _ valid (by decide), if_neg (by decide), Function.update_self]
  · rw [copyBits_inside_jumpBits _ _ valid (by decide), if_neg (by decide),
      Function.update_of_ne (by decide), Function.update_self]
  · rw [copyBits_inside_jumpBits _ _ valid (Or.inr (le_trans (by decide) ge)), if_pos ⟨ge, lt⟩]

/-- **The tail gets the symbols after the finger**, and the child color. -/
theorem tailEntry_spec (jumpNode uninit : CtEntry) {depthInJump : ℕ} (bitmapColor : UInt8)
    (valid : entryJumpSize jumpNode ≤ maxJumpSymbols)
    (inside : depthInJump + 1 < entryJumpSize jumpNode) :
    let tail := tailEntry jumpNode uninit depthInJump bitmapColor
    jumpSymbols tail = (jumpSymbols jumpNode).drop (depthInJump + 1) ∧
      entryChildColor tail = entryChildColor jumpNode := by
  obtain ⟨-, -, sizeByte, -⟩ := tailEntry_bytes jumpNode uninit depthInJump bitmapColor valid
  change _ ≤ 8 at valid
  have few : (UInt8.ofNat (entryJumpSize jumpNode - depthInJump - 1)).toNat =
      entryJumpSize jumpNode - depthInJump - 1 := by
    rw [UInt8.toNat_ofNat']
    exact Nat.mod_eq_of_lt (by omega)
  have byte : (tailEntry jumpNode uninit depthInJump bitmapColor
      offsetChildColorAndJumpSize).toNat =
        (entryChildColor jumpNode).toNat * 16 + (entryJumpSize jumpNode - depthInJump - 1) := by
    rw [sizeByte, toNat_nibbles (entryChildColor jumpNode) _ (toNat_highNibble_lt _) (by omega), few]
  have size : entryJumpSize (tailEntry jumpNode uninit depthInJump bitmapColor) =
      entryJumpSize jumpNode - depthInJump - 1 := by
    rw [entryJumpSize_eq, byte]
    omega
  refine ⟨?_, ?_⟩
  · apply List.ext_getElem
    · rw [length_jumpSymbols, size, List.length_drop, length_jumpSymbols]
      omega
    · intro i hi _
      rw [length_jumpSymbols, size] at hi
      rw [List.getElem_drop, getElem_jumpSymbols, getElem_jumpSymbols]
      refine getJumpSymbol_congr (show i < 8 by omega) (show depthInJump + 1 + i < 8 by omega)
        fun m hm => ?_
      rw [tailEntry, bit_copyBits, if_pos]
      · congr 1
        change 8 * 3 + (depthInJump + 1) * 5 + (8 * 3 + 5 * i + m - 8 * 3) = 8 * 3 + _ + m
        omega
      · change 8 * 3 ≤ 8 * 3 + 5 * i + m ∧ 8 * 3 + 5 * i + m < 8 * (3 + (_ * 5 / 8 + 1))
        omega
  · apply UInt8.toNat_inj.mp
    rw [toNat_entryChildColor, byte]
    omega

/-! ### The common header -/

/-- The fields of the first byte of a new entry. -/
theorem header_nibbles (color : UInt8) (small : color.toNat < 16) (type : UInt8)
    (valid : type.toNat < 4) (secondary : Bool) :
    let b := (color <<< (4 : UInt8) ||| type) ||| (if secondary then flagSecondary else 0)
    b &&& 3 = type ∧ b >>> 4 = color ∧ b &&& flagDirty ≠ flagDirty ∧
      (b &&& flagSecondary = flagSecondary ↔ secondary = true) := by
  have bytes : ∀ i < 16, ∀ j < 4, ∀ secondary : Bool,
      let b := (UInt8.ofNat i <<< (4 : UInt8) ||| UInt8.ofNat j) |||
        (if secondary then flagSecondary else 0)
      b &&& 3 = UInt8.ofNat j ∧ b >>> 4 = UInt8.ofNat i ∧ b &&& flagDirty ≠ flagDirty ∧
        (b &&& flagSecondary = flagSecondary ↔ secondary = true) := by
    decide +kernel
  have := bytes color.toNat small type.toNat valid secondary
  rwa [UInt8.ofNat_toNat, UInt8.ofNat_toNat] at this

/-- `entry_set_type` changes the type alone. -/
theorem setType_bitmap (b : UInt8) :
    let b' := b &&& ~~~(3 : UInt8) ||| typeBitmap
    b' &&& 3 = typeBitmap ∧ b' >>> 4 = b >>> 4 ∧ b' &&& flagDirty = b &&& flagDirty ∧
      b' &&& flagSecondary = b &&& flagSecondary := by
  have bytes : ∀ i < 256,
      let b' := UInt8.ofNat i &&& ~~~(3 : UInt8) ||| typeBitmap
      b' &&& 3 = typeBitmap ∧ b' >>> 4 = UInt8.ofNat i >>> 4 ∧
        b' &&& flagDirty = UInt8.ofNat i &&& flagDirty ∧
        b' &&& flagSecondary = UInt8.ofNat i &&& flagSecondary := by
    decide +kernel
  have := bytes b.toNat b.toNat_lt
  rwa [UInt8.ofNat_toNat] at this

theorem Added.store_of_le (added : Added) (entry : CtEntry) {x : ℕ} (h : offsetLastSymbol ≤ x) :
    added.store entry x = entry x := by
  change 2 ≤ x at h
  rw [Added.store, entrySetColorAndTag, Function.update_of_ne (show x ≠ 1 by omega), entryAddFlags,
    Function.update_of_ne (show x ≠ 0 by omega)]

theorem Added.store_flags (added : Added) (entry : CtEntry) :
    added.store entry offsetParentColorAndFlags =
      entry offsetParentColorAndFlags ||| (if added.secondary then flagSecondary else 0) := by
  rw [Added.store, entrySetColorAndTag, Function.update_of_ne (by decide), entryAddFlags,
    Function.update_self]

/-! ### The whole split -/

/-- The symbols below the bitmap. -/
def BelowBitmap.symbols : BelowBitmap → List ℕ
  | .tail tailEntry => jumpSymbols tailEntry
  | .child _ => []

/-- The symbols on the path from the head to the old child. -/
def SplitJump.spelled (split : SplitJump) (depthInJump : ℕ) : List ℕ :=
  (if depthInJump = 0 then [] else jumpSymbols split.newHead) ++
    (split.bitmapNode offsetMaxChild).toNat :: split.below.symbols

/-- What a split leaves above and at the bitmap, of a jump node with some symbols. -/
structure HeadAndBitmap (newHead bitmapNode jumpNode : CtEntry) (symbols : List ℕ)
    (depthInJump : ℕ) : Prop where
  head : depthInJump ≠ 0 →
    entryType newHead = typeJump ∧
      jumpSymbols newHead = symbols.take depthInJump ∧
      entryChildColor newHead = entryColor bitmapNode ∧
      ∀ x ≠ offsetChildColorAndJumpSize, newHead x = jumpNode x
  noHead : depthInJump = 0 →
    newHead = bitmapNode ∧
      entryParentColor bitmapNode = entryParentColor jumpNode ∧
      bitmapNode offsetColorAndTag = jumpNode offsetColorAndTag ∧
      bitmapNode offsetLastSymbol = jumpNode offsetLastSymbol
  bitmap : entryType bitmapNode = typeBitmap ∧
    (∀ c < 8 * childBitmapBytes,
      getBit bitmapNode offsetChildBitmap c = decide (c = symbols.getD depthInJump 0)) ∧
    (bitmapNode offsetMaxChild).toNat = symbols.getD depthInJump 0
  newBitmap : depthInJump ≠ 0 →
    entryParentColor bitmapNode = UInt8.ofNat invalidColor ∧
      (bitmapNode offsetLastSymbol).toNat = symbols.getD (depthInJump - 1) 0
  maxLeaf : ∀ x, offsetMaxLeaf ≤ x → x < offsetMaxLeaf + entryLocatorSize →
    newHead x = jumpNode x ∧ bitmapNode x = jumpNode x

/-- **What a split makes of a jump node** with some symbols. -/
structure SplitJump.Splits (split : SplitJump) (jumpNode : CtEntry) (symbols : List ℕ)
    (depthInJump : ℕ) : Prop where
  nodes : HeadAndBitmap split.newHead split.bitmapNode jumpNode symbols depthInJump
  hasTail : (∃ tailEntry, split.below = .tail tailEntry) ↔ depthInJump + 1 < symbols.length
  tail : ∀ tailEntry, split.below = .tail tailEntry →
    (entryType tailEntry = typeJump ∧
      jumpSymbols tailEntry = symbols.drop (depthInJump + 1) ∧
      entryChildColor tailEntry = entryChildColor jumpNode ∧
      entryParentColor tailEntry = entryColor split.bitmapNode ∧
      (tailEntry offsetLastSymbol).toNat = symbols.getD depthInJump 0) ∧
    ∀ x, offsetMaxLeaf ≤ x → x < offsetMaxLeaf + entryLocatorSize → tailEntry x = jumpNode x
  child : ∀ parentColor, split.below = .child parentColor →
    parentColor = entryColor split.bitmapNode
  spelled : split.spelled depthInJump = symbols

theorem getD_jumpSymbols {jumpNode : CtEntry} {i : ℕ} (inside : i < entryJumpSize jumpNode) :
    (jumpSymbols jumpNode).getD i 0 = getJumpSymbol jumpNode i := by
  rw [List.getD_eq_getElem _ _ (by rwa [length_jumpSymbols]), getElem_jumpSymbols]

theorem toNat_jumpSymbol (jumpNode : CtEntry) (i : ℕ) :
    (UInt8.ofNat (getJumpSymbol jumpNode i)).toNat = getJumpSymbol jumpNode i := by
  have le : getJumpSymbol jumpNode i ≤ 32 := (getJumpSymbol_mem jumpNode i).2
  rw [UInt8.toNat_ofNat']
  exact Nat.mod_eq_of_lt (by omega)

/-- The tail as it is stored. -/
theorem storedTail_spec (jumpNode uninit : CtEntry) {depthInJump : ℕ} {bitmapColor : UInt8}
    (added : Added) (valid : entryJumpSize jumpNode ≤ maxJumpSymbols)
    (inside : depthInJump + 1 < entryJumpSize jumpNode) (small : bitmapColor.toNat < 16) :
    let tail := added.store (tailEntry jumpNode uninit depthInJump bitmapColor)
    (entryType tail = typeJump ∧
      jumpSymbols tail = (jumpSymbols jumpNode).drop (depthInJump + 1) ∧
      entryChildColor tail = entryChildColor jumpNode ∧
      entryParentColor tail = bitmapColor ∧
      (tail offsetLastSymbol).toNat = getJumpSymbol jumpNode depthInJump) ∧
    ∀ x, offsetMaxLeaf ≤ x → x < offsetMaxLeaf + entryLocatorSize → tail x = jumpNode x := by
  obtain ⟨flags, last, -, maxLeaf⟩ := tailEntry_bytes jumpNode uninit depthInJump bitmapColor valid
  obtain ⟨symbols, color⟩ := tailEntry_spec jumpNode uninit bitmapColor valid inside
  have size : entryJumpSize (tailEntry jumpNode uninit depthInJump bitmapColor) ≤ maxJumpSymbols := by
    rw [← length_jumpSymbols, symbols, List.length_drop, length_jumpSymbols]
    omega
  obtain ⟨stored, storedColor⟩ := jumpSymbols_of_bytes size fun x ge _ =>
    added.store_of_le (tailEntry jumpNode uninit depthInJump bitmapColor) (le_trans (by decide) ge)
  obtain ⟨type, parent, -⟩ := header_nibbles bitmapColor small typeJump (by decide) added.secondary
  refine ⟨⟨?_, stored.trans symbols, storedColor.trans color, ?_, ?_⟩, fun x ge lt => ?_⟩
  · rw [entryType, added.store_flags, flags, type]
  · rw [entryParentColor, added.store_flags, flags, parent]
  · rw [added.store_of_le _ le_rfl, last, toNat_jumpSymbol]
  · rw [added.store_of_le _ (le_trans (by decide) ge), maxLeaf x ge lt]

/-- The bitmap a jump node is turned into. -/
theorem headBitmap_spec (jumpNode : CtEntry) {splitSymbol : ℕ} (le : splitSymbol ≤ fanout) :
    let node := setOnlyChild (entrySetType (entrySetJumpSize jumpNode 0) typeBitmap) splitSymbol
    entryType node = typeBitmap ∧ entryParentColor node = entryParentColor jumpNode ∧
      node offsetColorAndTag = jumpNode offsetColorAndTag ∧
      node offsetLastSymbol = jumpNode offsetLastSymbol ∧
      ∀ x, offsetMaxLeaf ≤ x → node x = jumpNode x := by
  obtain ⟨type, parent, -⟩ := setType_bitmap (jumpNode offsetParentColorAndFlags)
  have other (x : ℕ) (outside : x < offsetChildBitmap ∨ offsetMaxLeaf ≤ x)
      (notFlags : x ≠ offsetParentColorAndFlags) :
      setOnlyChild (entrySetType (entrySetJumpSize jumpNode 0) typeBitmap) splitSymbol x =
        jumpNode x := by
    change x < 3 ∨ 9 ≤ x at outside
    rw [setOnlyChild_of_ne _ le outside, entrySetType, Function.update_of_ne notFlags,
      entrySetJumpSize, Function.update_of_ne (show x ≠ 8 by omega)]
  have flags : setOnlyChild (entrySetType (entrySetJumpSize jumpNode 0) typeBitmap) splitSymbol
      offsetParentColorAndFlags =
        jumpNode offsetParentColorAndFlags &&& ~~~(3 : UInt8) ||| typeBitmap := by
    rw [setOnlyChild_of_ne _ le (Or.inl (by decide)), entrySetType, Function.update_self,
      entrySetJumpSize, Function.update_of_ne (by decide)]
  refine ⟨?_, ?_, ?_, ?_, fun x ge => ?_⟩
  · rw [entryType, flags, type]
  · rw [entryParentColor, flags, parent, entryParentColor]
  · exact other _ (Or.inl (by decide)) (by decide)
  · exact other _ (Or.inl (by decide)) (by decide)
  · exact other x (Or.inr ge) (show x ≠ 0 from fun h => absurd (h ▸ ge) (by decide))

theorem newBitmap_flags (jumpNode uninit : CtEntry) (lastPrefixSymbol : ℕ) {splitSymbol : ℕ}
    (le : splitSymbol ≤ fanout) :
    newBitmap jumpNode uninit lastPrefixSymbol splitSymbol offsetParentColorAndFlags =
      UInt8.ofNat invalidColor <<< (4 : UInt8) ||| typeBitmap := by
  unfold newBitmap copyMaxLeaf
  rw [setOnlyChild_of_ne _ le (Or.inl (by decide)), if_neg (by decide),
    Function.update_of_ne (by decide), Function.update_self]

/-- The new bitmap as it is stored. -/
theorem storedBitmap_spec (jumpNode uninit : CtEntry) (added : Added)
    {lastPrefixSymbol splitSymbol : ℕ} (lastLe : lastPrefixSymbol ≤ fanout)
    (le : splitSymbol ≤ fanout) :
    let node := added.store (newBitmap jumpNode uninit lastPrefixSymbol splitSymbol)
    entryType node = typeBitmap ∧ entryParentColor node = UInt8.ofNat invalidColor ∧
      (node offsetLastSymbol).toNat = lastPrefixSymbol ∧
      ∀ x, offsetMaxLeaf ≤ x → x < offsetMaxLeaf + entryLocatorSize → node x = jumpNode x := by
  change lastPrefixSymbol ≤ 32 at lastLe
  obtain ⟨type, parent, -⟩ := header_nibbles (UInt8.ofNat invalidColor) (by decide) typeBitmap
    (by decide) added.secondary
  have flags := newBitmap_flags jumpNode uninit lastPrefixSymbol le
  have last : newBitmap jumpNode uninit lastPrefixSymbol splitSymbol offsetLastSymbol =
      UInt8.ofNat lastPrefixSymbol := by
    unfold newBitmap copyMaxLeaf
    rw [setOnlyChild_of_ne _ le (Or.inl (by decide)), if_neg (by decide), Function.update_self]
  refine ⟨?_, ?_, ?_, fun x ge lt => ?_⟩
  · rw [entryType, added.store_flags, flags, type]
  · rw [entryParentColor, added.store_flags, flags, parent]
  · rw [added.store_of_le _ le_rfl, last, UInt8.toNat_ofNat']
    exact Nat.mod_eq_of_lt (by omega)
  · unfold newBitmap copyMaxLeaf
    rw [added.store_of_le _ (le_trans (by decide) ge), setOnlyChild_of_ne _ le (Or.inr ge),
      if_pos ⟨ge, lt⟩]

/-- A bitmap with one child shows it in its bits and as the greatest one. -/
theorem onlyChild_spec {bitmapNode node : CtEntry} {splitSymbol : ℕ} (le : splitSymbol ≤ fanout)
    (same : ∀ x, offsetChildBitmap ≤ x → x < offsetMaxLeaf →
      bitmapNode x = setOnlyChild node splitSymbol x) :
    (∀ c < 8 * childBitmapBytes,
      getBit bitmapNode offsetChildBitmap c = decide (c = splitSymbol)) ∧
      (bitmapNode offsetMaxChild).toNat = splitSymbol := by
  constructor
  · intro c inside
    rw [← getBit_setOnlyChild node splitSymbol inside, getBit_eq, getBit_eq, bit, bit, same]
    · change 3 ≤ (8 * 3 + c) / 8
      omega
    · change c < 40 at inside
      change (8 * 3 + c) / 8 < 9
      omega
  · change splitSymbol ≤ 32 at le
    rw [same 8 (by decide) (by decide), setOnlyChild_maxChild, UInt8.toNat_ofNat']
    exact Nat.mod_eq_of_lt (by omega)

/-- **The head and the bitmap** of a split. -/
theorem headAndBitmap_spec (jumpNode uninitBitmap : CtEntry) {depthInJump lastPrefixSymbol : ℕ}
    (added : Added) (isJump : entryType jumpNode = typeJump)
    (valid : entryJumpSize jumpNode ≤ maxJumpSymbols) (inside : depthInJump < entryJumpSize jumpNode)
    (last : depthInJump ≠ 0 → lastPrefixSymbol = getJumpSymbol jumpNode (depthInJump - 1)) :
    let nodes := headAndBitmap jumpNode uninitBitmap depthInJump lastPrefixSymbol added
    HeadAndBitmap nodes.1 nodes.2 jumpNode (jumpSymbols jumpNode) depthInJump := by
  obtain ⟨-, le⟩ := getJumpSymbol_mem jumpNode depthInJump
  unfold headAndBitmap
  by_cases noHead : depthInJump = 0
  · obtain ⟨type, parent, colorAndTag, lastSymbol, maxLeaf⟩ := headBitmap_spec jumpNode le
    obtain ⟨bits, maxChild⟩ := onlyChild_spec le fun x _ _ =>
      @rfl _ (setOnlyChild (entrySetType (entrySetJumpSize jumpNode 0) typeBitmap)
        (getJumpSymbol jumpNode depthInJump) x)
    rw [if_pos noHead]
    constructor
    · exact fun ne => absurd noHead ne
    · rw [noHead] at parent colorAndTag lastSymbol ⊢
      exact fun _ => ⟨rfl, parent, colorAndTag, lastSymbol⟩
    · rw [getD_jumpSymbols inside]
      rw [noHead] at type bits maxChild ⊢
      exact ⟨type, bits, maxChild⟩
    · exact fun ne => absurd noHead ne
    · rw [noHead] at maxLeaf ⊢
      exact fun x ge _ => ⟨maxLeaf x ge, maxLeaf x ge⟩
  · have lastSymbol := last noHead
    have lastLe : lastPrefixSymbol ≤ fanout := by
      rw [lastSymbol]
      exact (getJumpSymbol_mem jumpNode _).2
    obtain ⟨type, parent, last, maxLeaf⟩ :=
      storedBitmap_spec jumpNode uninitBitmap added lastLe le
    have small := toNat_highNibble_lt (added.store (newBitmap jumpNode uninitBitmap
      lastPrefixSymbol (getJumpSymbol jumpNode depthInJump)) offsetColorAndTag)
    obtain ⟨symbols, childColor, bytes⟩ := newHead_spec jumpNode valid inside small
    obtain ⟨bits, maxChild⟩ := @onlyChild_spec
      (added.store (newBitmap jumpNode uninitBitmap lastPrefixSymbol
        (getJumpSymbol jumpNode depthInJump))) _ _ le fun x ge _ => by
      rw [added.store_of_le _ (le_trans (by decide) ge), newBitmap]
    rw [if_neg noHead]
    constructor
    · have flags := bytes offsetParentColorAndFlags (by decide)
      exact fun _ => ⟨(congrArg (fun b => b &&& 3) flags).trans isJump, symbols, childColor, bytes⟩
    · exact fun eq => absurd eq noHead
    · rw [getD_jumpSymbols inside]
      exact ⟨type, bits, maxChild⟩
    · rw [getD_jumpSymbols (by omega), ← lastSymbol]
      exact fun _ => ⟨parent, last⟩
    · refine fun x ge lt => ⟨bytes x fun eq => ?_, maxLeaf x ge lt⟩
      rw [eq] at ge
      exact absurd ge (by decide)

/-- **`split_jump_node`** on any jump node, from a finger inside it that has read the symbols
before. -/
theorem splitJumpNode_splits (jumpNode uninitBitmap uninitTail : CtEntry)
    {depthInJump lastPrefixSymbol : ℕ} (addedBitmap addedTail : Added)
    (isJump : entryType jumpNode = typeJump) (valid : entryJumpSize jumpNode ≤ maxJumpSymbols)
    (inside : depthInJump < entryJumpSize jumpNode)
    (last : depthInJump ≠ 0 → lastPrefixSymbol = getJumpSymbol jumpNode (depthInJump - 1)) :
    (splitJumpNode jumpNode uninitBitmap uninitTail depthInJump lastPrefixSymbol addedBitmap
      addedTail).Splits jumpNode (jumpSymbols jumpNode) depthInJump := by
  have nodes := headAndBitmap_spec jumpNode uninitBitmap addedBitmap isJump valid inside last
  unfold splitJumpNode
  generalize headAndBitmap jumpNode uninitBitmap depthInJump lastPrefixSymbol addedBitmap = made
    at nodes ⊢
  obtain ⟨newHead, bitmapNode⟩ := made
  have small := toNat_highNibble_lt (bitmapNode offsetColorAndTag)
  have before : (if depthInJump = 0 then [] else jumpSymbols newHead) =
      (jumpSymbols jumpNode).take depthInJump := by
    by_cases noHead : depthInJump = 0
    · rw [if_pos noHead, noHead, List.take_zero]
    · rw [if_neg noHead]
      exact (nodes.head noHead).2.1
  have whole (below : List ℕ) (rest : below = (jumpSymbols jumpNode).drop (depthInJump + 1)) :
      (if depthInJump = 0 then [] else jumpSymbols newHead) ++
        (bitmapNode offsetMaxChild).toNat :: below = jumpSymbols jumpNode := by
    have inSymbols : depthInJump < (jumpSymbols jumpNode).length := by rwa [length_jumpSymbols]
    rw [before, nodes.bitmap.2.2, List.getD_eq_getElem _ _ inSymbols, rest,
      List.getElem_cons_drop inSymbols, List.take_append_drop]
  unfold belowBitmap
  by_cases hasTail : depthInJump + 1 < entryJumpSize jumpNode
  · obtain ⟨⟨type, symbols, color, parent, last⟩, maxLeaf⟩ :=
      storedTail_spec jumpNode uninitTail addedTail valid hasTail small
    simp only [if_pos hasTail]
    constructor
    · exact nodes
    · rw [length_jumpSymbols]
      exact iff_of_true ⟨_, rfl⟩ hasTail
    · rintro tail ⟨⟩
      rw [getD_jumpSymbols inside]
      exact ⟨⟨type, symbols, color, parent, last⟩, maxLeaf⟩
    · rintro parentColor ⟨⟩
    · exact whole _ symbols
  · simp only [if_neg hasTail]
    constructor
    · exact nodes
    · rw [length_jumpSymbols]
      exact iff_of_false (fun ⟨_, h⟩ => by cases h) hasTail
    · rintro tail ⟨⟩
    · rintro parentColor ⟨⟩
      rfl
    · refine whole _ (List.drop_eq_nil_of_le ?_).symm
      rw [length_jumpSymbols]
      exact not_lt.mp hasTail

/-- **Jump strings survive building and splitting.**  Extended symbol by symbol, an empty
jump node holds the symbols and is unchanged outside them and its size.  A split at any
depth cuts the string there; what the tail has beyond its symbols has no effect on them, and
`copy_bits` writes into the `jump_bits` of the tail alone. -/
theorem jump_strings_survive (jumpNode : CtEntry) (symbols : List ℕ)
    (isJump : entryType jumpNode = typeJump) (empty : entryJumpSize jumpNode = 0)
    (size : 1 ≤ symbols.length ∧ symbols.length ≤ maxJumpSymbols)
    (valid : ∀ symbol ∈ symbols, 1 ≤ symbol ∧ symbol ≤ fanout) :
    let built := symbols.foldl extendJumpNode jumpNode
    (entryJumpSize built = symbols.length ∧
      (∀ i (h : i < symbols.length), getJumpSymbol built i = symbols[i]) ∧
      entryChildColor built = entryChildColor jumpNode ∧
      ∀ x, x < offsetJumpBits ∨ offsetMaxLeaf ≤ x → built x = jumpNode x) ∧
    ∀ (uninitBitmap uninitTail : CtEntry) (depthInJump lastPrefixSymbol : ℕ)
      (addedBitmap addedTail : Added), depthInJump < symbols.length →
      (depthInJump ≠ 0 → lastPrefixSymbol = symbols.getD (depthInJump - 1) 0) →
      let split := splitJumpNode built uninitBitmap uninitTail depthInJump lastPrefixSymbol
        addedBitmap addedTail
      split.Splits built symbols depthInJump ∧
      (∀ tailEntry, split.below = .tail tailEntry → ∀ entry : CtEntry,
        (∀ p < bitsPerSymbol * entryJumpSize tailEntry,
          bit entry (8 * offsetJumpBits + p) = bit tailEntry (8 * offsetJumpBits + p)) →
        ∀ i < entryJumpSize tailEntry, getJumpSymbol entry i = getJumpSymbol tailEntry i) ∧
      ∀ (tail : CtEntry) (x : ℕ), x < offsetJumpBits ∨ offsetChildColorAndJumpSize ≤ x →
        copyBits tail offsetJumpBits built offsetJumpBits ((depthInJump + 1) * bitsPerSymbol)
          ((entryJumpSize built - depthInJump - 1) * bitsPerSymbol) x = tail x := by
  obtain ⟨string, color, frame⟩ := extendJumpNodes_spec jumpNode symbols (by omega) valid
  intro built
  have none : jumpSymbols jumpNode = [] := by
    rw [← List.length_eq_zero_iff, length_jumpSymbols, empty]
  rw [none, List.nil_append] at string
  change jumpSymbols built = symbols at string
  have builtSize : entryJumpSize built = symbols.length := by
    rw [← length_jumpSymbols, string]
  have builtType : entryType built = typeJump := by
    have flags : built offsetParentColorAndFlags = jumpNode offsetParentColorAndFlags :=
      frame _ (Or.inl (by decide))
    rw [entryType, flags]
    exact isJump
  have builtValid : entryJumpSize built ≤ maxJumpSymbols := builtSize ▸ size.2
  refine ⟨⟨builtSize, fun i h => ?_, color, frame⟩, ?_⟩
  · rw [← getD_jumpSymbols (by omega), string, List.getD_eq_getElem _ _ h]
  intro uninitBitmap uninitTail depthInJump lastPrefixSymbol addedBitmap addedTail inside last
  have reached (ne : depthInJump ≠ 0) :
      lastPrefixSymbol = getJumpSymbol built (depthInJump - 1) := by
    rw [last ne, ← string, getD_jumpSymbols (by omega)]
  have splits := splitJumpNode_splits built uninitBitmap uninitTail addedBitmap addedTail builtType
    builtValid (builtSize ▸ inside) reached
  rw [string] at splits
  refine ⟨splits, fun tailEntry tail entry same i hi => ?_, fun tail x outside => ?_⟩
  · have tailSize : entryJumpSize tailEntry ≤ maxJumpSymbols := by
      rw [← length_jumpSymbols, (splits.tail tailEntry tail).1.2.1, List.length_drop]
      omega
    refine getJumpSymbol_congr (by omega) (by omega) fun m hm => ?_
    rw [Nat.add_assoc]
    refine same _ ?_
    change _ < 5 * _
    omega
  · exact copyBits_inside_jumpBits tail built builtValid outside

/-- A jump node with three symbols, split at the second. -/
theorem jump_strings_survive_three :
    let empty : CtEntry := fun x => if x = 0 then 0x93 else 0
    let built := [3, 32, 1].foldl extendJumpNode empty
    getJumpSymbol built 1 = 32 ∧
      (splitJumpNode built empty empty 1 3 ⟨false, 0x20⟩ ⟨true, 0x30⟩).spelled 1 = [3, 32, 1] := by
  obtain ⟨⟨-, symbols, -⟩, splits⟩ := jump_strings_survive (fun x => if x = 0 then 0x93 else 0)
    [3, 32, 1] (by decide) (by decide) (by decide) (by decide)
  exact ⟨symbols 1 (by decide), (splits _ _ 1 3 ⟨false, 0x20⟩ ⟨true, 0x30⟩ (by decide)
    fun _ => rfl).1.spelled⟩

/-! ## The records of the other modules -/

/-- **`extend_jump_node` is that of the records.** -/
theorem extendJumpNode_refines (jumpNode : CtEntry) {symbol : ℕ}
    (room : entryJumpSize jumpNode < maxJumpSymbols) (valid : 1 ≤ symbol ∧ symbol ≤ fanout) :
    jumpEntry (extendJumpNode jumpNode symbol) =
      { jumpEntry jumpNode with body := (jumpEntry jumpNode).body.extendJump symbol } := by
  obtain ⟨string, color, frame⟩ := extendJumpNode_spec jumpNode room valid
  unfold jumpEntry
  rw [string, color, List.map_append, locatorAt_congr fun x ge _ => frame x (Or.inr ge),
    withBody_congr _ fun x lt => frame x (Or.inl lt)]
  rfl

/-- A jump node of two symbols gets a third one, before the locator that follows them. -/
theorem extendJumpNode_refines_third :
    let empty : CtEntry := fun x => if x = 0 then 0x93 else if x < 9 then 0 else 5
    jumpEntry (extendJumpNode ([3, 32].foldl extendJumpNode empty) 17) =
      { jumpEntry ([3, 32].foldl extendJumpNode empty) with
        body := .jump [2, 31, 16] 0 ⟨0x05050505, 5, 5⟩ } :=
  (extendJumpNode_refines
    ([3, 32].foldl extendJumpNode fun x => if x = 0 then 0x93 else if x < 9 then 0 else 5)
    (by decide +kernel) (by decide)).trans (by decide +kernel)

/-- The children of a bitmap with one child. -/
theorem childBits_of_only {bitmapNode : CtEntry} {splitSymbol : ℕ} (le : splitSymbol ≤ fanout)
    (bits : ∀ c < 8 * childBitmapBytes,
      getBit bitmapNode offsetChildBitmap c = decide (c = splitSymbol)) :
    childBits bitmapNode = setChildBit 0 splitSymbol := by
  change splitSymbol ≤ 32 at le
  refine Nat.eq_of_testBit_eq fun c => ?_
  rw [testBit_setChildBit, Nat.zero_testBit, Bool.false_or, childBits]
  by_cases inside : c < 8 * childBitmapBytes
  · rw [Nat.testBit_ofBits_lt _ _ inside, bits c inside]
  · rw [Nat.testBit_ofBits_ge _ _ (not_lt.mp inside)]
    change ¬ c < 40 at inside
    exact (decide_eq_false (by omega)).symm

/-- The symbol a record of a jump node has at an index. -/
theorem jumpSymbol_jumpEntry {jumpNode : CtEntry} {i : ℕ} (inside : i < entryJumpSize jumpNode) :
    (jumpEntry jumpNode).jumpSymbol i = getJumpSymbol jumpNode i := by
  have positive := (getJumpSymbol_mem jumpNode i).1
  have inSymbols : i < (jumpSymbols jumpNode).length := by rwa [length_jumpSymbols]
  change ((jumpSymbols jumpNode).map fun symbol => symbol - 1).getD i 0 + 1 = _
  rw [List.getD_eq_getElem _ _ (by rwa [List.length_map]), List.getElem_map, getElem_jumpSymbols]
  omega

/-- The record of the bitmap of a split. -/
theorem HeadAndBitmap.bitmapEntry_eq {newHead bitmapNode jumpNode : CtEntry} {depthInJump : ℕ}
    (nodes : HeadAndBitmap newHead bitmapNode jumpNode (jumpSymbols jumpNode) depthInJump)
    (inside : depthInJump < entryJumpSize jumpNode) :
    bitmapEntry bitmapNode = withBody bitmapNode
      (.bitmap (setChildBit 0 ((jumpEntry jumpNode).jumpSymbol depthInJump))
        ((jumpEntry jumpNode).jumpSymbol depthInJump) (jumpEntry jumpNode).body.maxLeaf) := by
  obtain ⟨-, bits, maxChild⟩ := nodes.bitmap
  rw [getD_jumpSymbols inside] at bits maxChild
  rw [bitmapEntry, childBits_of_only (getJumpSymbol_mem jumpNode depthInJump).2 bits, maxChild,
    jumpSymbol_jumpEntry inside, locatorAt_congr fun x ge lt => (nodes.maxLeaf x ge lt).2]
  rfl

/-- **The head and the bitmap of a split are those of the records**: a bitmap in place of the
jump node, or a shorter jump node with a new bitmap below. -/
theorem headAndBitmap_refines (jumpNode uninitBitmap : CtEntry) {depthInJump lastPrefixSymbol : ℕ}
    (added : Added) (isJump : entryType jumpNode = typeJump)
    (valid : entryJumpSize jumpNode ≤ maxJumpSymbols) (inside : depthInJump < entryJumpSize jumpNode)
    (last : depthInJump ≠ 0 → lastPrefixSymbol = getJumpSymbol jumpNode (depthInJump - 1)) :
    let nodes := headAndBitmap jumpNode uninitBitmap depthInJump lastPrefixSymbol added
    let jump := jumpEntry jumpNode
    let splitSymbol := jump.jumpSymbol depthInJump
    let body := Body.bitmap (setChildBit 0 splitSymbol) splitSymbol jump.body.maxLeaf
    (depthInJump = 0 → bitmapEntry nodes.1 = { jump with body := body }) ∧
      (depthInJump ≠ 0 →
        bitmapEntry nodes.2 = ⟨invalidColor, false, added.secondary, (entryColor nodes.2).toNat,
          (entryTag nodes.2).toNat, lastPrefixSymbol, body⟩ ∧
        jumpEntry nodes.1 =
          { jump with
            body := .jump (jump.body.jumpBits.take depthInJump) (bitmapEntry nodes.2).color
              jump.body.maxLeaf }) := by
  intro nodes jump splitSymbol body
  obtain ⟨-, le⟩ := getJumpSymbol_mem jumpNode depthInJump
  have spec := headAndBitmap_spec jumpNode uninitBitmap added isJump valid inside last
  have bitmap : bitmapEntry nodes.2 = withBody nodes.2 body := spec.bitmapEntry_eq inside
  constructor
  · intro noHead
    obtain ⟨same, parent, colorAndTag, lastSymbol⟩ := spec.noHead noHead
    change nodes.1 = nodes.2 at same
    obtain ⟨-, -, dirty, secondary⟩ := setType_bitmap (jumpNode offsetParentColorAndFlags)
    have flags : nodes.2 offsetParentColorAndFlags =
        jumpNode offsetParentColorAndFlags &&& ~~~(3 : UInt8) ||| typeBitmap := by
      rw [← same, show nodes.1 = setOnlyChild (entrySetType (entrySetJumpSize jumpNode depthInJump)
        typeBitmap) (getJumpSymbol jumpNode depthInJump) from congrArg Prod.fst (if_pos noHead),
        setOnlyChild_of_ne _ le (Or.inl (by decide)), entrySetType, Function.update_self,
        entrySetJumpSize, Function.update_of_ne (by decide)]
    rw [same, bitmap]
    change _ = withBody jumpNode body
    unfold withBody entryDirty entryIsSecondary entryColor entryTag
    rw [parent, colorAndTag, lastSymbol, flags, dirty, secondary]
  · intro head
    obtain ⟨type, symbols, childColor, bytes⟩ := spec.head head
    obtain ⟨parent, lastSymbol⟩ := spec.newBitmap head
    obtain ⟨-, -, dirty, secondary⟩ := header_nibbles (UInt8.ofNat invalidColor) (by decide)
      typeBitmap (by decide) added.secondary
    have flags : nodes.2 offsetParentColorAndFlags =
        (UInt8.ofNat invalidColor <<< (4 : UInt8) ||| typeBitmap) |||
          (if added.secondary then flagSecondary else 0) := by
      rw [show nodes.2 = added.store (newBitmap jumpNode uninitBitmap lastPrefixSymbol
        (getJumpSymbol jumpNode depthInJump)) from congrArg Prod.snd (if_neg head),
        added.store_flags, newBitmap_flags _ _ _ le]
    rw [getD_jumpSymbols (by omega), ← last head] at lastSymbol
    have dirtyBit : entryDirty nodes.2 = false := by
      rw [entryDirty, flags]
      exact decide_eq_false dirty
    have secondaryBit : entryIsSecondary nodes.2 = added.secondary := by
      rw [entryIsSecondary, flags, Bool.eq_iff_iff, decide_eq_true_iff]
      exact secondary
    constructor
    · rw [bitmap, withBody, dirtyBit, secondaryBit]
      rw [parent, lastSymbol]
      rfl
    · rw [jumpEntry, symbols, childColor, List.map_take,
        locatorAt_congr fun x ge _ => bytes x fun eq => absurd (eq ▸ ge) (by decide),
        withBody_congr _ fun x lt => bytes x fun eq => absurd (eq ▸ lt) (by decide)]
      rfl

/-- A jump node with three symbols, split at the second. -/
theorem headAndBitmap_refines_three :
    let empty : CtEntry := fun x => if x = 0 then 0x93 else 0
    let nodes := headAndBitmap ([3, 32, 1].foldl extendJumpNode empty) empty 1 3 ⟨false, 0x20⟩
    bitmapEntry nodes.2 = ⟨invalidColor, false, false, 2, 0, 3,
      .bitmap (setChildBit 0 32) 32 ⟨0, 0, 0⟩⟩ ∧
      (jumpEntry nodes.1).body = .jump [2] 2 ⟨0, 0, 0⟩ := by
  obtain ⟨bitmap, head⟩ := (@headAndBitmap_refines
    ([3, 32, 1].foldl extendJumpNode fun x => if x = 0 then 0x93 else 0)
    (fun x => if x = 0 then 0x93 else 0) 1 3 ⟨false, 0x20⟩ (by decide) (by decide) (by decide)
    fun _ => by decide +kernel).2 (by decide)
  exact ⟨bitmap.trans (by decide +kernel), (congrArg Entry.body head).trans (by decide +kernel)⟩

/-- **The tail is that of the records.** -/
theorem storedTail_refines (jumpNode uninit : CtEntry) {depthInJump : ℕ} {bitmapColor : UInt8}
    (added : Added) (valid : entryJumpSize jumpNode ≤ maxJumpSymbols)
    (inside : depthInJump + 1 < entryJumpSize jumpNode) (small : bitmapColor.toNat < 16) :
    let tail := added.store (tailEntry jumpNode uninit depthInJump bitmapColor)
    let jump := jumpEntry jumpNode
    jumpEntry tail = ⟨bitmapColor.toNat, false, added.secondary, (entryColor tail).toNat,
      (entryTag tail).toNat, jump.jumpSymbol depthInJump,
      .jump (jump.body.jumpBits.drop (depthInJump + 1)) jump.body.childColor jump.body.maxLeaf⟩ := by
  obtain ⟨⟨-, symbols, childColor, parent, last⟩, maxLeaf⟩ :=
    storedTail_spec jumpNode uninit added valid inside small
  obtain ⟨-, -, dirty, secondary⟩ := header_nibbles bitmapColor small typeJump (by decide)
    added.secondary
  have flags := added.store_flags (tailEntry jumpNode uninit depthInJump bitmapColor)
  rw [(tailEntry_bytes jumpNode uninit depthInJump bitmapColor valid).1] at flags
  generalize added.store (tailEntry jumpNode uninit depthInJump bitmapColor) = tail at *
  have dirtyBit : entryDirty tail = false := by
    rw [entryDirty, flags]
    exact decide_eq_false dirty
  have secondaryBit : entryIsSecondary tail = added.secondary := by
    rw [entryIsSecondary, flags, Bool.eq_iff_iff, decide_eq_true_iff]
    exact secondary
  intro _ jump
  change jumpEntry tail = _
  rw [jumpEntry, symbols, childColor, List.map_drop, locatorAt_congr maxLeaf, withBody, dirtyBit,
    secondaryBit, parent, last, ← jumpSymbol_jumpEntry (by omega)]
  rfl

/-- The last symbol of three is the tail. -/
theorem storedTail_refines_three :
    let empty : CtEntry := fun x => if x = 0 then 0x93 else 0
    (jumpEntry (Added.store ⟨true, 0x30⟩
      (tailEntry ([3, 32, 1].foldl extendJumpNode empty) empty 1 2))).body =
        .jump [0] 0 ⟨0, 0, 0⟩ :=
  (congrArg Entry.body (storedTail_refines
    ([3, 32, 1].foldl extendJumpNode fun x => if x = 0 then 0x93 else 0)
    (fun x => if x = 0 then 0x93 else 0) ⟨true, 0x30⟩ (by decide) (by decide) (by decide))).trans
      (by decide +kernel)

end CtEntry

end CuckooTrie.Packed
