import CuckooTrie.PackedBits
import CuckooTrie.PackedBucket

/-!
# Inner nodes as bytes

A local `ct_entry` as the bytes of its object, with the accessors of
`cuckoo_trie_internal.h` for bitmaps and jump nodes.  The byte after the bits of the
union is `max_child` in a bitmap, and the child color with the jump size in a jump node.
`jumpEntry` and `bitmapEntry` are the records of the other modules that the bytes stand
for.
-/

namespace CuckooTrie.Packed

open Bytes

/-- The bytes of a `ct_entry`. -/
abbrev CtEntry := Memory

/-- `offsetof(ct_entry, child_bitmap)`. -/
abbrev offsetChildBitmap : ℕ := 3

/-- `CHILD_BITMAP_BYTES`. -/
abbrev childBitmapBytes : ℕ := (fanout + 1 + 7) / 8

/-- `offsetof(ct_entry, jump_bits)`. -/
abbrev offsetJumpBits : ℕ := 3

/-- `offsetof(ct_entry, max_child)`. -/
abbrev offsetMaxChild : ℕ := 8

/-- `offsetof(ct_entry, child_color_and_jump_size)`. -/
abbrev offsetChildColorAndJumpSize : ℕ := 8

/-- `offsetof(ct_entry, max_leaf)`. -/
abbrev offsetMaxLeaf : ℕ := 9

/-- `sizeof(ct_entry_locator)`. -/
abbrev entryLocatorSize : ℕ := 6

/-- `TYPE_BITMAP`. -/
abbrev typeBitmap : UInt8 := 2

/-- `TYPE_JUMP`. -/
abbrev typeJump : UInt8 := 3

/-- `FLAG_SECONDARY_BUCKET`, as a byte. -/
abbrev flagSecondary : UInt8 := 4

/-- `FLAG_DIRTY`. -/
abbrev flagDirty : UInt8 := 8

namespace CtEntry

/-! ## Accessors -/

/-- `entry_type`. -/
def entryType (entry : CtEntry) : UInt8 := entry offsetParentColorAndFlags &&& 3

/-- `entry_dirty`. -/
def entryDirty (entry : CtEntry) : Bool :=
  entry offsetParentColorAndFlags &&& flagDirty = flagDirty

/-- `entry_is_secondary`. -/
def entryIsSecondary (entry : CtEntry) : Bool :=
  entry offsetParentColorAndFlags &&& flagSecondary = flagSecondary

/-- `entry_parent_color`. -/
def entryParentColor (entry : CtEntry) : UInt8 := entry offsetParentColorAndFlags >>> 4

/-- `entry_color`. -/
def entryColor (entry : CtEntry) : UInt8 := entry offsetColorAndTag >>> 4

/-- `entry_tag`. -/
def entryTag (entry : CtEntry) : UInt8 := entry offsetColorAndTag &&& 15

/-- `entry_jump_size`. -/
def entryJumpSize (entry : CtEntry) : ℕ := (entry offsetChildColorAndJumpSize &&& 15).toNat

/-- `entry_child_color`. -/
def entryChildColor (entry : CtEntry) : UInt8 := entry offsetChildColorAndJumpSize >>> 4

/-- `entry_set_jump_size`. -/
def entrySetJumpSize (entry : CtEntry) (jumpSize : ℕ) : CtEntry :=
  Function.update entry offsetChildColorAndJumpSize
    (entry offsetChildColorAndJumpSize &&& ~~~(15 : UInt8) ||| UInt8.ofNat jumpSize)

/-- `entry_set_child_color`. -/
def entrySetChildColor (entry : CtEntry) (childColor : UInt8) : CtEntry :=
  Function.update entry offsetChildColorAndJumpSize
    (entry offsetChildColorAndJumpSize &&& (15 : UInt8) ||| childColor <<< (4 : UInt8))

/-- `entry_set_type`. -/
def entrySetType (entry : CtEntry) (type : UInt8) : CtEntry :=
  Function.update entry offsetParentColorAndFlags
    (entry offsetParentColorAndFlags &&& ~~~(3 : UInt8) ||| type)

/-- `entry_add_flags`. -/
def entryAddFlags (entry : CtEntry) (flags : UInt8) : CtEntry :=
  Function.update entry offsetParentColorAndFlags (entry offsetParentColorAndFlags ||| flags)

/-- `entry_set_color_and_tag`. -/
def entrySetColorAndTag (entry : CtEntry) (newValue : UInt8) : CtEntry :=
  Function.update entry offsetColorAndTag newValue

/-- The assignment of the field `max_leaf` of another entry. -/
def copyMaxLeaf (entry source : CtEntry) : CtEntry := fun i =>
  if offsetMaxLeaf ≤ i ∧ i < offsetMaxLeaf + entryLocatorSize then source i else entry i

/-- `memset(child_bitmap, 0, CHILD_BITMAP_BYTES)`. -/
def clearChildBitmap (entry : CtEntry) : CtEntry := fun i =>
  if offsetChildBitmap ≤ i ∧ i < offsetChildBitmap + childBitmapBytes then 0 else entry i

/-- `get_jump_symbol`. -/
def getJumpSymbol (entry : CtEntry) (symbolIdx : ℕ) : ℕ :=
  let jumpBits : BitVec 64 := @bswap 8 (load 8 entry offsetJumpBits)
  ((jumpBits >>> (64 - bitsPerSymbol - bitsPerSymbol * symbolIdx)).toNat &&& symbolMask) + 1

/-- `extend_jump_node`.  The END symbol never appears in jumps. -/
def extendJumpNode (jumpNode : CtEntry) (symbol : ℕ) : CtEntry :=
  let offset := entryJumpSize jumpNode * bitsPerSymbol
  let jumpNode := putBits jumpNode offsetJumpBits offset bitsPerSymbol (BitVec.ofNat 32 (symbol - 1))
  Function.update jumpNode offsetChildColorAndJumpSize
    (jumpNode offsetChildColorAndJumpSize + 1)

/-! ## The records they stand for -/

/-- The symbols of a jump node. -/
def jumpSymbols (entry : CtEntry) : List ℕ :=
  (List.range (entryJumpSize entry)).map (getJumpSymbol entry)

/-- The children of a bitmap, as a number with a bit for each. -/
def childBits (entry : CtEntry) : ℕ :=
  @Nat.ofBits (8 * childBitmapBytes) fun c => getBit entry offsetChildBitmap c

/-- A locator in memory. -/
def locatorAt (mem : Memory) (a : ℕ) : Locator :=
  ⟨(load 4 mem a).toNat, (mem (a + 4)).toNat, (mem (a + 5)).toNat⟩

/-- The common header of an entry with a body. -/
def withBody (entry : CtEntry) (body : Body) : Entry where
  parentColor := (entryParentColor entry).toNat
  dirty := entryDirty entry
  secondary := entryIsSecondary entry
  color := (entryColor entry).toNat
  tag := (entryTag entry).toNat
  lastSymbol := (entry offsetLastSymbol).toNat
  body := body

/-- The record of a jump node. -/
def jumpEntry (entry : CtEntry) : Entry :=
  withBody entry (.jump ((jumpSymbols entry).map fun symbol => symbol - 1)
    (entryChildColor entry).toNat (locatorAt entry offsetMaxLeaf))

/-- The record of a bitmap. -/
def bitmapEntry (entry : CtEntry) : Entry :=
  withBody entry (.bitmap (childBits entry) (entry offsetMaxChild).toNat
    (locatorAt entry offsetMaxLeaf))

/-- The header of an entry is in its first three bytes. -/
theorem withBody_congr {entry entry' : CtEntry} (body : Body)
    (same : ∀ x, x < offsetJumpBits → entry x = entry' x) :
    withBody entry body = withBody entry' body := by
  have flags := same offsetParentColorAndFlags (by decide)
  have colorAndTag := same offsetColorAndTag (by decide)
  have lastSymbol := same offsetLastSymbol (by decide)
  unfold withBody entryParentColor entryDirty entryIsSecondary entryColor entryTag
  rw [flags, colorAndTag, lastSymbol]

/-- A locator is in its six bytes. -/
theorem locatorAt_congr {entry entry' : CtEntry}
    (same : ∀ x, offsetMaxLeaf ≤ x → x < offsetMaxLeaf + entryLocatorSize → entry x = entry' x) :
    locatorAt entry offsetMaxLeaf = locatorAt entry' offsetMaxLeaf := by
  unfold locatorAt
  rw [same _ (Nat.le_add_right _ _) (by decide), same _ (Nat.le_add_right _ _) (by decide),
    load_congr fun x ge lt => same x ge (lt_trans lt (by decide))]

end CtEntry

end CuckooTrie.Packed
