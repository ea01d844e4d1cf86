import CuckooTrie.Search
import CuckooTrie.Simd

/-!
# Buckets as bytes

A `ct_bucket` as its 64 bytes, the accessors of the packed entry header, and the
two scalar bucket searches of `main.c` as they test a header: one 64-bit
comparison under a mask.  `findEntryInBucketByColor_refines` and its companion
say that the searches of the record model are these on every bucket that is not
being written.
-/

namespace CuckooTrie.Packed

open Simd

/-- A `ct_bucket`: its byte `k` is bits `8 * k` and up. -/
abbrev Bucket := BitVec 512

/-- `FLAG_SECONDARY_BUCKET`. -/
abbrev flagSecondaryBucket : BitVec 64 := 4

/-- `TYPE_MASK`. -/
abbrev typeMask : BitVec 64 := 3

/-- `SEQ_INCREMENT`. -/
abbrev seqIncrement : BitVec 32 := 1 <<< 8

/-- `offsetof(ct_entry, parent_color_and_flags)`. -/
abbrev offsetParentColorAndFlags : ℕ := 0

/-- `offsetof(ct_entry, color_and_tag)`. -/
abbrev offsetColorAndTag : ℕ := 1

/-- `offsetof(ct_entry, last_symbol)`. -/
abbrev offsetLastSymbol : ℕ := 2

/-- `PARENT_COLOR_SHIFT`. -/
abbrev parentColorShift : ℕ := 4

/-- `sizeof(ct_entry_storage)`. -/
abbrev entryStorageSize : ℕ := 15

/-! ## The header of a packed entry -/

/-- A byte of a header. -/
def headerByte (header : BitVec 64) (offset : ℕ) : BitVec 8 := header.extractLsb' (8 * offset) 8

/-- `entry_type`. -/
def entryType (header : BitVec 64) : BitVec 8 := headerByte header offsetParentColorAndFlags &&& 3

/-- `entry_is_secondary`. -/
def entryIsSecondary (header : BitVec 64) : Bool :=
  headerByte header offsetParentColorAndFlags &&& 4 == 4

/-- `entry_parent_color`. -/
def entryParentColor (header : BitVec 64) : BitVec 8 :=
  headerByte header offsetParentColorAndFlags >>> parentColorShift

/-- `entry_color`. -/
def entryColor (header : BitVec 64) : BitVec 8 := headerByte header offsetColorAndTag >>> tagBits

/-- `entry_tag`. -/
def entryTag (header : BitVec 64) : BitVec 8 := headerByte header offsetColorAndTag &&& 15

/-- The field `last_symbol`. -/
def entryLastSymbol (header : BitVec 64) : BitVec 8 := headerByte header offsetLastSymbol

/-! ## Reading a bucket -/

/-- A 64-bit load. -/
def loadQword (bucket : Bucket) (byteOffset : ℕ) : BitVec 64 :=
  bucket.extractLsb' (8 * byteOffset) 64

/-- `&(bucket->cells[i])`, as an offset into the bucket. -/
def cellOffset (i : Fin 4) : ℕ := entryStorageSize * i

/-- `read_entry_non_atomic`: two loads, which reach one byte past the cell. -/
def readEntryNonAtomic (bucket : Bucket) (i : Fin 4) : BitVec 128 :=
  loadQword bucket (cellOffset i + 8) ++ loadQword bucket (cellOffset i)

/-- `memcpy` of a whole `ct_entry` out of a cell. -/
def copyEntry (bucket : Bucket) (i : Fin 4) : BitVec 128 :=
  bucket.extractLsb' (8 * cellOffset i) 128

/-- The first eight bytes of a cell. -/
def header (bucket : Bucket) (i : Fin 4) : BitVec 64 := loadQword bucket (cellOffset i)

/-- `read_int_atomic(&(bucket->write_lock_and_seq))`. -/
def readSeq (bucket : Bucket) : BitVec 32 := bucket.extractLsb' 480 32

/-- What a successful search leaves in `result`. -/
structure Found where
  cell : Fin 4
  value : BitVec 128
  lastSeq : BitVec 32
deriving DecidableEq, Repr

/-- `header_mask` and `header_values`. -/
structure HeaderTest where
  mask : BitVec 64
  values : BitVec 64

/-- The header test of the searches by color. -/
def colorTest (isSecondary : Bool) (tag color : BitVec 64) : HeaderTest where
  mask :=
    (1#64 <<< tagBits - 1#64) <<< (8 * offsetColorAndTag) |||
      ((0xFF#64 <<< tagBits) &&& 0xFF#64) <<< (8 * offsetColorAndTag) |||
      flagSecondaryBucket <<< (8 * offsetParentColorAndFlags)
  values :=
    tag <<< (8 * offsetColorAndTag) ||| color <<< (8 * offsetColorAndTag + tagBits) |||
      (if isSecondary then flagSecondaryBucket <<< (8 * offsetParentColorAndFlags) else 0#64)

/-- The header test of the searches by parent. -/
def parentTest (isSecondary : Bool) (tag lastSymbol parentColor : BitVec 64) : HeaderTest where
  mask :=
    (1#64 <<< tagBits - 1#64) <<< (8 * offsetColorAndTag) |||
      0xFF#64 <<< (8 * offsetLastSymbol) |||
      ((0xFF#64 <<< parentColorShift) &&& 0xFF#64) <<< (8 * offsetParentColorAndFlags) |||
      flagSecondaryBucket <<< (8 * offsetParentColorAndFlags)
  values :=
    tag <<< (8 * offsetColorAndTag) ||| lastSymbol <<< (8 * offsetLastSymbol) |||
      parentColor <<< (8 * offsetParentColorAndFlags + parentColorShift) |||
      (if isSecondary then flagSecondaryBucket <<< (8 * offsetParentColorAndFlags) else 0#64)

namespace HeaderTest

/-- The comparison of the scalar searches. -/
def accepts (test : HeaderTest) (header : BitVec 64) : Bool := header &&& test.mask == test.values

end HeaderTest

/-- The body the two scalar searches share: scan the cells in order for the
first whose header passes, between two reads of the sequence. -/
def findEntryInBucket (test : HeaderTest) (bucket : Bucket) : Option Found :=
  let startCounter := readSeq bucket
  if startCounter &&& seqIncrement ≠ 0 then none
  else
    match cellIndices.find? fun i => test.accepts ((readEntryNonAtomic bucket i).setWidth 64) with
    | none => none
    | some i =>
      if readSeq bucket ≠ startCounter then none
      else some ⟨i, readEntryNonAtomic bucket i, startCounter⟩

/-- `find_entry_in_bucket_by_color`. -/
def findEntryInBucketByColor (bucket : Bucket) (isSecondary : Bool) (tag color : BitVec 64) :
    Option Found :=
  findEntryInBucket (colorTest isSecondary tag color) bucket

/-- `find_entry_in_bucket_by_parent`. -/
def findEntryInBucketByParent (bucket : Bucket) (isSecondary : Bool)
    (tag lastSymbol parentColor : BitVec 64) : Option Found :=
  findEntryInBucket (parentTest isSecondary tag lastSymbol parentColor) bucket

/-! ## What a header test accepts -/

theorem readEntryNonAtomic_setWidth (bucket : Bucket) (i : Fin 4) :
    (readEntryNonAtomic bucket i).setWidth 64 = header bucket i := by
  apply BitVec.eq_of_getLsbD_eq
  intro j hj
  rw [BitVec.getLsbD_setWidth, readEntryNonAtomic, BitVec.getLsbD_append]
  simp [hj, header]

theorem copyEntry_eq (bucket : Bucket) (i : Fin 4) :
    copyEntry bucket i = readEntryNonAtomic bucket i := by
  apply BitVec.eq_of_getLsbD_eq
  intro j hj
  rw [readEntryNonAtomic, BitVec.getLsbD_append, copyEntry, loadQword, loadQword,
    BitVec.getLsbD_extractLsb', BitVec.getLsbD_extractLsb', BitVec.getLsbD_extractLsb']
  by_cases low : j < 64
  · simp [low, hj]
  · rw [show 8 * (cellOffset i + 8) + (j - 64) = 8 * cellOffset i + j by omega]
    simp [low, hj, show j - 64 < 64 by omega]

theorem toNat_headerByte (header : BitVec 64) (offset : ℕ) :
    (headerByte header offset).toNat = header.toNat / 2 ^ (8 * offset) % 256 := by
  rw [headerByte, BitVec.extractLsb'_toNat, Nat.shiftRight_eq_div_pow]

theorem entryTag_toNat (header : BitVec 64) :
    (entryTag header).toNat = (field header 8 4).toNat := by
  rw [entryTag, BitVec.toNat_and, toNat_headerByte, toNat_field (by decide)]
  change header.toNat / 256 % 256 &&& 2 ^ 4 - 1 = header.toNat / 256 % 16
  rw [Nat.and_two_pow_sub_one_eq_mod]
  omega

theorem entryColor_toNat (header : BitVec 64) :
    (entryColor header).toNat = (field header 12 4).toNat := by
  rw [entryColor, BitVec.toNat_ushiftRight, toNat_headerByte, toNat_field (by decide),
    Nat.shiftRight_eq_div_pow]
  change header.toNat / 256 % 256 / 16 = header.toNat / 4096 % 16
  omega

theorem entryParentColor_toNat (header : BitVec 64) :
    (entryParentColor header).toNat = (field header 4 4).toNat := by
  rw [entryParentColor, BitVec.toNat_ushiftRight, toNat_headerByte, toNat_field (by decide),
    Nat.shiftRight_eq_div_pow]
  change header.toNat / 1 % 256 / 16 = header.toNat / 16 % 16
  omega

theorem entryLastSymbol_toNat (header : BitVec 64) :
    (entryLastSymbol header).toNat = (field header 16 8).toNat := by
  rw [entryLastSymbol, toNat_headerByte, toNat_field (by decide)]
  rfl

theorem entryIsSecondary_eq (header : BitVec 64) (isSecondary : Bool) :
    field header 2 1 = (if isSecondary then 1#64 else 0#64) ↔
      entryIsSecondary header = isSecondary := by
  have flagBit : ∀ b : BitVec 8, (b &&& 4 == 4) = b.getLsbD 2 := by decide +kernel
  have flag : entryIsSecondary header = header.getLsbD 2 := by
    rw [entryIsSecondary, flagBit, headerByte, BitVec.getLsbD_extractLsb']
    simp
  have bit : (field header 2 1).toNat = header.toNat / 4 % 2 := toNat_field (by decide)
  have test : header.getLsbD 2 = decide (header.toNat / 4 % 2 = 1) := by
    rw [BitVec.getLsbD, Nat.testBit_eq_decide_div_mod_eq]
  rw [flag, test, ← BitVec.toNat_inj, bit]
  cases isSecondary
  · simp
  · simp

theorem secondary_value (isSecondary : Bool) :
    (if isSecondary then flagSecondaryBucket <<< (8 * offsetParentColorAndFlags) else 0#64) =
      (if isSecondary then 1#64 else 0#64) <<< 2 := by
  cases isSecondary <;> decide

theorem colorTest_eq (isSecondary : Bool) (tag color : BitVec 64) :
    colorTest isSecondary tag color =
      ⟨lowMask 64 4 <<< 8 ||| lowMask 64 4 <<< 12 ||| lowMask 64 1 <<< 2,
        tag <<< 8 ||| color <<< 12 ||| (if isSecondary then 1#64 else 0#64) <<< 2⟩ := by
  rw [← secondary_value]
  exact congrArg₂ HeaderTest.mk (by decide) rfl

theorem parentTest_eq (isSecondary : Bool) (tag lastSymbol parentColor : BitVec 64) :
    parentTest isSecondary tag lastSymbol parentColor =
      ⟨lowMask 64 4 <<< 8 ||| lowMask 64 8 <<< 16 ||| lowMask 64 4 <<< 4 ||| lowMask 64 1 <<< 2,
        tag <<< 8 ||| lastSymbol <<< 16 ||| parentColor <<< 4 |||
          (if isSecondary then 1#64 else 0#64) <<< 2⟩ := by
  rw [← secondary_value]
  exact congrArg₂ HeaderTest.mk (by decide) rfl

theorem toNat_secondary_lt (isSecondary : Bool) :
    (if isSecondary then 1#64 else 0#64).toNat < 2 ^ 1 := by
  cases isSecondary <;> decide

theorem or_and_eq_zero {a b m : BitVec 64} (ha : a &&& m = 0#64) (hb : b &&& m = 0#64) :
    (a ||| b) &&& m = 0#64 := by
  rw [BitVec.and_comm, BitVec.and_or_distrib_left, BitVec.and_comm, ha, BitVec.and_comm, hb]
  rfl

theorem and_or_eq_zero {a b m : BitVec 64} (ha : m &&& a = 0#64) (hb : m &&& b = 0#64) :
    m &&& (a ||| b) = 0#64 := by
  rw [BitVec.and_or_distrib_left, ha, hb]
  rfl

/-- **The color test reads three fields.** -/
theorem colorTest_accepts_iff {header tag color : BitVec 64} {isSecondary : Bool}
    (htag : tag.toNat < 2 ^ tagBits) (hcolor : color.toNat < 16) :
    (colorTest isSecondary tag color).accepts header = true ↔
      (entryTag header).toNat = tag.toNat ∧ (entryColor header).toNat = color.toNat ∧
        entryIsSecondary header = isSecondary := by
  have flag := toNat_secondary_lt isSecondary
  rw [HeaderTest.accepts, beq_iff_eq, colorTest_eq]
  rw [and_or_eq_or_iff (by decide)
      (or_and_eq_zero (shift_and_mask_eq_zero htag (by decide))
        (shift_and_mask_eq_zero (n := 4) hcolor (by decide)))
      (and_or_eq_zero (shift_and_mask_eq_zero flag (by decide))
        (shift_and_mask_eq_zero flag (by decide))),
    and_or_eq_or_iff (by decide) (shift_and_mask_eq_zero htag (by decide))
      (shift_and_mask_eq_zero (n := 4) hcolor (by decide)),
    and_mask_eq_shift_iff (by decide) (lt_trans htag (by decide)),
    and_mask_eq_shift_iff (by decide) (lt_trans hcolor (by decide)),
    and_mask_eq_shift_iff (by decide) (lt_trans flag (by decide)), entryIsSecondary_eq,
    entryTag_toNat, entryColor_toNat, ← BitVec.toNat_inj, ← BitVec.toNat_inj, and_assoc]

/-- The parent test as four comparisons. -/
theorem parentTest_accepts_iff_fields {header tag lastSymbol parentColor : BitVec 64}
    {isSecondary : Bool} (htag : tag.toNat < 2 ^ tagBits) (hcolor : parentColor.toNat < 16) :
    (parentTest isSecondary tag lastSymbol parentColor).accepts header = true ↔
      field header 8 4 = tag ∧ header &&& lowMask 64 8 <<< 16 = lastSymbol <<< 16 ∧
        field header 4 4 = parentColor ∧ entryIsSecondary header = isSecondary := by
  have flag := toNat_secondary_lt isSecondary
  have symbol : lastSymbol.toNat < 2 ^ 64 := lastSymbol.isLt
  rw [HeaderTest.accepts, beq_iff_eq, parentTest_eq]
  rw [and_or_eq_or_iff (by decide)
      (or_and_eq_zero
        (or_and_eq_zero (shift_and_mask_eq_zero htag (by decide))
          (shift_and_mask_eq_zero symbol (by decide)))
        (shift_and_mask_eq_zero (n := 4) hcolor (by decide)))
      (and_or_eq_zero
        (and_or_eq_zero (shift_and_mask_eq_zero flag (by decide))
          (shift_and_mask_eq_zero flag (by decide)))
        (shift_and_mask_eq_zero flag (by decide))),
    and_or_eq_or_iff (by decide)
      (or_and_eq_zero (shift_and_mask_eq_zero htag (by decide))
        (shift_and_mask_eq_zero symbol (by decide)))
      (and_or_eq_zero (shift_and_mask_eq_zero (n := 4) hcolor (by decide))
        (shift_and_mask_eq_zero (n := 4) hcolor (by decide))),
    and_or_eq_or_iff (by decide) (shift_and_mask_eq_zero htag (by decide))
      (shift_and_mask_eq_zero symbol (by decide)),
    and_mask_eq_shift_iff (by decide) (lt_trans htag (by decide)),
    and_mask_eq_shift_iff (by decide) (lt_trans hcolor (by decide)),
    and_mask_eq_shift_iff (by decide) (lt_trans flag (by decide)), entryIsSecondary_eq,
    and_assoc, and_assoc]

/-- **The parent test reads four fields.**  A last symbol of 48 bits or more
would be shifted out of the word. -/
theorem parentTest_accepts_iff {header tag lastSymbol parentColor : BitVec 64}
    {isSecondary : Bool} (htag : tag.toNat < 2 ^ tagBits) (hsymbol : lastSymbol.toNat < 2 ^ 48)
    (hcolor : parentColor.toNat < 16) :
    (parentTest isSecondary tag lastSymbol parentColor).accepts header = true ↔
      (entryTag header).toNat = tag.toNat ∧
        (entryLastSymbol header).toNat = lastSymbol.toNat ∧
        (entryParentColor header).toNat = parentColor.toNat ∧
        entryIsSecondary header = isSecondary := by
  rw [parentTest_accepts_iff_fields htag hcolor, and_mask_eq_shift_iff (by decide) hsymbol,
    entryTag_toNat, entryLastSymbol_toNat, entryParentColor_toNat, ← BitVec.toNat_inj,
    ← BitVec.toNat_inj, ← BitVec.toNat_inj]

/-! ## The record model -/

/-- A packed header holds the header fields of an entry. -/
structure Encodes (header : BitVec 64) (e : Entry) : Prop where
  tag : (entryTag header).toNat = e.tag
  color : (entryColor header).toNat = e.color
  parentColor : (entryParentColor header).toNat = e.parentColor
  lastSymbol : (entryLastSymbol header).toNat = e.lastSymbol
  secondary : entryIsSecondary header = e.secondary

/-- The scan of a packed bucket finds the cell the record model finds. -/
theorem findEntryInBucket_refines {g : Geometry} {t : Trie g} {b : ℕ} {bucket : Bucket}
    {test : HeaderTest} {accepts : Entry → Bool} (still : readSeq bucket &&& seqIncrement = 0)
    (same : ∀ i, test.accepts (header bucket i) = accepts (t.cells ⟨b, i⟩)) :
    (findEntryInBucket test bucket).map (fun found => (⟨b, found.cell⟩ : Loc)) =
      findInBucket t b accepts := by
  have scan : (fun i => test.accepts ((readEntryNonAtomic bucket i).setWidth 64)) =
      fun i => accepts (t.cells ⟨b, i⟩) := by
    funext i
    rw [readEntryNonAtomic_setWidth, same]
  rw [findEntryInBucket, findInBucket, scan]
  simp only [still, ne_eq, not_true_eq_false, if_false]
  cases cellIndices.find? fun i => accepts (t.cells ⟨b, i⟩) <;> rfl

/-- **The record search by color is the search of the packed bucket.** -/
theorem findEntryInBucketByColor_refines {g : Geometry} {t : Trie g} {b : ℕ} {bucket : Bucket}
    (encodes : ∀ i, Encodes (header bucket i) (t.cells ⟨b, i⟩))
    (still : readSeq bucket &&& seqIncrement = 0) {isSecondary : Bool} {tag color : BitVec 64}
    (htag : tag.toNat < 2 ^ tagBits) (hcolor : color.toNat ≤ maxValidColor) :
    (findEntryInBucketByColor bucket isSecondary tag color).map (fun f => (⟨b, f.cell⟩ : Loc)) =
      CuckooTrie.findEntryInBucketByColor t b isSecondary tag.toNat color.toNat := by
  refine findEntryInBucket_refines still fun i => ?_
  have fields := encodes i
  rw [Bool.eq_iff_iff, colorTest_accepts_iff htag (lt_of_le_of_lt hcolor (by decide)),
    fields.tag, fields.color, fields.secondary, matchesColor]
  simp [and_assoc]

/-- **The record search by parent is the search of the packed bucket.** -/
theorem findEntryInBucketByParent_refines {g : Geometry} {t : Trie g} {b : ℕ} {bucket : Bucket}
    (encodes : ∀ i, Encodes (header bucket i) (t.cells ⟨b, i⟩))
    (still : readSeq bucket &&& seqIncrement = 0) {isSecondary : Bool}
    {tag lastSymbol parentColor : BitVec 64} (htag : tag.toNat < 2 ^ tagBits)
    (hsymbol : lastSymbol.toNat ≤ fanout) (hcolor : parentColor.toNat ≤ maxValidColor) :
    (findEntryInBucketByParent bucket isSecondary tag lastSymbol parentColor).map
        (fun f => (⟨b, f.cell⟩ : Loc)) =
      CuckooTrie.findEntryInBucketByParent t b isSecondary tag.toNat lastSymbol.toNat
        parentColor.toNat := by
  refine findEntryInBucket_refines still fun i => ?_
  have fields := encodes i
  rw [Bool.eq_iff_iff, parentTest_accepts_iff htag (lt_of_le_of_lt hsymbol (by decide))
      (lt_of_le_of_lt hcolor (by decide)), fields.tag,
    fields.lastSymbol, fields.parentColor, fields.secondary, matchesParent]
  simp [and_assoc]

/-- **The searches of a packed bucket are those of the records.**  On every bucket whose headers
hold those of the records and which is not being written, both scalar searches find the cell that
the searches of the record model find, or none. -/
theorem bucket_searches_refine {g : Geometry} {t : Trie g} {b : ℕ} {bucket : Bucket}
    (encodes : ∀ i, Encodes (header bucket i) (t.cells ⟨b, i⟩))
    (still : readSeq bucket &&& seqIncrement = 0) (isSecondary : Bool)
    {tag color lastSymbol parentColor : BitVec 64} (htag : tag.toNat < 2 ^ tagBits)
    (hcolor : color.toNat ≤ maxValidColor) (hsymbol : lastSymbol.toNat ≤ fanout)
    (hparent : parentColor.toNat ≤ maxValidColor) :
    (findEntryInBucketByColor bucket isSecondary tag color).map (fun f => (⟨b, f.cell⟩ : Loc)) =
        CuckooTrie.findEntryInBucketByColor t b isSecondary tag.toNat color.toNat ∧
      (findEntryInBucketByParent bucket isSecondary tag lastSymbol parentColor).map
          (fun f => (⟨b, f.cell⟩ : Loc)) =
        CuckooTrie.findEntryInBucketByParent t b isSecondary tag.toNat lastSymbol.toNat
          parentColor.toNat :=
  ⟨findEntryInBucketByColor_refines encodes still htag hcolor,
    findEntryInBucketByParent_refines encodes still htag hsymbol hparent⟩

/-- A bucket with leaves of different tags and colors, one of them in its secondary bucket. -/
def mixedBucket : Bucket :=
  BitVec.ofNat 512
    (0x072531 + 0x074535 * 2 ^ 120 + 0x0c0911 * 2 ^ 240 + 0x9090 * 2 ^ 360 + 0x1200 * 2 ^ 480)

/-- The records of its cells. -/
def mixedEntries : List Entry :=
  [⟨3, false, false, 2, 5, 7, .leaf default default⟩,
    ⟨3, false, true, 4, 5, 7, .leaf default default⟩,
    ⟨1, false, false, 0, 9, 12, .leaf default default⟩, unusedEntry]

/-- A table with this bucket. -/
def mixedTrie : Trie smallGeometry where
  cells loc := if loc.bucket = 7 then mixedEntries.getD loc.cell unusedEntry else unusedEntry
  seq _ := 0
  writeLock _ := false
  isEmpty := false

theorem encodes_mixed (i : Fin 4) : Encodes (header mixedBucket i) (mixedTrie.cells ⟨7, i⟩) := by
  constructor <;> revert i <;> decide +kernel

/-- The primary search by color passes two cells with another tag, the secondary one by
parent a primary twin. -/
theorem bucket_searches_refine_mixed :
    (findEntryInBucketByColor mixedBucket false 9 0).map (fun f => (⟨7, f.cell⟩ : Loc)) =
        some ⟨7, 2⟩ ∧
      (findEntryInBucketByParent mixedBucket true 5 7 3).map (fun f => (⟨7, f.cell⟩ : Loc)) =
        some ⟨7, 1⟩ := by
  obtain ⟨byColor, -⟩ := @bucket_searches_refine smallGeometry mixedTrie 7 mixedBucket
    encodes_mixed (by decide +kernel) false 9 0 12 1 (by decide) (by decide) (by decide) (by decide)
  obtain ⟨-, byParent⟩ := @bucket_searches_refine smallGeometry mixedTrie 7 mixedBucket
    encodes_mixed (by decide +kernel) true 5 4 7 3 (by decide) (by decide) (by decide) (by decide)
  exact ⟨byColor.trans (by decide +kernel), byParent.trans (by decide +kernel)⟩

end CuckooTrie.Packed
