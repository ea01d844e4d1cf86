import CuckooTrie.PackedBucket

/-!
# The vectorized bucket searches

`find_entry_in_bucket_by_parent_vectorized` and
`find_entry_in_bucket_by_color_vectorized` of `main_vectorized.c`, and that they
are the scalar searches on every bucket whose unused cells carry the invalid
color.  The vectorized searches add a test of the type and the tag in front of
the full header test; on such a bucket a header that passes the full test passes
this one as well (`prefilter_of_colorTest`, `prefilter_of_parentTest`), so both
families look for the first cell that passes the same test.
-/

namespace CuckooTrie.Packed

open Simd

/-! ## The searches -/

/-- `TAG_MASK_VALUE`, which is also `tag_low_mask`. -/
abbrev tagMaskValue : BitVec 64 := 1#64 <<< tagBits - 1#64

/-- `tag_mask64`. -/
def tagMask64 : BitVec 64 := tagMaskValue <<< (8 * offsetColorAndTag)

/-- `tag_value64`. -/
def tagValue64 (tag : BitVec 64) : BitVec 64 :=
  (tag &&& tagMaskValue) <<< (8 * offsetColorAndTag)

/-- The test of one cell by `find_entry_in_bucket_by_parent_vectorized`: the
type and the tag first, then the whole header. -/
def acceptsFiltered (test : HeaderTest) (tag header : BitVec 64) : Bool :=
  (header.setWidth 8 &&& (3 : BitVec 8)) != 0 && header &&& tagMask64 == tagValue64 tag &&
    header &&& test.mask == test.values

/-- The four tests of `find_entry_in_bucket_by_parent_vectorized`, one after the
other. -/
def scanCells (test : HeaderTest) (tag : BitVec 64) (bucket : Bucket) (startCounter : BitVec 32) :
    List (Fin 4) → Option Found
  | [] => none
  | i :: is =>
    if acceptsFiltered test tag (header bucket i) then
      if readSeq bucket ≠ startCounter then none
      else some ⟨i, copyEntry bucket i, startCounter⟩
    else scanCells test tag bucket startCounter is

/-- `find_entry_in_bucket_by_parent_vectorized`; the mask and the values are
built as in the scalar search. -/
def findEntryInBucketByParentVectorized (bucket : Bucket) (isSecondary : Bool)
    (tag lastSymbol parentColor : BitVec 64) : Option Found :=
  let startCounter := readSeq bucket
  if startCounter &&& seqIncrement ≠ 0 then none
  else
    scanCells (parentTest isSecondary tag lastSymbol parentColor) tag bucket startCounter
      cellIndices

/-- The mask `final_match` that `find_entry_in_bucket_by_color_vectorized`
computes for two headers at once. -/
def finalMatch (test : HeaderTest) (tag h₀ h₁ : BitVec 64) : BitVec 128 :=
  let headers := mmSetEpi64x h₁ h₀
  let typeCheck := mmAnd headers (mmSet1Epi64x typeMask)
  let typeNonzero := mmCmpeqEpi64 typeCheck mmSetzero
  let typeNonzero := mmXor typeNonzero (mmSet1Epi64x (-1#64))
  let tagCheck := mmCmpeqEpi64 (mmAnd headers (mmSet1Epi64x tagMask64)) (mmSet1Epi64x (tagValue64 tag))
  let prefilterPass := mmAnd typeNonzero tagCheck
  let fullCheck :=
    mmCmpeqEpi64 (mmAnd headers (mmSet1Epi64x test.mask)) (mmSet1Epi64x test.values)
  mmAnd prefilterPass fullCheck

/-- The end of a search that recovered the index of a cell. -/
def foundCell (bucket : Bucket) (startCounter : BitVec 32) (i : Fin 4) : Option Found :=
  if readSeq bucket ≠ startCounter then none
  else some ⟨i, readEntryNonAtomic bucket i, startCounter⟩

/-- `find_entry_in_bucket_by_color_vectorized`. -/
def findEntryInBucketByColorVectorized (bucket : Bucket) (isSecondary : Bool)
    (tag color : BitVec 64) : Option Found :=
  let test := colorTest isSecondary tag color
  let startCounter := readSeq bucket
  if startCounter &&& seqIncrement ≠ 0 then none
  else
    let m01 := mmMovemaskEpi8 (finalMatch test tag (header bucket 0) (header bucket 1))
    if m01 ≠ 0 then foundCell bucket startCounter (Fin.ofNat 4 (builtinCtz m01 >>> 3))
    else
      let m23 := mmMovemaskEpi8 (finalMatch test tag (header bucket 2) (header bucket 3))
      if m23 = 0 then none
      else foundCell bucket startCounter (Fin.ofNat 4 (2 + builtinCtz m23 >>> 3))

/-! ## The prefilter -/

/-- Every unused cell carries `INVALID_COLOR` as its color and parent color. -/
def UnusedInvalid (bucket : Bucket) : Prop :=
  ∀ i, entryType (header bucket i) = 0 →
    (entryColor (header bucket i)).toNat = invalidColor ∧
      (entryParentColor (header bucket i)).toNat = invalidColor

variable {bucket : Bucket} {tag color lastSymbol parentColor : BitVec 64} {isSecondary : Bool}

/-- The type as the low byte of the header shows it. -/
theorem entryType_eq (header : BitVec 64) : entryType header = header.setWidth 8 &&& 3 := by
  have byte : headerByte header offsetParentColorAndFlags = header.setWidth 8 := by
    apply BitVec.eq_of_getLsbD_eq
    intro i hi
    rw [headerByte, BitVec.getLsbD_extractLsb', BitVec.getLsbD_setWidth]
    simp
  rw [entryType, byte]

/-- The type as the masked header shows it. -/
theorem typeMask_eq_zero_iff (header : BitVec 64) :
    header &&& typeMask = 0#64 ↔ header.setWidth 8 &&& (3 : BitVec 8) = 0 := by
  have mask : ∀ i, (3 : BitVec 8).getLsbD i = (typeMask.getLsbD i) := by
    intro i
    rw [show (3 : BitVec 8) = lowMask 8 2 by decide, show typeMask = lowMask 64 2 by decide,
      getLsbD_lowMask, getLsbD_lowMask]
    by_cases hi : i < 2
    · simp [hi, show i < 8 by omega, show i < 64 by omega]
    · simp [hi]
  constructor
  · intro zero
    apply BitVec.eq_of_getLsbD_eq
    intro i hi
    have bit := congrArg (fun x => x.getLsbD i) zero
    simp only [BitVec.getLsbD_and, ← mask, BitVec.getLsbD_zero] at bit
    simpa [BitVec.getLsbD_setWidth, hi] using bit
  · intro zero
    apply BitVec.eq_of_getLsbD_eq
    intro i hi
    have bit := congrArg (fun x => x.getLsbD i) zero
    simp only [BitVec.getLsbD_and, BitVec.getLsbD_setWidth, mask] at bit
    simp only [BitVec.getLsbD_and, BitVec.getLsbD_zero]
    by_cases h8 : i < 8
    · simpa [h8] using bit
    · rw [show typeMask = lowMask 64 2 by decide, getLsbD_lowMask]
      simp [show ¬ i < 2 by omega]

/-- The tag comparison of the prefilter is a comparison of the tag field. -/
theorem tag_prefilter_iff {header : BitVec 64} (htag : tag.toNat < 2 ^ tagBits) :
    header &&& tagMask64 = tagValue64 tag ↔ field header 8 4 = tag := by
  have low : tag &&& tagMaskValue = tag := by
    apply BitVec.eq_of_toNat_eq
    rw [BitVec.toNat_and, show tagMaskValue.toNat = 2 ^ 4 - 1 from rfl,
      Nat.and_two_pow_sub_one_eq_mod]
    exact Nat.mod_eq_of_lt htag
  rw [show tagMask64 = lowMask 64 4 <<< 8 by decide, tagValue64, low]
  exact and_mask_eq_shift_iff (by decide) (lt_trans htag (by decide))

/-- A header that passes the color test passes the prefilter. -/
theorem prefilter_of_colorTest (unused : UnusedInvalid bucket) (htag : tag.toNat < 2 ^ tagBits)
    (hcolor : color.toNat ≤ maxValidColor) (i : Fin 4) :
    acceptsFiltered (colorTest isSecondary tag color) tag (header bucket i) =
      (colorTest isSecondary tag color).accepts (header bucket i) := by
  cases full : (colorTest isSecondary tag color).accepts (header bucket i)
  · rw [HeaderTest.accepts] at full
    rw [acceptsFiltered, full, Bool.and_false]
  · obtain ⟨sameTag, sameColor, -⟩ :=
      (colorTest_accepts_iff htag (lt_of_le_of_lt hcolor (by decide))).mp full
    have used : (header bucket i).setWidth 8 &&& (3 : BitVec 8) ≠ 0 := by
      intro zero
      have invalid := (unused i ((entryType_eq _).trans zero)).1
      rw [sameColor] at invalid
      exact absurd (invalid ▸ hcolor) (by decide)
    have tagged : header bucket i &&& tagMask64 = tagValue64 tag :=
      (tag_prefilter_iff htag).mpr (BitVec.eq_of_toNat_eq (entryTag_toNat _ ▸ sameTag))
    rw [HeaderTest.accepts] at full
    rw [acceptsFiltered, full, tagged]
    simpa using used

/-- A header that passes the parent test passes the prefilter. -/
theorem prefilter_of_parentTest (unused : UnusedInvalid bucket) (htag : tag.toNat < 2 ^ tagBits)
    (hcolor : parentColor.toNat ≤ maxValidColor) (i : Fin 4) :
    acceptsFiltered (parentTest isSecondary tag lastSymbol parentColor) tag (header bucket i) =
      (parentTest isSecondary tag lastSymbol parentColor).accepts (header bucket i) := by
  cases full : (parentTest isSecondary tag lastSymbol parentColor).accepts (header bucket i)
  · rw [HeaderTest.accepts] at full
    rw [acceptsFiltered, full, Bool.and_false]
  · obtain ⟨sameTag, -, sameColor, -⟩ :=
      (parentTest_accepts_iff_fields htag (lt_of_le_of_lt hcolor (by decide))).mp full
    have used : (header bucket i).setWidth 8 &&& (3 : BitVec 8) ≠ 0 := by
      intro zero
      have invalid := (unused i ((entryType_eq _).trans zero)).2
      rw [entryParentColor_toNat, sameColor] at invalid
      exact absurd (invalid ▸ hcolor) (by decide)
    have tagged : header bucket i &&& tagMask64 = tagValue64 tag :=
      (tag_prefilter_iff htag).mpr sameTag
    rw [HeaderTest.accepts] at full
    rw [acceptsFiltered, full, tagged]
    simpa using used

/-! ## The search by parent -/

/-- The one-by-one scan is the search of the first cell that passes. -/
theorem scanCells_eq (test : HeaderTest) (bucket : Bucket) (is : List (Fin 4))
    (same : ∀ i, acceptsFiltered test tag (header bucket i) = test.accepts (header bucket i)) :
    scanCells test tag bucket (readSeq bucket) is =
      (is.find? fun i => test.accepts (header bucket i)).map
        fun i => ⟨i, readEntryNonAtomic bucket i, readSeq bucket⟩ := by
  induction is with
  | nil => rfl
  | cons i is ih =>
    rw [scanCells, same, List.find?_cons]
    cases test.accepts (header bucket i)
    · simpa using ih
    · simp [copyEntry_eq]

/-- The scalar search as a search of the first cell that passes. -/
theorem findEntryInBucket_eq (test : HeaderTest) (bucket : Bucket) :
    findEntryInBucket test bucket =
      if readSeq bucket &&& seqIncrement ≠ 0 then none
      else (cellIndices.find? fun i => test.accepts (header bucket i)).map
        fun i => ⟨i, readEntryNonAtomic bucket i, readSeq bucket⟩ := by
  rw [findEntryInBucket]
  simp only [readEntryNonAtomic_setWidth]
  cases cellIndices.find? fun i => test.accepts (header bucket i) <;> simp

theorem byParentVectorized_eq (unused : UnusedInvalid bucket) (htag : tag.toNat < 2 ^ tagBits)
    (hcolor : parentColor.toNat ≤ maxValidColor) :
    findEntryInBucketByParentVectorized bucket isSecondary tag lastSymbol parentColor =
      findEntryInBucketByParent bucket isSecondary tag lastSymbol parentColor := by
  rw [findEntryInBucketByParentVectorized, findEntryInBucketByParent, findEntryInBucket_eq,
    scanCells_eq _ _ _ (prefilter_of_parentTest unused htag hcolor)]

/-! ## The search by color -/

/-- The vector computation tests the two headers in its lanes. -/
theorem finalMatch_eq (test : HeaderTest) (tag h₀ h₁ : BitVec 64) :
    finalMatch test tag h₀ h₁ =
      laneMask (acceptsFiltered test tag h₁) ++ laneMask (acceptsFiltered test tag h₀) := by
  have lane : ∀ h : BitVec 64,
      (!(h &&& typeMask == 0#64)) = ((h.setWidth 8 &&& (3 : BitVec 8)) != 0) := by
    intro h
    rw [bne, Bool.eq_iff_iff, Bool.not_eq_true', Bool.not_eq_true', beq_eq_false_iff_ne,
      beq_eq_false_iff_ne, not_iff_not]
    exact typeMask_eq_zero_iff h
  simp only [finalMatch, mmSetEpi64x, mmSet1Epi64x, mmSetzero, mmAnd_append,
    mmCmpeqEpi64_append, mmXor_append, laneMask_and,
    show (-1#64 : BitVec 64) = BitVec.allOnes 64 by decide, laneMask_xor_allOnes, lane,
    acceptsFiltered]

theorem byColorVectorized_eq (unused : UnusedInvalid bucket) (htag : tag.toNat < 2 ^ tagBits)
    (hcolor : color.toNat ≤ maxValidColor) :
    findEntryInBucketByColorVectorized bucket isSecondary tag color =
      findEntryInBucketByColor bucket isSecondary tag color := by
  have same : ∀ i, acceptsFiltered (colorTest isSecondary tag color) tag (header bucket i) =
      (colorTest isSecondary tag color).accepts (header bucket i) :=
    prefilter_of_colorTest unused htag hcolor
  rw [findEntryInBucketByColorVectorized, findEntryInBucketByColor, findEntryInBucket_eq]
  simp only [finalMatch_eq, same]
  by_cases writing : readSeq bucket &&& seqIncrement ≠ 0
  · rw [if_pos writing, if_pos writing]
  rw [if_neg writing, if_neg writing]
  set a := fun i => (colorTest isSecondary tag color).accepts (header bucket i) with ha
  -- the lower lane of the first register that is not empty is the first cell that passes
  obtain ⟨zero01, ctz01⟩ := movemask_laneMasks (a 1) (a 0)
  obtain ⟨zero23, ctz23⟩ := movemask_laneMasks (a 3) (a 2)
  by_cases h01 : mmMovemaskEpi8 (laneMask (a 1) ++ laneMask (a 0)) = 0
  · obtain ⟨a1, a0⟩ := zero01.mp h01
    rw [if_neg (not_not_intro h01)]
    by_cases h23 : mmMovemaskEpi8 (laneMask (a 3) ++ laneMask (a 2)) = 0
    · obtain ⟨a3, a2⟩ := zero23.mp h23
      rw [if_pos h23, show cellIndices.find? a = none by simp [cellIndices, a0, a1, a2, a3]]
      rfl
    · rw [if_neg h23, ctz23 h23]
      cases a2 : a 2
      · have a3 : a 3 = true := by
          by_contra no
          exact h23 (zero23.mpr ⟨by simpa using no, a2⟩)
        rw [show cellIndices.find? a = some 3 by simp [cellIndices, a0, a1, a2, a3]]
        exact if_neg (not_not_intro rfl)
      · rw [show cellIndices.find? a = some 2 by simp [cellIndices, a0, a1, a2]]
        exact if_neg (not_not_intro rfl)
  · rw [if_pos h01, ctz01 h01]
    cases a0 : a 0
    · have a1 : a 1 = true := by
        by_contra no
        exact h01 (zero01.mpr ⟨by simpa using no, a0⟩)
      rw [show cellIndices.find? a = some 1 by simp [cellIndices, a0, a1]]
      exact if_neg (not_not_intro rfl)
    · rw [show cellIndices.find? a = some 0 by simp [cellIndices, a0]]
      exact if_neg (not_not_intro rfl)

/-! ## The equivalence -/

/-- **The vectorized searches are the scalar ones.**  On every bucket whose
unused cells carry the invalid color, for every valid request, the two searches
by color return the same cell, value and sequence, and so do the two searches by
parent.  Both searches of a pair accept a cell exactly when its header has the
requested fields; for the last symbol this supposes a value that the shift into
place does not cut off. -/
theorem vectorized_search_eq_scalar (bucket : Bucket) (isSecondary : Bool)
    (tag color lastSymbol parentColor : BitVec 64) (unused : UnusedInvalid bucket)
    (htag : tag.toNat < 2 ^ tagBits) (hcolor : color.toNat ≤ maxValidColor)
    (hparent : parentColor.toNat ≤ maxValidColor) :
    findEntryInBucketByColorVectorized bucket isSecondary tag color =
        findEntryInBucketByColor bucket isSecondary tag color ∧
      findEntryInBucketByParentVectorized bucket isSecondary tag lastSymbol parentColor =
        findEntryInBucketByParent bucket isSecondary tag lastSymbol parentColor ∧
      (∀ i,
        (acceptsFiltered (colorTest isSecondary tag color) tag (header bucket i) =
          (colorTest isSecondary tag color).accepts (header bucket i)) ∧
        ((colorTest isSecondary tag color).accepts (header bucket i) = true ↔
          (entryTag (header bucket i)).toNat = tag.toNat ∧
            (entryColor (header bucket i)).toNat = color.toNat ∧
            entryIsSecondary (header bucket i) = isSecondary)) ∧
      (∀ i,
        (acceptsFiltered (parentTest isSecondary tag lastSymbol parentColor) tag
            (header bucket i) =
          (parentTest isSecondary tag lastSymbol parentColor).accepts (header bucket i)) ∧
        (lastSymbol.toNat < 2 ^ 48 →
          ((parentTest isSecondary tag lastSymbol parentColor).accepts (header bucket i) = true ↔
            (entryTag (header bucket i)).toNat = tag.toNat ∧
              (entryLastSymbol (header bucket i)).toNat = lastSymbol.toNat ∧
              (entryParentColor (header bucket i)).toNat = parentColor.toNat ∧
              entryIsSecondary (header bucket i) = isSecondary))) :=
  ⟨byColorVectorized_eq unused htag hcolor, byParentVectorized_eq unused htag hparent,
    fun i => ⟨prefilter_of_colorTest unused htag hcolor i,
      colorTest_accepts_iff htag (lt_of_le_of_lt hcolor (by decide))⟩,
    fun i => ⟨prefilter_of_parentTest unused htag hparent i, fun hsymbol =>
      parentTest_accepts_iff htag hsymbol (lt_of_le_of_lt hparent (by decide))⟩⟩

/-- A bucket with two leaves of one header, between two unused cells. -/
def twinBucket : Bucket :=
  BitVec.ofNat 512
    (0x9090 + 0x072531 * 2 ^ 120 + 0x072531 * 2 ^ 240 + 0x9090 * 2 ^ 360 + 0x1200 * 2 ^ 480)

theorem vectorized_search_eq_scalar_twins :
    UnusedInvalid twinBucket ∧
      findEntryInBucketByColorVectorized twinBucket false 5 2 =
        findEntryInBucketByColor twinBucket false 5 2 ∧
      findEntryInBucketByParentVectorized twinBucket false 5 7 3 =
        findEntryInBucketByParent twinBucket false 5 7 3 ∧
      (findEntryInBucketByColor twinBucket false 5 2).map (·.cell) = some 1 := by
  have unused : UnusedInvalid twinBucket := by unfold UnusedInvalid; decide +kernel
  have agree := vectorized_search_eq_scalar twinBucket false 5 2 7 3 unused (by decide) (by decide)
    (by decide)
  exact ⟨unused, agree.1, agree.2.1, by decide +kernel⟩

end CuckooTrie.Packed
