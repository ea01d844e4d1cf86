import CuckooTrie.Memory

/-!
# Searching a bucket pair

The scalar bucket searches of `main.c` and the pair searches built on them.  The
`while (1)` loop of a pair search leaves the table alone, so on a table that
nobody else writes a search that fails in both buckets never returns: `none`.
-/

namespace CuckooTrie

variable {g : Geometry}

/-- The header test of `find_entry_in_bucket_by_color`. -/
def matchesColor (isSecondary : Bool) (tag color : ℕ) (e : Entry) : Bool :=
  e.tag = tag && e.color = color && e.secondary = isSecondary

/-- The header test of `find_entry_in_bucket_by_parent`. -/
def matchesParent (isSecondary : Bool) (tag lastSymbol parentColor : ℕ) (e : Entry) : Bool :=
  e.tag = tag && e.lastSymbol = lastSymbol && e.parentColor = parentColor &&
    e.secondary = isSecondary

/-- The scan both bucket searches make: the first cell whose header matches. -/
def findInBucket (t : Trie g) (bucket : ℕ) (accepts : Entry → Bool) : Option Loc :=
  (cellIndices.find? fun i => accepts (t.cells ⟨bucket, i⟩)).map fun i => ⟨bucket, i⟩

theorem mem_cellIndices (i : Fin 4) : i ∈ cellIndices := by
  revert i
  decide

theorem findInBucket_eq_some {t : Trie g} {b : ℕ} {accepts : Entry → Bool} {loc : Loc}
    (h : findInBucket t b accepts = some loc) : loc.bucket = b ∧ accepts (t.cells loc) = true := by
  obtain ⟨i, found, rfl⟩ := Option.map_eq_some_iff.mp h
  have accepted := List.find?_some found
  exact ⟨rfl, by simpa using accepted⟩

theorem findInBucket_eq_none {t : Trie g} {b : ℕ} {accepts : Entry → Bool}
    (h : findInBucket t b accepts = none) {loc : Loc} (hloc : loc.bucket = b) :
    accepts (t.cells loc) = false := by
  obtain ⟨b', i⟩ := loc
  subst hloc
  simpa using List.find?_eq_none.mp (Option.map_eq_none_iff.mp h) i (mem_cellIndices i)

/-- `find_entry_in_bucket_by_color`. -/
def findEntryInBucketByColor (t : Trie g) (bucket : ℕ) (isSecondary : Bool) (tag color : ℕ) :
    Option Loc :=
  findInBucket t bucket (matchesColor isSecondary tag color)

/-- `find_entry_in_bucket_by_parent`. -/
def findEntryInBucketByParent (t : Trie g) (bucket : ℕ) (isSecondary : Bool)
    (tag lastSymbol parentColor : ℕ) : Option Loc :=
  findInBucket t bucket (matchesParent isSecondary tag lastSymbol parentColor)

/-- `find_entry_in_pair_by_color`. -/
def findEntryInPairByColor (t : Trie g) (primaryBucket tag color : ℕ) : Option LocalCopy :=
  (match findEntryInBucketByColor t primaryBucket false tag color with
    | some loc => some loc
    | none => findEntryInBucketByColor t (g.mixBucket primaryBucket tag) true tag color).map
    fun loc => t.localCopy loc primaryBucket

/-- `find_entry_in_pair_by_parent`. -/
def findEntryInPairByParent (t : Trie g) (primaryBucket tag lastSymbol parentColor : ℕ) :
    Option LocalCopy :=
  (match findEntryInBucketByParent t primaryBucket false tag lastSymbol parentColor with
    | some loc => some loc
    | none =>
      findEntryInBucketByParent t (g.mixBucket primaryBucket tag) true tag lastSymbol
        parentColor).map
    fun loc => t.localCopy loc primaryBucket

/-- `find_free_cell_in_bucket`. -/
def findFreeCellInBucket (t : Trie g) (bucket : ℕ) : Option Loc :=
  findInBucket t bucket fun e => !e.body.used

/-- `find_root`. -/
def findRoot (t : Trie g) : LocalCopy := t.localCopy rootLoc (hashToBucket hashStartValue)

/-- `locator_to_entry`. -/
def locatorToEntry (t : Trie g) (l : Locator) : Option LocalCopy :=
  findEntryInPairByColor t l.primaryBucket l.tag l.color

/-- `unused_color_in_pair`: the lowest clear bit of the mask of colors in use. -/
def unusedColorInPair (t : Trie g) (bucket1 bucket2 : ℕ) : ℕ :=
  let usedColors := cellIndices.foldl (fun mask i =>
    mask ||| 1 <<< (t.cells ⟨bucket1, i⟩).color ||| 1 <<< (t.cells ⟨bucket2, i⟩).color) 0
  ((List.range 64).find? fun c => !usedColors.testBit c).getD 64

end CuckooTrie
