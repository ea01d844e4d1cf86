import CuckooTrie.Layout

/-!
# Header matching

The bucket searches compare a few bits of a header, in buckets that hold entries of many
pairs.  If the colors of a pair are distinct and every child of a bitmap is the only one
for its symbol, then at most one cell of a pair passes such a test: a second child that
passes would have a parent with the same color under the same hash, as `accumulate_hash`
is injective.  Cells that are not in use have to fail the test by their colors, since it
does not look at the type (`header_matching_identifies`).
-/

namespace CuckooTrie

variable {g : Geometry}

namespace Trie

/-- A cell passes a header test, in the bucket of the pair it is in. -/
def Passes (t : Trie g) (hash : ℕ) (accepts : Bool → Entry → Bool) (loc : Loc) : Prop :=
  loc.bucket = hashToBucket hash ∧ accepts false (t.cells loc) = true ∨
    loc.bucket = g.mixBucket (hashToBucket hash) (hashToTag hash) ∧
      accepts true (t.cells loc) = true

/-- A cell passes the test of `find_entry_in_pair_by_parent`. -/
def PassesParent (t : Trie g) (hash symbol parentColor : ℕ) : Loc → Prop :=
  t.Passes hash fun isSecondary => matchesParent isSecondary (hashToTag hash) symbol parentColor

/-- A cell passes the test of `find_entry_in_pair_by_color`. -/
def PassesColor (t : Trie g) (hash color : ℕ) : Loc → Prop :=
  t.Passes hash fun isSecondary => matchesColor isSecondary (hashToTag hash) color

/-- The entry of one cell is the child of the bitmap in another, on its last symbol. -/
structure IsChild (t : Trie g) (bitmap child : Loc) : Prop where
  bitmapInTable : bitmap.bucket < g.numBuckets
  isBitmap : (t.cells bitmap).body.isBitmap = true
  inTable : child.bucket < g.numBuckets
  used : (t.cells child).body.used = true
  bit : (t.cells bitmap).hasChild (t.cells child).lastSymbol = true
  color : (t.cells child).parentColor = (t.cells bitmap).color
  hash : cellHash g child (t.cells child) =
    g.accumulateHash (cellHash g bitmap (t.cells bitmap)) (t.cells child).lastSymbol

/-- The colors of a pair are distinct, and every entry with a valid parent color is the one
child of a bitmap on its last symbol.  A tag has four bits, and a child bitmap a bit for
each symbol. -/
structure Identified (t : Trie g) : Prop where
  tag : ∀ loc hash color, t.At loc hash color → (t.cells loc).tag < 2 ^ tagBits
  symbol : ∀ bitmap child, t.IsChild bitmap child → (t.cells child).lastSymbol ≤ fanout
  distinct : ∀ loc loc' hash color, t.At loc hash color → t.At loc' hash color → loc = loc'
  child : ∀ loc hash color, t.At loc hash color → (t.cells loc).parentColor ≤ maxValidColor →
    ∃ bitmap, t.IsChild bitmap loc
  only : ∀ bitmap loc loc', t.IsChild bitmap loc → t.IsChild bitmap loc' →
    (t.cells loc).lastSymbol = (t.cells loc').lastSymbol → loc = loc'

/-- Cells that are not in use have no valid color. -/
def UnusedInvalid (t : Trie g) : Prop :=
  ∀ loc, loc.bucket < g.numBuckets → (t.cells loc).body.used = false →
    (t.cells loc).color = invalidColor ∧ (t.cells loc).parentColor = invalidColor

/-- At most one cell passes each of the tests of a pair. -/
def AtMostOne (t : Trie g) (hash symbol color : ℕ) : Prop :=
  (∀ loc loc', t.PassesParent hash symbol color loc → t.PassesParent hash symbol color loc' →
    loc = loc') ∧
  ∀ loc loc', t.PassesColor hash color loc → t.PassesColor hash color loc' → loc = loc'

/-! ## What the tests say -/

variable {t : Trie g} {hash symbol color : ℕ} {loc : Loc}

/-- The hash of a header in the table is the number of a pair. -/
theorem cellHash_lt {e : Entry} (inTable : loc.bucket < g.numBuckets) (tag : e.tag < 2 ^ tagBits) :
    cellHash g loc e < g.numPairs := by
  have unmixed := g.unmixBucket_lt e.tag inTable
  change _ < 16 at tag
  rw [cellHash]
  change _ < g.numBuckets * 16
  split <;> omega

/-- A header in a bucket of its pair has the hash of the pair. -/
theorem cellHash_of_place {e : Entry} (inside : hash < g.numPairs) (tag : e.tag = hashToTag hash)
    (place : loc.bucket = if e.secondary then g.mixBucket (hashToBucket hash) (hashToTag hash)
      else hashToBucket hash) :
    loc.bucket < g.numBuckets ∧ cellHash g loc e = hash := by
  have primary := g.hashToBucket_lt inside
  have inTable : loc.bucket < g.numBuckets := by
    rw [place]
    split
    · exact g.mixBucket_lt _ primary
    · exact primary
  rw [← tag] at place
  exact ⟨inTable, (cellHash_eq_iff (tag ▸ hashToTag_lt hash) inTable).mpr ⟨tag, primary, place⟩⟩

/-- A test of the tag and the secondary flag tests the hash. -/
theorem passes_iff {accepts : Bool → Entry → Bool} {wanted : Entry → Prop}
    (inside : hash < g.numPairs)
    (spec : ∀ isSecondary e, accepts isSecondary e = true ↔
      e.tag = hashToTag hash ∧ wanted e ∧ e.secondary = isSecondary) :
    t.Passes hash accepts loc ↔ loc.bucket < g.numBuckets ∧ (t.cells loc).tag < 2 ^ tagBits ∧
      cellHash g loc (t.cells loc) = hash ∧ wanted (t.cells loc) := by
  have small := hashToTag_lt hash
  simp only [Passes, spec]
  constructor
  · rintro (⟨place, sameTag, meets, secondary⟩ | ⟨place, sameTag, meets, secondary⟩)
    · obtain ⟨inTable, same⟩ := @cellHash_of_place g hash loc (t.cells loc) inside sameTag
        (by rw [secondary]; exact place)
      exact ⟨inTable, sameTag ▸ small, same, meets⟩
    · obtain ⟨inTable, same⟩ := @cellHash_of_place g hash loc (t.cells loc) inside sameTag
        (by rw [secondary]; exact place)
      exact ⟨inTable, sameTag ▸ small, same, meets⟩
  · rintro ⟨inTable, tag, same, meets⟩
    obtain ⟨sameTag, -, place⟩ := (cellHash_eq_iff tag inTable).mp same
    rw [sameTag] at place
    cases secondary : (t.cells loc).secondary with
    | false =>
      rw [secondary] at place
      exact Or.inl ⟨place, sameTag, meets, rfl⟩
    | true =>
      rw [secondary] at place
      exact Or.inr ⟨place, sameTag, meets, rfl⟩

/-- **The test by parent** compares the hash, the last symbol and the parent color. -/
theorem passesParent_iff (inside : hash < g.numPairs) :
    t.PassesParent hash symbol color loc ↔
      loc.bucket < g.numBuckets ∧ (t.cells loc).tag < 2 ^ tagBits ∧
        cellHash g loc (t.cells loc) = hash ∧ (t.cells loc).lastSymbol = symbol ∧
        (t.cells loc).parentColor = color :=
  @passes_iff g t hash loc _ (fun e => e.lastSymbol = symbol ∧ e.parentColor = color) inside
    fun isSecondary e => by
      simp only [matchesParent, Bool.and_eq_true, decide_eq_true_eq, and_assoc]

/-- **The test by color** compares the hash and the color. -/
theorem passesColor_iff (inside : hash < g.numPairs) :
    t.PassesColor hash color loc ↔
      loc.bucket < g.numBuckets ∧ (t.cells loc).tag < 2 ^ tagBits ∧
        cellHash g loc (t.cells loc) = hash ∧ (t.cells loc).color = color :=
  @passes_iff g t hash loc _ (fun e => e.color = color) inside fun isSecondary e => by
    simp only [matchesColor, Bool.and_eq_true, decide_eq_true_eq, and_assoc]

/-- **The scan of a pair** finds the cell that passes, if it is the only one, whichever
bucket it is in. -/
theorem scan_of_only {accepts : Bool → Entry → Bool} (passes : t.Passes hash accepts loc)
    (only : ∀ loc', t.Passes hash accepts loc' → loc' = loc) :
    (match findInBucket t (hashToBucket hash) (accepts false) with
      | some loc => some loc
      | none => findInBucket t (g.mixBucket (hashToBucket hash) (hashToTag hash)) (accepts true)) =
      some loc := by
  cases first : findInBucket t (hashToBucket hash) (accepts false) with
  | some loc' =>
    obtain ⟨place, accepted⟩ := findInBucket_eq_some first
    rw [only loc' (Or.inl ⟨place, accepted⟩)]
  | none =>
    have second : findInBucket t (g.mixBucket (hashToBucket hash) (hashToTag hash)) (accepts true) =
        some loc := by
      cases found : findInBucket t (g.mixBucket (hashToBucket hash) (hashToTag hash))
          (accepts true) with
      | some loc' =>
        obtain ⟨place, accepted⟩ := findInBucket_eq_some found
        rw [only loc' (Or.inr ⟨place, accepted⟩)]
      | none =>
        rcases passes with ⟨place, accepted⟩ | ⟨place, accepted⟩
        · rw [findInBucket_eq_none first place] at accepted
          cases accepted
        · rw [findInBucket_eq_none found place] at accepted
          cases accepted
    exact second

/-! ## At most one cell passes -/

/-- The hash of an entry of the table is the number of a pair. -/
theorem Identified.hash_lt (identified : t.Identified) (at_ : t.At loc hash color) :
    hash < g.numPairs := by
  rw [← at_.hash]
  exact cellHash_lt at_.inTable (identified.tag loc hash color at_)

/-- Cells with a valid color are in use. -/
theorem UnusedInvalid.used (unused : t.UnusedInvalid) (inTable : loc.bucket < g.numBuckets)
    (valid : (t.cells loc).color ≤ maxValidColor ∨ (t.cells loc).parentColor ≤ maxValidColor) :
    (t.cells loc).body.used = true := by
  by_contra free
  obtain ⟨color, parent⟩ := unused loc inTable (by simpa using free)
  rw [color, parent] at valid
  exact absurd valid (by decide)

theorem IsChild.childAt {bitmap : Loc} (child : t.IsChild bitmap loc) :
    t.At loc (cellHash g loc (t.cells loc)) (t.cells loc).color :=
  ⟨child.inTable, child.used, rfl, rfl⟩

/-- The bitmap of a child is an entry of the table. -/
theorem IsChild.bitmapAt {bitmap : Loc} (child : t.IsChild bitmap loc) :
    t.At bitmap (cellHash g bitmap (t.cells bitmap)) (t.cells bitmap).color := by
  refine ⟨child.bitmapInTable, ?_, rfl, rfl⟩
  have isBitmap := child.isBitmap
  cases body : (t.cells bitmap).body with
  | unused =>
    rw [body] at isBitmap
    cases isBitmap
  | _ => rfl

/-- **Two children with one header are one cell.**  Their parents have one color and, since
the hash can be inverted, one hash, so they are one bitmap. -/
theorem Identified.child_eq {bitmap bitmap' loc' : Loc} (identified : t.Identified)
    (child : t.IsChild bitmap loc) (child' : t.IsChild bitmap' loc')
    (sameHash : cellHash g loc (t.cells loc) = cellHash g loc' (t.cells loc'))
    (sameSymbol : (t.cells loc).lastSymbol = (t.cells loc').lastSymbol)
    (sameColor : (t.cells loc).parentColor = (t.cells loc').parentColor) : loc = loc' := by
  have hashes : cellHash g bitmap (t.cells bitmap) = cellHash g bitmap' (t.cells bitmap') := by
    refine g.accumulateHash_inj (identified.hash_lt child.bitmapAt)
      (identified.hash_lt child'.bitmapAt) (identified.symbol bitmap loc child) ?_
    rw [← child.hash, sameHash, child'.hash, sameSymbol]
  have colors : (t.cells bitmap).color = (t.cells bitmap').color := by
    rw [← child.color, sameColor, child'.color]
  have parents : bitmap = bitmap' := by
    refine identified.distinct bitmap bitmap' _ _ child.bitmapAt ?_
    rw [hashes, colors]
    exact child'.bitmapAt
  exact identified.only bitmap loc loc' child (parents ▸ child') sameSymbol

/-- **At most one cell of a pair passes a test.** -/
theorem Identified.atMostOne (identified : t.Identified) (unused : t.UnusedInvalid)
    (inside : hash < g.numPairs) (valid : color ≤ maxValidColor) :
    t.AtMostOne hash symbol color := by
  constructor
  · intro loc loc' passes passes'
    obtain ⟨inTable, -, same, last, parent⟩ := (passesParent_iff inside).mp passes
    obtain ⟨inTable', -, same', last', parent'⟩ := (passesParent_iff inside).mp passes'
    have validParent : (t.cells loc).parentColor ≤ maxValidColor := parent ▸ valid
    have validParent' : (t.cells loc').parentColor ≤ maxValidColor := parent' ▸ valid
    obtain ⟨bitmap, child⟩ := identified.child loc _ _
      ⟨inTable, unused.used inTable (Or.inr validParent), rfl, rfl⟩ validParent
    obtain ⟨bitmap', child'⟩ := identified.child loc' _ _
      ⟨inTable', unused.used inTable' (Or.inr validParent'), rfl, rfl⟩ validParent'
    exact identified.child_eq child child' (same.trans same'.symm) (last.trans last'.symm)
      (parent.trans parent'.symm)
  · intro loc loc' passes passes'
    obtain ⟨inTable, -, same, sameColor⟩ := (passesColor_iff inside).mp passes
    obtain ⟨inTable', -, same', sameColor'⟩ := (passesColor_iff inside).mp passes'
    exact identified.distinct loc loc' hash color
      ⟨inTable, unused.used inTable (Or.inl (sameColor ▸ valid)), same, sameColor⟩
      ⟨inTable', unused.used inTable' (Or.inl (sameColor' ▸ valid)), same', sameColor'⟩

end Trie

/-- **Header matching identifies the node**, if cells that are not in use have no valid color.
At most one cell of a pair passes a test, so a search returns the child of the bitmap or
the entry of the color, wherever it lies.  The root, children of jump nodes and entries of
other pairs never pass. -/
theorem header_matching_identifies (t : Trie g) (identified : t.Identified)
    (unused : t.UnusedInvalid) (hash symbol color : ℕ) (inside : hash < g.numPairs)
    (valid : color ≤ maxValidColor) :
    t.AtMostOne hash symbol color ∧
      (∀ bitmap loc, t.IsChild bitmap loc → cellHash g loc (t.cells loc) = hash →
        (t.cells loc).lastSymbol = symbol → (t.cells bitmap).color = color →
        findEntryInPairByParent t (hashToBucket hash) (hashToTag hash) symbol color =
          some (t.localCopy loc (hashToBucket hash))) ∧
      (∀ loc, t.At loc hash color →
        findEntryInPairByColor t (hashToBucket hash) (hashToTag hash) color =
          some (t.localCopy loc (hashToBucket hash))) ∧
      (∀ loc, t.PassesParent hash symbol color loc →
        ∃ bitmap, t.IsChild bitmap loc ∧ (t.cells bitmap).color = color) ∧
      (∀ loc, (t.cells loc).parentColor = invalidColor →
        ¬ t.PassesParent hash symbol color loc) ∧
      ∀ loc, cellHash g loc (t.cells loc) ≠ hash →
        ¬ t.PassesParent hash symbol color loc ∧ ¬ t.PassesColor hash color loc := by
  have once := @Trie.Identified.atMostOne g t hash symbol color identified unused inside valid
  have byParent (loc : Loc) := @Trie.passesParent_iff g t hash symbol color loc inside
  have byColor (loc : Loc) := @Trie.passesColor_iff g t hash color loc inside
  refine ⟨once, fun bitmap loc child same last color_eq => ?_, fun loc at_ => ?_,
    fun loc passes => ?_, fun loc none passes => ?_, fun loc other => ⟨fun passes => ?_,
    fun passes => ?_⟩⟩
  · have passes : t.PassesParent hash symbol color loc :=
      (byParent loc).mpr ⟨child.inTable, identified.tag loc _ _ child.childAt, same, last,
        child.color.trans color_eq⟩
    have scanned := Trie.scan_of_only passes fun loc' passes' => once.1 loc' loc passes' passes
    exact congrArg (Option.map fun loc => t.localCopy loc (hashToBucket hash)) scanned
  · have passes : t.PassesColor hash color loc :=
      (byColor loc).mpr ⟨at_.inTable, identified.tag loc _ _ at_, at_.hash, at_.color⟩
    have scanned := Trie.scan_of_only passes fun loc' passes' => once.2 loc' loc passes' passes
    exact congrArg (Option.map fun loc => t.localCopy loc (hashToBucket hash)) scanned
  · obtain ⟨inTable, -, same, last, parent⟩ := (byParent loc).mp passes
    have validParent : (t.cells loc).parentColor ≤ maxValidColor := parent ▸ valid
    obtain ⟨bitmap, child⟩ := identified.child loc _ _
      ⟨inTable, unused.used inTable (Or.inr validParent), rfl, rfl⟩ validParent
    exact ⟨bitmap, child, child.color.symm.trans parent⟩
  · obtain ⟨-, -, -, -, parent⟩ := (byParent loc).mp passes
    rw [← parent, none] at valid
    exact absurd valid (by decide)
  · exact other ((byParent loc).mp passes).2.2.1
  · exact other ((byColor loc).mp passes).2.2.1

/-! ## Well-formed tries -/

section WellFormed

variable {t : Trie g} {S : Store} {L : Layout} {M : KeyMap} {loc : Loc} {h c : ℕ}

/-- The bitmap of a child is that of a node, and the child the node after it. -/
theorem Layout.Represents.child_of_isChild {bitmap : Loc} (rep : L.Represents g S M)
    (stores : t.Stores S none) (finished : L.Finished) (child : t.IsChild bitmap loc) :
    ∃ q children, L.node q = some (.bitmap children) ∧
      children.testBit (t.cells loc).lastSymbol = true ∧
      g.prefixHash q = cellHash g bitmap (t.cells bitmap) ∧ L.color q = (t.cells bitmap).color ∧
      t.At loc (g.prefixHash (q ++ [(t.cells loc).lastSymbol]))
        (L.color (q ++ [(t.cells loc).lastSymbol])) := by
  obtain ⟨q, m, hq, hashQ, colorQ, contentQ⟩ := rep.node_of_at stores finished child.bitmapAt
  obtain ⟨p, n, hp, hashP, colorP, contentP⟩ := rep.node_of_at stores finished child.childAt
  have isBitmap := child.isBitmap
  have bit := child.bit
  have bodyQ : (t.cells bitmap).body = L.body q m := congrArg Entry.body contentQ
  have last : (t.cells loc).lastSymbol = p.getLastD 0 := congrArg Entry.lastSymbol contentP
  have parent : (t.cells loc).parentColor = L.parent p := congrArg Entry.parentColor contentP
  rw [Entry.hasChild, bodyQ] at bit
  rw [bodyQ] at isBitmap
  cases m with
  | leaf kv => cases isBitmap
  | jump symbols => cases isBitmap
  | bitmap children =>
    have hashes : g.prefixHash p = g.prefixHash (q ++ [p.getLastD 0]) := by
      rw [hashP, g.prefixHash_concat, hashQ, ← last]
      exact child.hash
    have place : p = q ++ [(t.cells loc).lastSymbol] := by
      rw [last]
      exact rep.identifies finished q children p n hq (Layout.all_of_node hp) hashes
        (by rw [← parent, child.color, colorQ])
    refine ⟨q, children, hq, bit, hashQ, colorQ, ?_⟩
    rw [← place, hashP, colorP]
    exact child.childAt

/-- **A well-formed trie has what header matching needs.** -/
theorem WellFormed.identified (wf : WellFormed t M) : t.Identified ∧ t.UnusedInvalid := by
  obtain ⟨S, L, stores, rep, -, finished, -⟩ := wf
  have distinct : ∀ loc loc' hash color, t.At loc hash color → t.At loc' hash color → loc = loc' :=
    fun loc loc' hash color at_ at' =>
      stores.unique loc loc' hash color at_ at' (by simp) (by simp)
  refine ⟨⟨fun loc hash color at_ => ?_, fun bitmap loc child => ?_, distinct,
    fun loc hash color at_ valid => ?_, fun bitmap loc loc' child child' same => ?_⟩,
    stores.unused_invalid⟩
  · exact (stores.tag_color loc at_.inTable at_.used).1
  · obtain ⟨q, children, hq, bit, -⟩ := rep.child_of_isChild stores finished child
    exact rep.shape.bit_le_fanout hq bit
  · obtain ⟨p, n, hp, hashP, colorP, content⟩ := rep.node_of_at stores finished at_
    have parent : (t.cells loc).parentColor = L.parentColor p :=
      (congrArg Entry.parentColor content).trans (finished.parent p n hp)
    rw [parent] at valid
    rcases rep.shape.parent p n hp with rfl | ⟨q, child⟩
    · rw [Layout.Shape.parentColor_root] at valid
      exact absurd valid (by decide)
    · cases child with
      | jump node =>
        rw [rep.shape.parentColor_jump node] at valid
        exact absurd valid (by decide)
      | @bitmap children s node bit =>
        have stored := rep.stored q _ (Layout.all_of_node node)
        obtain ⟨bitmap, atQ, -⟩ := stores.stored _ _ _ stored
        have contentQ := (stores.content _ _ _ atQ).symm.trans stored
        have bodyQ : (t.cells bitmap).body = L.body q (.bitmap children) :=
          congrArg Entry.body (Option.some.inj contentQ)
        have last : (t.cells loc).lastSymbol = s :=
          (congrArg Entry.lastSymbol content).trans List.getLastD_concat
        refine ⟨bitmap, atQ.inTable, by rw [bodyQ]; rfl, at_.inTable, at_.used, ?_, ?_, ?_⟩
        · rw [Entry.hasChild, bodyQ, last]
          exact bit
        · rw [parent, Layout.Shape.parentColor_bitmap node, atQ.color]
        · rw [at_.hash, atQ.hash, last, ← hashP, g.prefixHash_concat]
  · obtain ⟨q, children, hq, -, hashQ, colorQ, at_⟩ := rep.child_of_isChild stores finished child
    obtain ⟨q', children', hq', -, hashQ', colorQ', at'⟩ :=
      rep.child_of_isChild stores finished child'
    have bitmaps : q = q' := rep.distinct q q' _ _ (Layout.all_of_node hq) (Layout.all_of_node hq')
      (hashQ.trans hashQ'.symm) (colorQ.trans colorQ'.symm)
    rw [← bitmaps, ← same] at at'
    exact distinct loc loc' _ _ at_ at'

end WellFormed

/-! ## Two tables -/

/-- A table with a bitmap at the root and its two children in one bucket: the leaf on the END
symbol has the hash of the root, the one on the symbol 32 another tag. -/
def sharedTable : Trie smallGeometry where
  cells loc :=
    if loc.bucket = 0 then
      [⟨invalidColor, false, false, 0, 0, rootLastSymbol, .bitmap (1 + 2 ^ 32) 32 ⟨0, 1, 3⟩⟩,
        ⟨0, false, false, 3, 0, 0, .leaf default ⟨0, 1, 3⟩⟩,
        ⟨0, false, false, 3, 1, 32, .leaf default ⟨endOfList, 0, 0⟩⟩].getD loc.cell unusedEntry
    else unusedEntry
  seq _ := 0
  writeLock _ := false
  isEmpty := false

/-- The cells of the table. -/
theorem sharedTable_cells (loc : Loc) :
    loc = ⟨0, 0⟩ ∨ loc = ⟨0, 1⟩ ∨ loc = ⟨0, 2⟩ ∨ sharedTable.cells loc = unusedEntry := by
  obtain ⟨b, i⟩ := loc
  by_cases shared : b = 0
  · subst shared
    revert i
    decide +kernel
  · refine Or.inr (Or.inr (Or.inr ?_))
    unfold sharedTable
    simp only [if_neg shared]

/-- The cells in use. -/
theorem sharedTable_used {loc : Loc} (used : (sharedTable.cells loc).body.used = true) :
    loc = ⟨0, 0⟩ ∨ loc = ⟨0, 1⟩ ∨ loc = ⟨0, 2⟩ := by
  rcases sharedTable_cells loc with root | leaf | leaf | free
  · exact Or.inl root
  · exact Or.inr (Or.inl leaf)
  · exact Or.inr (Or.inr leaf)
  · rw [free] at used
    cases used

theorem sharedTable_isChild {loc : Loc} (leaf : loc = ⟨0, 1⟩ ∨ loc = ⟨0, 2⟩) :
    sharedTable.IsChild ⟨0, 0⟩ loc := by
  rcases leaf with rfl | rfl <;> constructor <;> decide +kernel

theorem sharedTable_child {bitmap loc : Loc} (child : sharedTable.IsChild bitmap loc) :
    loc = ⟨0, 1⟩ ∨ loc = ⟨0, 2⟩ := by
  have isBitmap := child.isBitmap
  have color := child.color
  rcases sharedTable_used child.used with rfl | leaf
  · rcases sharedTable_cells bitmap with rfl | rfl | rfl | free
    · cases color
    · cases isBitmap
    · cases isBitmap
    · rw [free] at isBitmap
      cases isBitmap
  · exact leaf

theorem sharedTable_identified : sharedTable.Identified where
  tag loc hash color at_ := by
    rcases sharedTable_used at_.used with rfl | rfl | rfl <;> decide +kernel
  symbol bitmap loc child := by
    rcases sharedTable_child child with rfl | rfl <;> decide +kernel
  distinct loc loc' hash color at_ at' := by
    have names : (cellHash smallGeometry loc (sharedTable.cells loc), (sharedTable.cells loc).color) =
        (cellHash smallGeometry loc' (sharedTable.cells loc'), (sharedTable.cells loc').color) := by
      rw [at_.hash, at_.color, at'.hash, at'.color]
    rcases sharedTable_used at_.used with rfl | rfl | rfl <;>
      rcases sharedTable_used at'.used with rfl | rfl | rfl <;> revert names <;> decide +kernel
  child loc hash color at_ valid := by
    rcases sharedTable_used at_.used with rfl | leaf
    · exact absurd valid (by decide +kernel)
    · exact ⟨_, sharedTable_isChild leaf⟩
  only bitmap loc loc' child child' same := by
    revert same
    rcases sharedTable_child child with rfl | rfl <;>
      rcases sharedTable_child child' with rfl | rfl <;> decide +kernel

theorem sharedTable_unusedInvalid : sharedTable.UnusedInvalid := by
  intro loc _ unused
  rcases sharedTable_cells loc with rfl | rfl | rfl | free
  · cases unused
  · cases unused
  · cases unused
  · rw [free]
    exact ⟨rfl, rfl⟩

/-- Each leaf is found by its parent and by its color, although the other one has the same
colors and both are in the bucket of the root. -/
theorem header_matching_shared_bucket :
    findEntryInPairByParent sharedTable 0 0 0 0 = some (sharedTable.localCopy ⟨0, 1⟩ 0) ∧
      findEntryInPairByParent sharedTable 0 1 32 0 = some (sharedTable.localCopy ⟨0, 2⟩ 0) ∧
      findEntryInPairByColor sharedTable 0 0 3 = some (sharedTable.localCopy ⟨0, 1⟩ 0) ∧
      findEntryInPairByColor sharedTable 0 1 3 = some (sharedTable.localCopy ⟨0, 2⟩ 0) := by
  obtain ⟨-, byParent, -⟩ := header_matching_identifies sharedTable sharedTable_identified
    sharedTable_unusedInvalid 0 0 0 (by decide +kernel) (by decide)
  obtain ⟨-, byParent', -⟩ := header_matching_identifies sharedTable sharedTable_identified
    sharedTable_unusedInvalid 1 32 0 (by decide +kernel) (by decide)
  obtain ⟨-, -, byColor, -⟩ := header_matching_identifies sharedTable sharedTable_identified
    sharedTable_unusedInvalid 0 0 3 (by decide +kernel) (by decide)
  obtain ⟨-, -, byColor', -⟩ := header_matching_identifies sharedTable sharedTable_identified
    sharedTable_unusedInvalid 1 32 3 (by decide +kernel) (by decide)
  exact ⟨byParent ⟨0, 0⟩ ⟨0, 1⟩ (sharedTable_isChild (Or.inl rfl)) (by decide +kernel) rfl rfl,
    byParent' ⟨0, 0⟩ ⟨0, 2⟩ (sharedTable_isChild (Or.inr rfl)) (by decide +kernel) rfl rfl,
    byColor ⟨0, 1⟩ ⟨by decide +kernel, rfl, by decide +kernel, rfl⟩,
    byColor' ⟨0, 2⟩ ⟨by decide +kernel, rfl, by decide +kernel, rfl⟩⟩

/-- A table without entries whose free cells have valid colors: all of them pass the tests,
which do not look at the type. -/
theorem unused_cells_match :
    ¬ ∀ t : Trie (.ctAlloc 256 (by decide) (by decide)), t.Identified →
      ∀ hash symbol color, hash < Geometry.numPairs (.ctAlloc 256 (by decide) (by decide)) →
        color ≤ maxValidColor → t.AtMostOne hash symbol color := by
  intro claimed
  have once := claimed ⟨fun _ => ⟨0, false, false, 0, 0, 0, .unused⟩, fun _ => 0, fun _ => false,
    true⟩
    { tag := fun _ _ _ at_ => by cases at_.used
      symbol := fun _ _ child => by cases child.used
      distinct := fun _ _ _ _ at_ => by cases at_.used
      child := fun _ _ _ at_ => by cases at_.used
      only := fun _ _ _ child => by cases child.used } 0 0 0 (by decide +kernel) (by decide)
  exact absurd (once.2 ⟨0, 0⟩ ⟨0, 1⟩ (Or.inl ⟨rfl, rfl⟩) (Or.inl ⟨rfl, rfl⟩)) (by decide)

end CuckooTrie
