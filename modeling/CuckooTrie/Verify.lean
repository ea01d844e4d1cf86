import CuckooTrie.Allocation
import CuckooTrie.LinkedList
import CuckooTrie.Lookup
import CuckooTrie.PackedBucket

/-!
# Verifying a trie

`ct_verify_trie` and `verify_linklist`, the checks the tests of the trie rely on.  The
check of the list follows the `next_leaf` locators from the list head, refuses a leaf whose
key is not greater than the one before, counts the leaves it comes to, and strikes each of
them from a map of all leaf cells, which it indexes through the address of the leaf.

In a table in which every locator it follows resolves, the check terminates and succeeds
exactly if the list is whole (`Trie.ListWhole`), and all of `ct_verify_trie` terminates and
succeeds on a well-formed trie (`verify_linklist_exact`).
-/

namespace CuckooTrie

open LinkedList (Visits)

variable {g : Geometry}

/-! ## Addresses of entries -/

/-- Where the buckets of a trie lie: the field `buckets`, aligned to whole buckets, with
the bucket of the list head still inside the address space. -/
structure BucketArray (g : Geometry) where
  buckets : ℕ
  aligned : bucketBytes ∣ buckets
  fits : buckets + bucketBytes * (g.numBuckets + 1) ≤ 2 ^ 64

/-- `&(trie->buckets[bucket].cells[cell])`. -/
def cellAddress (buckets : ℕ) (loc : Loc) : ℕ :=
  buckets + bucketBytes * loc.bucket + Packed.cellOffset loc.cell

/-- `ptr_to_bucket`. -/
def ptrToBucket (buckets entry : ℕ) : ℕ := (entry - buckets) / bucketBytes

/-- `entry_index_in_bucket`, the branch for entries of 15 bytes: negating the address
counts how many entries of the bucket are before it. -/
def entryIndexInBucket (entry : ℕ) : ℕ := wrap64 (2 ^ 64 - 1 - entry + 1) &&& 0xf

theorem ptrToBucket_cellAddress (buckets : ℕ) (loc : Loc) :
    ptrToBucket buckets (cellAddress buckets loc) = loc.bucket := by
  have small := loc.cell.isLt
  unfold ptrToBucket cellAddress Packed.cellOffset
  simp only [bucketBytes, Packed.entryStorageSize]
  omega

theorem entryIndexInBucket_cellAddress (mem : BucketArray g) {loc : Loc}
    (inTable : loc.bucket < g.numBuckets) :
    entryIndexInBucket (cellAddress mem.buckets loc) = loc.cell := by
  have small := loc.cell.isLt
  obtain ⟨k, base⟩ := mem.aligned
  have fits := mem.fits
  rw [entryIndexInBucket, Nat.and_two_pow_sub_one_eq_mod _ 4]
  unfold wrap64 cellAddress Packed.cellOffset
  simp only [bucketBytes, Packed.entryStorageSize] at base fits ⊢
  omega

/-! ## Verifying an entry -/

/-- `try_follow_locator`: the cell whose address it returns; `none` if the search never
returns. -/
def tryFollowLocator (t : Trie g) (l : Locator) : Option Loc :=
  (findEntryInPairByColor t l.primaryBucket l.tag l.color).map LocalCopy.lastPos

/-- The texts of `leaf_locator_error`.  It never returns `POINTS_TO_NOTHING`, as the search
does not return without an entry. -/
inductive LocatorError where
  | bucketTooLarge
  | pointsToNonLeaf
deriving DecidableEq, Repr

/-- `leaf_locator_error`: `some none` if the locator has none. -/
def leafLocatorError (t : Trie g) (l : Locator) : Option (Option LocatorError) :=
  if l.primaryBucket ≥ g.numBuckets then some (some .bucketTooLarge)
  else
    (tryFollowLocator t l).map fun pointedEntry =>
      if !(t.cells pointedEntry).body.isLeaf then some .pointsToNonLeaf else none

/-- One check after the other; a check that fails does not keep the next ones from being
made, and one that never returns does. -/
def allOk (checks : List (Option Bool)) : Option Bool :=
  checks.foldlM (fun isOk check => check.map (isOk && ·)) true

/-- `verify_bitmap_children`.  The search of a child does not return without an entry. -/
def verifyBitmapChildren (t : Trie g) (loc : Loc) : Option Bool :=
  let entry := t.cells loc
  let prefixHash := cellHash g loc entry
  allOk ((List.range (fanout + 1)).map fun child =>
    if entry.hasChild child then
      let childPrefixHash := g.accumulateHash prefixHash child
      (findEntryInPairByParent t (hashToBucket childPrefixHash) (hashToTag childPrefixHash)
        child entry.color).map fun _ => true
    else some true)

/-- `verify_jump_child`. -/
def verifyJumpChild (t : Trie g) (loc : Loc) : Option Bool :=
  let entry := t.cells loc
  let prefixHash := (List.range entry.jumpSize).foldl
    (fun hash i => g.accumulateHash hash (entry.jumpSymbol i)) (cellHash g loc entry)
  (findEntryInPairByColor t (hashToBucket prefixHash) (hashToTag prefixHash)
    entry.body.childColor).map fun child => !child.value.body.isLeaf

/-- `verify_entry`. -/
def verifyEntry (t : Trie g) (loc : Loc) : Option Bool :=
  let entry := t.cells loc
  let noError (l : Locator) := (leafLocatorError t l).map Option.isNone
  let isMaxLeaf := entry.body.nextLeaf.primaryBucket = endOfList
  allOk [
    if !entry.body.isLeaf then noError entry.body.maxLeaf else some true,
    if entry.body.isBitmap then verifyBitmapChildren t loc else some true,
    if entry.body.isJump then verifyJumpChild t loc else some true,
    if entry.body.isLeaf ∧ ¬ isMaxLeaf then noError entry.body.nextLeaf else some true]

/-! ## Verifying the list of leaves -/

/-- The cells of the table in the order in which they are scanned. -/
def allCells (g : Geometry) : List Loc :=
  (List.range g.numBuckets).flatMap fun bucket => cellIndices.map fun cell => ⟨bucket, cell⟩

/-- The variables of `verify_linklist`.  `last_kv` is `none` while it is `NULL`, where no
object lies. -/
structure ListWalk where
  next : Locator
  lastKv : Option CtKv
  linklistLeaves : ℕ
  unlinkedLeaves : ℕ → Bool

/-- The index of a cell in `unlinked_leaves`. -/
def leafIndex (bucket cell : ℕ) : ℕ := bucket * bucketSize + cell

/-- One round of the scan for leaves: `num_leaves` and `unlinked_leaves`. -/
def markLeaf (t : Trie g) (marks : ℕ × (ℕ → Bool)) (loc : Loc) : ℕ × (ℕ → Bool) :=
  if (t.cells loc).body.isLeaf then
    (marks.1 + 1, fun i => if i = leafIndex loc.bucket loc.cell then true else marks.2 i)
  else marks

/-- The scan for leaves. -/
def markLeaves (t : Trie g) : ℕ × (ℕ → Bool) :=
  (allCells g).foldl (markLeaf t) (0, fun _ => false)

/-- The variables before the loop of `verify_linklist`. -/
def startWalk (t : Trie g) : ListWalk where
  next := (t.cells (trieMinLeaf g)).body.nextLeaf
  lastKv := none
  linklistLeaves := 0
  unlinkedLeaves := (markLeaves t).2

/-- What the body of the loop of `verify_linklist` assigns: the leaf is struck from the map,
and the next one is up. -/
def ListWalk.advance (w : ListWalk) (mem : BucketArray g) (t : Trie g) (leaf : Loc) : ListWalk :=
  let leafBucket := ptrToBucket mem.buckets (cellAddress mem.buckets leaf)
  let leafCell := entryIndexInBucket (cellAddress mem.buckets leaf)
  { next := (t.cells leaf).body.nextLeaf
    lastKv := some (t.cells leaf).body.kv
    linklistLeaves := w.linklistLeaves + 1
    unlinkedLeaves := fun i =>
      if i = leafIndex leafBucket leafCell then false else w.unlinkedLeaves i }

/-- The body of the loop of `verify_linklist`, once it has followed the locator; `none` is
one of its errors. -/
def visitLeaf (mem : BucketArray g) (t : Trie g) (numLeaves : ℕ) (w : ListWalk) (leaf : Loc) :
    Option ListWalk :=
  if !(t.cells leaf).body.isLeaf then none
  else if w.lastKv.any fun lastKv => kvKeyCompare (t.cells leaf).body.kv lastKv ≤ 0 then none
  else if w.linklistLeaves + 1 > numLeaves then none
  else some (w.advance mem t leaf)

/-- What a round of the loop checks and does. -/
theorem visitLeaf_eq_some_iff {mem : BucketArray g} {t : Trie g} {numLeaves : ℕ}
    {w w' : ListWalk} {leaf : Loc} :
    visitLeaf mem t numLeaves w leaf = some w' ↔
      (t.cells leaf).body.isLeaf = true ∧
        (∀ lastKv ∈ w.lastKv, lastKv.key < (t.cells leaf).body.kv.key) ∧
        w.linklistLeaves + 1 ≤ numLeaves ∧ w.advance mem t leaf = w' := by
  have order : w.lastKv.any (fun lastKv => kvKeyCompare (t.cells leaf).body.kv lastKv ≤ 0) =
      false ↔ ∀ lastKv ∈ w.lastKv, lastKv.key < (t.cells leaf).body.kv.key := by
    simp only [Option.any_eq_false, decide_eq_false_iff_not, kvKeyCompare,
      kvKeyCompareTo_nonpos_iff, not_le, Option.mem_def]
  rw [← order, visitLeaf]
  cases (t.cells leaf).body.isLeaf with
  | false => simp
  | true =>
    cases w.lastKv.any fun lastKv => kvKeyCompare (t.cells leaf).body.kv lastKv ≤ 0 with
    | true => simp
    | false => simp

/-- The loop of `verify_linklist`: its variables at its end, or `some none` after an error,
or `none` if a locator leads nowhere.  The leaves counted bound the number of rounds. -/
def walkList (mem : BucketArray g) (t : Trie g) (numLeaves : ℕ) (w : ListWalk) :
    Option (Option ListWalk) :=
  if w.next.primaryBucket = endOfList then some (some w)
  else
    match tryFollowLocator t w.next with
    | none => none
    | some leaf =>
      match _visit : visitLeaf mem t numLeaves w leaf with
      | none => some none
      | some w' => walkList mem t numLeaves w'
termination_by numLeaves - w.linklistLeaves
decreasing_by
  obtain ⟨-, -, more, rfl⟩ := visitLeaf_eq_some_iff.mp _visit
  change numLeaves - (w.linklistLeaves + 1) < numLeaves - w.linklistLeaves
  omega

/-- `verify_linklist`. -/
def verifyLinklist (mem : BucketArray g) (t : Trie g) : Option Bool :=
  (walkList mem t (markLeaves t).1 (startWalk t)).map fun walk =>
    walk.any fun w =>
      (allCells g).all fun loc => !w.unlinkedLeaves (leafIndex loc.bucket loc.cell)

/-- `ct_verify_trie`. -/
def ctVerifyTrie (mem : BucketArray g) (t : Trie g) : Option Bool :=
  let verifyBucket (bucket : ℕ) : List (Option Bool) :=
    some (!t.writeLock bucket) :: cellIndices.map fun cell =>
      if !(t.cells ⟨bucket, cell⟩).body.used then some true else verifyEntry t ⟨bucket, cell⟩
  allOk ((List.range g.numBuckets).flatMap verifyBucket ++ [verifyLinklist mem t])

/-! ## What the check of the list decides -/

/-- A locator resolves to a cell of the table. -/
def Trie.Resolves (t : Trie g) (l : Locator) : Prop :=
  l.primaryBucket < g.numBuckets ∧ ∃ loc, tryFollowLocator t l = some loc

/-- The variables of `verify_linklist` whenever it tests the condition of its loop. -/
inductive Reached (mem : BucketArray g) (t : Trie g) : ListWalk → Prop
  | start : Reached mem t (startWalk t)
  | visit {w w' leaf} : Reached mem t w → w.next.primaryBucket ≠ endOfList →
      tryFollowLocator t w.next = some leaf →
      visitLeaf mem t (markLeaves t).1 w leaf = some w' → Reached mem t w'

/-- Every locator `verify_linklist` follows resolves to a cell of the table. -/
def Trie.Followed (t : Trie g) (mem : BucketArray g) : Prop :=
  ∀ w, Reached mem t w → w.next.primaryBucket ≠ endOfList → t.Resolves w.next

/-- A cell of the table of type `TYPE_LEAF`. -/
def Trie.LeafAt (t : Trie g) (loc : Loc) : Prop :=
  loc.bucket < g.numBuckets ∧ (t.cells loc).body.isLeaf = true

/-- The `next_leaf` locators from one on lead through these cells and end the list. -/
def Trie.Links (t : Trie g) : Locator → List Loc → Prop :=
  Visits (tryFollowLocator t) (fun loc => (t.cells loc).body.nextLeaf)
    (fun l => l.primaryBucket = endOfList)

/-- **The list of leaves is whole.**  From the list head the `next_leaf` locators lead
through leaf cells only, through each one of the table once, in strictly increasing order of
the keys, and then end the list. -/
def Trie.ListWhole (t : Trie g) : Prop :=
  ∃ locs, t.Links (t.cells (trieMinLeaf g)).body.nextLeaf locs ∧
    (∀ loc ∈ locs, t.LeafAt loc) ∧ (∀ loc, t.LeafAt loc → locs.count loc = 1) ∧
    locs.Pairwise fun a b => (t.cells a).body.kv.key < (t.cells b).body.kv.key

variable {mem : BucketArray g} {t : Trie g}

theorem tryFollowLocator_inTable {l : Locator} {loc : Loc}
    (found : tryFollowLocator t l = some loc) (small : l.primaryBucket < g.numBuckets) :
    loc.bucket < g.numBuckets := by
  obtain ⟨lc, search, rfl⟩ := Option.map_eq_some_iff.mp found
  obtain ⟨loc, scan, rfl⟩ := Option.map_eq_some_iff.mp search
  change loc.bucket < g.numBuckets
  split at scan
  · next primary =>
    cases scan
    exact (findInBucket_eq_some primary).1 ▸ small
  · exact (findInBucket_eq_some scan).1 ▸ g.mixBucket_lt _ small

theorem mem_allCells {loc : Loc} : loc ∈ allCells g ↔ loc.bucket < g.numBuckets := by
  obtain ⟨b, i⟩ := loc
  simp [allCells, mem_cellIndices]

/-- Cells of one index in the map are equal. -/
theorem leafIndex_inj {a b : Loc} (same : leafIndex a.bucket a.cell = leafIndex b.bucket b.cell) :
    a = b := by
  obtain ⟨a, i⟩ := a
  obtain ⟨b, j⟩ := b
  have hi := i.isLt
  have hj := j.isLt
  simp only [leafIndex, bucketSize] at same
  rw [Loc.mk.injEq, Fin.ext_iff]
  omega

/-! ### The scan for leaves -/

theorem markLeaf_foldl (cells : List Loc) (marks : ℕ × (ℕ → Bool)) :
    (cells.foldl (markLeaf t) marks).1 =
        marks.1 + (cells.filter fun loc => (t.cells loc).body.isLeaf).length ∧
      ∀ i, (cells.foldl (markLeaf t) marks).2 i = true ↔
        marks.2 i = true ∨
          ∃ loc ∈ cells, (t.cells loc).body.isLeaf = true ∧ i = leafIndex loc.bucket loc.cell := by
  induction cells generalizing marks with
  | nil => simp
  | cons loc cells ih =>
    rw [List.foldl_cons]
    obtain ⟨count, marked⟩ := ih (markLeaf t marks loc)
    rw [count]
    simp only [marked]
    cases isLeaf : (t.cells loc).body.isLeaf with
    | false => simp [markLeaf, isLeaf]
    | true =>
      refine ⟨?_, fun i => ?_⟩
      · rw [markLeaf, if_pos isLeaf, List.filter_cons_of_pos (by simpa using isLeaf),
          List.length_cons]
        exact Nat.add_right_comm _ _ _
      by_cases here : i = leafIndex loc.bucket loc.cell
      · simp [markLeaf, isLeaf, here]
      · simp [markLeaf, isLeaf, here]

/-- The leaf cells, counted by `num_leaves`. -/
def leafCells (t : Trie g) : List Loc :=
  (allCells g).filter fun loc => (t.cells loc).body.isLeaf

theorem mem_leafCells {loc : Loc} : loc ∈ leafCells t ↔ t.LeafAt loc := by
  rw [leafCells, List.mem_filter, mem_allCells]
  rfl

theorem markLeaves_fst : (markLeaves t).1 = (leafCells t).length :=
  ((markLeaf_foldl (allCells g) (0, fun _ => false)).1).trans (Nat.zero_add _)

theorem markLeaves_snd {i : ℕ} :
    (markLeaves t).2 i = true ↔ ∃ loc, t.LeafAt loc ∧ i = leafIndex loc.bucket loc.cell := by
  rw [markLeaves, (markLeaf_foldl (allCells g) (0, fun _ => false)).2 i]
  simp only [Bool.false_eq_true, false_or, mem_allCells, Trie.LeafAt, and_assoc]

/-! ### The loop -/

/-- The keys of the cells come after the last key and go up. -/
def Trie.Ascends (t : Trie g) (lastKv : Option CtKv) (locs : List Loc) : Prop :=
  (lastKv.toList ++ locs.map fun loc => (t.cells loc).body.kv).Pairwise fun a b => a.key < b.key

theorem ascends_none {locs : List Loc} :
    t.Ascends none locs ↔
      locs.Pairwise fun a b => (t.cells a).body.kv.key < (t.cells b).body.kv.key :=
  List.pairwise_map

theorem ascends_cons {lastKv : Option CtKv} {leaf : Loc} {locs : List Loc} :
    t.Ascends lastKv (leaf :: locs) ↔
      (∀ kv ∈ lastKv, kv.key < (t.cells leaf).body.kv.key) ∧
        t.Ascends (some (t.cells leaf).body.kv) locs := by
  cases lastKv with
  | none => simp [Trie.Ascends]
  | some kv =>
    simp only [Trie.Ascends, Option.toList_some, List.singleton_append, List.map_cons,
      List.pairwise_cons, Option.mem_some_iff, forall_eq']
    constructor
    · rintro ⟨less, rest, sorted⟩
      exact ⟨less _ List.mem_cons_self, rest, sorted⟩
    · rintro ⟨less, rest, sorted⟩
      refine ⟨fun a mem => ?_, rest, sorted⟩
      rcases List.mem_cons.mp mem with rfl | mem
      · exact less
      · exact less.trans (rest a mem)

/-- A leaf of the table is struck under its own index. -/
theorem advance_unlinkedLeaves {w : ListWalk} {leaf : Loc} (inTable : leaf.bucket < g.numBuckets)
    (i : ℕ) :
    (w.advance mem t leaf).unlinkedLeaves i = true ↔
      w.unlinkedLeaves i = true ∧ i ≠ leafIndex leaf.bucket leaf.cell := by
  simp only [ListWalk.advance, ptrToBucket_cellAddress, entryIndexInBucket_cellAddress mem inTable]
  split <;> simp [*]

/-- One round of the loop. -/
theorem walkList_round {w : ListWalk} {numLeaves : ℕ} {leaf : Loc}
    (goes : w.next.primaryBucket ≠ endOfList) (found : tryFollowLocator t w.next = some leaf) :
    walkList mem t numLeaves w =
      match visitLeaf mem t numLeaves w leaf with
      | none => some none
      | some w' => walkList mem t numLeaves w' := by
  rw [walkList, if_neg goes]
  simp only [found]
  split <;> simp only [*]

/-- **The loop of `verify_linklist` terminates** when every locator it follows resolves; when
it ends without an error, it was led through leaves in increasing order of their keys, and
these are struck from the map. -/
theorem walkList_spec (followed : t.Followed mem) {w : ListWalk} (reached : Reached mem t w) :
    ∃ r, walkList mem t (markLeaves t).1 w = some r ∧ ∀ w' ∈ r, ∃ locs,
      t.Links w.next locs ∧ (∀ loc ∈ locs, t.LeafAt loc) ∧ t.Ascends w.lastKv locs ∧
        ∀ i, w'.unlinkedLeaves i = true ↔
          w.unlinkedLeaves i = true ∧ ∀ loc ∈ locs, i ≠ leafIndex loc.bucket loc.cell := by
  -- by induction on the leaves that may still be counted
  induction left : (markLeaves t).1 - w.linklistLeaves using Nat.strong_induction_on
    generalizing w with
  | _ k ih =>
    subst left
    by_cases ends : w.next.primaryBucket = endOfList
    · refine ⟨some w, by rw [walkList, if_pos ends], ?_⟩
      rintro w' ⟨⟩
      exact ⟨[], .stop ends, by simp, by cases w.lastKv <;> simp [Trie.Ascends], by simp⟩
    · obtain ⟨small, leaf, found⟩ := followed w reached ends
      have inTable := tryFollowLocator_inTable found small
      rw [walkList_round ends found]
      cases visit : visitLeaf mem t (markLeaves t).1 w leaf with
      | none => exact ⟨none, rfl, by simp⟩
      | some w' =>
        obtain ⟨isLeaf, less, more, rfl⟩ := visitLeaf_eq_some_iff.mp visit
        obtain ⟨r, walk, spec⟩ := ih _ (by
          change (markLeaves t).1 - (w.linklistLeaves + 1) < _
          omega) (.visit reached ends found visit) rfl
        refine ⟨r, walk, fun w' mem' => ?_⟩
        obtain ⟨locs, links, leaves, ascends, unlinked⟩ := spec w' mem'
        refine ⟨leaf :: locs, .go ends found links, ?_, ascends_cons.mpr ⟨less, ascends⟩,
          fun i => ?_⟩
        · exact List.forall_mem_cons.mpr ⟨⟨inTable, isLeaf⟩, leaves⟩
        · rw [unlinked, advance_unlinkedLeaves inTable, List.forall_mem_cons, and_assoc]

/-- The loop ends without an error on a list of leaves in increasing order of their keys
with no more leaves than may still be counted. -/
theorem walkList_complete {w : ListWalk} {numLeaves : ℕ} {l : Locator} {locs : List Loc}
    (links : t.Links l locs) (start : w.next = l) (leaves : ∀ loc ∈ locs, t.LeafAt loc)
    (ascends : t.Ascends w.lastKv locs) (few : w.linklistLeaves + locs.length ≤ numLeaves) :
    ∃ w', walkList mem t numLeaves w = some (some w') := by
  induction links generalizing w with
  | stop ends =>
    subst start
    exact ⟨w, by rw [walkList, if_pos ends]⟩
  | @go l leaf locs goes found _ ih =>
    subst start
    obtain ⟨⟨-, isLeaf⟩, leaves⟩ := List.forall_mem_cons.mp leaves
    obtain ⟨less, ascends⟩ := ascends_cons.mp ascends
    rw [List.length_cons] at few
    have visit : visitLeaf mem t numLeaves w leaf = some (w.advance mem t leaf) :=
      visitLeaf_eq_some_iff.mpr ⟨isLeaf, less, by omega, rfl⟩
    have few' : (w.advance mem t leaf).linklistLeaves + locs.length ≤ numLeaves := by
      change w.linklistLeaves + 1 + locs.length ≤ numLeaves
      omega
    rw [walkList_round goes found, visit]
    exact ih rfl leaves ascends few'

/-- **`verify_linklist` decides whether the list is whole.** -/
theorem verifyLinklist_spec (followed : t.Followed mem) :
    ∃ ok, verifyLinklist mem t = some ok ∧ (ok = true ↔ t.ListWhole) := by
  obtain ⟨r, walk, spec⟩ := walkList_spec followed .start
  have irrefl : ∀ a : Loc, ¬ (t.cells a).body.kv.key < (t.cells a).body.kv.key :=
    fun a => lt_irrefl _
  refine ⟨_, by rw [verifyLinklist, walk]; rfl, ?_⟩
  constructor
  · intro ok
    obtain ⟨w, rfl, linked⟩ := (Option.any_eq_true _ _).mp ok
    obtain ⟨locs, links, leaves, ascends, unlinked⟩ := spec w rfl
    have sorted := ascends_none.mp ascends
    refine ⟨locs, links, leaves, fun loc leaf => ?_, sorted⟩
    refine LinkedList.count_eq_one_of_pairwise irrefl sorted ?_
    -- a leaf that was not visited is still marked
    by_contra missed
    have marked : w.unlinkedLeaves (leafIndex loc.bucket loc.cell) = true := by
      refine (unlinked _).mpr ⟨markLeaves_snd.mpr ⟨loc, leaf, rfl⟩, fun other mem same => ?_⟩
      exact missed (leafIndex_inj same ▸ mem)
    have struck := List.all_eq_true.mp linked loc (mem_allCells.mpr leaf.1)
    rw [marked] at struck
    cases struck
  · rintro ⟨locs, links, leaves, once, sorted⟩
    have few : (startWalk t).linklistLeaves + locs.length ≤ (markLeaves t).1 := by
      rw [markLeaves_fst, startWalk, Nat.zero_add]
      exact LinkedList.length_le_of_pairwise irrefl sorted fun loc mem =>
        mem_leafCells.mpr (leaves loc mem)
    obtain ⟨w, walk'⟩ : ∃ w, walkList mem t (markLeaves t).1 (startWalk t) = some (some w) :=
      walkList_complete links rfl leaves (ascends_none.mpr sorted) few
    obtain rfl : r = some w := Option.some.inj (walk.symm.trans walk')
    obtain ⟨locs', links', -, -, unlinked⟩ := spec w rfl
    obtain rfl := links'.unique links
    refine (Option.any_eq_true _ _).mpr ⟨w, rfl, List.all_eq_true.mpr fun loc mem => ?_⟩
    rw [Bool.not_eq_true', ← Bool.not_eq_true]
    intro marked
    obtain ⟨start, kept⟩ := (unlinked _).mp marked
    obtain ⟨leaf, isLeaf, same⟩ := markLeaves_snd.mp start
    have visited : leaf ∈ locs' := List.count_pos_iff.mp (by rw [once leaf isLeaf]; omega)
    exact kept leaf visited same

/-! ## A well-formed trie passes -/

theorem allOk_eq_true {checks : List (Option Bool)} (ok : ∀ check ∈ checks, check = some true) :
    allOk checks = some true := by
  induction checks with
  | nil => rfl
  | cons check checks ih =>
    obtain ⟨rfl, rest⟩ := List.forall_mem_cons.mp ok
    exact ih rest

section Passes

variable {S : Store} {L : Layout} {M : KeyMap} {p : List ℕ} {n : Node} {loc : Loc}

/-- The locator of a node leads to its cell. -/
theorem tryFollowLocator_spec (readable : L.Readable t M) (hp : L.node p = some n) :
    ∃ loc, tryFollowLocator t (L.locator g p) = some loc ∧
      t.At loc (g.prefixHash p) (L.color p) ∧ (t.cells loc).body = L.body p n := by
  obtain ⟨lc, found, d⟩ := readable.byColor hp
  refine ⟨lc.lastPos, ?_, d.reads.at_, ?_⟩
  · rw [tryFollowLocator, Layout.locator, found]
    rfl
  · rw [← d.reads.value, d.body]

theorem leafLocatorError_spec (readable : L.Readable t M) {l : Locator} {kv : CtKv}
    (points : L.PointsTo g l (some kv)) : leafLocatorError t l = some none := by
  obtain ⟨p, hp, rfl⟩ := points
  obtain ⟨loc, found, -, body⟩ := tryFollowLocator_spec readable hp
  have small : ¬ (L.locator g p).primaryBucket ≥ g.numBuckets :=
    not_le.mpr (g.hashToBucket_lt (readable.shape.prefixHash_lt hp))
  rw [leafLocatorError, if_neg small, found, Option.map_some, body]
  rfl

/-- Every child of a bitmap is where its prefix says. -/
theorem verifyBitmapChildren_spec (readable : L.Readable t M) {children : ℕ}
    (hp : L.node p = some (.bitmap children))
    (hash : cellHash g loc (t.cells loc) = g.prefixHash p)
    (color : (t.cells loc).color = L.color p)
    (body : (t.cells loc).body = L.body p (.bitmap children)) :
    verifyBitmapChildren t loc = some true := by
  refine allOk_eq_true fun check mem => ?_
  obtain ⟨child, -, rfl⟩ := List.mem_map.mp mem
  have hasChild : (t.cells loc).hasChild child = children.testBit child := by
    rw [Entry.hasChild, body]
    rfl
  rw [hasChild]
  split
  · next bit =>
    obtain ⟨m, hm⟩ := Option.ne_none_iff_exists'.mp (readable.shape.child _ _ (.bitmap hp bit))
    obtain ⟨lc, found, -⟩ := readable.byParent hp bit hm
    simp only [hash, color, ← g.prefixHash_concat, found]
    rfl
  · rfl

/-- The child of a jump node is where its prefix says, and is no leaf. -/
theorem verifyJumpChild_spec (readable : L.Readable t M) {symbols : List ℕ}
    (hp : L.node p = some (.jump symbols)) (hash : cellHash g loc (t.cells loc) = g.prefixHash p)
    (body : (t.cells loc).body = L.body p (.jump symbols)) :
    verifyJumpChild t loc = some true := by
  obtain ⟨m, hm⟩ := Option.ne_none_iff_exists'.mp (readable.shape.child _ _ (.jump hp))
  have inner := readable.shape.jump_child p symbols m hp hm
  have symbolsAt : (List.range (t.cells loc).jumpSize).map (t.cells loc).jumpSymbol = symbols := by
    rw [Entry.jumpSize, body]
    refine List.ext_getElem (by simp [Layout.body, Body.jumpBits]) fun i _ inside => ?_
    have positive := ((readable.shape.jump p symbols hp).2.2 _ (List.getElem_mem inside)).1
    rw [List.getElem_map, List.getElem_range, Entry.jumpSymbol, body]
    simp only [Layout.body, Body.jumpBits]
    rw [List.getD_eq_getElem _ _ (by simpa using inside), List.getElem_map]
    omega
  have childHash : (List.range (t.cells loc).jumpSize).foldl
      (fun hash i => g.accumulateHash hash ((t.cells loc).jumpSymbol i))
        (cellHash g loc (t.cells loc)) = g.prefixHash (p ++ symbols) := by
    rw [hash, g.prefixHash_append, ← List.foldl_map, symbolsAt]
  have childColor : (t.cells loc).body.childColor = L.color (p ++ symbols) := by
    rw [body]
    rfl
  obtain ⟨lc, found, d⟩ := readable.byColor hm
  have notLeaf : lc.value.body.isLeaf = false := by
    rw [← Bool.not_eq_true, isLeaf_iff d]
    rintro ⟨kv, rfl⟩
    cases inner
  simp only [verifyJumpChild, childHash, childColor, found, Option.map_some, notLeaf,
    Bool.not_false]

/-- **Every entry of a well-formed trie passes**, in whichever bucket of its pair it is. -/
theorem verifyEntry_spec (stores : t.Stores S none) (rep : L.Represents g S M)
    (linked : L.Linked g M) (finished : L.Finished) (inTable : loc.bucket < g.numBuckets)
    (used : (t.cells loc).body.used = true) : verifyEntry t loc = some true := by
  have readable : L.Readable t M := ⟨S, none, stores, rep, rep.identifies finished⟩
  obtain ⟨p, n, hp, hash, color, content⟩ :=
    rep.node_of_at stores finished ⟨inTable, used, rfl, rfl⟩
  have body : (t.cells loc).body = L.body p n := congrArg Entry.body content
  have maxLeaf : n.isInner = true →
      (leafLocatorError t (L.link p)).map Option.isNone = some true := by
    intro inner
    obtain ⟨kv, mem, below⟩ := readable.shape.exists_below hp
    obtain ⟨max, last⟩ := Option.ne_none_iff_exists'.mp fun none =>
      KeyMap.last_eq_none_iff.mp none kv mem below
    rw [leafLocatorError_spec readable (last ▸ linked.max p n hp inner)]
    rfl
  refine allOk_eq_true ?_
  simp only [List.forall_mem_cons, List.not_mem_nil, false_implies, implies_true, and_true, body]
  cases n with
  | leaf kv =>
    refine ⟨rfl, rfl, rfl, ?_⟩
    split
    · next more =>
      have points := linked.next p kv hp
      cases next : M.after kv.key with
      | none =>
        rw [next] at points
        exact absurd points more.2
      | some kv' =>
        rw [Layout.body, Body.nextLeaf, leafLocatorError_spec readable (next ▸ points)]
        rfl
    · rfl
  | bitmap children =>
    exact ⟨maxLeaf rfl, verifyBitmapChildren_spec readable hp hash.symm color.symm body, rfl, rfl⟩
  | jump symbols =>
    exact ⟨maxLeaf rfl, rfl, verifyJumpChild_spec readable hp hash.symm body, rfl⟩

/-- Along the list the leaves of a well-formed trie have the objects of the map. -/
theorem links_spec (readable : L.Readable t M) (linked : L.Linked g M) {kvs before : List CtKv}
    (split : M.kvs = before ++ kvs) {l : Locator} (points : L.PointsTo g l kvs.head?) :
    ∃ locs, t.Links l locs ∧ (∀ loc ∈ locs, t.LeafAt loc) ∧
      locs.map (fun loc => (t.cells loc).body.kv) = kvs := by
  induction kvs generalizing before l with
  | nil => exact ⟨[], .stop points, by simp, rfl⟩
  | cons kv kvs ih =>
    obtain ⟨p, hp, rfl⟩ := points
    obtain ⟨loc, found, at_, body⟩ := tryFollowLocator_spec readable hp
    have next := linked.next p kv hp
    rw [KeyMap.after_of_split split] at next
    obtain ⟨locs, links, leaves, kvsAt⟩ := ih (by rw [split, List.append_cons]) next
    have link : (t.cells loc).body.nextLeaf = L.link p := by
      rw [body]
      rfl
    refine ⟨loc :: locs, .go (locator_ne_endOfList readable.shape hp) found (link ▸ links), ?_, ?_⟩
    · refine List.forall_mem_cons.mpr ⟨⟨at_.inTable, ?_⟩, leaves⟩
      rw [body]
      rfl
    · rw [List.map_cons, kvsAt, body]
      rfl

/-- The list head of a well-formed trie has the first link. -/
theorem nextLeaf_minLeaf (stores : t.Stores S none) (rep : L.Represents g S M) :
    (t.cells (trieMinLeaf g)).body.nextLeaf = L.first := by
  rw [stores.head, rep.head]
  rfl

/-- A leaf cell holds the leaf of an object. -/
theorem node_of_leafAt (stores : t.Stores S none) (rep : L.Represents g S M)
    (finished : L.Finished) (leaf : t.LeafAt loc) :
    ∃ p kv, L.node p = some (.leaf kv) ∧ t.At loc (g.prefixHash p) (L.color p) ∧
      (t.cells loc).body.kv = kv := by
  obtain ⟨inTable, isLeaf⟩ := leaf
  have used : (t.cells loc).body.used = true := by
    cases body : (t.cells loc).body with
    | unused => simp [body, Body.isLeaf] at isLeaf
    | _ => rfl
  have at_ : t.At loc (cellHash g loc (t.cells loc)) (t.cells loc).color :=
    ⟨inTable, used, rfl, rfl⟩
  obtain ⟨p, n, hp, hash, color, content⟩ := rep.node_of_at stores finished at_
  have body : (t.cells loc).body = L.body p n := congrArg Entry.body content
  rw [← hash, ← color] at at_
  cases n with
  | leaf kv => exact ⟨p, kv, hp, at_, by rw [body]; rfl⟩
  | bitmap children => simp [body, Layout.body, Body.isLeaf] at isLeaf
  | jump symbols => simp [body, Layout.body, Body.isLeaf] at isLeaf

/-- **The list of leaves of a well-formed trie is whole.** -/
theorem listWhole_of_wellFormed (stores : t.Stores S none) (rep : L.Represents g S M)
    (linked : L.Linked g M) (finished : L.Finished) : t.ListWhole := by
  have readable : L.Readable t M := ⟨S, none, stores, rep, rep.identifies finished⟩
  have first := linked.first
  rw [KeyMap.first_true] at first
  obtain ⟨locs, links, leaves, kvsAt⟩ := links_spec readable linked (List.nil_append _).symm first
  have sorted := M.sorted
  rw [← kvsAt, List.pairwise_map] at sorted
  refine ⟨locs, (nextLeaf_minLeaf stores rep).symm ▸ links, leaves, fun loc leaf => ?_, sorted⟩
  refine LinkedList.count_eq_one_of_pairwise (fun a => lt_irrefl (t.cells a).body.kv.key) sorted ?_
  -- the list comes to the leaf of the object of each leaf cell, which is this cell
  obtain ⟨p, kv, hp, at_, kvAt⟩ := node_of_leafAt stores rep finished leaf
  have mem : kv ∈ locs.map fun loc => (t.cells loc).body.kv := kvsAt ▸ (rep.shape.leaf p kv hp).1
  obtain ⟨loc', visited, same⟩ := List.mem_map.mp mem
  obtain ⟨p', kv', hp', at', kvAt'⟩ := node_of_leafAt stores rep finished (leaves loc' visited)
  obtain rfl : kv' = kv := kvAt'.symm.trans same
  obtain rfl := rep.shape.leaf_unique hp hp'
  rwa [stores.unique loc loc' _ _ at_ at' nofun nofun]

/-- In a well-formed trie the check of the list is led from leaf to leaf. -/
theorem followed_of_wellFormed (stores : t.Stores S none) (rep : L.Represents g S M)
    (linked : L.Linked g M) (finished : L.Finished) : t.Followed mem := by
  have readable : L.Readable t M := ⟨S, none, stores, rep, rep.identifies finished⟩
  have points : ∀ w, Reached mem t w → ∃ okv, L.PointsTo g w.next okv := by
    intro w reached
    induction reached with
    | start => exact ⟨_, (nextLeaf_minLeaf stores rep).symm ▸ linked.first⟩
    | @visit w w' leaf _ more found visit ih =>
      obtain ⟨okv, points⟩ := ih
      obtain ⟨-, -, -, rfl⟩ := visitLeaf_eq_some_iff.mp visit
      cases okv with
      | none => exact absurd points more
      | some kv =>
        obtain ⟨p, hp, link⟩ := points
        obtain ⟨loc, found', -, body⟩ := tryFollowLocator_spec readable hp
        rw [link, found'] at found
        cases found
        have next : (w.advance mem t leaf).next = L.link p := congrArg Body.nextLeaf body
        exact ⟨_, next.symm ▸ linked.next p kv hp⟩
  intro w reached more
  obtain ⟨okv, points⟩ := points w reached
  cases okv with
  | none => exact absurd points more
  | some kv =>
    obtain ⟨p, hp, link⟩ := points
    obtain ⟨loc, found, -⟩ := tryFollowLocator_spec readable hp
    rw [link]
    exact ⟨g.hashToBucket_lt (rep.shape.prefixHash_lt hp), loc, found⟩

end Passes

/-- **A well-formed trie passes**, in whichever buckets of their pairs the entries lie. -/
theorem WellFormed.ctVerifyTrie {M : KeyMap} (wf : WellFormed t M) :
    ctVerifyTrie mem t = some true := by
  obtain ⟨S, L, stores, rep, linked, finished, unlocked⟩ := wf
  have list : verifyLinklist mem t = some true := by
    have followed : t.Followed mem := followed_of_wellFormed stores rep linked finished
    obtain ⟨ok, verdict, whole⟩ := verifyLinklist_spec followed
    rw [verdict, whole.mpr (listWhole_of_wellFormed stores rep linked finished)]
  refine allOk_eq_true fun check mem => ?_
  rcases List.mem_append.mp mem with mem | mem
  · obtain ⟨bucket, inTable, mem⟩ := List.mem_flatMap.mp mem
    rcases List.mem_cons.mp mem with rfl | mem
    · rw [unlocked bucket]
      rfl
    · obtain ⟨cell, -, rfl⟩ := List.mem_map.mp mem
      split
      · rfl
      · next used =>
        exact verifyEntry_spec stores rep linked finished (List.mem_range.mp inTable)
          (by simpa using used)
  · rw [List.mem_singleton.mp mem, list]

/-- **The checker is sound and complete for the list of leaves.**  When every locator it
follows resolves to a cell of the table, `verify_linklist` terminates, and it succeeds
exactly if the list is whole.  On a well-formed trie `ct_verify_trie` terminates and
succeeds, in whichever buckets of their pairs the entries lie. -/
theorem verify_linklist_exact (mem : BucketArray g) (t : Trie g) :
    (t.Followed mem → ∃ ok, verifyLinklist mem t = some ok ∧ (ok = true ↔ t.ListWhole)) ∧
      ∀ M, WellFormed t M → ctVerifyTrie mem t = some true :=
  ⟨verifyLinklist_spec, fun _ wf => wf.ctVerifyTrie⟩

/-- The buckets of the table for `smallTrie`, at some address. -/
def smallBuckets : BucketArray smallGeometry := ⟨0x7f52c8000000, by decide, by decide⟩

/-- The list of the two leaves is whole, and the checker finds it so. -/
theorem verify_linklist_exact_small :
    (verifyLinklist smallBuckets smallTrie = some true ∧ smallTrie.ListWhole) ∧
      ctVerifyTrie smallBuckets smallTrie = some true := by
  obtain ⟨list, passes⟩ := verify_linklist_exact smallBuckets smallTrie
  obtain ⟨S, L, stores, rep, linked, finished, -⟩ := smallTrie_wellFormed
  have whole := listWhole_of_wellFormed stores rep linked finished
  obtain ⟨ok, verdict, ok_iff⟩ := list (followed_of_wellFormed stores rep linked finished)
  rw [ok_iff.mpr whole] at verdict
  exact ⟨⟨verdict, whole⟩, passes _ smallTrie_wellFormed⟩

end CuckooTrie
