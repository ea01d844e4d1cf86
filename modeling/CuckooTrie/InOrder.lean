import CuckooTrie.Combs
import CuckooTrie.Iteration

/-!
# The predecessor found is the in-order predecessor

A position of a trie is a string of symbols, also one that no key has, such as a
child of a bitmap behind the last symbol.  The objects before it are those whose
symbol strings are smaller (`KeyMap.beforeSymbols`).

For a finger that came down for a key, the scan for the predecessor of a child of a
bitmap on its path starts at a bitmap in each case in which the code makes one, and
the leaf fetched then is the greatest one before that child (`FindsBefore`).
-/

namespace CuckooTrie

open Sys

variable {g : Geometry} {t : Trie g} {L : Layout} {M : KeyMap} {p q x : List ℕ} {n : Node}

/-! ## Objects before a position -/

/-- The greatest object before a position. -/
def KeyMap.beforeSymbols (M : KeyMap) (x : List ℕ) : Option CtKv :=
  M.last fun kv => keySymbols kv.key < x

theorem KeyMap.last_congr {P Q : CtKv → Prop} [DecidablePred P] [DecidablePred Q]
    (same : ∀ kv ∈ M, (P kv ↔ Q kv)) : M.last P = M.last Q := by
  cases found : M.last Q with
  | none =>
    have none := last_eq_none_iff.mp found
    exact last_eq_none_iff.mpr fun kv mem => (same kv mem).not.mpr (none kv mem)
  | some kv =>
    obtain ⟨mem, holds, max⟩ := last_eq_some_iff.mp found
    exact last_eq_some_iff.mpr ⟨mem, (same kv mem).mpr holds, fun kv' mem' holds' =>
      max kv' mem' ((same kv' mem').mp holds')⟩

/-- The position of a key. -/
theorem KeyMap.beforeSymbols_key (M : KeyMap) (key : List UInt8) :
    M.beforeSymbols (keySymbols key) = M.before key :=
  last_congr fun _ _ => keySymbols_lt_iff

/-- Where a bitmap is cut, the objects before that child are those before the key. -/
theorem beforeSymbols_of_cutsAt (shape : L.Shape M) {key : List UInt8} {children s : ℕ}
    (hq : L.node q = some (.bitmap children)) (onPath : q <+: keySymbols key)
    (cuts : CutsAt M key q s) : M.beforeSymbols (q ++ [s]) = M.before key := by
  refine KeyMap.last_congr fun kv mem => ?_
  by_cases inside : KeyMap.Below q kv
  · obtain ⟨c, -, below⟩ := shape.bitmap_below hq mem inside
    rw [cuts kv mem c below]
    by_cases same : c = s
    · subst same
      exact iff_of_false (List.not_lt.mpr below.le) (lt_irrefl c)
    · exact PrefixOrder.lt_iff_of_concat same below List.prefix_rfl
  · rw [← keySymbols_lt_iff]
    exact PrefixOrder.lt_iff_outside inside (List.prefix_append _ _) onPath

/-! ## Fetching what a scan finds -/

/-- The copy of the leaf of an object as the table holds it; the list head, if there is
no object. -/
def LocalCopy.IsLeafOf (lc : LocalCopy) (t : Trie g) : Option CtKv → Prop
  | none => lc = readMinLeaf t
  | some kv => t.cells lc.lastPos = lc.value ∧ t.seq lc.lastPos.bucket = lc.lastSeq ∧
      lc.value.body.isLeaf = true ∧ lc.value.body.kv = kv ∧ lc.value.dirty = false

theorem IsPredecessor.isLeafOf {lc : LocalCopy} {okv : Option CtKv}
    (found : IsPredecessor t L lc okv) : lc.IsLeafOf t okv := by
  cases okv with
  | none => exact found
  | some kv =>
    obtain ⟨p, -, d, clean⟩ := found
    refine ⟨d.reads.value.symm, d.reads.lastSeq.symm, ?_, ?_, d.dirty.trans clean⟩
    · rw [d.body]
      rfl
    · rw [d.body]
      rfl

/-- `get_predecessor_atomic` succeeds, changes nothing, and returns the leaf of the
greatest object before a position. -/
def FetchesBefore (s : Sys g) (M : KeyMap) (path : List PathEntry) (locator : PredLocator)
    (x : List ℕ) : Prop :=
  (getPredecessorAtomic path locator).Returns s fun r s' =>
    s'.trie = s.trie ∧ ∃ lc, r = some lc ∧ lc.IsLeafOf s.trie (M.beforeSymbols x)

/-- The scan from `start`, a part of the path, for the predecessor of the child `symbol`
starts at the bitmap at `b`, and leads to the greatest object before that child. -/
structure FindsBefore (s : Sys g) (M : KeyMap) (path start : List PathEntry) (b : List ℕ)
    (symbol : ℕ) : Prop where
  bitmap : start <:+ path ∧ ∃ e above, start = e :: above ∧
    e.entry.value.body.isBitmap = true ∧ e.prefixHash = g.prefixHash b
  fetches : FetchesBefore s M path (prefetchPathChildPredecessor g start symbol) (b ++ [symbol])

/-- Alone on a well-formed trie, the leaf that a locator selects is fetched. -/
theorem fetchesBefore_of_selects {s : Sys g} {path : List PathEntry} {locator : PredLocator}
    (readable : L.Readable s.trie M) (linked : L.Linked g M) (single : s.env = alone)
    (spine : Spine s.trie L p path) (selects : L.Selects g M locator (M.beforeSymbols x)) :
    FetchesBefore s M path locator x := by
  refine (getPredecessorAtomic_spec readable (linked.navigable readable.shape) selects).weaken
    fun r s' _ h => ?_
  obtain ⟨-, same, outcome⟩ := h
  cases r with
  | none =>
    rcases outcome with denied | unlinked | ⟨e, mem, changed⟩
    · exact absurd denied (Denied.not_alone single)
    · exact absurd linked unlinked
    · rw [spine.unchanged e mem] at changed
      cases changed
  | some lc => exact ⟨same, lc, rfl, outcome.isLeafOf⟩

/-- **From a bitmap that is cut at the child** the scan finds the in-order predecessor. -/
theorem findsBefore_of_cutsAt {s : Sys g} {path start : List PathEntry} {key : List UInt8}
    {b : List ℕ} {children symbol : ℕ} (readable : L.Readable s.trie M) (linked : L.Linked g M)
    (single : s.env = alone) (spine : Spine s.trie L p path) (isSuffix : start <:+ path)
    (ancestry : Ancestry g L b start) (hb : L.node b = some (.bitmap children))
    (onPath : b <+: keySymbols key) (cuts : CutsAt M key b symbol) :
    FindsBefore s M path start b symbol ∧ M.beforeSymbols (b ++ [symbol]) = M.before key := by
  have position := beforeSymbols_of_cutsAt readable.shape hb onPath cuts
  refine ⟨⟨⟨isSuffix, ?_⟩, ?_⟩, position⟩
  · obtain ⟨e, above, n, rfl, hn, shows, hash⟩ := ancestry.head
    rw [hb] at hn
    cases hn
    exact ⟨e, above, rfl, by rw [shows.body]; rfl, hash⟩
  · refine fetchesBefore_of_selects readable linked single spine ?_
    rw [position]
    exact selects_of_leftNeighbour
      ((findLeftDescend_spec readable.shape ancestry onPath).1 children symbol hb cuts)

/-! ## Where a finger ends -/

section Cases

variable {s : Sys g} {f : Finger} {key : List UInt8}

/-- **At a bitmap without the child searched for.** -/
theorem findsBefore_at_bitmap {children next : ℕ} (readable : L.Readable s.trie M)
    (linked : L.Linked g M) (single : s.env = alone)
    (at_ : f.AtPosition s.trie L p (.bitmap children) x true)
    (extended : x ++ [next] <+: keySymbols key) (clear : children.testBit next = false) :
    FindsBefore s M f.path f.path x next ∧
      M.beforeSymbols (x ++ [next]) = M.before key := by
  obtain ⟨hp, -, rfl⟩ := at_.position
  have spine := at_.spine rfl
  exact findsBefore_of_cutsAt readable linked single spine List.suffix_rfl spine.ancestry hp
    ((List.prefix_append _ _).trans extended) (cutsAt_of_absent readable.shape hp extended clear)

/-- **At a leaf**: it is the root, or its parent is a bitmap and the scan starts there. -/
theorem findsBefore_at_leaf {kv : CtKv} (readable : L.Readable s.trie M) (linked : L.Linked g M)
    (single : s.env = alone) (at_ : f.AtPosition s.trie L p (.leaf kv) x true) :
    FetchesBefore s M f.path (prefetchLeafPredecessor g f) (keySymbols kv.key) ∧
      (f.path.tail ≠ [] → ∃ b, b ++ [f.lastPrefixSymbol] <+: keySymbols kv.key ∧
        FindsBefore s M f.path f.path.tail b f.lastPrefixSymbol) := by
  have shape := readable.shape
  obtain ⟨hp, -, rfl⟩ := at_.position
  have spine := at_.spine rfl
  have below := (shape.leaf x kv hp).2
  have noneBefore : NoneBefore M kv.key x := by
    intro kv' mem below'
    rw [shape.eq_of_below_leaf hp mem below']
    exact lt_irrefl _
  cases path : f.path with
  | nil =>
    obtain ⟨e, above, -, whole, -⟩ := spine.head
    rw [path] at whole
    cases whole
  | cons e above =>
    rw [path] at spine
    cases spine with
    | root hn d hash =>
      refine ⟨?_, fun inner => absurd rfl inner⟩
      have locator : prefetchLeafPredecessor g f = none := by
        rw [prefetchLeafPredecessor, path]
      rw [locator]
      refine fetchesBefore_of_selects readable linked single (path ▸ at_.spine rfl) ?_
      rw [KeyMap.beforeSymbols_key]
      exact KeyMap.last_eq_none_iff.mpr fun kv' mem => noneBefore kv' mem List.nil_prefix
    | child spine child hn d hash =>
      cases child with
      | jump hq =>
        have inner := shape.jump_child _ _ _ hq hp
        cases inner
      | @bitmap children c hq bit =>
        have last : f.lastPrefixSymbol = c := by
          rw [at_.lastSymbol, List.getLastD_concat]
        obtain ⟨finds, before⟩ := findsBefore_of_cutsAt readable linked single
          (path ▸ at_.spine rfl) (List.suffix_cons e above) spine.ancestry hq
          ((List.prefix_append _ _).trans below) (cutsAt_of_noneBefore below noneBefore)
        rw [last]
        refine ⟨?_, fun _ => ⟨_, below, finds⟩⟩
        have locator : prefetchLeafPredecessor g f = prefetchPathChildPredecessor g above c := by
          obtain ⟨e', above', -, rfl, -⟩ := spine.head
          rw [prefetchLeafPredecessor, path, last]
        have fetches := finds.fetches
        rw [FetchesBefore, before] at fetches
        rw [FetchesBefore, locator, KeyMap.beforeSymbols_key]
        exact fetches

/-- The path from its `pos`-th entry upward. -/
def Finger.pathFrom (f : Finger) (pos : ℕ) : List PathEntry := f.path.drop (f.path.length - pos)

/-- The last symbol of the entry that follows the `pos`-th one of the path. -/
def Finger.childOf (f : Finger) (pos : ℕ) : ℕ :=
  ((f.pathFrom (pos + 1)).headD default).entry.value.lastSymbol

/-- **At the lowest bitmap above a leaf or a jump node**, at its child on the path or just
behind it. -/
theorem findsBefore_at_lowest {symbol pos : ℕ} (readable : L.Readable s.trie M)
    (linked : L.Linked g M) (single : s.env = alone) (at_ : f.AtPosition s.trie L p n x true)
    (notBitmap : ∀ children, n ≠ .bitmap children)
    (ends : x = keySymbols key ∨
      x ++ [symbol] <+: keySymbols key ∧ ¬ n.Continues f.depthInJump symbol)
    (lowest : lastBitmapPos f.path.tail = some pos) :
    ∃ b, b ++ [f.childOf pos] <+: keySymbols key ∧
      FindsBefore s M f.path (f.pathFrom pos) b
        (if isBeforeLongestPrefix f symbol key then f.childOf pos else f.childOf pos + 1) ∧
      M.beforeSymbols (b ++ [if isBeforeLongestPrefix f symbol key then f.childOf pos
        else f.childOf pos + 1]) = M.before key := by
  have shape := readable.shape
  have spine := at_.spine rfl
  have side := isBeforeLongestPrefix_spec shape at_ notBitmap ends
  have above := lastBitmapPos_spec shape spine
  rw [lowest] at above
  obtain ⟨b, children, c, -, start, hb, onPath, below, last⟩ := above
  have child : f.childOf pos = c := last
  have whole : b ++ [c] <+: keySymbols key := by
    refine (onPath.trans at_.position.isPrefix).trans ?_
    rcases ends with rfl | ⟨extended, -⟩
    · exact List.prefix_rfl
    · exact (List.prefix_append _ _).trans extended
  rw [child]
  refine ⟨b, whole, findsBefore_of_cutsAt readable linked single spine (List.drop_suffix _ _)
    start.ancestry hb ((List.prefix_append _ _).trans whole) ?_⟩
  split
  · next before =>
    rw [if_pos before] at side
    exact cutsAt_of_noneBefore whole fun kv mem h => side kv mem (below kv mem h)
  · next notBefore =>
    rw [if_neg notBefore] at side
    exact cutsAt_succ whole fun kv mem h => side kv mem (below kv mem h)

end Cases

/-! ## The predecessor found -/

/-- **The predecessor found is the in-order predecessor.**  On a well-formed trie without a
concurrent writer, take any key.  Where its descent ends at a bitmap without a child on the
next symbol, and where it ends at a leaf, `create_leaf` and `split_leaf` find the greatest
leaf before that child, or before that leaf.  Where the walk of `ct_iter_goto_internal`
ends at a bitmap, it finds the greatest leaf before the absent child; where it ends at a
leaf or in a jump node, the greatest leaf before the child of the lowest bitmap, or before
the symbol behind that child.  All these scans start at a bitmap. -/
theorem predecessor_in_order (s : Sys g) (M : KeyMap) (wf : WellFormed s.trie M)
    (single : s.env = alone) (key : List UInt8) {f₀ : Finger}
    (init : initFinger s.trie = some f₀) :
    (∃ f symbol, descend s.trie f₀ key true = some (f, symbol) ∧
      (f.containingEntry.value.body.isBitmap = true → ∃ next b, symbol = some next ∧
        f.containingEntry.value.hasChild next = false ∧ b ++ [next] <+: keySymbols key ∧
        FindsBefore s M f.path f.path b next ∧ M.beforeSymbols (b ++ [next]) = M.before key) ∧
      ∀ kv, f.containingEntry.value.body.isLeaf = true → f.containingEntry.value.body.kv = kv →
        FetchesBefore s M f.path (prefetchLeafPredecessor g f) (keySymbols kv.key) ∧
        (f.path.tail ≠ [] → ∃ b, b ++ [f.lastPrefixSymbol] <+: keySymbols kv.key ∧
          FindsBefore s M f.path f.path.tail b f.lastPrefixSymbol)) ∧
    ∃ f symbol lastBitmap,
      gotoLoop s.trie (numKeySymbols key) f₀ (KeyPrefetcher.start g key) 0 none =
        some (f, symbol, lastBitmap) ∧
      (f.containingEntry.value.body.isBitmap = true → ∃ b,
        f.containingEntry.value.hasChild symbol = false ∧ b ++ [symbol] <+: keySymbols key ∧
        FindsBefore s M f.path f.path b symbol ∧
        M.beforeSymbols (b ++ [symbol]) = M.before key) ∧
      ∀ pos, f.containingEntry.value.body.isBitmap = false → lastBitmap = some pos →
        ∃ b, b ++ [f.childOf pos] <+: keySymbols key ∧
          FindsBefore s M f.path (f.pathFrom pos) b
            (if isBeforeLongestPrefix f symbol key then f.childOf pos else f.childOf pos + 1) ∧
          M.beforeSymbols (b ++ [if isBeforeLongestPrefix f symbol key then f.childOf pos
            else f.childOf pos + 1]) = M.before key := by
  obtain ⟨S, L, stores, rep, linked, finished, -⟩ := wf
  have readable : L.Readable s.trie M := ⟨S, none, stores, rep, rep.identifies finished⟩
  have shape := readable.shape
  have nonempty : M.kvs ≠ [] := by
    intro empty
    rw [initFinger_empty readable empty] at init
    cases init
  obtain ⟨f₁, n₁, init₁, at₁⟩ := initFinger_spec readable nonempty true
  rw [init] at init₁
  cases init₁
  have hasChild : ∀ {f : Finger} {p x : List ℕ} {children : ℕ} (symbol : ℕ),
      f.AtPosition s.trie L p (.bitmap children) x true →
      f.containingEntry.value.hasChild symbol = children.testBit symbol := by
    intro f p x children symbol at_
    rw [Entry.hasChild, at_.entry.body]
    rfl
  constructor
  · obtain ⟨f, symbol, walk, p, n, x, at_, ends⟩ := descend_spec readable at₁ key
    refine ⟨f, symbol, walk, fun isBitmap => ?_, fun kv isLeaf same => ?_⟩
    · obtain ⟨children, rfl⟩ := (isBitmap_iff at_.entry).mp isBitmap
      cases symbol with
      | none => exact absurd ends (at_.position.ne_keySymbols shape rfl key)
      | some next =>
        obtain ⟨extended, stops⟩ := ends
        have clear : children.testBit next = false := by simpa [Node.Continues] using stops
        exact ⟨next, x, rfl, (hasChild next at_).trans clear, extended,
          findsBefore_at_bitmap readable linked single at_ extended clear⟩
    · obtain ⟨kv', rfl⟩ := (isLeaf_iff at_.entry).mp isLeaf
      rw [at_.entry.body] at same
      have same : kv' = kv := same
      subst same
      exact findsBefore_at_leaf readable linked single at_
  · obtain ⟨k, prefetched⟩ := @KeyPrefetcher.Prefetched.start g key
    have noBitmap : none = lastBitmapPos f₀.path.tail := by
      rw [(at₁.spine rfl).tail_root shape rfl]
      rfl
    obtain ⟨f, symbol, lastBitmap, walk, p, n, x, at_, ends, lowest⟩ :=
      @gotoLoop_spec g s.trie L M [] [] n₁ readable key (numKeySymbols key) k 0 f₀ _ none at₁
        List.nil_prefix (by simp) prefetched (Nat.zero_le k) noBitmap
    refine ⟨f, symbol, lastBitmap, walk, fun isBitmap => ?_, fun pos notBitmap found => ?_⟩
    · obtain ⟨children, rfl⟩ := (isBitmap_iff at_.entry).mp isBitmap
      obtain ⟨extended, stops⟩ := ends.resolve_left (at_.position.ne_keySymbols shape rfl key)
      have clear : children.testBit symbol = false := by simpa [Node.Continues] using stops
      exact ⟨x, (hasChild symbol at_).trans clear, extended,
        findsBefore_at_bitmap readable linked single at_ extended clear⟩
    · have notBitmap : ∀ children, n ≠ .bitmap children := by
        rintro children rfl
        rw [(isBitmap_iff at_.entry).mpr ⟨children, rfl⟩] at notBitmap
        cases notBitmap
      have inner : n.isInner = false ∨ ∃ symbols, n = .jump symbols := by
        cases n with
        | leaf kv => exact Or.inl rfl
        | bitmap children => exact absurd rfl (notBitmap children)
        | jump symbols => exact Or.inr ⟨symbols, rfl⟩
      exact findsBefore_at_lowest readable linked single at_ notBitmap ends
        ((lowest inner).symm.trans found)

/-- The key `40` falls off the root bitmap of the trie of the keys `00` and `80`, and the
leaf found before its place there is that of `00`. -/
theorem predecessor_in_order_small :
    ∃ (f : Finger) (next : ℕ) (b : List ℕ),
      FindsBefore (Sys.init smallTrie alone) smallComb.map f.path f.path b next ∧
      smallComb.map.beforeSymbols (b ++ [next]) = some smallComb.handle := by
  have ends : ((initFinger smallTrie).bind fun f => descend smallTrie f [0x40] true).map
      (fun r => r.1.containingEntry.value.body.isBitmap) = some true := by
    decide +kernel
  cases init : initFinger smallTrie with
  | none =>
    rw [init] at ends
    cases ends
  | some f₀ =>
    obtain ⟨⟨f, symbol, walk, atBitmap, -⟩, -⟩ := predecessor_in_order (Sys.init smallTrie alone)
      smallComb.map smallTrie_wellFormed rfl [0x40] init
    have walk : descend smallTrie f₀ [0x40] true = some (f, symbol) := walk
    rw [init, Option.bind_some, walk] at ends
    obtain ⟨next, b, -, -, -, finds, before⟩ := atBitmap (Option.some.inj ends)
    refine ⟨f, next, b, finds, before.trans ?_⟩
    decide +kernel

end CuckooTrie
