import CuckooTrie.Atomics
import CuckooTrie.Finger

/-!
# Finding the predecessor of a position

The upward scan for the lowest bitmap with a smaller child
(`find_left_descend`), the description of the predecessor it yields
(`ct_pred_locator`) and `get_predecessor_atomic`, which fetches that leaf.
-/

namespace CuckooTrie

variable {g : Geometry}

/-- The subtree whose greatest leaf is the predecessor: `subtree[0]` of a
`ct_pred_locator`.  `pathPos` is the number of path entries from the root down
to the parent bitmap. -/
structure PredSubtree where
  pathPos : ℕ
  primaryBucket : ℕ
  parentColor : ℕ
  lastSymbol : ℕ
  tag : ℕ
deriving DecidableEq, Repr, Inhabited

/-- `ct_pred_locator`; `none` is the subtree with `primary_bucket == -1ULL`, the
predecessor of a minimal position. -/
abbrev PredLocator := Option PredSubtree

/-- `find_left_descend`, on the path from the given position upward: the lowest
bitmap with a child left of where we come from, with that child.  The jump nodes
in between are skipped. -/
def findLeftDescend : List PathEntry → ℕ → Option (List PathEntry × ℕ)
  | [], _ => none
  | e :: above, backtrackSymbol =>
    let prevChild :=
      if e.entry.value.body.isBitmap then bitmapChildBefore e.entry.value backtrackSymbol else none
    match prevChild with
    | some child => some (e :: above, child)
    | none => findLeftDescend above e.entry.value.lastSymbol

/-- `prefetch_path_child_predecessor`, for child `symbol` of the bitmap at the
head of a path. -/
def prefetchPathChildPredecessor (g : Geometry) (path : List PathEntry) (symbol : ℕ) :
    PredLocator :=
  match findLeftDescend path symbol with
  | none => none
  | some ([], _) => none
  | some (bitmap :: above, leftSymbol) =>
    let childPrefixHash := g.accumulateHash bitmap.prefixHash leftSymbol
    some
      { pathPos := above.length + 1
        primaryBucket := hashToBucket childPrefixHash
        tag := hashToTag childPrefixHash
        parentColor := bitmap.entry.value.color
        lastSymbol := leftSymbol }

/-- `prefetch_leaf_predecessor`. -/
def prefetchLeafPredecessor (g : Geometry) (f : Finger) : PredLocator :=
  match f.path with
  | [] => none
  | [_] => none
  | _ :: above => prefetchPathChildPredecessor g above f.lastPrefixSymbol

/-- `prefetch_bitmap_child_predecessor`. -/
def prefetchBitmapChildPredecessor (g : Geometry) (f : Finger) (symbol : ℕ) : PredLocator :=
  prefetchPathChildPredecessor g f.path symbol

/-- `validate_path_from`, for the path from its `pathPos`-th entry downward. -/
def validatePathFrom (path : List PathEntry) (pathPos : ℕ) : M g Bool :=
  validateAll (path.take (path.length + 1 - pathPos)).reverse
where
  /-- The loop, from the top of the path down. -/
  validateAll : List PathEntry → M g Bool
  | [] => pure true
  | e :: below => do
    if ← validateEntry e.entry then validateAll below else pure false

/-- `get_predecessor_atomic`: the leaf described by a predecessor locator, or
`none` when it has to be searched again. -/
def getPredecessorAtomic (path : List PathEntry) (predLocator : PredLocator) :
    M g (Option LocalCopy) := do
  match predLocator with
  | none =>
    -- the leaf before the minimal one
    let t ← getTrie
    let result := readMinLeaf t
    if ← validatePathFrom path 1 then pure (some result) else pure none
  | some subtree =>
    let subtreeRoot ← search fun t =>
      findEntryInPairByParent t subtree.primaryBucket subtree.tag subtree.lastSymbol
        subtree.parentColor
    if subtreeRoot.value.body.isLeaf then
      if !(← validatePathFrom path subtree.pathPos) then pure none
      else if subtreeRoot.value.dirty then pure none
      else pure (some subtreeRoot)
    else
      let result ← search fun t => locatorToEntry t subtreeRoot.value.body.maxLeaf
      if !result.value.body.isLeaf then
        -- more keys were added under the greatest leaf of the subtree
        pure none
      else if !(← validatePathFrom path subtree.pathPos) then pure none
      else if !(← validateEntry subtreeRoot) then pure none
      else if result.value.dirty then pure none
      else pure (some result)

end CuckooTrie
