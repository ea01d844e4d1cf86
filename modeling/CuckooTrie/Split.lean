import CuckooTrie.Predecessor
import CuckooTrie.Relocate

/-!
# Splitting a leaf and splitting a jump node

`split_leaf` replaces a leaf by a path of jump nodes with a bitmap and two leaves
at its end; `split_jump_node` turns the symbol of a jump node after the finger
into a bitmap.  Both build their new nodes out of reach first and make them
reachable with one write of the head of the path.
-/

namespace CuckooTrie

variable {g : Geometry}

/-- The loop of `upgrade_locks_on_left_parents_above`, from a path position
upward; `locked` are the cells locked so far, the topmost first.  On a failure
they are released. -/
def lockLeftParents : List Loc → List PathEntry → M g InternalStatus
  | _, [] => pure .ok
  | _, [_] => pure .ok
  | locked, child :: parent :: above => do
    if !parent.entry.value.body.isJump &&
        child.entry.value.lastSymbol ≠ parent.entry.value.body.maxChild then
      -- a node where we are not maximal
      pure .ok
    else
      match ← upgradeLock parent.entry with
      | .ok => lockLeftParents (parent.entry.lastPos :: locked) (parent :: above)
      | ret =>
        locked.forM writeUnlock
        pure ret

/-- `upgrade_locks_on_left_parents_above`. -/
def upgradeLocksOnLeftParentsAbove (bitmapPath : List PathEntry) : M g InternalStatus :=
  lockLeftParents [] bitmapPath

/-- `propagate_max_leaf`, from a node whose `max_leaf` was just changed up the
path of its ancestors. -/
def propagateMaxLeaf : LocalCopy → List PathEntry → M g Unit
  | _, [] => pure ()
  | child, parent :: above => do
    if parent.entry.value.body.isBitmap &&
        child.value.lastSymbol < parent.entry.value.body.maxChild then
      -- coming from a non-maximal child
      pure ()
    else
      let newParent ← updateEntry parent.entry
        { parent.entry.value with
          body := parent.entry.value.body.setMaxLeaf child.value.body.maxLeaf }
      propagateMaxLeaf newParent above

/-! ## Splitting a leaf -/

/-- The locals of the loop of `split_leaf` that walks the common symbols of the
two keys: `path_nodes` with `path_prefix_hashes`, the node created last first. -/
structure LeafPath where
  nodes : List (Entry × ℕ)
  prefixLen : ℕ
  prefixHash : ℕ
  lastSymbol : ℕ
deriving Repr

namespace LeafPath

/-- Whether the next common symbol needs a new jump node. -/
def needsJump (p : LeafPath) : Bool :=
  match p.nodes with
  | [] => true
  | (node, _) :: _ => node.jumpSize = maxJumpSymbols

/-- A new, empty jump node.  Its parent color is overwritten later if it is the
first node of the path. -/
def newJump (p : LeafPath) : Entry :=
  ⟨invalidColor, false, false, 0, hashToTag p.prefixHash, p.lastSymbol, .jump [] 0 default⟩

/-- One iteration of the loop. -/
def extend (g : Geometry) (p : LeafPath) (symbol : ℕ) : LeafPath :=
  let nodes := if p.needsJump then (p.newJump, p.prefixHash) :: p.nodes else p.nodes
  let nodes :=
    match nodes with
    | [] => []
    | (node, hash) :: rest => ({ node with body := node.body.extendJump symbol }, hash) :: rest
  ⟨nodes, p.prefixLen + 1, g.accumulateHash p.prefixHash symbol, symbol⟩

/-- The whole loop: walk to the splitting point and return it with the symbols of
the existing and of the new key there.  It never ends on equal keys; otherwise
the symbols of the new key bound the number of iterations. -/
def walk (g : Geometry) (existingKv kv : CtKv) : ℕ → LeafPath → Option (LeafPath × ℕ × ℕ)
  | 0, _ => none
  | fuel + 1, p =>
    let existingKeySymbol := getKeySymbol existingKv p.prefixLen
    let newKeySymbol := getKeySymbol kv p.prefixLen
    if existingKeySymbol ≠ newKeySymbol then some (p, existingKeySymbol, newKeySymbol)
    else walk g existingKv kv fuel (p.extend g newKeySymbol)

/-- Add the bitmap node at the end of the path. -/
def addBitmap (p : LeafPath) : List (Entry × ℕ) :=
  (⟨invalidColor, false, false, 0, 0, p.lastSymbol, .bitmap 0 0 default⟩, p.prefixHash) :: p.nodes

end LeafPath

/-- The first path node replaces the leaf, so it takes its color, tag and parent
color, and its bucket's secondary flag. -/
def inheritHeader (leaf : Entry) (head : Entry) : Entry :=
  { head with
    parentColor := leaf.parentColor
    color := leaf.color
    tag := leaf.tag
    secondary := head.secondary || leaf.secondary }

/-- Change the first node of a path, which is listed last. -/
def mapPathHead (f : Entry → Entry) : List (Entry × ℕ) → List (Entry × ℕ)
  | [] => []
  | [(head, hash)] => [(f head, hash)]
  | node :: above => node :: mapPathHead f above

/-- Set the children of the bitmap at the end of a path. -/
def setPathChildren (minimalChild maximalChild : ℕ) : List (Entry × ℕ) → List (Entry × ℕ)
  | [] => []
  | (bitmap, hash) :: above =>
    ({ bitmap with
        body := .bitmap (setChildBit (setChildBit bitmap.body.childBitmap minimalChild) maximalChild)
          maximalChild bitmap.body.maxLeaf }, hash) :: above

/-- Make a leaf the greatest one under every node of a path. -/
def setPathMaxLeaf (maxLeaf : Locator) (nodes : List (Entry × ℕ)) : List (Entry × ℕ) :=
  nodes.map fun (node, hash) => ({ node with body := node.body.setMaxLeaf maxLeaf }, hash)

/-- The loop of `split_leaf` that puts all path nodes but the first into the
table, bottom to top, setting in each node the color of its child.  Returns the
nodes written and all nodes as the local buffer holds them. -/
def addPathNodes :
    Option ℕ → List (Entry × ℕ) → M g (InternalStatus × List (Entry × ℕ) × List (Entry × ℕ))
  | _, [] => pure (.ok, [], [])
  | childColor, (node, hash) :: above => do
    let node :=
      match childColor with
      | none => node
      | some color => { node with body := node.body.setChildColor color }
    if above.isEmpty then pure (.ok, [], [(node, hash)])
    else
      let (ret, node, _) ← addEntry hash node none true
      if ret = .ok then
        let (ret, written, nodes) ← addPathNodes (some node.color) above
        pure (ret, (node, hash) :: written, (node, hash) :: nodes)
      else pure (ret, [], (node, hash) :: above)

/-- Remove nodes that were written, in the order they were added. -/
def removeNodes : List (Entry × ℕ) → M g Unit
  | [] => pure ()
  | (node, hash) :: rest => do
    removeEntryByValue node hash
    removeNodes rest

/-- `split_leaf` from its label `locking_failed` or `trie_full`, by the status
that led there: on `SI_RETRY` the nodes already written are removed. -/
def splitLeafFailed (ret : InternalStatus) (added : List (Entry × ℕ)) : M g InternalStatus := do
  if ret = .retry then
    removeNodes added
    releaseAllLocks
    pure .retry
  else
    releaseAllLocks
    pure .fail

/-- The locks `split_leaf` takes first: the parent, the ancestors whose greatest
leaf may change, the leaf itself and its predecessor, which is returned. -/
def splitLeafLocks (f : Finger) (predLocator : PredLocator) : M g (Option LocalCopy) := do
  let parents ←
    match f.path with
    | _ :: parent :: above => do
      match ← upgradeLock parent.entry with
      | .ok => upgradeLocksOnLeftParentsAbove (parent :: above)
      | ret => pure ret
    | _ => pure .ok
  if parents ≠ .ok then pure none
  else if (← upgradeLock f.containingEntry) ≠ .ok then pure none
  else
    match ← getPredecessorAtomic f.path predLocator with
    | none => pure none
    | some predecessor =>
      if (← upgradeLock predecessor) ≠ .ok then pure none else pure (some predecessor)

/-- The end of `split_leaf`: link the path into the tree and the two leaves into
the list, with the predecessor marked dirty meanwhile. -/
def splitLeafPublish (f : Finger) (predecessor : LocalCopy) (head : Entry)
    (minimalLeaf : Locator) : M g Unit := do
  let predecessor ← markEntryDirty predecessor
  match f.path with
  | [] => pure ()
  | last :: above =>
    let newHead ← updateEntry last.entry head
    -- `linklist_insert_two`
    let predecessor ← updateEntry predecessor
      { predecessor.value with body := predecessor.value.body.setNextLeaf minimalLeaf }
    propagateMaxLeaf newHead above
    let _ ← markEntryClean predecessor
    releaseAllLocks

/-- `split_leaf`. -/
def splitLeaf (f : Finger) (kv : CtKv) (isMaximal : Bool) (predLocator : PredLocator) :
    M g InternalStatus := do
  let leaf := f.containingEntry.value
  let existingKv := leaf.body.kv
  match ← splitLeafLocks f predLocator with
  | none => splitLeafFailed .retry []
  | some predecessor =>
    let (path, existingKeySymbol, newKeySymbol) ← search fun _ =>
      LeafPath.walk g existingKv kv (numKeySymbols kv.key + 1)
        ⟨[], f.prefixLen, f.prefixHash, f.lastPrefixSymbol⟩
    let minimalChild := if isMaximal then existingKeySymbol else newKeySymbol
    let maximalChild := if isMaximal then newKeySymbol else existingKeySymbol
    let minimalKv := if isMaximal then existingKv else kv
    let maximalKv := if isMaximal then kv else existingKv
    let pathNodes := mapPathHead (inheritHeader leaf) path.addBitmap
    let minimalLeafHash := g.accumulateHash path.prefixHash minimalChild
    let maximalLeafHash := g.accumulateHash path.prefixHash maximalChild
    -- the parent color is not known yet and left at zero
    let (ret, maximalLeafContent, maximalLeaf) ← addEntry maximalLeafHash
      ⟨0, false, false, 0, 0, maximalChild, .leaf default default⟩ none true
    if ret ≠ .ok then splitLeafFailed ret []
    else
      storeField maximalLeaf fun e => { e with body := e.body.setKv maximalKv }
      storeField maximalLeaf fun e => { e with body := e.body.setNextLeaf leaf.body.nextLeaf }
      let t ← getTrie
      let maximalLeafSaved := t.cells maximalLeaf
      let mark ← relocationMark
      let maximalLeafLocator : Locator :=
        ⟨hashToBucket maximalLeafHash, hashToTag maximalLeafHash, maximalLeafSaved.color⟩
      let pathNodes := setPathMaxLeaf maximalLeafLocator
        (setPathChildren minimalChild maximalChild pathNodes)
      let (ret, written, pathNodes) ← addPathNodes none pathNodes
      if ret ≠ .ok then
        splitLeafFailed ret (written ++ [(maximalLeafContent, maximalLeafHash)])
      else
        let bitmapColor := ((pathNodes.map Prod.fst).headD default).color
        recordSavedWrite maximalLeaf maximalLeafSaved mark
        storeField maximalLeaf fun e => { e with parentColor := bitmapColor }
        let (ret, minimalLeafContent, _) ← addEntry minimalLeafHash
          ⟨bitmapColor, false, false, 0, 0, minimalChild, .leaf minimalKv maximalLeafLocator⟩
          (some maximalLeaf) true
        if ret ≠ .ok then
          splitLeafFailed ret (written ++ [(maximalLeafContent, maximalLeafHash)])
        else
          splitLeafPublish f predecessor ((pathNodes.map Prod.fst).getLastD default)
            ⟨hashToBucket minimalLeafHash, hashToTag minimalLeafHash, minimalLeafContent.color⟩
          pure .ok

/-! ## Splitting a jump node -/

/-- `split_jump_node` from its label `locking_failed` or `trie_full`: on
`SI_RETRY` the bitmap is removed if it was already created. -/
def splitJumpFailed (ret : InternalStatus) (bitmap : Option (Entry × ℕ)) : M g InternalStatus := do
  if ret = .retry then
    match bitmap with
    | none => pure ()
    | some (node, hash) => removeEntryByValue node hash
    releaseAllLocks
    pure .retry
  else
    releaseAllLocks
    pure .fail

/-- The child of a jump node that `split_jump_node` saves, with its address, when
no symbols remain for a tail. -/
structure JumpChild where
  copy : LocalCopy
  mark : ℕ

/-- The part of `split_jump_node` that finds and locks the child of the jump
node when no tail remains; `none` is a failed lock. -/
def lockJumpChild (jumpNode : Entry) (hasTail : Bool) (tailPrefixHash : ℕ) :
    M g (Option (Option JumpChild)) := do
  if hasTail then pure (some none)
  else
    let child ← search fun t =>
      findEntryInPairByColor t (hashToBucket tailPrefixHash) (hashToTag tailPrefixHash)
        jumpNode.body.childColor
    let mark ← relocationMark
    match ← upgradeLock child with
    | .ok => pure (some (some ⟨child, mark⟩))
    | _ => pure none

/-- The part of `split_jump_node` below the bitmap: create the tail, or make the
old child a child of the bitmap by a write through its saved address. -/
def splitJumpBelow (jumpNode : Entry) (depth bitmapColor splitSymbol tailPrefixHash : ℕ)
    (bitmapLoc : Option Loc) (child : Option JumpChild) : M g InternalStatus := do
  match child with
  | none =>
    let (ret, _, _) ← addEntry tailPrefixHash
      ⟨bitmapColor, false, false, 0, 0, splitSymbol,
        .jump (jumpNode.body.jumpBits.drop (depth + 1)) jumpNode.body.childColor
          jumpNode.body.maxLeaf⟩
      bitmapLoc false
    pure ret
  | some child =>
    recordSavedWrite child.copy.lastPos child.copy.value child.mark
    let t ← getTrie
    writeEntry child.copy.lastPos
      { t.cells child.copy.lastPos with parentColor := bitmapColor }
    pure .ok

/-- `split_jump_node`.  The finger it returns is in the bitmap node. -/
def splitJumpNode (f : Finger) : M g (InternalStatus × Finger) := do
  let jumpNode := f.containingEntry.value
  let depth := f.depthInJump
  let hasTail : Bool := depth + 1 < jumpNode.jumpSize
  let splitSymbol := jumpNode.jumpSymbol depth
  let tailPrefixHash := g.accumulateHash f.prefixHash splitSymbol
  match ← lockJumpChild jumpNode hasTail tailPrefixHash with
  | none =>
    let ret ← splitJumpFailed .retry none
    pure (ret, f)
  | some child =>
    if (← upgradeLock f.containingEntry) ≠ .ok then
      let ret ← splitJumpFailed .retry none
      pure (ret, f)
    else if depth = 0 then
      -- transform the jump into a bitmap node
      let newHead :=
        { jumpNode with
          body := .bitmap (setChildBit 0 splitSymbol) splitSymbol jumpNode.body.maxLeaf }
      let ret ← splitJumpBelow jumpNode depth newHead.color splitSymbol tailPrefixHash none child
      if ret ≠ .ok then
        let ret ← splitJumpFailed ret none
        pure (ret, f)
      else
        match f.path with
        | [] => pure (.ok, f)
        | last :: above =>
          let newLast ← updateEntry last.entry newHead
          releaseAllLocks
          pure (.ok, Finger.rereadPathEnd { f with path := { last with entry := newLast } :: above })
    else
      -- create a new bitmap node, the child of the head of the jump
      let (ret, bitmapNode, bitmapLoc) ← addEntry f.prefixHash
        ⟨invalidColor, false, false, 0, 0, f.lastPrefixSymbol,
          .bitmap (setChildBit 0 splitSymbol) splitSymbol jumpNode.body.maxLeaf⟩
        none true
      if ret ≠ .ok then
        let ret ← splitJumpFailed ret none
        pure (ret, f)
      else
        let t ← getTrie
        let bitmapSeq := t.seq bitmapLoc.bucket
        let newHead :=
          { jumpNode with
            body := .jump (jumpNode.body.jumpBits.take depth) bitmapNode.color
              jumpNode.body.maxLeaf }
        let ret ← splitJumpBelow jumpNode depth bitmapNode.color splitSymbol tailPrefixHash
          (some bitmapLoc) child
        if ret ≠ .ok then
          let ret ← splitJumpFailed ret (some (bitmapNode, f.prefixHash))
          pure (ret, f)
        else
          match f.path with
          | [] => pure (.ok, f)
          | last :: above =>
            let newLast ← updateEntry last.entry newHead
            releaseAllLocks
            let f := Finger.rereadPathEnd { f with path := { last with entry := newLast } :: above }
            pure (.ok, Finger.nodeChanged
              { f with
                containingEntry := ⟨bitmapNode, bitmapLoc, hashToBucket f.prefixHash, bitmapSeq⟩ }
              true)

end CuckooTrie
