import CuckooTrie.Search

/-!
# Descending the trie

The finger that walks down the trie, the key prefetcher that hashes the prefixes
of a key ahead of the walk, and `try_descend` and `descend`.
-/

namespace CuckooTrie

/-- `ct_path_entry`. -/
structure PathEntry where
  entry : LocalCopy
  prefixHash : ℕ
deriving DecidableEq, Repr, Inhabited

/-- `ct_finger`, without the trie and the lock manager it points to.  The path
lists the node the finger is in first and the root last, so the path from a
position upward is a suffix of it. -/
structure Finger where
  containingEntry : LocalCopy
  path : List PathEntry
  prefixLen : ℕ
  prefixHash : ℕ
  lastPrefixSymbol : ℕ
  depthInJump : ℕ
deriving Repr, Inhabited

/-- `key_prefetcher`; `prefixHashes` holds the hashes computed so far. -/
structure KeyPrefetcher where
  keySymbols : List ℕ
  prefixHashes : List ℕ
  prefetchPrefixHash : ℕ
deriving Repr, Inhabited

namespace KeyPrefetcher

/-- `prefetcher_step`: hash one more prefix of the key, if there is one. -/
def step (g : Geometry) (p : KeyPrefetcher) : KeyPrefetcher :=
  match p.keySymbols[p.prefixHashes.length]? with
  | none => p
  | some symbol =>
    let hash := g.accumulateHash p.prefetchPrefixHash symbol
    { p with prefixHashes := p.prefixHashes ++ [hash], prefetchPrefixHash := hash }

/-- `prefetcher_start`: encode the key and hash its first four prefixes. -/
def start (g : Geometry) (keyBytes : List UInt8) : KeyPrefetcher :=
  (((KeyPrefetcher.mk (CuckooTrie.keySymbols keyBytes) [] hashStartValue).step g).step g
    |>.step g).step g

end KeyPrefetcher

variable {g : Geometry}

namespace Finger

/-- `store_path_entry`. -/
def storePathEntry (f : Finger) : Finger :=
  { f with path := ⟨f.containingEntry, f.prefixHash⟩ :: f.path }

/-- `finger_extend_prefix_known_hash`. -/
def extendPrefixKnownHash (f : Finger) (symbol newHash : ℕ) : Finger :=
  { f with prefixHash := newHash, lastPrefixSymbol := symbol, prefixLen := f.prefixLen + 1 }

/-- `finger_node_changed`. -/
def nodeChanged (f : Finger) (extendPath : Bool) : Finger :=
  if extendPath then storePathEntry { f with depthInJump := 0 } else { f with depthInJump := 0 }

/-- `reread_path_end`. -/
def rereadPathEnd (f : Finger) : Finger :=
  match f.path with
  | [] => f
  | slot :: _ => { f with containingEntry := slot.entry }

end Finger

/-- `init_finger`; `none` stands for the `NULL` root of an empty trie. -/
def initFinger (t : Trie g) : Option Finger :=
  if t.isEmpty then none
  else some (Finger.storePathEntry
    { containingEntry := findRoot t
      path := []
      prefixLen := 0
      prefixHash := hashStartValue
      lastPrefixSymbol := rootLastSymbol
      depthInJump := 0 })

/-- `try_descend`.  The outer `none` is a search that never returns, the inner
`none` a failure to descend. -/
def tryDescend (t : Trie g) (f : Finger) (symbol : ℕ) (savePath : Bool) (expectedHash : ℕ) :
    Option (Option Finger) :=
  let containingEntry := f.containingEntry.value
  match containingEntry.body with
  | .leaf _ _ => some none
  | .jump _ childColor _ =>
    if containingEntry.jumpSymbol f.depthInJump ≠ symbol then
      some none
    else
      let f := f.extendPrefixKnownHash symbol expectedHash
      let f := { f with depthInJump := f.depthInJump + 1 }
      if f.depthInJump = containingEntry.jumpSize then
        -- the end of the jump node: move to the child
        (findEntryInPairByColor t (hashToBucket f.prefixHash) (hashToTag f.prefixHash)
          childColor).map fun child =>
            some (Finger.nodeChanged { f with containingEntry := child } savePath)
      else
        some (some f)
  | _ =>
    if !containingEntry.hasChild symbol then
      some none
    else
      let f := f.extendPrefixKnownHash symbol expectedHash
      (findEntryInPairByParent t (hashToBucket f.prefixHash) (hashToTag f.prefixHash) symbol
        containingEntry.color).map fun child =>
          some (Finger.nodeChanged { f with containingEntry := child } savePath)

/-- **What a step down does**, if it succeeds: inside a jump node it moves on by one
symbol, and from the end of a jump node and from a bitmap it moves to the child. -/
theorem tryDescend_cases {t : Trie g} {f f' : Finger} {symbol hash : ℕ} {savePath : Bool}
    (descends : tryDescend t f symbol savePath hash = some (some f')) :
    (f.containingEntry.value.body.isJump = true ∧
        f.containingEntry.value.jumpSymbol f.depthInJump = symbol ∧
        f.depthInJump + 1 ≠ f.containingEntry.value.jumpSize ∧
        f' = { f.extendPrefixKnownHash symbol hash with depthInJump := f.depthInJump + 1 }) ∨
      ∃ child, f' = Finger.nodeChanged
          { f.extendPrefixKnownHash symbol hash with containingEntry := child } savePath ∧
        (f.containingEntry.value.body.isJump = true ∧
            f.containingEntry.value.jumpSymbol f.depthInJump = symbol ∧
            f.depthInJump + 1 = f.containingEntry.value.jumpSize ∧
            findEntryInPairByColor t (hashToBucket hash) (hashToTag hash)
              f.containingEntry.value.body.childColor = some child ∨
          f.containingEntry.value.body.isJump = false ∧
            f.containingEntry.value.hasChild symbol = true ∧
            findEntryInPairByParent t (hashToBucket hash) (hashToTag hash) symbol
              f.containingEntry.value.color = some child) := by
  rw [tryDescend] at descends
  simp only at descends
  split at descends
  · cases descends
  · next bits childColor maxLeaf body =>
    have isJump : f.containingEntry.value.body.isJump = true := by rw [body]; rfl
    split at descends
    · cases descends
    next same =>
    have same : f.containingEntry.value.jumpSymbol f.depthInJump = symbol := not_not.mp same
    split at descends
    · next whole =>
      obtain ⟨child, found, equal⟩ := Option.map_eq_some_iff.mp descends
      cases equal
      refine Or.inr ⟨child, ?_, Or.inl ⟨isJump, same, whole, ?_⟩⟩
      · cases savePath <;> rfl
      · rw [body]
        exact found
    · next inside =>
      cases descends
      exact Or.inl ⟨isJump, same, inside, rfl⟩
  · next notLeaf notJump =>
    have isJump : f.containingEntry.value.body.isJump = false := by
      cases body : f.containingEntry.value.body with
      | jump bits childColor maxLeaf => exact absurd body (notJump bits childColor maxLeaf)
      | _ => rfl
    split at descends
    · cases descends
    next hasChild =>
    obtain ⟨child, found, equal⟩ := Option.map_eq_some_iff.mp descends
    cases equal
    exact Or.inr ⟨child, rfl, Or.inr ⟨isJump, by simpa using hasChild, found⟩⟩

/-- The `while (1)` loop of `descend`, with the symbol it stops at; `none` in
place of a symbol is the returned `-1`.  An iteration that descends consumes one
symbol of the key and the END symbol stops the loop, so the symbols of the key
bound the number of iterations. -/
def descendLoop (t : Trie g) (trackPath : Bool) :
    ℕ → Finger → KeyPrefetcher → Option (Finger × Option ℕ)
  | 0, _, _ => none
  | fuel + 1, f, p =>
    let p := p.step g
    let symbol := p.keySymbols.getD f.prefixLen symbolEnd
    match tryDescend t f symbol trackPath (p.prefixHashes.getD f.prefixLen 0) with
    | none => none
    | some none => some (f, some symbol)
    | some (some f') =>
      if symbol = symbolEnd then some (f', none) else descendLoop t trackPath fuel f' p

/-- `descend`. -/
def descend (t : Trie g) (f : Finger) (keyBytes : List UInt8) (trackPath : Bool) :
    Option (Finger × Option ℕ) :=
  descendLoop t trackPath (numKeySymbols keyBytes) f (KeyPrefetcher.start g keyBytes)

/-- `ct_lookup`.  The outer `none` is a lookup that never returns, the inner
`none` the returned `NULL`. -/
def ctLookup (t : Trie g) (keyBytes : List UInt8) : Option (Option CtKv) :=
  match initFinger t with
  | none => some none
  | some f =>
    (descend t f keyBytes false).map fun (f, symbol) =>
      let entry := f.containingEntry.value
      match symbol with
      | none => some entry.body.kv
      | some _ =>
        if !entry.body.isLeaf then none
        else if kvKeyCompareTo entry.body.kv keyBytes = 0 then some entry.body.kv
        else none

end CuckooTrie
