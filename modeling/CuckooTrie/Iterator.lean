import CuckooTrie.Predecessor

/-!
# Iterators

`ct_iter_goto` places an iterator on the first key that is not smaller than a
given one, and `ct_iter_next` reports the keys from there on.  Both only read
the table.
-/

namespace CuckooTrie

variable {g : Geometry}

/-- `struct ct_iter`, without the trie it points to. -/
structure CtIter where
  isExhausted : Bool
  reportCurrent : Bool
  leaf : LocalCopy
deriving DecidableEq, Repr, Inhabited

/-- The loop of `ct_iter_goto_internal`, with the path from the lowest bitmap
above the node it ends in, the child taken from that bitmap and the symbol tried
last. -/
def gotoLoop (t : Trie g) :
    ℕ → Finger → KeyPrefetcher → ℕ → Option ℕ → Option (Finger × ℕ × Option ℕ)
  | 0, f, _, symbol, lastBitmap => some (f, symbol, lastBitmap)
  | fuel + 1, f, p, _, lastBitmap =>
    let depth := p.keySymbols.length - (fuel + 1)
    let p := p.step g
    -- the position in the path of the lowest bitmap so far
    let lastBitmap := if f.containingEntry.value.body.isBitmap then some f.path.length else lastBitmap
    let symbol := p.keySymbols.getD depth symbolEnd
    match tryDescend t f symbol true (p.prefixHashes.getD depth 0) with
    | none => none
    | some none => some (f, symbol, lastBitmap)
    | some (some f') => gotoLoop t fuel f' p symbol lastBitmap

/-- Whether the key is smaller than all keys under the leaf or jump node the
finger is in; a key that is in the trie counts as smaller. -/
def isBeforeLongestPrefix (f : Finger) (symbol : ℕ) (keyBytes : List UInt8) : Bool :=
  let longestPrefix := f.containingEntry.value
  if longestPrefix.body.isLeaf then
    kvKeyCompareTo longestPrefix.body.kv keyBytes ≥ 0
  else
    symbol < longestPrefix.jumpSymbol f.depthInJump

/-- The outcome of `ct_iter_goto_internal` before the predecessor is fetched. -/
inductive GotoTarget where
  /-- Place the iterator on the leaf just before the key. -/
  | predecessor (path : List PathEntry) (locator : PredLocator)
  /-- The root should be reported. -/
  | minLeaf
  /-- No keys should be reported. -/
  | exhausted

/-- The decision of `ct_iter_goto_internal` at the lowest node on the path to the
key. -/
def gotoTarget (g : Geometry) (f : Finger) (symbol : ℕ) (lastBitmap : Option ℕ)
    (keyBytes : List UInt8) : GotoTarget :=
  if f.containingEntry.value.body.isBitmap then
    .predecessor f.path (prefetchBitmapChildPredecessor g f symbol)
  else
    let isBefore := isBeforeLongestPrefix f symbol keyBytes
    match lastBitmap with
    | some pathPos =>
      let bitmapPath := f.path.drop (f.path.length - pathPos)
      let lastBitmapChild :=
        ((f.path.drop (f.path.length - (pathPos + 1))).headD default).entry.value.lastSymbol
      .predecessor f.path (prefetchPathChildPredecessor g bitmapPath
        (if isBefore then lastBitmapChild else lastBitmapChild + 1))
    | none => if isBefore then .minLeaf else .exhausted

/-- `ct_iter_goto_internal`: `none` is `SI_RETRY`. -/
def ctIterGotoInternal (iter : CtIter) (keyBytes : List UInt8) : M g (Option CtIter) := do
  let t ← getTrie
  let iter := { iter with isExhausted := false }
  match initFinger t with
  | none => pure (some { iter with isExhausted := true })
  | some f =>
    if keyBytes.isEmpty then
      -- the empty key is smaller or equal to any key in the trie
      pure (some { iter with leaf := readMinLeaf t })
    else
      let (f, symbol, lastBitmap) ← search fun t =>
        gotoLoop t (numKeySymbols keyBytes) f (KeyPrefetcher.start g keyBytes) 0 none
      match gotoTarget g f symbol lastBitmap keyBytes with
      | .predecessor path locator =>
        let leaf ← getPredecessorAtomic path locator
        pure (leaf.map fun leaf => { iter with leaf := leaf })
      | .minLeaf =>
        let t ← getTrie
        let leaf := readMinLeaf t
        if leaf.value.dirty then pure none
        else if !(← validateEntry leaf) then pure none
        else pure (some { iter with leaf := leaf })
      | .exhausted => pure (some { iter with isExhausted := true })

/-- `ct_iter_next_internal`: `none` is `SI_RETRY`. -/
def ctIterNextInternal (iter : CtIter) : M g (Option CtIter) := do
  let newLeaf ← search fun t => locatorToEntry t iter.leaf.value.body.nextLeaf
  if !newLeaf.value.body.isLeaf then pure none else pure (some { iter with leaf := newLeaf })

/-- One round of the loop of `ct_iter_goto`: `none` is a round that has to be
repeated. -/
def gotoRound (iter : CtIter) (keyBytes : List UInt8) : M g (Option CtIter) := do
  match ← ctIterGotoInternal iter keyBytes with
  | none => pure none
  | some iter =>
    let iter :=
      if iter.leaf.value.body.nextLeaf.primaryBucket = endOfList then
        { iter with isExhausted := true }
      else iter
    if iter.isExhausted then pure (some iter)
    else
      match ← ctIterNextInternal iter with
      | none => pure none
      | some iter => pure (some { iter with reportCurrent := true })

/-- `ct_iter_goto` in a run without writers, for at most `fuel` rounds. -/
def ctIterGoto (iter : CtIter) (keyBytes : List UInt8) : ℕ → M g CtIter
  | 0 => Prog.hang
  | fuel + 1 => do
    match ← gotoRound iter keyBytes with
    | none => ctIterGoto iter keyBytes fuel
    | some iter => pure iter

/-- The loop of `ct_iter_next`: fetch the next leaf, after placing the iterator
anew on the key reported last whenever the next leaf has become an inner node. -/
def ctIterNextLoop (iter : CtIter) : ℕ → M g CtIter
  | 0 => Prog.hang
  | fuel + 1 => do
    match ← ctIterNextInternal iter with
    | some iter => pure iter
    | none =>
      let iter ← ctIterGoto iter iter.leaf.value.body.kv.key fuel
      ctIterNextLoop { iter with reportCurrent := false } fuel

/-- `ct_iter_next`, for at most `fuel` rounds of each loop: the reported object,
if any, and the iterator afterwards. -/
def ctIterNext (iter : CtIter) (fuel : ℕ) : M g (Option CtKv × CtIter) := do
  if iter.isExhausted then pure (none, iter)
  else if iter.reportCurrent then
    pure (some iter.leaf.value.body.kv, { iter with reportCurrent := false })
  else if iter.leaf.value.body.nextLeaf.primaryBucket = endOfList then
    pure (none, { iter with isExhausted := true })
  else
    let iter ← ctIterNextLoop iter fuel
    pure (some iter.leaf.value.body.kv, iter)

/-- Several calls of `ct_iter_next`, one after the other, with what they report. -/
def ctIterNexts (fuel : ℕ) : ℕ → CtIter → M g (List (Option CtKv))
  | 0, _ => pure []
  | n + 1, iter => do
    let (kv, iter) ← ctIterNext iter fuel
    let rest ← ctIterNexts fuel n iter
    pure (kv :: rest)

end CuckooTrie
