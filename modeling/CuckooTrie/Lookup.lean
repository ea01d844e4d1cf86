import CuckooTrie.Combs
import CuckooTrie.Finger
import CuckooTrie.Layout

/-!
# Descending is exact

On a memory in which the nodes of a layout can be found, the finger walks down
the layout: `tryDescend` moves it along the layout or stops it where the layout
has no continuation (`tryDescend_spec`), the prefetcher supplies the right hashes
(`Prefetched`), and `descend` ends where the key leaves the layout
(`descend_spec`).  So `ct_lookup` is the lookup of the abstract map.
-/

namespace CuckooTrie

variable {g : Geometry} {t : Trie g} {L : Layout} {M : KeyMap} {p q x : List ℕ} {n : Node}

/-! ## Copies of nodes -/

/-- A local copy with the contents of the node at a prefix. -/
def LocalCopy.Shows (lc : LocalCopy) (g : Geometry) (L : Layout) (p : List ℕ) (n : Node) : Prop :=
  lc.value.content = L.entry g p n

namespace LocalCopy.Shows

variable {lc : LocalCopy}

theorem body (d : lc.Shows g L p n) : lc.value.body = L.body p n := congrArg Entry.body d

theorem color (d : lc.Shows g L p n) : lc.value.color = L.color p := congrArg Entry.color d

theorem lastSymbol (d : lc.Shows g L p n) : lc.value.lastSymbol = p.getLastD 0 :=
  congrArg Entry.lastSymbol d

theorem dirty (d : lc.Shows g L p n) : lc.value.dirty = L.dirty p := congrArg Entry.dirty d

end LocalCopy.Shows

/-- A local copy of the node at a prefix, as it is in the memory. -/
structure LocalCopy.Describes (lc : LocalCopy) (t : Trie g) (L : Layout) (p : List ℕ) (n : Node) :
    Prop where
  reads : lc.Reads t (g.prefixHash p) (L.color p)
  content : lc.Shows g L p n

namespace LocalCopy.Describes

variable {lc : LocalCopy}

theorem body (d : lc.Describes t L p n) : lc.value.body = L.body p n := d.content.body

theorem color (d : lc.Describes t L p n) : lc.value.color = L.color p := d.content.color

theorem dirty (d : lc.Describes t L p n) : lc.value.dirty = L.dirty p := d.content.dirty

end LocalCopy.Describes

namespace Layout.Readable

theorem shape (readable : L.Readable t M) : L.Shape M := by
  obtain ⟨S, hole, -, rep, -⟩ := readable
  exact rep.shape

theorem isEmpty_iff (readable : L.Readable t M) : t.isEmpty = true ↔ M.kvs = [] := by
  obtain ⟨S, hole, stores, rep, -⟩ := readable
  rw [stores.isEmpty]
  exact rep.isEmpty

theorem color_le (readable : L.Readable t M) (hp : L.node p = some n) :
    L.color p ≤ maxValidColor := by
  obtain ⟨S, hole, stores, rep, -⟩ := readable
  exact stores.color_le (rep.stored p n (all_of_node hp))

/-- The list head, as it is in the memory. -/
theorem minLeaf (readable : L.Readable t M) :
    (readMinLeaf t).value = headEntry L.first L.firstDirty := by
  obtain ⟨S, hole, stores, rep, -⟩ := readable
  exact stores.head.trans rep.head

/-- The root is where `find_root` looks. -/
theorem findRoot (readable : L.Readable t M) (hp : L.node [] = some n) :
    (CuckooTrie.findRoot t).Describes t L [] n := by
  obtain ⟨S, hole, stores, rep, -⟩ := readable
  have color : L.color [] = 0 := rep.root_color (by simp [hp])
  have stored := rep.stored [] n (all_of_node hp)
  rw [color, g.prefixHash_nil] at stored
  obtain ⟨at_, -⟩ := stores.root _ stored
  refine ⟨⟨?_, rfl⟩, ?_⟩
  · rw [g.prefixHash_nil, color]
    exact at_
  · exact Option.some.inj ((stores.content _ _ _ at_).symm.trans stored)

/-- The search by color finds a node. -/
theorem byColor (readable : L.Readable t M) (hp : L.node p = some n) :
    ∃ lc, findEntryInPairByColor t (hashToBucket (g.prefixHash p)) (hashToTag (g.prefixHash p))
      (L.color p) = some lc ∧ lc.Describes t L p n := by
  obtain ⟨S, hole, stores, rep, -⟩ := readable
  obtain ⟨lc, found, reads, content⟩ := stores.byColor (rep.stored p n (all_of_node hp))
  exact ⟨lc, found, reads, content⟩

/-- The search by parent finds the child of a bitmap. -/
theorem byParent (readable : L.Readable t M) {children s : ℕ}
    (hq : L.node q = some (.bitmap children)) (bit : children.testBit s = true)
    (hp : L.node (q ++ [s]) = some n) :
    ∃ lc, findEntryInPairByParent t (hashToBucket (g.prefixHash (q ++ [s])))
      (hashToTag (g.prefixHash (q ++ [s]))) s (L.color q) = some lc ∧
      lc.Describes t L (q ++ [s]) n := by
  have valid := readable.color_le hq
  obtain ⟨S, hole, stores, rep, identifies⟩ := readable
  obtain ⟨lc, found, reads, content⟩ :=
    stores.byParent (rep.stored _ n (all_of_node hp))
      (show (L.entry g (q ++ [s]) n).lastSymbol = s by simp [entry])
      (show (L.entry g (q ++ [s]) n).parentColor = L.color q from rep.parent q children s hq bit)
      valid
      (by
        intro c e stored symbol parent
        obtain ⟨p', n', hp', hash, rfl⟩ := rep.only _ c e stored
        rw [← hash, rep.stored p' n' hp'] at stored
        cases stored
        have last : p'.getLastD 0 = s := symbol
        rw [identifies q children p' n' hq hp' (by rw [hash, last]) parent, last])
  exact ⟨lc, found, reads, content⟩

end Layout.Readable

/-- Following the locator of a node finds it. -/
theorem locatorToEntry_spec (readable : L.Readable t M) (hp : L.node p = some n) :
    ∃ lc, locatorToEntry t (L.locator g p) = some lc ∧ lc.Describes t L p n :=
  readable.byColor hp

theorem isLeaf_iff {lc : LocalCopy} (d : lc.Describes t L p n) :
    lc.value.body.isLeaf = true ↔ ∃ kv, n = .leaf kv := by
  rw [d.body]
  cases n <;> simp [Layout.body, Body.isLeaf]

/-- The locator of a node is not the mark that ends the list. -/
theorem locator_ne_endOfList (shape : L.Shape M) (hp : L.node p = some n) :
    (L.locator g p).primaryBucket ≠ endOfList :=
  g.hashToBucket_ne_endOfList (shape.prefixHash_lt hp)

/-! ## Fingers in a layout -/

/-- A position of a layout: a node, or, inside a jump node, the first few of its
symbols as well. -/
def Layout.Position (L : Layout) (p : List ℕ) (n : Node) (depth : ℕ) (x : List ℕ) : Prop :=
  L.node p = some n ∧
    match n with
    | .jump symbols => depth < symbols.length ∧ x = p ++ symbols.take depth
    | _ => depth = 0 ∧ x = p

/-- The layout goes on with a symbol. -/
def Node.Continues (n : Node) (depth s : ℕ) : Prop :=
  match n with
  | .leaf _ => False
  | .bitmap children => children.testBit s = true
  | .jump symbols => symbols[depth]? = some s

/-- The path of a finger: the nodes from the one it is in up to the root. -/
inductive Spine (t : Trie g) (L : Layout) : List ℕ → List PathEntry → Prop
  | root {e n} : L.node [] = some n → e.entry.Describes t L [] n →
      e.prefixHash = g.prefixHash [] → Spine t L [] [e]
  | child {q p e above n} : Spine t L q above → L.Child q p → L.node p = some n →
      e.entry.Describes t L p n → e.prefixHash = g.prefixHash p → Spine t L p (e :: above)

/-- A path whose entries have the contents of the nodes from a node up to the root,
wherever these lie by now. -/
inductive Ancestry (g : Geometry) (L : Layout) : List ℕ → List PathEntry → Prop
  | root {e n} : L.node [] = some n → e.entry.Shows g L [] n → e.prefixHash = g.prefixHash [] →
      Ancestry g L [] [e]
  | child {q p e above n} : Ancestry g L q above → L.Child q p → L.node p = some n →
      e.entry.Shows g L p n → e.prefixHash = g.prefixHash p → Ancestry g L p (e :: above)

theorem Spine.ancestry {path : List PathEntry} (spine : Spine t L p path) :
    Ancestry g L p path := by
  induction spine with
  | root hn d hash => exact .root hn d.content hash
  | child _ child hn d hash ih => exact .child ih child hn d.content hash

/-- What the first entry of a path shows. -/
theorem Ancestry.head {path : List PathEntry} (ancestry : Ancestry g L p path) :
    ∃ e above n, path = e :: above ∧ L.node p = some n ∧ e.entry.Shows g L p n ∧
      e.prefixHash = g.prefixHash p := by
  cases ancestry with
  | root hn d hash => exact ⟨_, _, _, rfl, hn, d, hash⟩
  | child _ _ hn d hash => exact ⟨_, _, _, rfl, hn, d, hash⟩

/-- A finger at a position of a layout. -/
structure Finger.AtPosition (f : Finger) (t : Trie g) (L : Layout) (p : List ℕ) (n : Node)
    (x : List ℕ) (track : Bool) : Prop where
  position : L.Position p n f.depthInJump x
  entry : f.containingEntry.Describes t L p n
  prefixLen : f.prefixLen = x.length
  prefixHash : f.prefixHash = g.prefixHash x
  lastSymbol : f.lastPrefixSymbol = x.getLastD 0
  spine : track = true → Spine t L p f.path

namespace Layout.Position

variable {depth : ℕ}

theorem node (pos : L.Position p n depth x) : L.node p = some n := pos.1

theorem isPrefix (pos : L.Position p n depth x) : p <+: x := by
  obtain ⟨-, place⟩ := pos
  cases n with
  | leaf kv => exact place.2 ▸ List.prefix_rfl
  | bitmap children => exact place.2 ▸ List.prefix_rfl
  | jump symbols => exact place.2 ▸ List.prefix_append _ _

/-- Above a leaf no position is the whole symbol string of a key. -/
theorem ne_keySymbols (shape : L.Shape M) (pos : L.Position p n depth x)
    (inner : n.isInner = true) (key : List UInt8) : x ≠ keySymbols key := by
  intro whole
  have endMem := end_mem_keySymbols key
  obtain ⟨hp, place⟩ := pos
  rw [← whole] at endMem
  cases n with
  | leaf kv => cases inner
  | bitmap children =>
    obtain ⟨-, rfl⟩ := place
    exact shape.end_not_mem hp rfl endMem
  | jump symbols =>
    rw [place.2, List.mem_append] at endMem
    rcases endMem with mem | mem
    · exact shape.end_not_mem hp rfl mem
    · have := ((shape.jump p symbols hp).2.2 _ (List.mem_of_mem_take mem)).1
      exact absurd this (by decide)

theorem start (hp : L.node p = some n) (shape : L.Shape M) : L.Position p n 0 p := by
  refine ⟨hp, ?_⟩
  cases n with
  | leaf kv => exact ⟨rfl, rfl⟩
  | bitmap children => exact ⟨rfl, rfl⟩
  | jump symbols =>
    exact ⟨List.length_pos_iff.mpr (shape.jump p symbols hp).1, by simp⟩

end Layout.Position

theorem initFinger_spec (readable : L.Readable t M) (nonempty : M.kvs ≠ []) (track : Bool) :
    ∃ f n, initFinger t = some f ∧ f.AtPosition t L [] n [] track := by
  obtain ⟨n, hn⟩ := Option.ne_none_iff_exists'.mp (readable.shape.root_iff.mpr nonempty)
  have full : t.isEmpty = false := by
    rw [← Bool.not_eq_true, readable.isEmpty_iff]
    exact nonempty
  have root := readable.findRoot hn
  refine ⟨_, n, by rw [initFinger, if_neg (by simp [full])], ?_⟩
  exact ⟨.start hn readable.shape, root, rfl, rfl, rfl, fun _ => .root hn root rfl⟩

theorem initFinger_empty (readable : L.Readable t M) (empty : M.kvs = []) :
    initFinger t = none := by
  rw [initFinger, if_pos (readable.isEmpty_iff.mpr empty)]

/-- The symbol of the jump node a finger compares with next. -/
theorem Finger.AtPosition.jumpSymbol {f : Finger} {track : Bool} {symbols : List ℕ}
    (shape : L.Shape M) (at_ : f.AtPosition t L p (.jump symbols) x track)
    (inside : f.depthInJump < symbols.length) :
    f.containingEntry.value.jumpSymbol f.depthInJump = symbols[f.depthInJump] := by
  have positive := ((shape.jump p symbols at_.position.1).2.2 _ (List.getElem_mem inside)).1
  rw [Entry.jumpSymbol, at_.entry.body]
  simp only [Layout.body, Body.jumpBits]
  rw [List.getD_eq_getElem _ _ (by simpa using inside), List.getElem_map]
  omega

/-- A finger that moved to a node. -/
theorem Finger.AtPosition.moveTo {f : Finger} {track : Bool} {p' : List ℕ} {n' : Node}
    {lc : LocalCopy} (shape : L.Shape M) (spine : track = true → Spine t L p f.path)
    (child : L.Child p p') (hp' : L.node p' = some n') (entry : lc.Describes t L p' n')
    (hlen : f.prefixLen = p'.length) (hhash : f.prefixHash = g.prefixHash p')
    (hlast : f.lastPrefixSymbol = p'.getLastD 0) :
    (Finger.nodeChanged { f with containingEntry := lc } track).AtPosition t L p' n' p' track := by
  cases track with
  | false => exact ⟨.start hp' shape, entry, hlen, hhash, hlast, fun h => by cases h⟩
  | true =>
    exact ⟨.start hp' shape, entry, hlen, hhash, hlast, fun _ =>
      .child (spine rfl) child hp' entry hhash⟩

/-- **One step down.**  `try_descend` moves the finger along the layout if the
layout goes on with the symbol, and stops otherwise. -/
theorem tryDescend_spec (readable : L.Readable t M) {f : Finger} {track : Bool} {s : ℕ}
    (at_ : f.AtPosition t L p n x track) :
    (n.Continues f.depthInJump s →
      ∃ f' p' n', tryDescend t f s track (g.accumulateHash f.prefixHash s) = some (some f') ∧
        f'.AtPosition t L p' n' (x ++ [s]) track) ∧
    (¬ n.Continues f.depthInJump s →
      tryDescend t f s track (g.accumulateHash f.prefixHash s) = some none) := by
  have shape := readable.shape
  have hash : g.accumulateHash f.prefixHash s = g.prefixHash (x ++ [s]) := by
    rw [g.prefixHash_concat, at_.prefixHash]
  have length : f.prefixLen + 1 = (x ++ [s]).length := by simp [at_.prefixLen]
  obtain ⟨hp, place⟩ := at_.position
  have body := at_.entry.body
  cases n with
  | leaf kv =>
    refine ⟨fun h => h.elim, fun _ => ?_⟩
    rw [tryDescend]
    simp only [body, Layout.body]
  | bitmap children =>
    obtain ⟨depth, rfl⟩ := place
    have hasChild : f.containingEntry.value.hasChild s = children.testBit s := by
      rw [Entry.hasChild, body]
      rfl
    constructor
    · intro bit
      have child := Layout.Child.bitmap hp bit
      obtain ⟨n', hn'⟩ := Option.ne_none_iff_exists'.mp (shape.child _ _ child)
      obtain ⟨lc, found, describes⟩ := readable.byParent hp bit hn'
      refine ⟨_, _, n', ?_, Finger.AtPosition.moveTo shape at_.spine child hn' describes
        (f := f.extendPrefixKnownHash s (g.accumulateHash f.prefixHash s)) length hash
        (by simp [Finger.extendPrefixKnownHash])⟩
      rw [tryDescend]
      have bit' : children.testBit s = true := bit
      simp only [body, Layout.body, hasChild, bit', Bool.not_true, Bool.false_eq_true, if_false,
        Finger.extendPrefixKnownHash, hash, at_.entry.color, found, Option.map_some]
    · intro noBit
      have clear : children.testBit s = false := by simpa [Node.Continues] using noBit
      rw [tryDescend]
      simp only [body, Layout.body, hasChild, clear, Bool.not_false, if_true]
  | jump symbols =>
    obtain ⟨inside, rfl⟩ := place
    have symbolAt := at_.jumpSymbol shape inside
    have size : f.containingEntry.value.jumpSize = symbols.length := by
      rw [Entry.jumpSize, body]
      simp [Layout.body, Body.jumpBits]
    constructor
    · intro goesOn
      have same : symbols[f.depthInJump] = s := by
        simpa [Node.Continues, List.getElem?_eq_getElem inside] using goesOn
      have next : p ++ symbols.take f.depthInJump ++ [s] = p ++ symbols.take (f.depthInJump + 1) := by
        rw [List.append_assoc, ← same, List.take_append_getElem inside]
      by_cases whole : f.depthInJump + 1 = symbols.length
      · -- the last symbol of the jump leads to its child
        have end_ : p ++ symbols.take f.depthInJump ++ [s] = p ++ symbols := by
          rw [next, whole, List.take_length]
        have child := Layout.Child.jump hp
        obtain ⟨n', hn'⟩ := Option.ne_none_iff_exists'.mp (shape.child _ _ child)
        obtain ⟨lc, found, describes⟩ := readable.byColor hn'
        rw [end_] at hash length ⊢
        refine ⟨_, _, n', ?_, Finger.AtPosition.moveTo shape at_.spine child hn' describes
          (f := { f.extendPrefixKnownHash s (g.accumulateHash f.prefixHash s) with
            depthInJump := f.depthInJump + 1 }) length hash ?_⟩
        · rw [tryDescend]
          simp only [body, Layout.body, symbolAt, same, ne_eq, not_true_eq_false, if_false,
            Finger.extendPrefixKnownHash, size, whole, if_true, hash, found, Option.map_some]
        · rw [← end_]
          simp [Finger.extendPrefixKnownHash]
      · refine ⟨{ f.extendPrefixKnownHash s (g.accumulateHash f.prefixHash s) with
            depthInJump := f.depthInJump + 1 }, p, .jump symbols, ?_,
          ⟨⟨hp, ?_⟩, at_.entry, length, hash, ?_, at_.spine⟩⟩
        · rw [tryDescend]
          simp only [body, Layout.body, symbolAt, same, ne_eq, not_true_eq_false, if_false,
            Finger.extendPrefixKnownHash, size, whole]
        · exact ⟨by change f.depthInJump + 1 < symbols.length; omega, next⟩
        · simp [Finger.extendPrefixKnownHash]
    · intro stops
      have differ : symbols[f.depthInJump] ≠ s := by
        simpa [Node.Continues, List.getElem?_eq_getElem inside] using stops
      rw [tryDescend]
      simp only [body, Layout.body, symbolAt, ne_eq, differ, not_false_eq_true, if_true]

/-! ## The prefetcher -/

/-- The prefetcher has hashed the first `k` prefixes of a key. -/
structure KeyPrefetcher.Prefetched (pf : KeyPrefetcher) (g : Geometry) (keyBytes : List UInt8)
    (k : ℕ) : Prop where
  symbols : pf.keySymbols = CuckooTrie.keySymbols keyBytes
  hashes : pf.prefixHashes =
    (List.range k).map fun i => g.prefixHash ((CuckooTrie.keySymbols keyBytes).take (i + 1))
  last : pf.prefetchPrefixHash = g.prefixHash ((CuckooTrie.keySymbols keyBytes).take k)
  bound : k ≤ (CuckooTrie.keySymbols keyBytes).length

namespace KeyPrefetcher.Prefetched

variable {pf : KeyPrefetcher} {keyBytes : List UInt8} {k : ℕ}

theorem step (h : pf.Prefetched g keyBytes k) :
    ∃ k', (pf.step g).Prefetched g keyBytes k' ∧ k ≤ k' ∧
      (k < (CuckooTrie.keySymbols keyBytes).length → k + 1 ≤ k') := by
  have count : pf.prefixHashes.length = k := by simp [h.hashes]
  rcases h.bound.lt_or_eq with more | done
  · have next : pf.keySymbols[pf.prefixHashes.length]? =
        some (CuckooTrie.keySymbols keyBytes)[k] := by
      rw [count, h.symbols, List.getElem?_eq_getElem more]
    have hash : g.accumulateHash pf.prefetchPrefixHash (CuckooTrie.keySymbols keyBytes)[k] =
        g.prefixHash ((CuckooTrie.keySymbols keyBytes).take (k + 1)) := by
      rw [h.last, ← g.prefixHash_concat, List.take_append_getElem more]
    refine ⟨k + 1, ?_, Nat.le_succ k, fun _ => le_rfl⟩
    rw [KeyPrefetcher.step]
    simp only [next, hash]
    exact ⟨h.symbols, by simp [h.hashes, List.range_succ], rfl, more⟩
  · have none_ : pf.keySymbols[pf.prefixHashes.length]? = none := by
      rw [count, h.symbols, List.getElem?_eq_none done.ge]
    refine ⟨k, ?_, le_rfl, fun lt => absurd done lt.ne⟩
    rw [KeyPrefetcher.step]
    simp only [none_]
    exact h

theorem start (keyBytes : List UInt8) :
    ∃ k, (KeyPrefetcher.start g keyBytes).Prefetched g keyBytes k := by
  have initial : (KeyPrefetcher.mk (CuckooTrie.keySymbols keyBytes) [] hashStartValue).Prefetched g
      keyBytes 0 := ⟨rfl, rfl, rfl, Nat.zero_le _⟩
  obtain ⟨k₁, h₁, -⟩ := initial.step
  obtain ⟨k₂, h₂, -⟩ := h₁.step
  obtain ⟨k₃, h₃, -⟩ := h₂.step
  obtain ⟨k₄, h₄, -⟩ := h₃.step
  exact ⟨k₄, h₄⟩

/-- The hash the walk asks for is the one of the next prefix. -/
theorem getD (h : pf.Prefetched g keyBytes k) (isPrefix : x <+: CuckooTrie.keySymbols keyBytes)
    (inside : x.length < k) :
    pf.prefixHashes.getD x.length 0 =
      g.accumulateHash (g.prefixHash x) (pf.keySymbols.getD x.length symbolEnd) := by
  have within : x.length < (CuckooTrie.keySymbols keyBytes).length := lt_of_lt_of_le inside h.bound
  rw [h.hashes, h.symbols, List.getD_eq_getElem _ _ (by simpa using inside),
    List.getD_eq_getElem _ _ within, List.getElem_map, List.getElem_range, ← g.prefixHash_concat,
    ← List.take_append_getElem within, ← List.prefix_iff_eq_take.mp isPrefix]

end KeyPrefetcher.Prefetched

/-! ## The descent -/

/-- Where the descent for a key ends: it consumed the whole key, or the layout
does not go on with the next symbol of the key. -/
def Finger.Exits (f : Finger) (t : Trie g) (L : Layout) (keyBytes : List UInt8) (track : Bool)
    (symbol : Option ℕ) : Prop :=
  ∃ p n x, f.AtPosition t L p n x track ∧
    match symbol with
    | none => x = keySymbols keyBytes
    | some s => x ++ [s] <+: keySymbols keyBytes ∧ ¬ n.Continues f.depthInJump s

/-- What one iteration of a walk down reads: the next symbol of the key and the
hash of the prefix it leads to. -/
theorem nextSymbol_spec {f : Finger} {pf : KeyPrefetcher} {keyBytes : List UInt8} {k : ℕ}
    {track : Bool} (at_ : f.AtPosition t L p n x track) (isPrefix : x <+: keySymbols keyBytes)
    (within : x.length < (keySymbols keyBytes).length) (prefetched : pf.Prefetched g keyBytes k)
    (ahead : x.length ≤ k) :
    ∃ s k', x ++ [s] <+: keySymbols keyBytes ∧
      (s = symbolEnd ↔ x.length + 1 = (keySymbols keyBytes).length) ∧
      (pf.step g).Prefetched g keyBytes k' ∧ x.length + 1 ≤ k' ∧
      (pf.step g).keySymbols.getD f.prefixLen symbolEnd = s ∧
      (pf.step g).prefixHashes.getD f.prefixLen 0 = g.accumulateHash f.prefixHash s := by
  obtain ⟨k', prefetched', mono, more⟩ := prefetched.step
  have inside : x.length < k' := by
    rcases prefetched.bound.lt_or_eq with lt | eq
    · have := more lt
      omega
    · omega
  have hash := prefetched'.getD isPrefix inside
  have symbol : (pf.step g).keySymbols.getD x.length symbolEnd =
      (keySymbols keyBytes)[x.length] := by
    rw [prefetched'.symbols, List.getD_eq_getElem _ _ within]
  have last := @getElem?_keySymbols_eq_end_iff keyBytes x.length
  rw [List.getElem?_eq_getElem within, Option.some.injEq, ← length_keySymbols] at last
  refine ⟨(keySymbols keyBytes)[x.length], k', ?_, last, prefetched', inside, ?_, ?_⟩
  · exact (PrefixOrder.concat_prefix_iff isPrefix).mpr (List.getElem?_eq_getElem within)
  · rw [at_.prefixLen, symbol]
  · rw [at_.prefixLen, hash, symbol, at_.prefixHash]

theorem descendLoop_spec (readable : L.Readable t M) {keyBytes : List UInt8} {track : Bool}
    {fuel k : ℕ} {f : Finger} {pf : KeyPrefetcher} (at_ : f.AtPosition t L p n x track)
    (isPrefix : x <+: keySymbols keyBytes) (left : fuel + x.length = (keySymbols keyBytes).length)
    (within : x.length < (keySymbols keyBytes).length)
    (prefetched : pf.Prefetched g keyBytes k) (ahead : x.length ≤ k) :
    ∃ f' symbol, descendLoop t track fuel f pf = some (f', symbol) ∧
      f'.Exits t L keyBytes track symbol := by
  induction fuel generalizing f pf k p n x with
  | zero => omega
  | succ fuel ih =>
    obtain ⟨s, k', extended, isEnd, prefetched', ahead', symbol, hash⟩ :=
      nextSymbol_spec at_ isPrefix within prefetched ahead
    obtain ⟨moves, stops⟩ := tryDescend_spec readable at_ (s := s)
    have longer : (x ++ [s]).length = x.length + 1 := by simp
    by_cases goesOn : n.Continues f.depthInJump s
    · obtain ⟨f', p', n', step, at'⟩ := moves goesOn
      by_cases final : s = symbolEnd
      · refine ⟨f', none, ?_, p', n', _, at', extended.eq_of_length (longer.trans (isEnd.mp final))⟩
        rw [descendLoop]
        simp only [symbol, hash, step]
        rw [if_pos final]
      · have := isEnd.not.mp final
        obtain ⟨f'', symbol', rest, exits⟩ :=
          ih at' extended (by omega) (by omega) prefetched' (by omega)
        refine ⟨f'', symbol', ?_, exits⟩
        rw [descendLoop]
        simp only [symbol, hash, step, final, if_false, rest]
    · refine ⟨f, some s, ?_, p, n, x, at_, extended, goesOn⟩
      rw [descendLoop]
      simp only [symbol, hash, stops goesOn]

/-- **The descent for a key** ends where the key leaves the layout; no search on
the way runs for ever. -/
theorem descend_spec (readable : L.Readable t M) {f : Finger} {track : Bool}
    (at_ : f.AtPosition t L [] n [] track) (keyBytes : List UInt8) :
    ∃ f' symbol, descend t f keyBytes track = some (f', symbol) ∧
      f'.Exits t L keyBytes track symbol := by
  obtain ⟨k, prefetched⟩ := @KeyPrefetcher.Prefetched.start g keyBytes
  exact descendLoop_spec readable at_ List.nil_prefix (by simp)
    (List.length_pos_iff.mpr (keySymbols_ne_nil keyBytes)) prefetched (Nat.zero_le k)

/-! ## Lookup -/

/-- **At the END symbol** the finger is in the leaf of exactly the searched key. -/
theorem exits_end (shape : L.Shape M) {f : Finger} {keyBytes : List UInt8} {track : Bool}
    (exits : f.Exits t L keyBytes track none) :
    ∃ kv ∈ M, kv.key = keyBytes ∧ f.containingEntry.value.body.isLeaf = true ∧
      f.containingEntry.value.body.kv = kv := by
  obtain ⟨p, n, x, at_, rfl⟩ := exits
  have body := at_.entry.body
  cases n with
  | leaf kv =>
    obtain ⟨hp, -, rfl⟩ := at_.position
    obtain ⟨mem, below⟩ := shape.leaf _ kv hp
    exact ⟨kv, mem, (keySymbols_eq_of_isPrefix below).symm, by rw [body]; rfl, by rw [body]; rfl⟩
  | bitmap children => exact absurd rfl (at_.position.ne_keySymbols shape rfl keyBytes)
  | jump symbols => exact absurd rfl (at_.position.ne_keySymbols shape rfl keyBytes)

/-- Where the layout stops before the end of a key, the key is in the map exactly
if the finger is in its leaf. -/
theorem exits_symbol (shape : L.Shape M) {f : Finger} {keyBytes : List UInt8} {track : Bool}
    {s : ℕ} (exits : f.Exits t L keyBytes track (some s)) {kv : CtKv} :
    kv ∈ M ∧ kv.key = keyBytes ↔
      f.containingEntry.value.body.isLeaf = true ∧ f.containingEntry.value.body.kv = kv ∧
        kv.key = keyBytes := by
  obtain ⟨p, n, x, at_, extended, stops⟩ := exits
  obtain ⟨hp, place⟩ := at_.position
  have body := at_.entry.body
  have inside : x <+: keySymbols keyBytes := (List.prefix_append _ _).trans extended
  have below : p <+: keySymbols keyBytes := at_.position.isPrefix.trans inside
  cases n with
  | leaf kv' =>
    obtain ⟨mem', -⟩ := shape.leaf p kv' hp
    rw [body]
    constructor
    · rintro ⟨mem, rfl⟩
      exact ⟨rfl, (shape.eq_of_below_leaf hp mem below).symm, rfl⟩
    · rintro ⟨-, same, key⟩
      have same : kv' = kv := same
      exact ⟨same ▸ mem', key⟩
  | bitmap children =>
    obtain ⟨-, rfl⟩ := place
    refine ⟨?_, fun h => by rw [body] at h; cases h.1⟩
    rintro ⟨mem, rfl⟩
    obtain ⟨s', bit, below'⟩ := shape.bitmap_below hp mem below
    have := PrefixOrder.concat_prefix_unique below' extended
    exact absurd (this ▸ bit) stops
  | jump symbols =>
    obtain ⟨lt, rfl⟩ := place
    refine ⟨?_, fun h => by rw [body] at h; cases h.1⟩
    rintro ⟨mem, rfl⟩
    have whole := shape.jump_below hp mem below
    have next : p ++ symbols.take f.depthInJump ++ [symbols[f.depthInJump]] <+: keySymbols kv.key := by
      rw [List.append_assoc, List.take_append_getElem lt]
      exact ((List.prefix_append_right_inj p).mpr (List.take_prefix _ _)).trans whole
    have := PrefixOrder.concat_prefix_unique next extended
    refine absurd ?_ stops
    simp [Node.Continues, List.getElem?_eq_getElem lt, this]

/-- Lookup on any memory in which the nodes of the layout can be found. -/
theorem ctLookup_spec (readable : L.Readable t M) (keyBytes : List UInt8) :
    ctLookup t keyBytes = some (M.find keyBytes) := by
  have shape := readable.shape
  by_cases empty : M.kvs = []
  · rw [ctLookup, initFinger_empty readable empty]
    have : M.find keyBytes = none := KeyMap.find_eq_none_iff.mpr fun kv mem => by
      rw [KeyMap.mem_def, empty] at mem
      exact absurd mem List.not_mem_nil
    rw [this]
  · obtain ⟨f, n, init, at_⟩ := initFinger_spec readable empty false
    obtain ⟨f', symbol, walk, exits⟩ := descend_spec readable at_ keyBytes
    rw [ctLookup, init]
    simp only [walk, Option.map_some]
    congr 1
    cases symbol with
    | none =>
      obtain ⟨kv, mem, key, -, same⟩ := exits_end shape exits
      rw [KeyMap.find_eq_some_iff.mpr ⟨mem, key⟩, same]
    | some s =>
      have found := fun kv => @exits_symbol g t L M shape f' keyBytes false s exits kv
      by_cases isLeaf : f'.containingEntry.value.body.isLeaf = true
      · simp only [isLeaf, Bool.not_true, Bool.false_eq_true, if_false]
        by_cases same : f'.containingEntry.value.body.kv.key = keyBytes
        · rw [if_pos (kvKeyCompareTo_eq_zero_iff.mpr same)]
          exact (KeyMap.find_eq_some_iff.mpr ((found _).mpr ⟨isLeaf, rfl, same⟩)).symm
        · rw [if_neg (kvKeyCompareTo_eq_zero_iff.not.mpr same)]
          refine (KeyMap.find_eq_none_iff.mpr fun kv mem key => same ?_).symm
          obtain ⟨-, eq, -⟩ := (found kv).mp ⟨mem, key⟩
          rw [eq, key]
      · simp only [isLeaf, Bool.not_false, if_true]
        refine (KeyMap.find_eq_none_iff.mpr fun kv mem key => isLeaf ?_).symm
        exact ((found kv).mp ⟨mem, key⟩).1

theorem WellFormed.readable (wf : WellFormed t M) : ∃ L : Layout, L.Readable t M := by
  obtain ⟨S, L, stores, rep, -, finished, -⟩ := wf
  exact ⟨L, S, none, stores, rep, rep.identifies finished⟩

/-- **Lookup is exact and terminates.**  On a well-formed trie every descent
returns, so each search it makes is for an entry that is present; one that
consumes the END symbol ends in the leaf of exactly the searched key; and the
result of `ct_lookup` is the object the map has for the key, or `NULL`. -/
theorem ct_lookup_exact (t : Trie g) (M : KeyMap) (wf : WellFormed t M) (keyBytes : List UInt8) :
    (∀ f, initFinger t = some f → ∃ f' symbol,
      descend t f keyBytes false = some (f', symbol) ∧
        (symbol = none → f'.containingEntry.value.body.isLeaf = true ∧
          f'.containingEntry.value.body.kv.key = keyBytes)) ∧
      ctLookup t keyBytes = some (M.find keyBytes) := by
  obtain ⟨L, readable⟩ := wf.readable
  refine ⟨fun f init => ?_, ctLookup_spec readable keyBytes⟩
  have nonempty : M.kvs ≠ [] := by
    intro empty
    rw [initFinger_empty readable empty] at init
    cases init
  obtain ⟨f₀, n, init₀, at_⟩ := initFinger_spec readable nonempty false
  rw [init] at init₀
  cases init₀
  obtain ⟨f', symbol, walk, exits⟩ := descend_spec readable at_ keyBytes
  refine ⟨f', symbol, walk, ?_⟩
  rintro rfl
  obtain ⟨kv, -, key, isLeaf, same⟩ := exits_end readable.shape exits
  exact ⟨isLeaf, same ▸ key⟩

/-- The walk for a stored key goes on to its leaf, the one for another key stops at the root. -/
theorem ct_lookup_exact_small :
    (∀ f, initFinger smallTrie = some f →
      (∃ f', descend smallTrie f [0x80] false = some (f', some 1)) ∧
      ∃ f', descend smallTrie f [0x40] false = some (f', some 9)) ∧
    ctLookup smallTrie [0x80] = some (some ⟨2, [0x80]⟩) ∧ ctLookup smallTrie [0x40] = some none := by
  obtain ⟨walks, found⟩ := ct_lookup_exact smallTrie smallComb.map smallTrie_wellFormed [0x80]
  obtain ⟨walks', absent⟩ := ct_lookup_exact smallTrie smallComb.map smallTrie_wellFormed [0x40]
  have stops : ∀ f, initFinger smallTrie = some f →
      (descend smallTrie f [0x80] false).map (·.2) = some (some 1) ∧
        (descend smallTrie f [0x40] false).map (·.2) = some (some 9) := by
    intro f init
    cases init
    decide +kernel
  refine ⟨fun f init => ?_, found.trans (by decide +kernel), absent.trans (by decide +kernel)⟩
  obtain ⟨stop, stop'⟩ := stops f init
  obtain ⟨f₁, symbol, walk, -⟩ := walks f init
  obtain ⟨f₂, symbol', walk', -⟩ := walks' f init
  rw [walk, Option.map_some] at stop
  rw [walk', Option.map_some] at stop'
  cases stop
  cases stop'
  exact ⟨⟨f₁, walk⟩, f₂, walk'⟩

end CuckooTrie
