import CuckooTrie.KeyMap
import CuckooTrie.Store

/-!
# Layouts

The tree a table encodes.  The table never stores the prefix of a node; here a
node is named by it: a `Layout` says which node lies at each string of symbols,
under which color it is stored, and what its parent color, its link field
(`next_leaf` or `max_leaf`) and its dirty flag hold.  From this the contents of
its entry follow (`Layout.entry`).  An insert builds new nodes before it links
them into the tree: these are the drafts of a layout.

`Shape` is what makes the nodes of a layout a trie for a map, `Represents` what
makes a store the encoding of a layout, `Linked` that all links and the list of
leaves are right.  A well-formed trie is a memory that holds such a store
without drafts.
-/

namespace CuckooTrie

/-- A node of the trie: a leaf with its object, a bitmap with the set of its
children, a jump node with its symbols. -/
inductive Node where
  | leaf (kv : CtKv)
  | bitmap (children : ℕ)
  | jump (symbols : List ℕ)
deriving DecidableEq, Repr

/-- Bitmaps and jump nodes. -/
def Node.isInner : Node → Bool
  | .leaf _ => false
  | _ => true

/-- The nodes of a trie by their prefixes and the drafts of nodes, with the colors
they are stored under, their parent colors, their links and their dirty flags;
and the link and the flag of the list head. -/
structure Layout where
  node : List ℕ → Option Node
  draft : List ℕ → Option Node
  color : List ℕ → ℕ
  parent : List ℕ → ℕ
  link : List ℕ → Locator
  dirty : List ℕ → Bool
  first : Locator
  firstDirty : Bool

/-- The contents of the list head. -/
def headEntry (first : Locator) (dirty : Bool) : Entry :=
  ⟨0, dirty, false, 0, 0, 0, .leaf default first⟩

namespace Layout

variable (L : Layout) (g : Geometry)

/-- The nodes and the drafts. -/
def all (p : List ℕ) : Option Node := (L.node p).or (L.draft p)

/-- The parent color a node should have: the color of its parent if that is a
bitmap. -/
def parentColor (p : List ℕ) : ℕ :=
  if p = [] then invalidColor
  else
    match L.node p.dropLast with
    | some (.bitmap _) => L.color p.dropLast
    | _ => invalidColor

/-- The body of the entry of a node. -/
def body (p : List ℕ) : Node → Body
  | .leaf kv => .leaf kv (L.link p)
  | .bitmap children => .bitmap children (Nat.log2 children) (L.link p)
  | .jump symbols => .jump (symbols.map (· - 1)) (L.color (p ++ symbols)) (L.link p)

/-- The entry of a node. -/
def entry (p : List ℕ) (n : Node) : Entry where
  parentColor := L.parent p
  dirty := L.dirty p
  secondary := false
  color := L.color p
  tag := hashToTag (g.prefixHash p)
  lastSymbol := p.getLastD 0
  body := L.body p n

/-- The locator of a node. -/
def locator (p : List ℕ) : Locator :=
  ⟨hashToBucket (g.prefixHash p), hashToTag (g.prefixHash p), L.color p⟩

/-- The node at a prefix is the parent of the node at another one. -/
inductive Child : List ℕ → List ℕ → Prop
  | bitmap {q children s} : L.node q = some (.bitmap children) → children.testBit s = true →
      Child q (q ++ [s])
  | jump {q symbols} : L.node q = some (.jump symbols) → Child q (q ++ symbols)

/-- A layout is a trie with the objects of a map in its leaves. -/
structure Shape (M : KeyMap) : Prop where
  parent : ∀ p n, L.node p = some n → p = [] ∨ ∃ q, L.Child q p
  child : ∀ q p, L.Child q p → L.node p ≠ none
  bitmap : ∀ q children, L.node q = some (.bitmap children) → children ≠ 0 ∧ children < 2 ^ 33
  jump : ∀ q symbols, L.node q = some (.jump symbols) →
    symbols ≠ [] ∧ symbols.length ≤ maxJumpSymbols ∧ ∀ s ∈ symbols, 1 ≤ s ∧ s ≤ fanout
  jump_child : ∀ q symbols n, L.node q = some (.jump symbols) →
    L.node (q ++ symbols) = some n → n.isInner = true
  leaf : ∀ p kv, L.node p = some (.leaf kv) → kv ∈ M ∧ p <+: keySymbols kv.key
  key : ∀ kv ∈ M, ∃ p, L.node p = some (.leaf kv)
  live : ∀ q n, L.node q = some n → n.isInner = true → ∃ kv ∈ M, KeyMap.Below q kv

/-- A locator names the leaf of an object, or the end of the list. -/
def PointsTo (loc : Locator) : Option CtKv → Prop
  | none => loc.primaryBucket = endOfList
  | some kv => ∃ p, L.node p = some (.leaf kv) ∧ loc = L.locator g p

/-- A store holds the entries of the nodes and the drafts of a layout, each under
a name of its own, and nothing else. -/
structure Encodes (S : Store) : Prop where
  stored : ∀ p n, L.all p = some n →
    S.entry (g.prefixHash p) (L.color p) = some (L.entry g p n)
  only : ∀ h c e, S.entry h c = some e →
    ∃ p n, L.all p = some n ∧ g.prefixHash p = h ∧ L.color p = c
  distinct : ∀ p p' n n', L.all p = some n → L.all p' = some n' →
    g.prefixHash p = g.prefixHash p' → L.color p = L.color p' → p = p'
  symbols : ∀ p n, L.all p = some n → ∀ s ∈ p, s ≤ fanout
  valid : ∀ p n, L.all p = some n → L.color p ≤ maxValidColor
  head : S.head = headEntry L.first L.firstDirty

/-- A store encodes a layout that is a trie for a map. -/
structure Represents (S : Store) (M : KeyMap) : Prop extends L.Encodes g S where
  shape : L.Shape M
  parent : ∀ q children s, L.node q = some (.bitmap children) → children.testBit s = true →
    L.parent (q ++ [s]) = L.color q
  root_color : L.node [] ≠ none → L.color [] = rootColor
  isEmpty : S.isEmpty = true ↔ M.kvs = []

/-- **Header matching identifies the child.**  Among the nodes and the drafts, only
the child of a bitmap on a symbol answers the search for it by parent. -/
def Identifies : Prop :=
  ∀ q children p n, L.node q = some (.bitmap children) → L.all p = some n →
    g.prefixHash p = g.prefixHash (q ++ [p.getLastD 0]) → L.parent p = L.color q →
    p = q ++ [p.getLastD 0]

/-- All links are right and nothing is marked dirty. -/
structure Linked (M : KeyMap) : Prop where
  clean : ∀ p n, L.node p = some n → L.dirty p = false
  first_clean : L.firstDirty = false
  next : ∀ p kv, L.node p = some (.leaf kv) → L.PointsTo g (L.link p) (M.after kv.key)
  max : ∀ q n, L.node q = some n → n.isInner = true →
    L.PointsTo g (L.link q) (M.last (KeyMap.Below q))
  first : L.PointsTo g L.first (M.first fun _ => True)

/-- There are no drafts, and every parent color is the one it should be. -/
structure Finished : Prop where
  no_draft : ∀ p, L.draft p = none
  parent : ∀ p n, L.node p = some n → L.parent p = L.parentColor p

end Layout

/-- **A well-formed trie for a map.**  Between two calls the memory holds a store
that encodes exactly the nodes of a trie for the map, with right links and no
dirty entry, and no bucket is locked. -/
def WellFormed (t : Trie g) (M : KeyMap) : Prop :=
  ∃ (S : Store) (L : Layout), t.Stores S none ∧ L.Represents g S M ∧ L.Linked g M ∧ L.Finished ∧
    ∀ b, t.writeLock b = false

namespace Layout

variable {L : Layout} {g : Geometry} {M : KeyMap}

theorem Child.isPrefix {q p : List ℕ} (h : L.Child q p) : q <+: p := by
  cases h with
  | bitmap => exact List.prefix_append _ _
  | jump => exact List.prefix_append _ _

theorem Child.inner {q p : List ℕ} (h : L.Child q p) :
    ∃ n, L.node q = some n ∧ n.isInner = true := by
  cases h with
  | bitmap node => exact ⟨_, node, rfl⟩
  | jump node => exact ⟨_, node, rfl⟩

namespace Shape

variable {p q r : List ℕ} {n m : Node} {kv kv' : CtKv}

theorem child_ne (shape : L.Shape M) (h : L.Child q p) : q ≠ p := by
  cases h with
  | bitmap => exact fun same => by simpa using congrArg List.length same
  | jump node =>
    intro same
    have := congrArg List.length same
    simp only [List.length_append, left_eq_add, List.length_eq_zero_iff] at this
    exact (shape.jump _ _ node).1 this

theorem child_length (shape : L.Shape M) (h : L.Child q p) : q.length < p.length := by
  have := h.isPrefix.length_le
  rcases this.lt_or_eq with lt | eq
  · exact lt
  · exact absurd (h.isPrefix.eq_of_length eq) (shape.child_ne h)

/-- Children of one node that extend each other are equal. -/
theorem child_unique {p' : List ℕ} (h : L.Child q p) (h' : L.Child q p') (ext : p <+: p') :
    p = p' := by
  cases h with
  | bitmap node =>
    cases h' with
    | bitmap node' => exact ext.eq_of_length (by simp)
    | jump node' => simp [node] at node'
  | jump node =>
    cases h' with
    | bitmap node' => simp [node] at node'
    | jump node' =>
      rw [node] at node'
      cases node'
      rfl

/-- **No node lies between a node and its child.**  A node strictly below
another one is at or below one of its children. -/
theorem exists_child (shape : L.Shape M) (hq : L.node q = some n) (hr : L.node r = some m)
    (ext : q <+: r) (ne : q ≠ r) : ∃ p, L.Child q p ∧ p <+: r := by
  -- by induction on the length, along the chain of parents of `r`
  induction len : r.length using Nat.strong_induction_on generalizing q n r m with
  | _ k ih =>
    subst len
    rcases shape.parent r m hr with rfl | ⟨r', parent⟩
    · exact absurd (List.prefix_nil.mp ext) ne
    have shorter := shape.child_length parent
    obtain ⟨n', hr', -⟩ := parent.inner
    by_cases same : q = r'
    · exact ⟨r, same ▸ parent, List.prefix_rfl⟩
    rcases PrefixOrder.comparable ext parent.isPrefix with below | above
    · obtain ⟨p, child, hp⟩ := ih r'.length shorter hq hr' below same rfl
      exact ⟨p, child, hp.trans parent.isPrefix⟩
    · -- `q` would lie strictly between `r'` and its child `r`
      exfalso
      have lenQ : q.length < r.length := by
        rcases ext.length_le.lt_or_eq with lt | eq
        · exact lt
        · exact absurd (ext.eq_of_length eq) ne
      obtain ⟨p, child, hp⟩ := ih q.length lenQ hr' hq above (Ne.symm same) rfl
      have := child_unique child parent (hp.trans ext)
      subst this
      exact absurd hp.length_le (by omega)

/-- Nothing lies below a leaf. -/
theorem eq_of_leaf (shape : L.Shape M) (hp : L.node p = some (.leaf kv)) (hr : L.node r = some m)
    (ext : p <+: r) : p = r := by
  by_contra ne
  obtain ⟨c, child, -⟩ := shape.exists_child hp hr ext ne
  obtain ⟨n, node, inner⟩ := child.inner
  rw [hp] at node
  cases node
  cases inner

/-- The leaf of an object below a node is below that node. -/
theorem leaf_below (shape : L.Shape M) (hq : L.node q = some n) (mem : kv ∈ M)
    (below : KeyMap.Below q kv) : ∃ p, L.node p = some (.leaf kv) ∧ q <+: p := by
  obtain ⟨p, hp⟩ := shape.key kv mem
  rcases PrefixOrder.comparable below (shape.leaf p kv hp).2 with h | h
  · exact ⟨p, hp, h⟩
  · exact ⟨p, hp, (shape.eq_of_leaf hp hq h) ▸ List.prefix_rfl⟩

/-- An object has one leaf. -/
theorem leaf_unique (shape : L.Shape M) (hp : L.node p = some (.leaf kv))
    (hq : L.node q = some (.leaf kv)) : p = q := by
  obtain ⟨r, hr, ext⟩ := shape.leaf_below hq (shape.leaf p kv hp).1 (shape.leaf q kv hq).2
  rcases PrefixOrder.comparable (shape.leaf p kv hp).2 (shape.leaf q kv hq).2 with h | h
  · exact shape.eq_of_leaf hp hq h
  · exact (shape.eq_of_leaf hq hp h).symm

/-- The object of a leaf is the only one below it. -/
theorem eq_of_below_leaf (shape : L.Shape M) (hp : L.node p = some (.leaf kv)) (mem : kv' ∈ M)
    (below : KeyMap.Below p kv') : kv' = kv := by
  obtain ⟨r, hr, ext⟩ := shape.leaf_below hp mem below
  have := shape.eq_of_leaf hp hr ext
  subst this
  rw [hp] at hr
  cases hr
  rfl

/-- An object below an inner node is below one of its children. -/
theorem child_below (shape : L.Shape M) (hq : L.node q = some n) (inner : n.isInner = true)
    (mem : kv ∈ M) (below : KeyMap.Below q kv) : ∃ p, L.Child q p ∧ KeyMap.Below p kv := by
  obtain ⟨r, hr, ext⟩ := shape.leaf_below hq mem below
  have ne : q ≠ r := by
    rintro rfl
    rw [hq] at hr
    cases hr
    cases inner
  obtain ⟨p, child, hp⟩ := shape.exists_child hq hr ext ne
  exact ⟨p, child, hp.trans (shape.leaf r kv hr).2⟩

theorem jump_below {symbols : List ℕ} (shape : L.Shape M)
    (hq : L.node q = some (.jump symbols)) (mem : kv ∈ M) (below : KeyMap.Below q kv) :
    KeyMap.Below (q ++ symbols) kv := by
  obtain ⟨p, child, hp⟩ := shape.child_below hq rfl mem below
  cases child with
  | bitmap node => simp [hq] at node
  | jump node =>
    rw [hq] at node
    cases node
    exact hp

theorem bitmap_below {children : ℕ} (shape : L.Shape M)
    (hq : L.node q = some (.bitmap children)) (mem : kv ∈ M) (below : KeyMap.Below q kv) :
    ∃ s, children.testBit s = true ∧ KeyMap.Below (q ++ [s]) kv := by
  obtain ⟨p, child, hp⟩ := shape.child_below hq rfl mem below
  cases child with
  | bitmap node bit =>
    rw [hq] at node
    cases node
    exact ⟨_, bit, hp⟩
  | jump node => simp [hq] at node

/-- Below every node there is an object. -/
theorem exists_below (shape : L.Shape M) (hq : L.node q = some n) :
    ∃ kv ∈ M, KeyMap.Below q kv := by
  cases n with
  | leaf kv => exact ⟨kv, shape.leaf q kv hq⟩
  | bitmap children => exact shape.live q _ hq rfl
  | jump symbols => exact shape.live q _ hq rfl

theorem symbol_le (shape : L.Shape M) (hq : L.node q = some n) : ∀ s ∈ q, s ≤ fanout := by
  intro s mem
  obtain ⟨kv, -, below⟩ := shape.exists_below hq
  exact le_fanout_of_mem_keySymbols (below.subset mem)

theorem prefixHash_lt (shape : L.Shape M) (hq : L.node q = some n) :
    g.prefixHash q < g.numPairs := g.prefixHash_lt (shape.symbol_le hq)

/-- No END symbol leads to an inner node. -/
theorem end_not_mem (shape : L.Shape M) (hq : L.node q = some n) (inner : n.isInner = true) :
    symbolEnd ∉ q := by
  intro mem
  obtain ⟨kv, inM, below⟩ := shape.live q n hq inner
  obtain ⟨p, child, below'⟩ := shape.child_below hq inner inM below
  have whole := eq_keySymbols_of_end_mem below mem
  have longer := shape.child_length child
  have := below'.length_le
  rw [whole] at longer
  omega

theorem bit_le_fanout {children s : ℕ} (shape : L.Shape M)
    (hq : L.node q = some (.bitmap children)) (bit : children.testBit s = true) : s ≤ fanout := by
  have small := (shape.bitmap q children hq).2
  by_contra big
  have high : 2 ^ 33 ≤ 2 ^ s := Nat.pow_le_pow_right (by decide) (by change ¬ s ≤ 32 at big; omega)
  rw [Nat.testBit_lt_two_pow (lt_of_lt_of_le small high)] at bit
  cases bit

/-- The root exists as soon as any node does. -/
theorem root (shape : L.Shape M) (hq : L.node q = some n) : ∃ m, L.node [] = some m := by
  induction len : q.length using Nat.strong_induction_on generalizing q n with
  | _ k ih =>
    subst len
    rcases shape.parent q n hq with rfl | ⟨q', parent⟩
    · exact ⟨n, hq⟩
    · obtain ⟨n', hq', -⟩ := parent.inner
      exact ih q'.length (shape.child_length parent) hq' rfl

theorem root_iff (shape : L.Shape M) : L.node [] ≠ none ↔ M.kvs ≠ [] := by
  constructor
  · intro root empty
    obtain ⟨n, hn⟩ := Option.ne_none_iff_exists'.mp root
    obtain ⟨kv, mem, -⟩ := shape.exists_below hn
    rw [KeyMap.mem_def, empty] at mem
    exact List.not_mem_nil mem
  · intro nonempty
    obtain ⟨kv, mem⟩ := List.exists_mem_of_ne_nil _ nonempty
    obtain ⟨p, hp⟩ := shape.key kv mem
    obtain ⟨n, hn⟩ := shape.root hp
    simp [hn]

/-- A child of a jump node has no node strictly above it but the jump's. -/
theorem parentColor_bitmap {children s : ℕ} (hq : L.node q = some (.bitmap children)) :
    L.parentColor (q ++ [s]) = L.color q := by
  simp [parentColor, hq]

theorem parentColor_jump {symbols : List ℕ} (shape : L.Shape M)
    (hq : L.node q = some (.jump symbols)) : L.parentColor (q ++ symbols) = invalidColor := by
  obtain ⟨nonempty, -⟩ := shape.jump q symbols hq
  have dropped : (q ++ symbols).dropLast = q ++ symbols.dropLast :=
    List.dropLast_append_of_ne_nil nonempty
  rw [parentColor, if_neg (by simp [nonempty]), dropped]
  cases inside : L.node (q ++ symbols.dropLast) with
  | none => rfl
  | some n =>
    cases n with
    | leaf kv => rfl
    | jump symbols' => rfl
    | bitmap children =>
      -- a bitmap there would be the jump node itself, or lie inside it
      exfalso
      by_cases whole : symbols.dropLast = []
      · rw [whole, List.append_nil, hq] at inside
        cases inside
      · have ne : q ≠ q ++ symbols.dropLast := fun same => whole (by simpa using same.symm)
        obtain ⟨p, child, hp⟩ := shape.exists_child hq inside (List.prefix_append _ _) ne
        cases child with
        | bitmap node => simp [hq] at node
        | jump node =>
          rw [hq] at node
          cases node
          have := hp.length_le
          have positive := List.length_pos_iff.mpr nonempty
          simp only [List.length_append, List.length_dropLast] at this
          omega

theorem parentColor_root : L.parentColor [] = invalidColor := by
  simp [parentColor]

end Shape

theorem all_of_node {p : List ℕ} {n : Node} (hp : L.node p = some n) : L.all p = some n := by
  rw [all, hp]
  rfl

theorem Finished.node_of_all {p : List ℕ} {n : Node} (finished : L.Finished)
    (hp : L.all p = some n) : L.node p = some n := by
  rwa [all, finished.no_draft, Option.or_none] at hp

/-- Every valid parent color is the color of the entry just above. -/
def Parented (L : Layout) (p : List ℕ) : Prop :=
  L.parent p ≤ maxValidColor →
    ∃ q s m, p = q ++ [s] ∧ L.all q = some m ∧ L.color q = L.parent p

theorem Shape.parented {p : List ℕ} {n : Node} (shape : L.Shape M) (hp : L.node p = some n)
    (canonical : L.parent p = L.parentColor p) : L.Parented p := by
  intro valid
  rw [canonical] at valid ⊢
  rcases shape.parent p n hp with rfl | ⟨q, child⟩
  · rw [Shape.parentColor_root] at valid
    exact absurd valid (by decide)
  · cases child with
    | bitmap node bit => exact ⟨q, _, _, rfl, all_of_node node, (Shape.parentColor_bitmap node).symm⟩
    | jump node =>
      rw [shape.parentColor_jump node] at valid
      exact absurd valid (by decide)

/-- Entries whose parent colors are those of the entries just above are never
mistaken for one another. -/
theorem Encodes.identify {S : Store} {p q : List ℕ} {n m : Node} (enc : L.Encodes g S)
    (parented : L.Parented p) (hp : L.all p = some n) (hq : L.all q = some m)
    (hash : g.prefixHash p = g.prefixHash (q ++ [p.getLastD 0])) (parent : L.parent p = L.color q) :
    p = q ++ [p.getLastD 0] := by
  obtain ⟨q', s, m', rfl, hq', color⟩ := parented (parent ▸ enc.valid q m hq)
  have small := enc.symbols _ _ hp s (by simp)
  rw [List.getLastD_concat] at hash ⊢
  rw [g.prefixHash_concat, g.prefixHash_concat] at hash
  have hashes := g.accumulateHash_inj (g.prefixHash_lt (enc.symbols _ _ hq'))
    (g.prefixHash_lt (enc.symbols _ _ hq)) small hash
  rw [enc.distinct q' q _ _ hq' hq hashes (color.trans parent)]

end Layout

/-- A memory in which all nodes of a layout can be found. -/
def Layout.Readable (L : Layout) (t : Trie g) (M : KeyMap) : Prop :=
  ∃ (S : Store) (hole : Option Loc), t.Stores S hole ∧ L.Represents g S M ∧ L.Identifies g

/-- The parent colors of a well-formed trie identify the children. -/
theorem Layout.Represents.identifies {L : Layout} {M : KeyMap} {S : Store}
    (rep : L.Represents g S M) (finished : L.Finished) : L.Identifies g := by
  intro q children p n hq hp hash parent
  have node := finished.node_of_all hp
  exact rep.identify (rep.shape.parented node (finished.parent p n node)) hp
    (Layout.all_of_node hq) hash parent

/-- What a cell in use of a well-formed trie holds. -/
theorem Layout.Represents.node_of_at {L : Layout} {M : KeyMap} {S : Store} {t : Trie g}
    {loc : Loc} {h c : ℕ} (rep : L.Represents g S M) (stores : t.Stores S none)
    (finished : L.Finished) (at_ : t.At loc h c) :
    ∃ p n, L.node p = some n ∧ g.prefixHash p = h ∧ L.color p = c ∧
      (t.cells loc).content = L.entry g p n := by
  have stored := stores.content loc h c at_
  obtain ⟨p, n, hp, hash, color⟩ := rep.only h c _ stored
  rw [← hash, ← color, rep.stored p n hp] at stored
  exact ⟨p, n, finished.node_of_all hp, hash, color, (Option.some.inj stored).symm⟩

/-! ## The trie without keys -/

namespace Layout

/-- The layout without nodes. -/
def empty : Layout where
  node _ := none
  draft _ := none
  color _ := 0
  parent _ := 0
  link _ := default
  dirty _ := false
  first := ⟨endOfList, 0, 0⟩
  firstDirty := false

theorem empty_shape : empty.Shape KeyMap.empty where
  parent _ _ h := by cases h
  child _ _ h := by cases h <;> contradiction
  bitmap _ _ h := by cases h
  jump _ _ h := by cases h
  jump_child _ _ _ h := by cases h
  leaf _ _ h := by cases h
  key _ h := absurd h KeyMap.not_mem_empty
  live _ _ h := by cases h

theorem empty_linked : empty.Linked g KeyMap.empty where
  clean _ _ h := by cases h
  first_clean := rfl
  next _ _ h := by cases h
  max _ _ h := by cases h
  first := rfl

end Layout

/-- **The memory `ct_alloc` returns** is a well-formed trie without keys. -/
theorem emptyTrie_wellFormed (g : Geometry) : WellFormed (emptyTrie g) KeyMap.empty := by
  have unused : ∀ loc : Loc, loc.bucket < g.numBuckets → (emptyTrie g).cells loc = unusedEntry :=
    fun loc inTable => if_pos inTable
  have noEntry : ∀ {loc h c}, ¬ (emptyTrie g).At loc h c := by
    intro loc h c at_
    have used := at_.used
    rw [unused loc at_.inTable] at used
    cases used
  refine ⟨⟨fun _ _ => none, headEntry ⟨endOfList, 0, 0⟩ false, true⟩, Layout.empty, ?_, ?_,
    Layout.empty_linked, ⟨fun _ => rfl, fun _ _ h => by cases h⟩, fun _ => rfl⟩
  · exact
      { unused_invalid := fun loc inTable _ => by
          rw [unused loc inTable]
          exact ⟨rfl, rfl⟩
        tag_color := fun loc inTable used => by
          rw [unused loc inTable] at used
          cases used
        content := fun _ _ _ at_ => absurd at_ noEntry
        stored := fun _ _ _ h => by cases h
        unique := fun _ _ _ _ at_ => absurd at_ noEntry
        root := fun _ h => by cases h
        head := if_neg (lt_irrefl _)
        isEmpty := rfl }
  · exact
      { stored := fun _ _ h => by cases h
        only := fun _ _ _ h => by cases h
        distinct := fun _ _ _ _ h => by cases h
        symbols := fun _ _ h => by cases h
        valid := fun _ _ h => by cases h
        head := rfl
        shape := Layout.empty_shape
        parent := fun _ _ _ h => by cases h
        root_color := fun h => absurd rfl h
        isEmpty := ⟨fun _ => rfl, fun _ => rfl⟩ }

end CuckooTrie
