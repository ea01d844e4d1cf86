import CuckooTrie.Layout
import CuckooTrie.SymbolOrder

/-!
# Combs

The trie with the longest path is a *comb*: a key all of whose symbols are equal, and for
each of its symbols a key that leaves it there.  Every node of a comb but the leaves is a
bitmap, so on the way to the leaf of the long key there is one for each of its symbols.

A comb is given by its layout.  `Layout.spread` puts the nodes of a layout into a memory,
each in a bucket of its own, and the memory is a well-formed trie if the layout is one.
-/

namespace CuckooTrie

variable {g : Geometry} {L : Layout} {M : KeyMap} {p : List ℕ} {n : Node}

/-! ## A memory for a layout -/

namespace Layout

/-- The entry of the node with a given primary bucket, among those at some prefixes. -/
def entryIn (L : Layout) (g : Geometry) (ps : List (List ℕ)) (b : ℕ) : Option Entry :=
  (ps.find? fun p => hashToBucket (g.prefixHash p) = b).bind fun p => (L.node p).map (L.entry g p)

/-- The memory with each node in the first cell of its primary bucket. -/
def spread (L : Layout) (g : Geometry) (ps : List (List ℕ)) : Trie g where
  cells loc :=
    if loc.bucket < g.numBuckets then
      if loc.cell = 0 then (L.entryIn g ps loc.bucket).getD unusedEntry else unusedEntry
    else headEntry L.first L.firstDirty
  seq _ := 0
  writeLock _ := false
  isEmpty := ps.isEmpty

/-- The store this memory holds. -/
def spreadStore (L : Layout) (g : Geometry) (ps : List (List ℕ)) : Store where
  entry h c := (L.entryIn g ps (hashToBucket h)).filter fun e => e.tag = hashToTag h ∧ e.color = c
  head := headEntry L.first L.firstDirty
  isEmpty := ps.isEmpty

/-- The nodes of a layout are those at the given prefixes, and no two of them have the
same primary bucket. -/
structure Spreads (L : Layout) (g : Geometry) (ps : List (List ℕ)) : Prop where
  nodes : ∀ p, p ∈ ps ↔ ∃ n, L.node p = some n
  buckets : (ps.map fun p => hashToBucket (g.prefixHash p)).Nodup
  symbols : ∀ p ∈ ps, ∀ s ∈ p, s ≤ fanout
  valid : ∀ p ∈ ps, L.color p ≤ maxValidColor

namespace Spreads

variable {ps : List (List ℕ)}

theorem mem (spreads : L.Spreads g ps) (hp : L.node p = some n) : p ∈ ps :=
  (spreads.nodes p).mpr ⟨n, hp⟩

theorem eq_of_bucket (spreads : L.Spreads g ps) {q : List ℕ} (hp : p ∈ ps) (hq : q ∈ ps)
    (same : hashToBucket (g.prefixHash p) = hashToBucket (g.prefixHash q)) : p = q :=
  List.inj_on_of_nodup_map spreads.buckets hp hq same

theorem entryIn_eq_some_iff (spreads : L.Spreads g ps) {b : ℕ} {e : Entry} :
    L.entryIn g ps b = some e ↔
      ∃ p n, L.node p = some n ∧ hashToBucket (g.prefixHash p) = b ∧ L.entry g p n = e := by
  rw [entryIn]
  simp only [Option.bind_eq_some_iff, Option.map_eq_some_iff]
  constructor
  · rintro ⟨p, found, n, hp, same⟩
    exact ⟨p, n, hp, by simpa using List.find?_some found, same⟩
  · rintro ⟨p, n, hp, bucket, same⟩
    cases found : ps.find? fun p => hashToBucket (g.prefixHash p) = b with
    | none =>
      have absent := List.find?_eq_none.mp found p (spreads.mem hp)
      exact absurd (decide_eq_true bucket) absent
    | some q =>
      have bucket' : hashToBucket (g.prefixHash q) = b := by simpa using List.find?_some found
      obtain rfl := spreads.eq_of_bucket (List.mem_of_find?_eq_some found) (spreads.mem hp)
        (bucket'.trans bucket.symm)
      exact ⟨q, rfl, n, hp, same⟩

theorem hash_lt (spreads : L.Spreads g ps) (hp : L.node p = some n) :
    hashToBucket (g.prefixHash p) < g.numBuckets :=
  g.hashToBucket_lt (g.prefixHash_lt (spreads.symbols p (spreads.mem hp)))

theorem cells_node (spreads : L.Spreads g ps) (hp : L.node p = some n) :
    (L.spread g ps).cells ⟨hashToBucket (g.prefixHash p), 0⟩ = L.entry g p n := by
  have found := spreads.entryIn_eq_some_iff.mpr ⟨p, n, hp, rfl, rfl⟩
  simp only [spread, if_pos (spreads.hash_lt hp), if_true, found, Option.getD_some]

/-- A used cell holds a node. -/
theorem of_used (spreads : L.Spreads g ps) {loc : Loc} (inTable : loc.bucket < g.numBuckets)
    (used : ((L.spread g ps).cells loc).body.used = true) :
    ∃ p n, L.node p = some n ∧ loc = ⟨hashToBucket (g.prefixHash p), 0⟩ := by
  obtain ⟨b, i⟩ := loc
  simp only [spread, if_pos inTable] at used
  by_cases first : i = 0
  · rw [if_pos first] at used
    cases found : L.entryIn g ps b with
    | none =>
      rw [found] at used
      cases used
    | some e =>
      obtain ⟨p, n, hp, bucket, -⟩ := spreads.entryIn_eq_some_iff.mp found
      exact ⟨p, n, hp, by rw [bucket, first]⟩
  · rw [if_neg first] at used
    cases used

theorem cellHash_node : cellHash g ⟨hashToBucket (g.prefixHash p), 0⟩ (L.entry g p n) =
    g.prefixHash p := by
  simp only [cellHash, entry, Bool.false_eq_true, if_false]
  exact bucket_tag_eq _

theorem used_node : (L.entry g p n).body.used = true := by
  cases n <;> rfl

/-- The cells that hold an entry under a name are those of the nodes of that name. -/
theorem at_iff (spreads : L.Spreads g ps) {loc : Loc} {h c : ℕ} :
    (L.spread g ps).At loc h c ↔ ∃ p n, L.node p = some n ∧
      loc = ⟨hashToBucket (g.prefixHash p), 0⟩ ∧ g.prefixHash p = h ∧ L.color p = c := by
  constructor
  · intro at_
    obtain ⟨p, n, hp, rfl⟩ := spreads.of_used at_.inTable at_.used
    have hash := at_.hash
    have color := at_.color
    rw [spreads.cells_node hp] at hash color
    exact ⟨p, n, hp, rfl, cellHash_node.symm.trans hash, color⟩
  · rintro ⟨p, n, hp, rfl, rfl, rfl⟩
    have cell := spreads.cells_node hp
    refine ⟨spreads.hash_lt hp, ?_, ?_, ?_⟩
    · rw [cell, used_node]
    · rw [cell, cellHash_node]
    · rw [cell]
      rfl

theorem store_node (spreads : L.Spreads g ps) (hp : L.node p = some n) :
    (L.spreadStore g ps).entry (g.prefixHash p) (L.color p) = some (L.entry g p n) := by
  have found := spreads.entryIn_eq_some_iff.mpr ⟨p, n, hp, rfl, rfl⟩
  simp only [spreadStore, found, Option.filter_some]
  exact if_pos (decide_eq_true ⟨rfl, rfl⟩)

theorem of_store (spreads : L.Spreads g ps) {h c : ℕ} {e : Entry}
    (stored : (L.spreadStore g ps).entry h c = some e) :
    ∃ p n, L.node p = some n ∧ g.prefixHash p = h ∧ L.color p = c ∧ e = L.entry g p n := by
  rw [spreadStore, Option.filter_eq_some_iff] at stored
  obtain ⟨found, named⟩ := stored
  obtain ⟨p, n, hp, bucket, rfl⟩ := spreads.entryIn_eq_some_iff.mp found
  obtain ⟨tag, color⟩ := of_decide_eq_true named
  refine ⟨p, n, hp, ?_, color, rfl⟩
  rw [← bucket_tag_eq (g.prefixHash p), ← bucket_tag_eq h, bucket]
  exact congrArg _ tag

/-- The memory holds the store. -/
theorem stores (spreads : L.Spreads g ps) : (L.spread g ps).Stores (L.spreadStore g ps) none where
  unused_invalid loc inTable unused := by
    have free : (L.spread g ps).cells loc = unusedEntry := by
      simp only [spread, if_pos inTable] at unused ⊢
      split at unused
      · next first =>
        rw [if_pos first]
        cases found : L.entryIn g ps loc.bucket with
        | none => rfl
        | some e =>
          obtain ⟨p, n, -, -, rfl⟩ := spreads.entryIn_eq_some_iff.mp found
          rw [found, Option.getD_some, used_node] at unused
          cases unused
      · next other => rw [if_neg other]
    rw [free]
    exact ⟨rfl, rfl⟩
  tag_color loc inTable used := by
    obtain ⟨p, n, hp, rfl⟩ := spreads.of_used inTable used
    rw [spreads.cells_node hp]
    exact ⟨hashToTag_lt _, spreads.valid p (spreads.mem hp)⟩
  content loc h c at_ := by
    obtain ⟨p, n, hp, rfl, rfl, rfl⟩ := spreads.at_iff.mp at_
    rw [spreads.store_node hp, spreads.cells_node hp]
    rfl
  stored h c e stored := by
    obtain ⟨p, n, hp, hash, color, -⟩ := spreads.of_store stored
    exact ⟨_, spreads.at_iff.mpr ⟨p, n, hp, rfl, hash, color⟩, nofun⟩
  unique loc loc' h c at_ at' _ _ := by
    obtain ⟨p, n, hp, rfl, hash, -⟩ := spreads.at_iff.mp at_
    obtain ⟨q, m, hq, rfl, hash', -⟩ := spreads.at_iff.mp at'
    rw [hash, hash']
  root e stored := by
    obtain ⟨p, n, hp, hash, color, -⟩ := spreads.of_store stored
    refine ⟨spreads.at_iff.mpr ⟨p, n, hp, ?_, hash, color⟩, nofun⟩
    rw [hash]
    rfl
  head := if_neg (lt_irrefl _)
  isEmpty := rfl

/-- The store encodes the layout. -/
theorem represents (spreads : L.Spreads g ps) (shape : L.Shape M) (finished : L.Finished)
    (root : L.color [] = rootColor) : L.Represents g (L.spreadStore g ps) M := by
  have node : ∀ {p n}, L.all p = some n → L.node p = some n := finished.node_of_all
  exact
    { stored := fun p n hp => spreads.store_node (node hp)
      only := fun h c e stored => by
        obtain ⟨p, n, hp, hash, color, -⟩ := spreads.of_store stored
        exact ⟨p, n, all_of_node hp, hash, color⟩
      distinct := fun p q n m hp hq hash _ =>
        spreads.eq_of_bucket (spreads.mem (node hp)) (spreads.mem (node hq))
          (congrArg hashToBucket hash)
      symbols := fun p n hp => spreads.symbols p (spreads.mem (node hp))
      valid := fun p n hp => spreads.valid p (spreads.mem (node hp))
      head := rfl
      shape := shape
      parent := fun q children s hq bit => by
        obtain ⟨n, hn⟩ := Option.ne_none_iff_exists'.mp (shape.child _ _ (.bitmap hq bit))
        rw [finished.parent _ n hn, Shape.parentColor_bitmap hq]
      root_color := fun _ => root
      isEmpty := by
        have empty : (L.spreadStore g ps).isEmpty = ps.isEmpty := rfl
        rw [empty, List.isEmpty_iff, ← not_iff_not, ← ne_eq (M.kvs), ← shape.root_iff]
        constructor
        · intro nonempty
          obtain ⟨p, hp⟩ := List.exists_mem_of_ne_nil _ nonempty
          obtain ⟨n, hn⟩ := (spreads.nodes p).mp hp
          obtain ⟨m, hm⟩ := shape.root hn
          simp [hm]
        · intro nonempty
          obtain ⟨m, hm⟩ := Option.ne_none_iff_exists'.mp nonempty
          exact List.ne_nil_of_mem (spreads.mem hm) }

theorem readable (spreads : L.Spreads g ps) (shape : L.Shape M) (finished : L.Finished)
    (root : L.color [] = rootColor) : L.Readable (L.spread g ps) M := by
  have rep := spreads.represents shape finished root
  exact ⟨_, none, spreads.stores, rep, rep.identifies finished⟩

/-- **A layout that is a trie for a map has a memory** as soon as its nodes have primary
buckets of their own. -/
theorem wellFormed (spreads : L.Spreads g ps) (shape : L.Shape M) (linked : L.Linked g M)
    (finished : L.Finished) (root : L.color [] = rootColor) : WellFormed (L.spread g ps) M :=
  ⟨_, L, spreads.stores, spreads.represents shape finished root, linked, finished, fun _ => rfl⟩

end Spreads

end Layout

/-! ## Symbols of sparse keys -/

/-- The bits of a symbol of a key. -/
theorem getStringSymbol_eq_of_bits {bytes : List UInt8} {i v : ℕ} (inside : 5 * i < 8 * bytes.length)
    (small : v < 32) (bits : ∀ m < 5, keyBit bytes (5 * i + 4 - m) = v.testBit m) :
    getStringSymbol bytes i = v + 1 := by
  obtain ⟨w, small', value, bits'⟩ := getStringSymbol_of_lt inside
  rw [value]
  refine congrArg (· + 1) (Nat.eq_of_testBit_eq fun m => ?_)
  by_cases low : m < 5
  · rw [bits' m low, bits m low]
  · have high : 2 ^ 5 ≤ 2 ^ m := Nat.pow_le_pow_right (by decide) (not_lt.mp low)
    rw [Nat.testBit_lt_two_pow (lt_of_lt_of_le small' high),
      Nat.testBit_lt_two_pow (lt_of_lt_of_le small high)]

/-- The prefix of all symbols 1. -/
def back (i : ℕ) : List ℕ := List.replicate i 1

/-- The prefix that leaves it after `i` symbols. -/
def side (i : ℕ) : List ℕ := back i ++ [17]

theorem back_succ (i : ℕ) : back (i + 1) = back i ++ [1] := List.replicate_succ'

@[simp] theorem length_back (i : ℕ) : (back i).length = i := List.length_replicate

@[simp] theorem length_side (i : ℕ) : (side i).length = i + 1 := by simp [side]

theorem back_isPrefix_back {i j : ℕ} (h : i ≤ j) : back i <+: back j := by
  rw [back, back, List.prefix_replicate_iff]
  exact ⟨by simpa using h, by simp⟩

theorem side_ne_back (i j : ℕ) : side i ≠ back j := by
  intro same
  have mem : 17 ∈ back j := same ▸ List.mem_append_right _ (List.mem_singleton_self 17)
  exact absurd (List.eq_of_mem_replicate mem) (by decide)

/-- A key of zero bits up to a place begins with symbols 1. -/
theorem back_isPrefix {bytes : List UInt8} {n : ℕ} (inside : ∀ i < n, 5 * i < 8 * bytes.length)
    (zero : ∀ p < 5 * n, keyBit bytes p = false) : back n <+: keySymbols bytes := by
  rw [List.prefix_iff_getElem?]
  intro i hi
  rw [length_back] at hi
  have here := inside i hi
  rw [getElem?_keySymbols (by rw [numKeySymbols_eq]; omega),
    getStringSymbol_eq_of_bits (v := 0) here (by decide) fun m hm => ?_]
  · simp [back]
  · rw [zero _ (by omega), Nat.zero_testBit]

theorem keyBit_zeros (k p : ℕ) : keyBit (List.replicate k 0) p = false := by
  rw [keyBit]
  have byte : (List.replicate k (0 : UInt8)).getD (p / 8) 0 = 0 := by
    rw [List.getD_eq_getElem?_getD, List.getElem?_replicate]
    split <;> rfl
  rw [byte]
  exact Nat.zero_testBit _

/-- The key whose only set bit is the first one of its symbol `i`. -/
def toothKey (i : ℕ) : List UInt8 :=
  List.replicate (5 * i / 8) 0 ++ [UInt8.ofNat (2 ^ (7 - 5 * i % 8))]

theorem keyBit_toothKey (i p : ℕ) : keyBit (toothKey i) p = decide (p = 5 * i) := by
  have bit : ∀ r < 8, ∀ q < 8,
      (UInt8.ofNat (2 ^ (7 - r))).toNat.testBit (7 - q) = decide (q = r) := by decide
  rw [keyBit, toothKey, List.getD_eq_getElem?_getD]
  rcases lt_trichotomy (p / 8) (5 * i / 8) with before | at_ | after
  · rw [List.getElem?_append_left (by simpa using before), List.getElem?_replicate, if_pos before,
      Option.getD_some, decide_eq_false (by omega)]
    exact Nat.zero_testBit _
  · rw [List.getElem?_append_right (by simp [at_])]
    simp only [List.length_replicate, at_, Nat.sub_self, List.getElem?_cons_zero, Option.getD_some]
    rw [bit _ (Nat.mod_lt _ (by decide)) _ (Nat.mod_lt _ (by decide)), decide_eq_decide]
    omega
  · rw [List.getElem?_eq_none (by simp; omega), Option.getD_none, decide_eq_false (by omega)]
    exact Nat.zero_testBit _

theorem length_toothKey (i : ℕ) : (toothKey i).length = 5 * i / 8 + 1 := by simp [toothKey]

theorem side_isPrefix (i : ℕ) : side i <+: keySymbols (toothKey i) := by
  have inside : 5 * i < 8 * (toothKey i).length := by
    rw [length_toothKey]
    omega
  have above : back i <+: keySymbols (toothKey i) := by
    refine back_isPrefix (fun j hj => by omega) fun p hp => ?_
    rw [keyBit_toothKey, decide_eq_false (by omega)]
  refine (PrefixOrder.concat_prefix_iff above).mpr ?_
  rw [length_back, getElem?_keySymbols (by rw [numKeySymbols_eq]; omega),
    getStringSymbol_eq_of_bits (v := 16) inside (by decide) fun m hm => ?_]
  rw [keyBit_toothKey]
  have cases_ : m = 0 ∨ m = 1 ∨ m = 2 ∨ m = 3 ∨ m = 4 := by omega
  rcases cases_ with rfl | rfl | rfl | rfl | rfl <;> simp <;> decide

/-! ## Combs -/

/-- The objects of a comb with a back of `n` symbols: one at the end of the back, and one
that leaves it at each symbol. -/
structure Comb (n : ℕ) where
  handle : CtKv
  tooth : ℕ → CtKv
  handle_key : back n <+: keySymbols handle.key
  tooth_key : ∀ i < n, side i <+: keySymbols (tooth i).key

namespace Comb

variable {n : ℕ} (c : Comb n)

/-- The nodes of a comb. -/
def node (p : List ℕ) : Option Node :=
  if p = back p.length then
    if p.length < n then some (.bitmap (2 ^ 1 + 2 ^ 17))
    else if p.length = n then some (.leaf c.handle) else none
  else if p = side (p.length - 1) ∧ p.length ≤ n then some (.leaf (c.tooth (p.length - 1)))
  else none

/-- The locator of the leaf on the last of the first teeth. -/
def next (g : Geometry) : ℕ → Locator
  | 0 => ⟨endOfList, 0, 0⟩
  | i + 1 => ⟨hashToBucket (g.prefixHash (side i)), hashToTag (g.prefixHash (side i)), 0⟩

/-- The layout of a comb. -/
def layout (g : Geometry) : Layout where
  node := c.node
  draft _ := none
  color _ := 0
  parent p := if p = [] then invalidColor else 0
  link p :=
    if p = back p.length then if p.length < n then next g (p.length + 1) else next g n
    else next g (p.length - 1)
  dirty _ := false
  first := ⟨hashToBucket (g.prefixHash (back n)), hashToTag (g.prefixHash (back n)), 0⟩
  firstDirty := false

theorem node_back {i : ℕ} (h : i < n) : c.node (back i) = some (.bitmap (2 ^ 1 + 2 ^ 17)) := by
  rw [node, length_back, if_pos rfl, if_pos h]

theorem node_handle : c.node (back n) = some (.leaf c.handle) := by
  rw [node, length_back, if_pos rfl, if_neg (lt_irrefl n), if_pos rfl]

theorem node_side {i : ℕ} (h : i < n) : c.node (side i) = some (.leaf (c.tooth i)) := by
  rw [node, length_side, if_neg (side_ne_back i _), Nat.add_sub_cancel, if_pos ⟨rfl, h⟩]

/-- There are no other nodes. -/
theorem node_cases {p : List ℕ} {m : Node} (h : c.node p = some m) :
    (∃ i < n, p = back i ∧ m = .bitmap (2 ^ 1 + 2 ^ 17)) ∨ (p = back n ∧ m = .leaf c.handle) ∨
      ∃ i < n, p = side i ∧ m = .leaf (c.tooth i) := by
  rw [node] at h
  split at h
  · next onBack =>
    split at h
    · next inside => exact Or.inl ⟨p.length, inside, onBack, (Option.some.inj h).symm⟩
    · split at h
      · next last => exact Or.inr (Or.inl ⟨last ▸ onBack, (Option.some.inj h).symm⟩)
      · cases h
  · next offBack =>
    split at h
    · next onSide =>
      have nonempty : p ≠ [] := by
        rintro rfl
        exact offBack rfl
      have positive := List.length_pos_iff.mpr nonempty
      exact Or.inr (Or.inr ⟨p.length - 1, by omega, onSide.1, (Option.some.inj h).symm⟩)
    · cases h

theorem testBit_children {s : ℕ} : (2 ^ 1 + 2 ^ 17).testBit s = true ↔ s = 1 ∨ s = 17 := by
  constructor
  · intro bit
    have small : ∀ s < 18, (2 ^ 1 + 2 ^ 17).testBit s = true → s = 1 ∨ s = 17 := by decide
    refine small s ?_ bit
    by_contra large
    have high : 2 ^ 18 ≤ 2 ^ s := Nat.pow_le_pow_right (by decide) (not_lt.mp large)
    rw [Nat.testBit_lt_two_pow (lt_of_lt_of_le (by decide) high)] at bit
    cases bit
  · rintro (rfl | rfl) <;> decide

/-! ### The keys of a comb -/

theorem tooth_lt {i j : ℕ} (hij : i < j) (hj : j < n) : (c.tooth j).key < (c.tooth i).key := by
  rw [← keySymbols_lt_iff]
  have longer : back i ++ [1] <+: keySymbols (c.tooth j).key := by
    rw [← back_succ]
    exact (back_isPrefix_back hij).trans ((List.prefix_append _ _).trans (c.tooth_key j hj))
  exact PrefixOrder.lt_of_concat (by decide) longer (c.tooth_key i (hij.trans hj))

theorem handle_lt {i : ℕ} (h : i < n) : c.handle.key < (c.tooth i).key := by
  rw [← keySymbols_lt_iff]
  have longer : back i ++ [1] <+: keySymbols c.handle.key := by
    rw [← back_succ]
    exact (back_isPrefix_back h).trans c.handle_key
  exact PrefixOrder.lt_of_concat (by decide) longer (c.tooth_key i h)

/-- The map of a comb: the teeth come in the order from the handle back to the root. -/
def map : KeyMap where
  kvs := c.handle :: ((List.range n).map c.tooth).reverse
  sorted := by
    refine List.pairwise_cons.mpr ⟨fun kv mem => ?_, ?_⟩
    · simp only [List.mem_reverse, List.mem_map, List.mem_range] at mem
      obtain ⟨i, hi, rfl⟩ := mem
      exact c.handle_lt hi
    · rw [List.pairwise_reverse, List.pairwise_map]
      refine List.pairwise_lt_range.imp_of_mem fun {i j} _ hj less => ?_
      exact c.tooth_lt less (List.mem_range.mp hj)

theorem mem_map {kv : CtKv} : kv ∈ c.map ↔ kv = c.handle ∨ ∃ i < n, kv = c.tooth i := by
  simp only [KeyMap.mem_def, map, List.mem_cons, List.mem_reverse, List.mem_map, List.mem_range,
    eq_comm]

/-! ### A comb is a trie -/

@[simp] theorem layout_node (g : Geometry) : (c.layout g).node = c.node := rfl

theorem child_cases {q p : List ℕ} (child : (c.layout g).Child q p) :
    ∃ i < n, q = back i ∧ (p = back (i + 1) ∨ p = side i) := by
  cases child with
  | @bitmap children s node bit =>
    obtain ⟨i, hi, rfl, same⟩ | ⟨rfl, same⟩ | ⟨i, hi, rfl, same⟩ := c.node_cases node
    · cases same
      refine ⟨i, hi, rfl, ?_⟩
      rcases testBit_children.mp bit with rfl | rfl
      · exact Or.inl (back_succ i).symm
      · exact Or.inr rfl
    · cases same
    · cases same
  | jump node =>
    obtain ⟨i, hi, rfl, same⟩ | ⟨rfl, same⟩ | ⟨i, hi, rfl, same⟩ := c.node_cases node <;> cases same

theorem child_back {i : ℕ} (h : i < n) : (c.layout g).Child (back i) (back (i + 1)) := by
  rw [back_succ]
  exact .bitmap (c.node_back h) (testBit_children.mpr (Or.inl rfl))

theorem child_side {i : ℕ} (h : i < n) : (c.layout g).Child (back i) (side i) :=
  .bitmap (c.node_back h) (testBit_children.mpr (Or.inr rfl))

theorem exists_node_back {i : ℕ} (h : i ≤ n) : ∃ m, c.node (back i) = some m := by
  rcases h.lt_or_eq with lt | rfl
  · exact ⟨_, c.node_back lt⟩
  · exact ⟨_, c.node_handle⟩

theorem parent_back {i : ℕ} (h : i ≤ n) : back i = [] ∨ ∃ q, (c.layout g).Child q (back i) := by
  cases i with
  | zero => exact Or.inl rfl
  | succ i => exact Or.inr ⟨back i, c.child_back h⟩

theorem back_isPrefix_tooth {i j : ℕ} (hij : i ≤ j) (hj : j < n) :
    KeyMap.Below (back i) (c.tooth j) :=
  (back_isPrefix_back hij).trans ((List.prefix_append _ _).trans (c.tooth_key j hj))

theorem shape (g : Geometry) : (c.layout g).Shape c.map where
  parent p m hp := by
    obtain ⟨i, hi, rfl, -⟩ | ⟨rfl, -⟩ | ⟨i, hi, rfl, -⟩ := c.node_cases hp
    · exact c.parent_back hi.le
    · exact c.parent_back le_rfl
    · exact Or.inr ⟨back i, c.child_side hi⟩
  child q p child := by
    obtain ⟨i, hi, rfl, rfl | rfl⟩ := c.child_cases child
    · obtain ⟨m, hm⟩ := c.exists_node_back hi
      simp [hm]
    · simp [c.node_side hi]
  bitmap q children hq := by
    obtain ⟨i, hi, -, same⟩ | ⟨-, same⟩ | ⟨i, hi, -, same⟩ := c.node_cases hq <;> cases same
    decide
  jump q symbols hq := by
    obtain ⟨i, hi, -, same⟩ | ⟨-, same⟩ | ⟨i, hi, -, same⟩ := c.node_cases hq <;> cases same
  jump_child q symbols m hq := by
    obtain ⟨i, hi, -, same⟩ | ⟨-, same⟩ | ⟨i, hi, -, same⟩ := c.node_cases hq <;> cases same
  leaf p kv hp := by
    obtain ⟨i, hi, -, same⟩ | ⟨rfl, same⟩ | ⟨i, hi, rfl, same⟩ := c.node_cases hp <;> cases same
    · exact ⟨c.mem_map.mpr (Or.inl rfl), c.handle_key⟩
    · exact ⟨c.mem_map.mpr (Or.inr ⟨i, hi, rfl⟩), c.tooth_key i hi⟩
  key kv mem := by
    obtain rfl | ⟨i, hi, rfl⟩ := c.mem_map.mp mem
    · exact ⟨_, c.node_handle⟩
    · exact ⟨_, c.node_side hi⟩
  live q m hq inner := by
    obtain ⟨i, hi, rfl, rfl⟩ | ⟨-, rfl⟩ | ⟨i, hi, -, rfl⟩ := c.node_cases hq
    · exact ⟨_, c.mem_map.mpr (Or.inr ⟨i, hi, rfl⟩), c.back_isPrefix_tooth le_rfl hi⟩
    · cases inner
    · cases inner

/-! ### The links of a comb -/

/-- The last of the first teeth, in the order of their distance from the root. -/
def lastTooth : ℕ → Option CtKv
  | 0 => none
  | i + 1 => some (c.tooth i)

theorem next_pointsTo {i : ℕ} (h : i ≤ n) : (c.layout g).PointsTo g (next g i) (c.lastTooth i) := by
  cases i with
  | zero => rfl
  | succ i => exact ⟨side i, c.node_side h, rfl⟩

theorem after_tooth {i : ℕ} (h : i < n) : c.map.after (c.tooth i).key = c.lastTooth i := by
  cases i with
  | zero =>
    refine KeyMap.first_eq_none_iff.mpr fun kv mem => not_lt.mpr ?_
    obtain rfl | ⟨j, hj, rfl⟩ := c.mem_map.mp mem
    · exact (c.handle_lt h).le
    · rcases Nat.eq_zero_or_pos j with rfl | positive
      · exact le_rfl
      · exact (c.tooth_lt positive hj).le
  | succ i =>
    have inside : i < n := Nat.lt_of_succ_lt h
    refine KeyMap.first_eq_some_iff.mpr ⟨c.mem_map.mpr (Or.inr ⟨i, inside, rfl⟩),
      c.tooth_lt (Nat.lt_succ_self i) h, fun kv mem later => ?_⟩
    obtain rfl | ⟨j, hj, rfl⟩ := c.mem_map.mp mem
    · exact absurd later (c.handle_lt h).le.not_gt
    · rcases lt_trichotomy j i with before | rfl | behind
      · exact (c.tooth_lt before inside).le
      · exact le_rfl
      · rcases (show i + 1 ≤ j from behind).lt_or_eq with far | rfl
        · exact absurd later (c.tooth_lt far hj).le.not_gt
        · exact absurd later (lt_irrefl _)

theorem after_handle : c.map.after c.handle.key = c.lastTooth n := by
  cases n with
  | zero =>
    refine KeyMap.first_eq_none_iff.mpr fun kv mem => not_lt.mpr ?_
    obtain rfl | ⟨j, hj, rfl⟩ := c.mem_map.mp mem
    · exact le_rfl
    · exact absurd hj (Nat.not_lt_zero j)
  | succ n =>
    refine KeyMap.first_eq_some_iff.mpr ⟨c.mem_map.mpr (Or.inr ⟨n, Nat.lt_succ_self n, rfl⟩),
      c.handle_lt (Nat.lt_succ_self n), fun kv mem later => ?_⟩
    obtain rfl | ⟨j, hj, rfl⟩ := c.mem_map.mp mem
    · exact absurd later (lt_irrefl _)
    · rcases (Nat.lt_succ_iff.mp hj).lt_or_eq with less | rfl
      · exact (c.tooth_lt less (Nat.lt_succ_self n)).le
      · exact le_rfl

theorem last_below {i : ℕ} (h : i < n) : c.map.last (KeyMap.Below (back i)) = some (c.tooth i) := by
  refine KeyMap.last_eq_some_iff.mpr ⟨c.mem_map.mpr (Or.inr ⟨i, h, rfl⟩),
    c.back_isPrefix_tooth le_rfl h, fun kv mem below => ?_⟩
  obtain rfl | ⟨j, hj, rfl⟩ := c.mem_map.mp mem
  · exact (c.handle_lt h).le
  · rcases lt_trichotomy j i with before | rfl | behind
    · -- the teeth before the place leave the back above it
      have onBack : back j ++ [1] <+: keySymbols (c.tooth j).key := by
        rw [← back_succ]
        exact (back_isPrefix_back before).trans below
      exact absurd (PrefixOrder.concat_prefix_unique onBack (c.tooth_key j hj)) (by decide)
    · exact le_rfl
    · exact (c.tooth_lt behind hj).le

theorem linked (g : Geometry) : (c.layout g).Linked g c.map where
  clean _ _ _ := rfl
  first_clean := rfl
  next p kv hp := by
    obtain ⟨i, hi, -, same⟩ | ⟨rfl, same⟩ | ⟨i, hi, rfl, same⟩ := c.node_cases hp <;> cases same
    · rw [c.after_handle]
      have link : (c.layout g).link (back n) = next g n := by simp [layout]
      rw [link]
      exact c.next_pointsTo le_rfl
    · rw [c.after_tooth hi]
      have link : (c.layout g).link (side i) = next g i := by simp [layout, side_ne_back]
      rw [link]
      exact c.next_pointsTo hi.le
  max q m hq inner := by
    obtain ⟨i, hi, rfl, rfl⟩ | ⟨-, rfl⟩ | ⟨i, hi, -, rfl⟩ := c.node_cases hq
    · rw [c.last_below hi]
      have link : (c.layout g).link (back i) = next g (i + 1) := by simp [layout, hi]
      rw [link]
      exact c.next_pointsTo hi
    · cases inner
    · cases inner
  first := by
    have least : (c.map.first fun _ => True) = some c.handle := by
      refine KeyMap.first_eq_some_iff.mpr ⟨c.mem_map.mpr (Or.inl rfl), trivial, fun kv mem _ => ?_⟩
      obtain rfl | ⟨j, hj, rfl⟩ := c.mem_map.mp mem
      · exact le_rfl
      · exact (c.handle_lt hj).le
    rw [least]
    exact ⟨back n, c.node_handle, rfl⟩

theorem finished (g : Geometry) : (c.layout g).Finished where
  no_draft _ := rfl
  parent p m hp := by
    have inner : ∀ {i s}, i < n →
        (c.layout g).parentColor (back i ++ [s]) = (c.layout g).parent (back i ++ [s]) :=
      fun hi => by
        rw [Layout.Shape.parentColor_bitmap (c.node_back hi)]
        simp [layout]
    have onBack : ∀ i ≤ n, (c.layout g).parent (back i) = (c.layout g).parentColor (back i) := by
      intro i hi
      cases i with
      | zero => rfl
      | succ i =>
        rw [back_succ]
        exact (inner hi).symm
    obtain ⟨i, hi, rfl, -⟩ | ⟨rfl, -⟩ | ⟨i, hi, rfl, -⟩ := c.node_cases hp
    · exact onBack i hi.le
    · exact onBack n le_rfl
    · exact (inner hi).symm

/-! ### The memory of a comb -/

/-- The prefixes of the nodes from place `i` of the back on. -/
def pathsFrom (i n : ℕ) : List (List ℕ) :=
  (List.range' i n).flatMap (fun j => [back j, side j]) ++ [back (i + n)]

/-- The primary buckets of the nodes from a place of the back on, whose prefix has the
given hash. -/
def bucketsFrom (g : Geometry) : ℕ → ℕ → List ℕ
  | 0, hash => [hashToBucket hash]
  | n + 1, hash =>
    hashToBucket hash :: hashToBucket (g.accumulateHash hash 17) ::
      bucketsFrom g n (g.accumulateHash hash 1)

theorem pathsFrom_buckets (g : Geometry) (i n : ℕ) :
    ((pathsFrom i n).map fun p => hashToBucket (g.prefixHash p)) =
      bucketsFrom g n (g.prefixHash (back i)) := by
  induction n generalizing i with
  | zero => rfl
  | succ n ih =>
    have next : pathsFrom i (n + 1) = back i :: side i :: pathsFrom (i + 1) n := by
      rw [pathsFrom, pathsFrom, List.range'_succ, List.flatMap_cons, Nat.add_right_comm i 1 n]
      rfl
    rw [next, List.map_cons, List.map_cons, ih, bucketsFrom, side, back_succ, g.prefixHash_concat,
      g.prefixHash_concat]

theorem mem_pathsFrom {p : List ℕ} :
    p ∈ pathsFrom 0 n ↔ (∃ i ≤ n, p = back i) ∨ ∃ i < n, p = side i := by
  simp only [pathsFrom, List.mem_append, List.mem_flatMap, List.mem_range'_1, List.mem_cons,
    List.not_mem_nil, or_false, Nat.zero_add, Nat.zero_le, true_and]
  constructor
  · rintro (⟨i, hi, rfl | rfl⟩ | rfl)
    · exact Or.inl ⟨i, hi.le, rfl⟩
    · exact Or.inr ⟨i, hi, rfl⟩
    · exact Or.inl ⟨n, le_rfl, rfl⟩
  · rintro (⟨i, hi, rfl⟩ | ⟨i, hi, rfl⟩)
    · rcases hi.lt_or_eq with lt | rfl
      · exact Or.inl ⟨i, lt, Or.inl rfl⟩
      · exact Or.inr rfl
    · exact Or.inl ⟨i, hi, Or.inr rfl⟩

theorem spreads (distinct : (bucketsFrom g n 0).Nodup) :
    (c.layout g).Spreads g (pathsFrom 0 n) where
  nodes p := by
    rw [mem_pathsFrom]
    constructor
    · rintro (⟨i, hi, rfl⟩ | ⟨i, hi, rfl⟩)
      · exact c.exists_node_back hi
      · exact ⟨_, c.node_side hi⟩
    · rintro ⟨m, hm⟩
      obtain ⟨i, hi, rfl, -⟩ | ⟨rfl, -⟩ | ⟨i, hi, rfl, -⟩ := c.node_cases hm
      · exact Or.inl ⟨i, hi.le, rfl⟩
      · exact Or.inl ⟨n, le_rfl, rfl⟩
      · exact Or.inr ⟨i, hi, rfl⟩
  buckets := by
    rw [pathsFrom_buckets]
    exact distinct
  symbols p mem s hs := by
    obtain ⟨i, -, rfl⟩ | ⟨i, -, rfl⟩ := mem_pathsFrom.mp mem
    · rw [List.eq_of_mem_replicate hs]
      decide
    · rcases List.mem_append.mp hs with inside | last
      · rw [List.eq_of_mem_replicate inside]
        decide
      · rw [List.mem_singleton.mp last]
        decide
  valid p mem := Nat.zero_le _

/-- The memory of a comb. -/
def memory (g : Geometry) : Trie g := (c.layout g).spread g (pathsFrom 0 n)

/-- **A comb is a well-formed trie** if the buckets of its nodes are distinct. -/
theorem wellFormed (distinct : (bucketsFrom g n 0).Nodup) : WellFormed (c.memory g) c.map :=
  (c.spreads distinct).wellFormed (c.shape g) (c.linked g) (c.finished g) rfl

theorem readable (distinct : (bucketsFrom g n 0).Nodup) :
    (c.layout g).Readable (c.memory g) c.map :=
  (c.spreads distinct).readable (c.shape g) (c.finished g) rfl

end Comb

/-! ## The longest comb -/

/-- Whether all numbers of a list are distinct and not in a set. -/
def distinctOutside : ℕ → List ℕ → Bool
  | _, [] => true
  | seen, b :: bs => !seen.testBit b && distinctOutside (seen ||| 2 ^ b) bs

theorem nodup_of_distinctOutside {seen : ℕ} {bs : List ℕ} (h : distinctOutside seen bs = true) :
    bs.Nodup ∧ ∀ b ∈ bs, seen.testBit b = false := by
  induction bs generalizing seen with
  | nil => exact ⟨List.nodup_nil, nofun⟩
  | cons b bs ih =>
    rw [distinctOutside, Bool.and_eq_true, Bool.not_eq_true'] at h
    obtain ⟨nodup, outside⟩ := ih h.2
    have apart : ∀ b' ∈ bs, seen.testBit b' = false ∧ b ≠ b' := by
      intro b' mem
      have := outside b' mem
      rw [Nat.testBit_or, Bool.or_eq_false_iff, Nat.testBit_two_pow] at this
      exact ⟨this.1, of_decide_eq_false this.2⟩
    refine ⟨List.nodup_cons.mpr ⟨fun mem => (apart b mem).2 rfl, nodup⟩, fun b' mem => ?_⟩
    rcases List.mem_cons.mp mem with rfl | later
    · exact h.1
    · exact (apart b' later).1

/-- The comb of the two keys `00` and `80`, whose only bitmap is the root. -/
def smallComb : Comb 1 where
  handle := ⟨1, [0]⟩
  tooth i := ⟨i + 2, toothKey i⟩
  handle_key := by decide
  tooth_key i _ := side_isPrefix i

/-- The trie of these two keys in it. -/
def smallTrie : Trie smallGeometry := smallComb.memory smallGeometry

theorem smallTrie_wellFormed : WellFormed smallTrie smallComb.map :=
  smallComb.wellFormed (by decide +kernel)

/-- The comb below a key of `MAX_KEY_BYTES` zero bytes. -/
def longComb : Comb maxKeySymbols where
  handle := ⟨0, List.replicate maxKeyBytes 0⟩
  tooth i := ⟨i + 1, toothKey i⟩
  handle_key := by
    refine back_isPrefix (fun i hi => ?_) fun p _ => keyBit_zeros _ p
    rw [List.length_replicate]
    change i < 410 at hi
    change 5 * i < 8 * 256
    omega
  tooth_key i _ := side_isPrefix i

theorem longComb_distinct :
    (Comb.bucketsFrom (.ctAlloc 139264 (by decide) (by decide)) maxKeySymbols 0).Nodup := by
  have distinct : distinctOutside 0
      (Comb.bucketsFrom (.ctAlloc 139264 (by decide) (by decide)) maxKeySymbols 0) = true := by
    decide +kernel
  exact (nodup_of_distinctOutside distinct).1

end CuckooTrie
