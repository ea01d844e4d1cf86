import CuckooTrie.Combs
import CuckooTrie.Drafts
import CuckooTrie.Iteration
import CuckooTrie.PackedLeaf
import CuckooTrie.Updating

/-!
# Updating a value touches one pointer

`ct_update` and `ct_upsert` of a key that is in the map store a new object in the leaf
of the key.  In the map this rebinds the key, at its place in the order; in the tree
one leaf is renamed (`Layout.rebind`), and no link and no other field is touched; in
the memory one cell changes, and in it only the object pointer (`Trie.Rebinds`).
-/

namespace CuckooTrie

open Packed Sys

variable {g : Geometry} {t t' : Trie g} {S : Store} {L : Layout} {M : KeyMap} {p q : List ℕ}
  {n : Node} {kv kv' old : CtKv} {key : List UInt8}

/-! ## Rebinding a key of a map -/

/-- The object of the same key, or the object itself. -/
def CtKv.rebind (kv kv' : CtKv) : CtKv := if kv'.key = kv.key then kv else kv'

@[simp] theorem CtKv.rebind_key (kv kv' : CtKv) : (kv.rebind kv').key = kv'.key := by
  unfold rebind
  split
  · next same => exact same.symm
  · rfl

theorem CtKv.rebind_of_ne (ne : kv'.key ≠ kv.key) : kv.rebind kv' = kv' := if_neg ne

theorem CtKv.rebind_of_eq (same : kv'.key = kv.key) : kv.rebind kv' = kv := if_pos same

namespace KeyMap

theorem mem_insert_iff_rebind (mem : old ∈ M) (same : old.key = kv.key) :
    kv' ∈ M.insert kv ↔ ∃ a ∈ M, kv.rebind a = kv' := by
  rw [mem_insert]
  constructor
  · rintro (rfl | ⟨mem', ne⟩)
    · exact ⟨old, mem, CtKv.rebind_of_eq same⟩
    · exact ⟨kv', mem', CtKv.rebind_of_ne ne⟩
  · rintro ⟨a, mem', rfl⟩
    by_cases eq : a.key = kv.key
    · exact Or.inl (CtKv.rebind_of_eq eq)
    · rw [CtKv.rebind_of_ne eq]
      exact Or.inr ⟨mem', eq⟩

/-- **An object of a key that is in the map takes the place of the old one.** -/
theorem kvs_insert_of_mem (mem : old ∈ M) (same : old.key = kv.key) :
    (M.insert kv).kvs = M.kvs.map kv.rebind := by
  have sorted : (M.kvs.map kv.rebind).Pairwise fun a b => a.key < b.key := by
    rw [List.pairwise_map]
    simpa using M.sorted
  have eq : M.insert kv = ⟨M.kvs.map kv.rebind, sorted⟩ := by
    refine ext fun kv' => ?_
    rw [mem_insert_iff_rebind mem same]
    exact List.mem_map.symm
  rw [eq]

theorem first_insert_rebind {P : CtKv → Prop} [DecidablePred P] (mem : old ∈ M)
    (same : old.key = kv.key) (keyed : ∀ a, P (kv.rebind a) ↔ P a) :
    (M.insert kv).first P = (M.first P).map kv.rebind := by
  rw [first, first, kvs_insert_of_mem mem same, List.find?_map]
  congr 2
  funext a
  simp [keyed]

theorem last_insert_rebind {P : CtKv → Prop} [DecidablePred P] (mem : old ∈ M)
    (same : old.key = kv.key) (keyed : ∀ a, P (kv.rebind a) ↔ P a) :
    (M.insert kv).last P = (M.last P).map kv.rebind := by
  rw [last, last, kvs_insert_of_mem mem same, ← List.map_reverse, List.find?_map]
  congr 2
  funext a
  simp [keyed]

theorem below_rebind (q : List ℕ) (a : CtKv) : Below q (kv.rebind a) ↔ Below q a := by
  rw [Below, Below, CtKv.rebind_key]

theorem from_insert_rebind (mem : old ∈ M) (same : old.key = kv.key) (key : List UInt8) :
    (M.insert kv).from key = (M.from key).map kv.rebind := by
  rw [«from», «from», kvs_insert_of_mem mem same, List.filter_map]
  congr 2
  funext a
  simp

end KeyMap

/-! ## Rebinding a leaf of a layout -/

/-- A node with its object rebound. -/
def Node.rebind (kv : CtKv) : Node → Node
  | .leaf kv' => .leaf (kv.rebind kv')
  | n => n

@[simp] theorem Node.isInner_rebind (kv : CtKv) (n : Node) :
    (n.rebind kv).isInner = n.isInner := by
  cases n <;> rfl

namespace Layout

/-- The layout with the leaf of a key rebound. -/
def rebind (L : Layout) (kv : CtKv) : Layout :=
  { L with node := fun r => (L.node r).map (Node.rebind kv) }

theorem node_rebind (r : List ℕ) : (L.rebind kv).node r = (L.node r).map (Node.rebind kv) := rfl

theorem node_rebind_bitmap {children : ℕ} :
    (L.rebind kv).node q = some (.bitmap children) ↔ L.node q = some (.bitmap children) := by
  rw [node_rebind]
  cases L.node q with
  | none => simp
  | some n => cases n <;> simp [Node.rebind]

theorem node_rebind_jump {symbols : List ℕ} :
    (L.rebind kv).node q = some (.jump symbols) ↔ L.node q = some (.jump symbols) := by
  rw [node_rebind]
  cases L.node q with
  | none => simp
  | some n => cases n <;> simp [Node.rebind]

theorem node_rebind_leaf :
    (L.rebind kv).node q = some (.leaf kv') ↔
      ∃ a, L.node q = some (.leaf a) ∧ kv.rebind a = kv' := by
  rw [node_rebind]
  cases L.node q with
  | none => simp
  | some n => cases n <;> simp [Node.rebind]

theorem child_rebind : (L.rebind kv).Child q p ↔ L.Child q p := by
  constructor
  · intro child
    cases child with
    | bitmap hq bit => exact .bitmap (node_rebind_bitmap.mp hq) bit
    | jump hq => exact .jump (node_rebind_jump.mp hq)
  · intro child
    cases child with
    | bitmap hq bit => exact .bitmap (node_rebind_bitmap.mpr hq) bit
    | jump hq => exact .jump (node_rebind_jump.mpr hq)

theorem exists_node_rebind (hp : (L.rebind kv).node p = some n) :
    ∃ m, L.node p = some m ∧ m.rebind kv = n := Option.map_eq_some_iff.mp hp

/-- The tree is one for the map with the key rebound. -/
theorem Shape.rebind (shape : L.Shape M) (mem : old ∈ M) (same : old.key = kv.key) :
    (L.rebind kv).Shape (M.insert kv) where
  parent p n hp := by
    obtain ⟨m, hm, -⟩ := exists_node_rebind hp
    exact (shape.parent p m hm).imp_right fun ⟨q, child⟩ => ⟨q, child_rebind.mpr child⟩
  child q p child := by
    rw [node_rebind, ne_eq, Option.map_eq_none_iff]
    exact shape.child q p (child_rebind.mp child)
  bitmap q children hq := shape.bitmap q children (node_rebind_bitmap.mp hq)
  jump q symbols hq := shape.jump q symbols (node_rebind_jump.mp hq)
  jump_child q symbols n hq hp := by
    obtain ⟨m, hm, rfl⟩ := exists_node_rebind hp
    rw [Node.isInner_rebind]
    exact shape.jump_child q symbols m (node_rebind_jump.mp hq) hm
  leaf p kv' hp := by
    obtain ⟨a, ha, rfl⟩ := node_rebind_leaf.mp hp
    obtain ⟨mem', below⟩ := shape.leaf p a ha
    refine ⟨(KeyMap.mem_insert_iff_rebind mem same).mpr ⟨a, mem', rfl⟩, ?_⟩
    rw [CtKv.rebind_key]
    exact below
  key kv' mem' := by
    obtain ⟨a, ha, rfl⟩ := (KeyMap.mem_insert_iff_rebind mem same).mp mem'
    obtain ⟨p, hp⟩ := shape.key a ha
    exact ⟨p, node_rebind_leaf.mpr ⟨a, hp, rfl⟩⟩
  live q n hq inner := by
    obtain ⟨m, hm, rfl⟩ := exists_node_rebind hq
    rw [Node.isInner_rebind] at inner
    obtain ⟨a, ha, below⟩ := shape.live q m hm inner
    exact ⟨kv.rebind a, (KeyMap.mem_insert_iff_rebind mem same).mpr ⟨a, ha, rfl⟩,
      (KeyMap.below_rebind q a).mpr below⟩

/-- A locator of an object is one of the object that took its place. -/
theorem PointsTo.rebind {loc : Locator} {okv : Option CtKv} (points : L.PointsTo g loc okv) :
    (L.rebind kv).PointsTo g loc (okv.map kv.rebind) := by
  cases okv with
  | none => exact points
  | some a =>
    obtain ⟨p, hp, link⟩ := points
    exact ⟨p, node_rebind_leaf.mpr ⟨a, hp, rfl⟩, link⟩

/-- No link has to change. -/
theorem Linked.rebind (linked : L.Linked g M) (mem : old ∈ M) (same : old.key = kv.key) :
    (L.rebind kv).Linked g (M.insert kv) where
  clean p n hp := by
    obtain ⟨m, hm, -⟩ := exists_node_rebind hp
    exact linked.clean p m hm
  first_clean := linked.first_clean
  next p kv' hp := by
    obtain ⟨a, ha, rfl⟩ := node_rebind_leaf.mp hp
    rw [CtKv.rebind_key, KeyMap.after, KeyMap.first_insert_rebind mem same (by simp)]
    exact (linked.next p a ha).rebind
  max q n hq inner := by
    obtain ⟨m, hm, rfl⟩ := exists_node_rebind hq
    rw [Node.isInner_rebind] at inner
    rw [KeyMap.last_insert_rebind mem same (KeyMap.below_rebind q)]
    exact (linked.max q m hm inner).rebind
  first := by
    rw [KeyMap.first_insert_rebind mem same (by simp)]
    exact linked.first.rebind

theorem Finished.rebind (finished : L.Finished) : (L.rebind kv).Finished where
  no_draft := finished.no_draft
  parent p n hp := by
    obtain ⟨m, hm, -⟩ := exists_node_rebind hp
    have parent := finished.parent p m hm
    unfold parentColor at parent ⊢
    refine parent.trans (ite_congr rfl (fun _ => rfl) fun _ => ?_)
    rw [node_rebind]
    cases L.node p.dropLast with
    | none => rfl
    | some n => cases n <;> rfl

/-- The store with the entry of one leaf changed encodes the layout. -/
theorem Represents.rebind (rep : L.Represents g S M) (hp : L.node p = some (.leaf old))
    (mem : old ∈ M) (same : old.key = kv.key) :
    (L.rebind kv).Represents g
      (S.set (g.prefixHash p) (L.color p) ((L.rebind kv).entry g p (.leaf kv))) (M.insert kv) := by
  have here : (L.rebind kv).node p = some (.leaf kv) :=
    node_rebind_leaf.mpr ⟨old, hp, CtKv.rebind_of_eq same⟩
  -- the key has no other leaf
  have others : ∀ r ≠ p, (L.rebind kv).node r = L.node r := by
    intro r ne
    rw [node_rebind]
    cases hr : L.node r with
    | none => rfl
    | some n =>
      cases n with
      | leaf a =>
        have differ : a.key ≠ kv.key := by
          intro eq
          have equal := KeyMap.eq_of_key_eq (rep.shape.leaf r a hr).1 mem (eq.trans same.symm)
          exact ne (rep.shape.leaf_unique (equal ▸ hr) hp)
        simp only [Option.map_some, Node.rebind, CtKv.rebind_of_ne differ]
      | bitmap children => rfl
      | jump symbols => rfl
  have stored := all_of_node hp
  refine
    { toEncodes := rep.toEncodes.set (all_of_node here) (fun r ne => ?_) (fun r m _ _ => ⟨rfl, ?_⟩)
        (Or.inr ⟨by rw [stored]; exact Option.some_ne_none _, rfl⟩) (rep.symbols p _ stored)
        (rep.valid p _ stored) rfl rfl
      shape := rep.shape.rebind mem same
      parent := fun q children s hq => rep.parent q children s (node_rebind_bitmap.mp hq)
      root_color := fun root => rep.root_color ?_
      isEmpty := ?_ }
  · rw [all, all, others r ne]
    rfl
  · rfl
  · rw [node_rebind, ne_eq, Option.map_eq_none_iff] at root
    exact root
  · rw [KeyMap.kvs_insert_of_mem mem same, List.map_eq_nil_iff]
    exact rep.isEmpty

end Layout

/-! ## Storing the object -/

/-- The memory `t'` is `t` with a new object pointer in one cell, and no bucket locked. -/
structure Trie.Rebinds (t : Trie g) (loc : Loc) (kv : CtKv) (t' : Trie g) : Prop where
  cells : ∀ l, t'.cells l =
    if l = loc then { t.cells loc with body := (t.cells loc).body.setKv kv } else t.cells l
  isEmpty : t'.isEmpty = t.isEmpty
  unlocked : ∀ b, t'.writeLock b = false

theorem Trie.Rebinds.puts {loc : Loc} (rebinds : t.Rebinds loc kv t') :
    t.Puts loc { t.cells loc with body := (t.cells loc).body.setKv kv } t' :=
  ⟨rebinds.cells, rebinds.isEmpty⟩

theorem Trie.Rebinds.of_quiet {s s' : Sys g} {loc : Loc} (rebinds : s'.trie.Rebinds loc kv t')
    (quiet : Quiet s s') : s.trie.Rebinds loc kv t' where
  cells := by
    rw [← quiet.cells]
    exact rebinds.cells
  isEmpty := rebinds.isEmpty.trans quiet.isEmpty
  unlocked := rebinds.unlocked

/-- **A rebound leaf** makes a well-formed trie for the map with the key rebound. -/
theorem Trie.Rebinds.wellFormed {lc : LocalCopy} (rebinds : t.Rebinds lc.lastPos kv t')
    (stores : t.Stores S none) (rep : L.Represents g S M) (linked : L.Linked g M)
    (finished : L.Finished) (hp : L.node p = some (.leaf old))
    (d : lc.Describes t L p (.leaf old)) (same : old.key = kv.key) :
    WellFormed t' (M.insert kv) := by
  have mem := (rep.shape.leaf p old hp).1
  have value := d.reads.value
  have body : (t.cells lc.lastPos).body = .leaf old (L.link p) := by
    rw [← value, d.body]
    rfl
  have content : ({ t.cells lc.lastPos with
      body := (t.cells lc.lastPos).body.setKv kv } : Entry).content =
        (L.rebind kv).entry g p (.leaf kv) := by
    have before := d.content
    rw [LocalCopy.Shows, value] at before
    have after := congrArg (fun e : Entry => { e with body := Body.leaf kv (L.link p) }) before
    rw [body]
    exact after
  have stores' := stores.set rebinds.puts d.reads.at_ rfl rfl rfl (by rw [body]; rfl)
  rw [content] at stores'
  exact ⟨_, L.rebind kv, stores', rep.rebind hp mem same, linked.rebind mem same,
    finished.rebind, rebinds.unlocked⟩

/-- **The end of an update**: the leaf is locked, since nobody else is there, and its
object is replaced. -/
theorem storeKv_spec {s : Sys g} {lc : LocalCopy} (single : s.env = alone)
    (unlocked : s.Unlocked) (value : lc.value = s.trie.cells lc.lastPos)
    (fresh : s.trie.entryUnchanged lc = true) (kv : CtKv) (result : InternalStatus) :
    (do
      match ← upgradeLock lc with
      | .ok =>
        let _ ← updateEntry lc { lc.value with body := lc.value.body.setKv kv }
        releaseAllLocks
        pure result
      | _ => pure .retry : CuckooTrie.M g InternalStatus).Returns s fun r s' =>
        r = result ∧ s.trie.Rebinds lc.lastPos kv s'.trie := by
  refine (Quietly.upgradeLock_spec lc s).bind fun ret s₁ _ h => ?_
  obtain ⟨quiet, ⟨rfl, -⟩ | ⟨-, denied⟩⟩ := h
  · have fresh₁ : s₁.trie.entryUnchanged lc = true := by
      rw [Trie.entryUnchanged, quiet.seq]
      exact fresh
    have listed : LocksListed s₁ := quiet.locks unlocked.listed
    refine (updateEntry_fast _ fresh₁).bind fun lc' s₂ _ h => ?_
    obtain ⟨rfl, -⟩ := h
    have listed₂ : LocksListed (s₁.stored (s₁.trie.write lc.lastPos
        { lc.value with body := lc.value.body.setKv kv })) := listed
    refine (releaseAllLocks_spec listed₂).bind fun _ s₃ _ h => ?_
    obtain ⟨quiet', unlocked'⟩ := h
    refine .pure ⟨rfl, fun l => ?_, quiet'.isEmpty.trans quiet.isEmpty, unlocked'⟩
    rw [quiet'.cells]
    change (if l = lc.lastPos then _ else s₁.trie.cells l) = _
    rw [quiet.cells, value]
  · exact absurd (denied unlocked.listed fresh) (Denied.not_alone single)

/-! ## The leaf of a key -/

/-- The cell `loc` holds the leaf of `old`, and no other cell one of this key. -/
structure Trie.LeafCell (t : Trie g) (loc : Loc) (old : CtKv) : Prop where
  inTable : loc.bucket < g.numBuckets
  leaf : ∃ next, (t.cells loc).body = .leaf old next
  only : ∀ loc' kv next, loc'.bucket < g.numBuckets → (t.cells loc').body = .leaf kv next →
    kv.key = old.key → loc' = loc

theorem LocalCopy.Describes.leafCell {lc : LocalCopy} (d : lc.Describes t L p (.leaf old))
    (stores : t.Stores S none) (rep : L.Represents g S M) (finished : L.Finished)
    (hp : L.node p = some (.leaf old)) : t.LeafCell lc.lastPos old where
  inTable := d.reads.at_.inTable
  leaf := ⟨L.link p, by rw [← d.reads.value, d.body]; rfl⟩
  only loc' kv next inTable leaf same := by
    have at' : t.At loc' (cellHash g loc' (t.cells loc')) (t.cells loc').color :=
      ⟨inTable, by rw [leaf]; rfl, rfl, rfl⟩
    obtain ⟨q, n, hq, hash, color, content⟩ := rep.node_of_at stores finished at'
    have body : L.body q n = .leaf kv next := (congrArg Entry.body content).symm.trans leaf
    cases n with
    | bitmap children => cases body
    | jump symbols => cases body
    | leaf a =>
      obtain ⟨rfl, -⟩ := Body.leaf.inj body
      -- one leaf for each key, and one cell for each node
      have equal := KeyMap.eq_of_key_eq (rep.shape.leaf q a hq).1 (rep.shape.leaf p old hp).1 same
      subst equal
      obtain rfl := rep.shape.leaf_unique hq hp
      rw [← hash, ← color] at at'
      exact stores.unique _ _ _ _ at' d.reads.at_ (by simp) (by simp)

/-- The descent for a key of the map ends in its leaf. -/
theorem Finger.Exits.leaf {f : Finger} {track : Bool} {symbol : Option ℕ} (shape : L.Shape M)
    (exits : f.Exits t L old.key track symbol) (mem : old ∈ M) :
    ∃ p, L.node p = some (.leaf old) ∧ f.containingEntry.Describes t L p (.leaf old) := by
  have found : f.containingEntry.value.body.isLeaf = true ∧
      f.containingEntry.value.body.kv = old := by
    cases symbol with
    | none =>
      obtain ⟨a, mem', key, isLeaf, same⟩ := exits_end shape exits
      exact ⟨isLeaf, same.trans (KeyMap.eq_of_key_eq mem' mem key)⟩
    | some s =>
      obtain ⟨isLeaf, same, -⟩ := (exits_symbol shape exits).mp ⟨mem, rfl⟩
      exact ⟨isLeaf, same⟩
  obtain ⟨p, n, x, at_, -⟩ := exits
  obtain ⟨isLeaf, same⟩ := found
  obtain ⟨a, rfl⟩ := (isLeaf_iff at_.entry).mp isLeaf
  rw [at_.entry.body] at same
  obtain rfl : a = old := same
  exact ⟨p, at_.position.node, at_.entry⟩

/-- The descent for any other key does not end in a leaf with that key. -/
theorem Finger.Exits.absent {f : Finger} {track : Bool} {symbol : Option ℕ} (shape : L.Shape M)
    (exits : f.Exits t L key track symbol) (absent : ∀ a ∈ M, a.key ≠ key)
    (isLeaf : f.containingEntry.value.body.isLeaf = true) :
    f.containingEntry.value.body.kv.key ≠ key := by
  obtain ⟨p, n, x, at_, -⟩ := exits
  obtain ⟨a, rfl⟩ := (isLeaf_iff at_.entry).mp isLeaf
  rw [at_.entry.body]
  exact absent a (shape.leaf p a at_.position.node).1

/-- The walk for a key of the map, from the root to its leaf. -/
theorem walk_to_leaf (readable : L.Readable t M) (mem : old ∈ M) (same : old.key = kv.key)
    (track : Bool) :
    ∃ f f' symbol p, initFinger t = some f ∧ descend t f kv.key track = some (f', symbol) ∧
      L.node p = some (.leaf old) ∧ f'.containingEntry.Describes t L p (.leaf old) := by
  obtain ⟨f, n, init, at_⟩ := initFinger_spec readable (List.ne_nil_of_mem mem) track
  obtain ⟨f', symbol, walk, exits⟩ := descend_spec readable at_ kv.key
  obtain ⟨p, hp, d⟩ := (same ▸ exits).leaf readable.shape mem
  exact ⟨f, f', symbol, p, init, walk, hp, d⟩

/-! ## The calls -/

/-- `ct_update_internal` finds no leaf with the key. -/
theorem ctUpdateInternal_absent {s : Sys g} (unlocked : s.Unlocked)
    (readable : L.Readable s.trie M) (absent : ∀ a ∈ M, a.key ≠ kv.key) :
    (ctUpdateInternal kv : CuckooTrie.M g InternalStatus).Returns s fun ret s' =>
      ret = .fail ∧ Quiet s s' := by
  rw [ctUpdateInternal]
  refine (initLockMgr_spec unlocked).bind fun _ s₁ _ h => ?_
  obtain ⟨quiet, -⟩ := h
  have readable₁ := readable.congr quiet.cells quiet.isEmpty
  refine Prog.Returns.bind (Q := fun t s' => t = s₁.trie ∧ s' = s₁) (.read ⟨rfl, rfl⟩) ?_
  rintro t s₁ - ⟨rfl, rfl⟩
  by_cases empty : M.kvs = []
  · rw [initFinger_empty readable₁ empty]
    exact .pure ⟨rfl, quiet⟩
  · obtain ⟨f, n, init, at_⟩ := initFinger_spec readable₁ empty false
    obtain ⟨f', symbol, walk, exits⟩ := descend_spec readable₁ at_ kv.key
    rw [init]
    refine Prog.Returns.bind (Q := fun r s' => r = (f', symbol) ∧ s' = s₁)
      (.find walk ⟨rfl, rfl⟩) ?_
    rintro r s₁ - ⟨rfl, rfl⟩
    refine .ite (fun _ => .pure ⟨rfl, quiet⟩) fun isLeaf => ?_
    refine .ite (fun _ => .pure ⟨rfl, quiet⟩) fun same => ?_
    refine absurd (not_not.mp same) (kvKeyCompareTo_eq_zero_iff.not.mpr ?_)
    exact exits.absent readable₁.shape absent (by simpa using isLeaf)

/-- `ct_update_internal` stores the object in the leaf of its key. -/
theorem ctUpdateInternal_present {s : Sys g} (single : s.env = alone) (unlocked : s.Unlocked)
    (readable : L.Readable s.trie M) (mem : old ∈ M) (same : old.key = kv.key) :
    (ctUpdateInternal kv : CuckooTrie.M g InternalStatus).Returns s fun ret s' =>
      ret = .ok ∧ ∃ (p : List ℕ) (lc : LocalCopy),
        L.node p = some (.leaf old) ∧ lc.Describes s.trie L p (.leaf old) ∧
        s.trie.Rebinds lc.lastPos kv s'.trie := by
  rw [ctUpdateInternal]
  refine (initLockMgr_spec unlocked).bind fun _ s₁ le₁ h => ?_
  obtain ⟨quiet, unlocked₁⟩ := h
  have readable₁ := readable.congr quiet.cells quiet.isEmpty
  obtain ⟨f, f', symbol, p, init, walk, hp, d⟩ := walk_to_leaf readable₁ mem same false
  refine Prog.Returns.bind (Q := fun t s' => t = s₁.trie ∧ s' = s₁) (.read ⟨rfl, rfl⟩) ?_
  rintro t s₁ - ⟨rfl, rfl⟩
  rw [init]
  refine Prog.Returns.bind (Q := fun r s' => r = (f', symbol) ∧ s' = s₁)
    (.find walk ⟨rfl, rfl⟩) ?_
  rintro r s₁ - ⟨rfl, rfl⟩
  have body := d.body
  refine .ite (fun inner => ?_) fun _ => ?_
  · rw [body] at inner
    cases inner
  refine .ite (fun differ => ?_) fun _ => ?_
  · rw [body] at differ
    exact absurd (kvKeyCompareTo_eq_zero_iff.mpr same) differ
  refine (storeKv_spec ?_ unlocked₁ d.reads.value d.unchanged kv .ok).weaken ?_
  · exact le₁.env.trans single
  · rintro ret s' - ⟨rfl, rebinds⟩
    refine ⟨rfl, p, _, hp, d.congr quiet.cells.symm quiet.seq.symm, ?_⟩
    exact rebinds.of_quiet quiet

/-- `create_leaf` in the leaf of the key it is called for. -/
theorem createLeaf_exist {s : Sys g} {f : Finger}
    (d : f.containingEntry.Describes t L p (.leaf old)) (same : old.key = kv.key) (symbol : ℕ) :
    (createLeaf f kv symbol).Returns s fun ret s' => ret = .exist ∧ s' = s := by
  have body : f.containingEntry.value.body = .leaf old (L.link p) := d.body
  rw [createLeaf, body]
  exact .ite (fun _ => .pure ⟨rfl, rfl⟩) fun differ =>
    absurd (kvKeyCompareTo_eq_zero_iff.mpr same) differ

/-- `ct_insert_internal` for an upsert stores the object in the leaf of its key. -/
theorem ctInsertInternal_present {s : Sys g} (single : s.env = alone) (unlocked : s.Unlocked)
    (readable : L.Readable s.trie M) (mem : old ∈ M) (same : old.key = kv.key) :
    (ctInsertInternal kv true : CuckooTrie.M g InternalStatus).Returns s fun ret s' =>
      ret = .exist ∧ ∃ (p : List ℕ) (lc : LocalCopy), L.node p = some (.leaf old) ∧
        lc.Describes s.trie L p (.leaf old) ∧ s.trie.Rebinds lc.lastPos kv s'.trie := by
  rw [ctInsertInternal]
  refine (initLockMgr_spec unlocked).bind fun _ s₁ le₁ h => ?_
  obtain ⟨quiet, unlocked₁⟩ := h
  have readable₁ := readable.congr quiet.cells quiet.isEmpty
  obtain ⟨f, f', symbol, p, init, walk, hp, d⟩ := walk_to_leaf readable₁ mem same true
  refine Prog.Returns.bind (Q := fun t s' => t = s₁.trie ∧ s' = s₁) (.read ⟨rfl, rfl⟩) ?_
  rintro t s₁ - ⟨rfl, rfl⟩
  rw [init]
  refine Prog.Returns.bind (Q := fun r s' => r = (f', symbol) ∧ s' = s₁)
    (.find walk ⟨rfl, rfl⟩) ?_
  rintro r s₁ - ⟨rfl, rfl⟩
  refine (createLeaf_exist d same _).bind fun ret s₂ _ h => ?_
  obtain ⟨rfl, rfl⟩ := h
  refine (storeKv_spec ?_ unlocked₁ d.reads.value d.unchanged kv .exist).weaken ?_
  · exact le₁.env.trans single
  · rintro ret s' - ⟨rfl, rebinds⟩
    refine ⟨rfl, p, _, hp, d.congr quiet.cells.symm quiet.seq.symm, ?_⟩
    exact rebinds.of_quiet quiet

theorem ctUpdate_absent (wf : WellFormed t M) (absent : ∀ a ∈ M, a.key ≠ kv.key) (fuel : ℕ) :
    (ctUpdate kv (fuel + 1)).Returns (Sys.init t alone) fun ret s' =>
      ret = .notFound ∧ Quiet (Sys.init t alone) s' := by
  obtain ⟨S, L, stores, rep, linked, finished, open_⟩ := wf
  have unlocked : (Sys.init t alone).Unlocked := open_
  have readable : L.Readable (Sys.init t alone).trie M :=
    ⟨S, none, stores, rep, rep.identifies finished⟩
  rw [ctUpdate]
  refine (ctUpdateInternal_absent unlocked readable absent).bind ?_
  rintro ret s₁ - ⟨rfl, quiet⟩
  exact .pure ⟨rfl, quiet⟩

/-- **The leaf of a key is where both calls store its object**, and the result is a
well-formed trie for the map with the key rebound. -/
theorem calls_present (wf : WellFormed t M) (mem : old ∈ M) (same : old.key = kv.key)
    (size : kv.key.length ≤ maxKeyBytes) (fuel : ℕ) :
    ∃ loc, t.LeafCell loc old ∧
      (ctUpdate kv (fuel + 1)).Returns (Sys.init t alone) (fun ret s' =>
        ret = .ok ∧ t.Rebinds loc kv s'.trie) ∧
      (ctUpsert kv (fuel + 1)).Returns (Sys.init t alone) (fun ret s' =>
        ret = (.ok, some false) ∧ t.Rebinds loc kv s'.trie) ∧
      ∀ t', t.Rebinds loc kv t' → WellFormed t' (M.insert kv) := by
  obtain ⟨S, L, stores, rep, linked, finished, open_⟩ := wf
  have unlocked : (Sys.init t alone).Unlocked := open_
  have readable : L.Readable (Sys.init t alone).trie M :=
    ⟨S, none, stores, rep, rep.identifies finished⟩
  obtain ⟨-, ⟨f, symbol, p, -, -, hp, d⟩⟩ := walk_to_leaf readable mem same false
  -- every copy of the leaf is of the same cell
  have place : ∀ {p' : List ℕ} {lc : LocalCopy}, L.node p' = some (.leaf old) →
      lc.Describes t L p' (.leaf old) → lc.lastPos = f.containingEntry.lastPos := by
    intro p' lc hp' d'
    obtain rfl := rep.shape.leaf_unique hp' hp
    exact stores.unique _ _ _ _ d'.reads.at_ d.reads.at_ (by simp) (by simp)
  refine ⟨_, d.leafCell stores rep finished hp, ?_, ?_, fun t' rebinds =>
    rebinds.wellFormed stores rep linked finished hp d same⟩
  · rw [ctUpdate]
    refine (ctUpdateInternal_present rfl unlocked readable mem same).bind ?_
    rintro ret s₁ - ⟨rfl, p', lc, hp', d', rebinds⟩
    exact .pure ⟨rfl, place hp' d' ▸ rebinds⟩
  · rw [ctUpsert, if_neg (not_lt.mpr size)]
    refine Prog.Returns.bind (Q := fun ret s' => ret = .exist ∧
      t.Rebinds f.containingEntry.lastPos kv s'.trie) ?_ ?_
    · rw [insertLoop]
      refine (ctInsertInternal_present rfl unlocked readable mem same).bind ?_
      rintro ret s₁ - ⟨rfl, p', lc, hp', d', rebinds⟩
      exact .pure ⟨rfl, place hp' d' ▸ rebinds⟩
    · rintro ret s₁ - ⟨rfl, rebinds⟩
      exact .pure ⟨rfl, rebinds⟩

/-! ## Updates touch one pointer -/

/-- **Updating a value touches one pointer.**  `ct_update` of a key that is not in the map
returns `S_NOTFOUND` and changes no cell.  If the key is in the map, `ct_update` and
`ct_upsert` both change one cell, the leaf of the key, and in it only the object: of its
bytes, those of the pointer.  The trie is then well-formed for the map with the key
rebound, in which all objects keep their places, and lookups and iterations return its
objects. -/
theorem update_touches_one_pointer (t : Trie g) (M : KeyMap) (wf : WellFormed t M) (kv : CtKv)
    (size : kv.key.length ≤ maxKeyBytes) (fuel : ℕ) :
    (M.find kv.key = none →
      (ctUpdate kv (fuel + 1)).Returns (Sys.init t alone) fun ret s' =>
        ret = .notFound ∧ s'.trie.cells = t.cells) ∧
    ∀ old, M.find kv.key = some old →
      ∃ loc, t.LeafCell loc old ∧
        (ctUpdate kv (fuel + 1)).Returns (Sys.init t alone) (fun ret s' =>
          ret = .ok ∧ t.Rebinds loc kv s'.trie) ∧
        (ctUpsert kv (fuel + 1)).Returns (Sys.init t alone) (fun ret s' =>
          ret = (.ok, some false) ∧ t.Rebinds loc kv s'.trie) ∧
        (M.insert kv).kvs = M.kvs.map kv.rebind ∧
        (∀ t', t.Rebinds loc kv t' → WellFormed t' (M.insert kv) ∧
          (∀ key, ctLookup t' key = some ((M.insert kv).find key)) ∧
          ∀ iter key fuel n,
            ((ctIterGoto iter key (fuel + 1) >>= ctIterNexts (fuel + 1) n).run
              (Sys.init t' alone)).1 =
                some ((List.range n).map fun i => ((M.from key).map kv.rebind)[i]?)) ∧
        ∀ (heap : BitVec 64 → CtKv) (mem : Bytes.Memory) (cell : ℕ) (address : BitVec 64),
          Canonical address → heap address = kv →
          (readEntry mem cell).leafEntry heap = t.cells loc →
          (∀ x, ¬ (cell + offsetKey ≤ x ∧ x < cell + offsetKey + smallPointerSize) →
            updateKv mem cell address x = mem x) ∧
          (readEntry (updateKv mem cell address) cell).leafEntry heap =
            { t.cells loc with body := (t.cells loc).body.setKv kv } := by
  refine ⟨fun absent => ?_, fun old found => ?_⟩
  · refine (ctUpdate_absent wf (KeyMap.find_eq_none_iff.mp absent) fuel).weaken ?_
    rintro ret s' - ⟨rfl, quiet⟩
    exact ⟨rfl, quiet.cells⟩
  · obtain ⟨mem, same⟩ := KeyMap.find_eq_some_iff.mp found
    obtain ⟨loc, leaf, update, upsert, rebound⟩ := calls_present wf mem same size fuel
    refine ⟨loc, leaf, update, upsert, KeyMap.kvs_insert_of_mem mem same, fun t' rebinds => ?_, ?_⟩
    · have wf' := rebound t' rebinds
      obtain ⟨L, readable⟩ := wf'.readable
      refine ⟨wf', ctLookup_spec readable, fun iter key fuel n => ?_⟩
      rw [wf'.iteration iter key fuel n, KeyMap.from_insert_rebind mem same]
    · intro heap mem cell address canonical here shown
      rw [← shown, ← here]
      exact updateKv_spec heap mem cell canonical

/-- An object takes the place of another one in a trie of two keys. -/
theorem update_touches_one_pointer_small :
    ∃ loc, smallTrie.LeafCell loc ⟨1, [0]⟩ ∧
      (ctUpdate ⟨9, [0]⟩ 1).Returns (Sys.init smallTrie alone) fun ret s' =>
        ret = .ok ∧ smallTrie.Rebinds loc ⟨9, [0]⟩ s'.trie := by
  obtain ⟨loc, leaf, update, -⟩ := (update_touches_one_pointer smallTrie _ smallTrie_wellFormed
    ⟨9, [0]⟩ (by decide) 0).2 ⟨1, [0]⟩ (by decide +kernel)
  exact ⟨loc, leaf, update⟩

end CuckooTrie
