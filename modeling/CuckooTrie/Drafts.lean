import CuckooTrie.Predecessors
import Mathlib.Logic.Function.Basic

/-!
# Building nodes out of reach

The changes an insert makes to the layout, one entry of the store at a time: it
drafts nodes (`Layout.draftAt`), drops drafts again when it has to give up
(`Layout.drop`), amends the fields of an entry (`Layout.amend`), and links
everything it drafted into the tree by replacing one node (`Layout.publish`).
Each is matched with the change of the store that carries it out.
-/

namespace CuckooTrie

variable {g : Geometry} {L L' K : Layout} {S : Store} {M M' : KeyMap} {p q : List ℕ} {n m : Node}
  {c par : ℕ} {lnk : Locator} {d : Bool}

namespace Layout

/-- Draft a node. -/
def draftAt (L : Layout) (p : List ℕ) (n : Node) (c par : ℕ) (lnk : Locator) : Layout :=
  { L with
    draft := Function.update L.draft p (some n)
    color := Function.update L.color p c
    parent := Function.update L.parent p par
    link := Function.update L.link p lnk
    dirty := Function.update L.dirty p false }

/-- Drop a draft. -/
def drop (L : Layout) (p : List ℕ) : Layout := { L with draft := Function.update L.draft p none }

/-- Replace a draft by another one, in place. -/
def redraft (L : Layout) (p : List ℕ) (n : Node) : Layout :=
  { L with draft := Function.update L.draft p (some n) }

/-- Change the parent color, the link and the dirty flag of an entry. -/
def amend (L : Layout) (p : List ℕ) (par : ℕ) (lnk : Locator) (d : Bool) : Layout :=
  { L with
    parent := Function.update L.parent p par
    link := Function.update L.link p lnk
    dirty := Function.update L.dirty p d }

/-- Replace a node; with it all drafts become nodes. -/
def publish (L : Layout) (p : List ℕ) (n : Node) (lnk : Locator) : Layout :=
  { L with
    node := fun r => if r = p then some n else L.all r
    draft := fun _ => none
    link := Function.update L.link p lnk }

/-- Change the list head. -/
def setFirst (L : Layout) (first : Locator) (dirty : Bool) : Layout :=
  { L with first := first, firstDirty := dirty }

/-! ## The store of a changed layout -/

namespace Encodes

/-- **One entry changes**: it is new, under a name that is not taken, or it keeps
its name. -/
theorem set (enc : L.Encodes g S) (here : K.all p = some n) (all : ∀ r ≠ p, K.all r = L.all r)
    (same : ∀ r m, r ≠ p → L.all r = some m →
      K.color r = L.color r ∧ K.entry g r m = L.entry g r m)
    (name : L.all p = none ∧ S.entry (g.prefixHash p) (K.color p) = none ∨
      L.all p ≠ none ∧ K.color p = L.color p)
    (symbols : ∀ s ∈ p, s ≤ fanout) (valid : K.color p ≤ maxValidColor)
    (first : K.first = L.first) (firstDirty : K.firstDirty = L.firstDirty) :
    K.Encodes g (S.set (g.prefixHash p) (K.color p) (K.entry g p n)) := by
  have old : ∀ {r m}, r ≠ p → K.all r = some m → L.all r = some m ∧ K.color r = L.color r := by
    intro r m ne hr
    rw [all r ne] at hr
    exact ⟨hr, (same r m ne hr).1⟩
  -- no other entry has the name of this one
  have other : ∀ {r m}, r ≠ p → K.all r = some m →
      ¬ (g.prefixHash r = g.prefixHash p ∧ K.color r = K.color p) := by
    rintro r m ne hr ⟨hash, color⟩
    obtain ⟨hr', same'⟩ := old ne hr
    rcases name with ⟨-, free⟩ | ⟨some', color'⟩
    · have stored := enc.stored r m hr'
      rw [hash, ← same', color, free] at stored
      cases stored
    · obtain ⟨m', hp⟩ := Option.ne_none_iff_exists'.mp some'
      exact ne (enc.distinct r p _ _ hr' hp hash (same'.symm.trans (color.trans color')))
  constructor
  · intro r m hr
    by_cases ne : r = p
    · subst ne
      rw [here] at hr
      cases hr
      exact S.set_entry_self _ _ _
    · obtain ⟨hr', same'⟩ := old ne hr
      rw [S.set_entry_of_ne _ (other ne hr), same', (same r m ne hr').2]
      exact enc.stored r m hr'
  · intro h c e stored
    by_cases name' : h = g.prefixHash p ∧ c = K.color p
    · exact ⟨p, n, here, name'.1.symm, name'.2.symm⟩
    · rw [S.set_entry_of_ne _ name'] at stored
      obtain ⟨r, m, hr, rfl, rfl⟩ := enc.only h c e stored
      have ne : r ≠ p := by
        rintro rfl
        rcases name with ⟨none', -⟩ | ⟨-, color⟩
        · rw [hr] at none'
          cases none'
        · exact name' ⟨rfl, color.symm⟩
      exact ⟨r, m, (all r ne).trans hr, rfl, (same r m ne hr).1⟩
  · intro r r' m m' hr hr' hash color
    by_cases ne : r = p
    · by_cases ne' : r' = p
      · exact ne.trans ne'.symm
      · exact absurd ⟨hash.symm.trans (by rw [ne]), color.symm.trans (by rw [ne])⟩ (other ne' hr')
    · by_cases ne' : r' = p
      · exact absurd ⟨hash.trans (by rw [ne']), color.trans (by rw [ne'])⟩ (other ne hr)
      · obtain ⟨hr, same₁⟩ := old ne hr
        obtain ⟨hr', same₂⟩ := old ne' hr'
        exact enc.distinct r r' m m' hr hr' hash (same₁.symm.trans (color.trans same₂))
  · intro r m hr
    by_cases ne : r = p
    · exact ne ▸ symbols
    · exact enc.symbols r m (old ne hr).1
  · intro r m hr
    by_cases ne : r = p
    · exact ne ▸ valid
    · rw [(old ne hr).2]
      exact enc.valid r m (old ne hr).1
  · rw [first, firstDirty]
    exact enc.head

/-- Dropping a draft takes its entry out of the store. -/
theorem drop (enc : L.Encodes g S) (hp : L.draft p = some n) (notNode : L.node p = none) :
    (L.drop p).Encodes g (S.erase (g.prefixHash p) (L.color p)) := by
  have whole : L.all p = some n := by rw [all, notNode, hp]; rfl
  have all' : ∀ r, (L.drop p).all r = if r = p then none else L.all r := by
    intro r
    by_cases same : r = p
    · subst same
      simp [Layout.drop, Layout.all, notNode]
    · simp [Layout.drop, Layout.all, same]
  have old : ∀ {r m}, (L.drop p).all r = some m → r ≠ p ∧ L.all r = some m := by
    intro r m hr
    rw [all'] at hr
    split at hr
    · cases hr
    · exact ⟨by assumption, hr⟩
  constructor
  · intro r m hr
    obtain ⟨ne, hr⟩ := old hr
    have kept := enc.stored r m hr
    rw [← S.erase_entry_of_ne fun same => ne (enc.distinct r p _ _ hr whole same.1 same.2)] at kept
    exact kept
  · intro h c e stored
    have ne : ¬ (h = g.prefixHash p ∧ c = L.color p) := by
      rintro ⟨rfl, rfl⟩
      rw [S.erase_entry_self] at stored
      cases stored
    rw [S.erase_entry_of_ne ne] at stored
    obtain ⟨r, m, hr, rfl, rfl⟩ := enc.only h c e stored
    refine ⟨r, m, ?_, rfl, rfl⟩
    rw [all', if_neg]
    · exact hr
    · rintro rfl
      exact ne ⟨rfl, rfl⟩
  · exact fun r r' m m' hr hr' => enc.distinct r r' m m' (old hr).2 (old hr').2
  · exact fun r m hr => enc.symbols r m (old hr).2
  · exact fun r m hr => enc.valid r m (old hr).2
  · exact enc.head

theorem setFirst (enc : L.Encodes g S) (first : Locator) (dirty : Bool) :
    (L.setFirst first dirty).Encodes g (S.setHead (headEntry first dirty)) :=
  ⟨enc.stored, enc.only, enc.distinct, enc.symbols, enc.valid, rfl⟩

end Encodes

/-! ## Facts that depend on a part of the layout -/

theorem Shape.congr (shape : L.Shape M) (node : L'.node = L.node) : L'.Shape M := by
  have child : ∀ {q p}, L'.Child q p → L.Child q p := by
    intro q p h
    cases h with
    | bitmap hq bit => exact .bitmap (by rw [← node]; exact hq) bit
    | jump hq => exact .jump (by rw [← node]; exact hq)
  have child' : ∀ {q p}, L.Child q p → L'.Child q p := by
    intro q p h
    cases h with
    | bitmap hq bit => exact .bitmap (by rw [node]; exact hq) bit
    | jump hq => exact .jump (by rw [node]; exact hq)
  constructor
  · intro p n hp
    rw [node] at hp
    exact (shape.parent p n hp).imp_right fun ⟨q, h⟩ => ⟨q, child' h⟩
  · rw [node]
    exact fun q p h => shape.child q p (child h)
  · rw [node]
    exact shape.bitmap
  · rw [node]
    exact shape.jump
  · rw [node]
    exact shape.jump_child
  · rw [node]
    exact shape.leaf
  · rw [node]
    exact shape.key
  · rw [node]
    exact shape.live

/-- Two layouts with the same nodes and the same fields of them. -/
structure SameNodes (L L' : Layout) : Prop where
  node : L'.node = L.node
  color : ∀ p n, L.node p = some n → L'.color p = L.color p
  parent : ∀ p n, L.node p = some n → L'.parent p = L.parent p
  link : ∀ p n, L.node p = some n → L'.link p = L.link p
  dirty : ∀ p n, L.node p = some n → L'.dirty p = L.dirty p
  first : L'.first = L.first
  firstDirty : L'.firstDirty = L.firstDirty

namespace SameNodes

theorem refl (L : Layout) : SameNodes L L :=
  ⟨rfl, fun _ _ _ => rfl, fun _ _ _ => rfl, fun _ _ _ => rfl, fun _ _ _ => rfl, rfl, rfl⟩

theorem trans {L'' : Layout} (h : SameNodes L L') (h' : SameNodes L' L'') : SameNodes L L'' := by
  have back : ∀ {p n}, L.node p = some n → L'.node p = some n := fun hp => by
    rw [h.node]
    exact hp
  exact
    { node := h'.node.trans h.node
      color := fun p n hp => (h'.color p n (back hp)).trans (h.color p n hp)
      parent := fun p n hp => (h'.parent p n (back hp)).trans (h.parent p n hp)
      link := fun p n hp => (h'.link p n (back hp)).trans (h.link p n hp)
      dirty := fun p n hp => (h'.dirty p n (back hp)).trans (h.dirty p n hp)
      first := h'.first.trans h.first
      firstDirty := h'.firstDirty.trans h.firstDirty }

theorem locator (h : SameNodes L L') (hp : L.node p = some n) : L'.locator g p = L.locator g p := by
  rw [Layout.locator, Layout.locator, h.color p n hp]

theorem pointsTo {loc : Locator} {okv : Option CtKv} (h : SameNodes L L')
    (points : L.PointsTo g loc okv) : L'.PointsTo g loc okv := by
  cases okv with
  | none => exact points
  | some kv =>
    obtain ⟨p, hp, same⟩ := points
    exact ⟨p, by rw [h.node]; exact hp, same.trans (h.locator hp).symm⟩

theorem linked (h : SameNodes L L') (linked : L.Linked g M) : L'.Linked g M where
  clean p n hp := by
    rw [h.node] at hp
    rw [h.dirty p n hp]
    exact linked.clean p n hp
  first_clean := h.firstDirty.trans linked.first_clean
  next p kv hp := by
    rw [h.node] at hp
    rw [h.link p _ hp]
    exact h.pointsTo (linked.next p kv hp)
  max q n hq inner := by
    rw [h.node] at hq
    rw [h.link q n hq]
    exact h.pointsTo (linked.max q n hq inner)
  first := by
    rw [h.first]
    exact h.pointsTo linked.first

end SameNodes

/-! ## Drafting -/

/-- No jump node or draft of one leads to a position. -/
def NoJumpTo (L : Layout) (p : List ℕ) : Prop :=
  ∀ r symbols, L.all r = some (.jump symbols) → r ++ symbols ≠ p

theorem all_draftAt (notNode : L.node p = none) (r : List ℕ) :
    (L.draftAt p n c par lnk).all r = if r = p then some n else L.all r := by
  by_cases same : r = p
  · subst same
    simp [draftAt, all, notNode]
  · simp [draftAt, all, same]

/-- The entry of a draft. -/
theorem entry_draftAt (notJump : ∀ symbols, n = .jump symbols → symbols ≠ []) :
    (L.draftAt p n c par lnk).entry g p n =
      ⟨par, false, false, c, hashToTag (g.prefixHash p), p.getLastD 0,
        match n with
        | .leaf kv => .leaf kv lnk
        | .bitmap children => .bitmap children (Nat.log2 children) lnk
        | .jump symbols => .jump (symbols.map (· - 1)) (L.color (p ++ symbols)) lnk⟩ := by
  cases n with
  | leaf kv => simp [entry, body, draftAt]
  | bitmap children => simp [entry, body, draftAt]
  | jump symbols =>
    have ne : p ++ symbols ≠ p := fun same => notJump symbols rfl (by simpa using same)
    simp [entry, body, draftAt, Function.update_of_ne ne]

theorem sameNodes_draftAt (notNode : L.node p = none) :
    SameNodes L (L.draftAt p n c par lnk) := by
  have ne : ∀ {r m}, L.node r = some m → r ≠ p := by
    rintro r m hr rfl
    rw [notNode] at hr
    cases hr
  exact
    { node := rfl
      color := fun r m hr => Function.update_of_ne (ne hr) _ _
      parent := fun r m hr => Function.update_of_ne (ne hr) _ _
      link := fun r m hr => Function.update_of_ne (ne hr) _ _
      dirty := fun r m hr => Function.update_of_ne (ne hr) _ _
      first := rfl
      firstDirty := rfl }

theorem Represents.sameNodes {S' : Store} (rep : L.Represents g S M) (same : SameNodes L L')
    (enc : L'.Encodes g S') (isEmpty : S'.isEmpty = S.isEmpty) : L'.Represents g S' M := by
  refine ⟨enc, rep.shape.congr same.node, ?_, ?_, ?_⟩
  · intro q children s hq bit
    rw [same.node] at hq
    obtain ⟨m, hm⟩ := Option.ne_none_iff_exists'.mp (rep.shape.child _ _ (.bitmap hq bit))
    rw [same.parent _ _ hm, same.color _ _ hq]
    exact rep.parent q children s hq bit
  · intro hroot
    rw [same.node] at hroot
    obtain ⟨m, hm⟩ := Option.ne_none_iff_exists'.mp hroot
    rw [same.color _ _ hm]
    exact rep.root_color hroot
  · rw [isEmpty]
    exact rep.isEmpty

theorem none_of_all (free : L.all p = none) : L.node p = none := by
  cases hp : L.node p with
  | none => rfl
  | some n =>
    rw [all_of_node hp] at free
    cases free

/-- The store of a layout with one more draft, under a name that is not taken. -/
theorem Encodes.draftAt (enc : L.Encodes g S) (free : L.all p = none) (noJump : L.NoJumpTo p)
    (symbols : ∀ s ∈ p, s ≤ fanout) (fresh : S.entry (g.prefixHash p) c = none)
    (valid : c ≤ maxValidColor) :
    (L.draftAt p n c par lnk).Encodes g
      (S.set (g.prefixHash p) c ((L.draftAt p n c par lnk).entry g p n)) := by
  have notNode := none_of_all free
  have color : (L.draftAt p n c par lnk).color p = c := Function.update_self _ _ _
  have enc' := enc.set (K := L.draftAt p n c par lnk) (p := p) (n := n)
    (by rw [all_draftAt notNode, if_pos rfl])
    (fun r ne => by rw [all_draftAt notNode, if_neg ne])
    (fun r m ne hr => by
      refine ⟨Function.update_of_ne ne _ _, ?_⟩
      cases m with
      | leaf kv => simp [entry, body, Layout.draftAt, Function.update_of_ne ne]
      | bitmap children => simp [entry, body, Layout.draftAt, Function.update_of_ne ne]
      | jump symbols =>
        simp [entry, body, Layout.draftAt, Function.update_of_ne ne,
          Function.update_of_ne (noJump r symbols hr)])
    (Or.inl ⟨free, by rw [color]; exact fresh⟩) symbols (by rw [color]; exact valid) rfl rfl
  rwa [color] at enc'

/-- **Drafting a node** under a name that is not taken. -/
theorem Represents.draftAt (rep : L.Represents g S M) (free : L.all p = none)
    (noJump : L.NoJumpTo p) (symbols : ∀ s ∈ p, s ≤ fanout)
    (fresh : S.entry (g.prefixHash p) c = none) (valid : c ≤ maxValidColor) :
    (L.draftAt p n c par lnk).Represents g
      (S.set (g.prefixHash p) c ((L.draftAt p n c par lnk).entry g p n)) M :=
  rep.sameNodes (sameNodes_draftAt (none_of_all free))
    (rep.toEncodes.draftAt free noJump symbols fresh valid) rfl

/-- A new draft is not mistaken for a child of a live bitmap. -/
theorem Identifies.draftAt (identifies : L.Identifies g) (notNode : L.node p = none)
    (here : ∀ q children, L.node q = some (.bitmap children) →
      g.prefixHash p = g.prefixHash (q ++ [p.getLastD 0]) → par = L.color q →
      p = q ++ [p.getLastD 0]) : (L.draftAt p n c par lnk).Identifies g := by
  have same : SameNodes L (L.draftAt p n c par lnk) := sameNodes_draftAt notNode
  intro q children r m hq hr hash parent
  rw [same.color q _ hq] at parent
  by_cases new : r = p
  · subst new
    exact here q children hq hash ((Function.update_self _ _ _).symm.trans parent)
  · rw [all_draftAt notNode, if_neg new] at hr
    rw [show (L.draftAt p n c par lnk).parent r = L.parent r from Function.update_of_ne new _ _]
      at parent
    exact identifies q children r m hq hr hash parent

/-- Every valid parent color is that of the entry above, but at the given position. -/
def ParentedBut (L : Layout) (x : List ℕ → Prop) : Prop :=
  ∀ p n, L.all p = some n → ¬ x p → L.Parented p

theorem ParentedBut.identifies {x : List ℕ → Prop} (parented : L.ParentedBut x)
    (enc : L.Encodes g S)
    (rest : ∀ q children p n, x p → L.node q = some (.bitmap children) → L.all p = some n →
      g.prefixHash p = g.prefixHash (q ++ [p.getLastD 0]) → L.parent p = L.color q →
      p = q ++ [p.getLastD 0]) : L.Identifies g := by
  intro q children p n hq hp hash parent
  by_cases odd : x p
  · exact rest q children p n odd hq hp hash parent
  · exact enc.identify (parented p n hp odd) hp (all_of_node hq) hash parent

theorem ParentedBut.draftAt {x : List ℕ → Prop} (parented : L.ParentedBut x)
    (free : L.all p = none)
    (here : ¬ x p → par ≤ maxValidColor →
      ∃ q s m, p = q ++ [s] ∧ L.all q = some m ∧ L.color q = par) :
    (L.draftAt p n c par lnk).ParentedBut x := by
  have notNode := none_of_all free
  -- an entry above another one is not the new draft
  have keep : ∀ {q m}, L.all q = some m → (L.draftAt p n c par lnk).all q = some m ∧
      (L.draftAt p n c par lnk).color q = L.color q := by
    intro q m hq
    have ne : q ≠ p := by
      rintro rfl
      rw [free] at hq
      cases hq
    exact ⟨by rw [all_draftAt notNode, if_neg ne, hq], Function.update_of_ne ne _ _⟩
  intro r m hr odd valid
  by_cases new : r = p
  · subst new
    rw [show (L.draftAt r n c par lnk).parent r = par from Function.update_self _ _ _] at valid ⊢
    obtain ⟨q, s, m', same, hq, color⟩ := here odd valid
    exact ⟨q, s, m', same, (keep hq).1, (keep hq).2.trans color⟩
  · rw [all_draftAt notNode, if_neg new] at hr
    rw [show (L.draftAt p n c par lnk).parent r = L.parent r from Function.update_of_ne new _ _]
      at valid ⊢
    obtain ⟨q, s, m', same, hq, color⟩ := parented r m hr odd valid
    exact ⟨q, s, m', same, (keep hq).1, (keep hq).2.trans color⟩

/-! ## Amending an entry -/

/-- The store of an amended layout. -/
theorem Encodes.amend (enc : L.Encodes g S) (hp : L.all p = some n) :
    (L.amend p par lnk d).Encodes g
      (S.set (g.prefixHash p) (L.color p) ((L.amend p par lnk d).entry g p n)) :=
  enc.set (K := L.amend p par lnk d) hp (fun _ _ => rfl)
    (fun r m ne hr => by
      refine ⟨rfl, ?_⟩
      cases m <;> simp [entry, body, Layout.amend, Function.update_of_ne ne])
    (Or.inr ⟨by rw [hp]; exact Option.some_ne_none n, rfl⟩) (enc.symbols p n hp)
    (enc.valid p n hp) rfl rfl

/-- The entry of an amended node. -/
theorem entry_amend :
    (L.amend p par lnk d).entry g p n =
      { L.entry g p n with parentColor := par, dirty := d, body := (L.body p n).setNextLeaf lnk } := by
  cases n <;> simp [entry, body, Layout.amend, Body.setNextLeaf]

/-- **Amending the entry of a node or a draft.** -/
theorem Represents.amend (rep : L.Represents g S M) (hp : L.all p = some n)
    (parent : ∀ q children s, L.node q = some (.bitmap children) → children.testBit s = true →
      p = q ++ [s] → par = L.color q) :
    (L.amend p par lnk d).Represents g
      (S.set (g.prefixHash p) (L.color p) ((L.amend p par lnk d).entry g p n)) M := by
  refine ⟨rep.toEncodes.amend hp, rep.shape.congr rfl, ?_, rep.root_color, rep.isEmpty⟩
  intro q children s hq bit
  by_cases same : q ++ [s] = p
  · rw [show (L.amend p par lnk d).parent (q ++ [s]) = par by simp [Layout.amend, same]]
    exact parent q children s hq bit same.symm
  · rw [show (L.amend p par lnk d).parent (q ++ [s]) = L.parent (q ++ [s]) by
      simp [Layout.amend, Function.update_of_ne same]]
    exact rep.parent q children s hq bit

theorem amend_parent_self : (L.amend p (L.parent p) lnk d).parent = L.parent :=
  Function.update_eq_self _ _

/-- Amending the entry of a draft leaves the nodes alone. -/
theorem sameNodes_amend (notNode : L.node p = none) : SameNodes L (L.amend p par lnk d) := by
  have ne : ∀ {r m}, L.node r = some m → r ≠ p := by
    rintro r m hr rfl
    rw [notNode] at hr
    cases hr
  exact
    { node := rfl
      color := fun _ _ _ => rfl
      parent := fun r m hr => Function.update_of_ne (ne hr) _ _
      link := fun r m hr => Function.update_of_ne (ne hr) _ _
      dirty := fun r m hr => Function.update_of_ne (ne hr) _ _
      first := rfl
      firstDirty := rfl }

/-- An amended entry that keeps its parent color keeps all parent colors. -/
theorem ParentedBut.amend {x y : List ℕ → Prop} (parented : L.ParentedBut x)
    (others : ∀ r, x r → y r ∨ r = p)
    (here : ¬ y p → par ≤ maxValidColor →
      ∃ q s m, p = q ++ [s] ∧ L.all q = some m ∧ L.color q = par) :
    (L.amend p par lnk d).ParentedBut y := by
  intro r m hr odd valid
  by_cases same : r = p
  · subst same
    have par' : (L.amend r par lnk d).parent r = par := Function.update_self _ _ _
    rw [par'] at valid ⊢
    exact here odd valid
  · have par' : (L.amend p par lnk d).parent r = L.parent r := Function.update_of_ne same _ _
    rw [par'] at valid ⊢
    exact parented r m hr (fun odd' => (others r odd').elim odd same) valid

/-- The store of a layout in which a draft was replaced by another one. -/
theorem Encodes.redraft (enc : L.Encodes g S) (notNode : L.node p = none)
    (hp : L.draft p = some m) :
    (L.redraft p n).Encodes g
      (S.set (g.prefixHash p) (L.color p) ((L.redraft p n).entry g p n)) := by
  have whole : L.all p = some m := by rw [all, notNode, hp]; rfl
  refine enc.set (K := L.redraft p n) ?_ (fun r ne => ?_) (fun r m ne hr => ⟨rfl, by cases m <;> rfl⟩)
    (Or.inr ⟨by rw [whole]; exact Option.some_ne_none m, rfl⟩) (enc.symbols p m whole)
    (enc.valid p m whole) rfl rfl
  · simp [Layout.redraft, all, notNode]
  · simp [Layout.redraft, all, Function.update_of_ne ne]

/-! ## Publishing -/

theorem all_publish (r : List ℕ) :
    (L.publish p n lnk).all r = if r = p then some n else L.all r := by
  simp only [publish, all]
  split <;> simp

/-- The store of a layout in which a node was replaced. -/
theorem Encodes.publish (enc : L.Encodes g S) (hp : L.node p = some m) :
    (L.publish p n lnk).Encodes g
      (S.set (g.prefixHash p) (L.color p) ((L.publish p n lnk).entry g p n)) := by
  have hp' := all_of_node hp
  exact enc.set (K := L.publish p n lnk) (by rw [all_publish, if_pos rfl])
    (fun r ne => by rw [all_publish, if_neg ne])
    (fun r m ne hr => by
      refine ⟨rfl, ?_⟩
      cases m <;> simp [entry, body, Layout.publish, Function.update_of_ne ne])
    (Or.inr ⟨by rw [hp']; exact Option.some_ne_none m, rfl⟩) (enc.symbols p m hp')
    (enc.valid p m hp') rfl rfl

/-- **Publishing**: one entry changes, and with it the tree. -/
theorem Represents.publish (rep : L.Represents g S M) (hp : L.node p = some m)
    (shape : (L.publish p n lnk).Shape M')
    (parent : ∀ q children s, (L.publish p n lnk).node q = some (.bitmap children) →
      children.testBit s = true → L.parent (q ++ [s]) = L.color q)
    (same : (M'.kvs = [] ↔ M.kvs = [])) :
    (L.publish p n lnk).Represents g
      (S.set (g.prefixHash p) (L.color p) ((L.publish p n lnk).entry g p n)) M' := by
  refine ⟨rep.toEncodes.publish hp, shape, parent, fun _ => ?_, rep.isEmpty.trans same.symm⟩
  obtain ⟨m', hroot⟩ := rep.shape.root hp
  exact rep.root_color (by rw [hroot]; exact Option.some_ne_none m')

theorem ParentedBut.publish {x : List ℕ → Prop} (parented : L.ParentedBut x)
    (hp : L.node p = some m) : (L.publish p n lnk).ParentedBut x := by
  intro r m' hr odd valid
  have old : ∃ m'', L.all r = some m'' := by
    rw [all_publish] at hr
    split at hr
    · next same => exact ⟨m, same ▸ all_of_node hp⟩
    · exact ⟨m', hr⟩
  obtain ⟨m'', hr'⟩ := old
  obtain ⟨q, s, mq, same, hq, color⟩ := parented r m'' hr' odd valid
  by_cases here : q = p
  · exact ⟨q, s, n, same, by rw [all_publish, if_pos here], color⟩
  · exact ⟨q, s, mq, same, by rw [all_publish, if_neg here, hq], color⟩

end Layout

end CuckooTrie
