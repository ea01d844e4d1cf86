import CuckooTrie.Store
import Mathlib.Data.Fintype.Card

/-!
# Writing the store

The ways in which the code changes a cell, as operations of the store the memory
holds: changing an entry in place (`Stores.set`), putting one into a free cell
under a fresh color (`Stores.add`), freeing a cell (`Stores.erase`), and the two
kinds of steps of a relocation, which leave the store alone (`Stores.move`,
`Stores.fill`).
-/

namespace CuckooTrie

variable {g : Geometry}

namespace Trie

/-- The memory `t'` is `t` with a new value in one cell. -/
structure Puts (t : Trie g) (loc : Loc) (e : Entry) (t' : Trie g) : Prop where
  cells : ∀ l, t'.cells l = if l = loc then e else t.cells l
  isEmpty : t'.isEmpty = t.isEmpty

theorem puts_store (t : Trie g) (loc : Loc) (e : Entry) : t.Puts loc e (t.store loc e) :=
  ⟨fun _ => rfl, rfl⟩

theorem puts_write (t : Trie g) (loc : Loc) (e : Entry) : t.Puts loc e (t.write loc e) :=
  ⟨fun _ => rfl, rfl⟩

namespace Puts

variable {t t' : Trie g} {loc l : Loc} {e : Entry} {h c : ℕ}

theorem self (puts : t.Puts loc e t') : t'.cells loc = e := by
  rw [puts.cells, if_pos rfl]

theorem of_ne (puts : t.Puts loc e t') (ne : l ≠ loc) : t'.cells l = t.cells l := by
  rw [puts.cells, if_neg ne]

theorem at_of_ne (puts : t.Puts loc e t') (ne : l ≠ loc) : t'.At l h c ↔ t.At l h c :=
  ⟨fun a => a.congr (puts.of_ne ne).symm, fun a => a.congr (puts.of_ne ne)⟩

/-- What a cell holds after the store: the new entry, or what it held before. -/
theorem at_cases (puts : t.Puts loc e t') (at_ : t'.At l h c) :
    l = loc ∧ e.body.used = true ∧ cellHash g loc e = h ∧ e.color = c ∨
      l ≠ loc ∧ t.At l h c := by
  by_cases same : l = loc
  · subst same
    obtain ⟨-, used, hash, color⟩ := at_
    rw [puts.self] at used hash color
    exact Or.inl ⟨rfl, used, hash, color⟩
  · exact Or.inr ⟨same, (puts.at_of_ne same).mp at_⟩

theorem at_self (puts : t.Puts loc e t') (inTable : loc.bucket < g.numBuckets)
    (used : e.body.used = true) : t'.At loc (cellHash g loc e) e.color :=
  ⟨inTable, by rw [puts.self]; exact used, by rw [puts.self], by rw [puts.self]⟩

theorem minLeaf (puts : t.Puts loc e t') (inTable : loc.bucket < g.numBuckets) :
    t'.cells (trieMinLeaf g) = t.cells (trieMinLeaf g) :=
  puts.of_ne fun same => by
    rw [← same] at inTable
    exact absurd inTable (lt_irrefl _)

end Puts

/-- A cell a relocation may overwrite: a free one, or the one just copied from. -/
def Vacant (t : Trie g) (hole : Option Loc) (dst : Loc) : Prop :=
  dst.bucket < g.numBuckets ∧ (hole = none ∧ (t.cells dst).body.used = false ∨ hole = some dst)

namespace Stores

variable {t t' : Trie g} {S : Store} {hole : Option Loc} {loc src dst : Loc} {e : Entry} {h c : ℕ}

/-- An entry of a name is in one cell only. -/
theorem eq_of_at {loc' : Loc} (stores : t.Stores S none) (at_ : t.At loc h c)
    (at' : t.At loc' h c) : loc = loc' :=
  stores.unique loc loc' h c at_ at' nofun nofun

/-- The header of the cell that holds an entry. -/
theorem cellHash_eq {e' : Entry} (at_ : t.At loc h c) (tag : e'.tag = (t.cells loc).tag)
    (secondary : e'.secondary = (t.cells loc).secondary) : cellHash g loc e' = h := by
  rw [← at_.hash, cellHash, cellHash, tag, secondary]

/-- **Changing an entry in place**, under the same name. -/
theorem set (stores : t.Stores S none) (puts : t.Puts loc e t') (at_ : t.At loc h c)
    (tag : e.tag = (t.cells loc).tag) (color : e.color = (t.cells loc).color)
    (secondary : e.secondary = (t.cells loc).secondary) (used : e.body.used = true) :
    t'.Stores (S.set h c e.content) none := by
  have hash := cellHash_eq at_ tag secondary
  have here : t'.At loc h c := by
    have := puts.at_self at_.inTable used
    rwa [hash, color, at_.color] at this
  have other : ∀ {l h' c'}, l ≠ loc → t.At l h' c' → ¬ (h' = h ∧ c' = c) := by
    rintro l h' c' ne at' ⟨rfl, rfl⟩
    exact ne (stores.eq_of_at at' at_)
  constructor
  · intro l inTable unused
    by_cases same : l = loc
    · subst same
      rw [puts.self, used] at unused
      cases unused
    · rw [puts.of_ne same] at unused ⊢
      exact stores.unused_invalid l inTable unused
  · intro l inTable hused
    by_cases same : l = loc
    · subst same
      rw [puts.self, tag, color]
      exact stores.tag_color _ at_.inTable at_.used
    · rw [puts.of_ne same] at hused ⊢
      exact stores.tag_color l inTable hused
  · intro l h' c' at'
    rcases puts.at_cases at' with ⟨rfl, -, hash', color'⟩ | ⟨ne, old⟩
    · obtain ⟨rfl, rfl⟩ := here.name_eq at'
      rw [puts.self, Store.set_entry_self]
    · rw [puts.of_ne ne, Store.set_entry_of_ne _ _ (other ne old)]
      exact stores.content l h' c' old
  · intro h' c' e' stored
    by_cases same : h' = h ∧ c' = c
    · obtain ⟨rfl, rfl⟩ := same
      exact ⟨loc, here, nofun⟩
    · rw [Store.set_entry_of_ne _ _ same] at stored
      obtain ⟨l, old, -⟩ := stores.stored h' c' e' stored
      refine ⟨l, (puts.at_of_ne ?_).mpr old, nofun⟩
      rintro rfl
      exact same (old.name_eq at_)
  · intro l l' h' c' at' at'' _ _
    rcases puts.at_cases at' with ⟨rfl, -⟩ | ⟨ne, old⟩
    · rcases puts.at_cases at'' with ⟨rfl, -⟩ | ⟨ne', old'⟩
      · rfl
      · exact absurd (at'.name_eq here) (other ne' old')
    · rcases puts.at_cases at'' with ⟨rfl, -⟩ | ⟨ne', old'⟩
      · exact absurd (at''.name_eq here) (other ne old)
      · exact stores.eq_of_at old old'
  · intro e' stored
    refine ⟨?_, nofun⟩
    by_cases same : 0 = h ∧ 0 = c
    · obtain ⟨rfl, rfl⟩ := same
      have root := stores.root _ (stores.content _ _ _ at_)
      rw [← stores.eq_of_at at_ root.1]
      exact here
    · rw [Store.set_entry_of_ne _ _ same] at stored
      have root := (stores.root e' stored).1
      refine (puts.at_of_ne ?_).mpr root
      rintro rfl
      exact same (root.name_eq at_)
  · rw [puts.minLeaf at_.inTable]
    exact stores.head
  · rw [puts.isEmpty]
    exact stores.isEmpty

/-- **Putting an entry into a free cell**, under a name that is not taken. -/
theorem add (stores : t.Stores S none) (puts : t.Puts loc e t')
    (inTable : loc.bucket < g.numBuckets) (free : (t.cells loc).body.used = false)
    (used : e.body.used = true) (tag : e.tag < 16) (color : e.color ≤ maxValidColor)
    (hash : cellHash g loc e = h) (name : e.color = c) (fresh : S.entry h c = none)
    (root : h = 0 → c = 0 → loc = rootLoc) : t'.Stores (S.set h c e.content) none := by
  have here : t'.At loc h c := by
    have := puts.at_self inTable used
    rwa [hash, name] at this
  have other : ∀ {l h' c'}, t.At l h' c' → ¬ (h' = h ∧ c' = c) := by
    rintro l h' c' at' ⟨rfl, rfl⟩
    rw [stores.content l _ _ at'] at fresh
    cases fresh
  have elsewhere : ∀ {l h' c'}, t.At l h' c' → l ≠ loc := by
    rintro l h' c' at' rfl
    rw [at'.used] at free
    cases free
  constructor
  · intro l inTable' unused
    by_cases same : l = loc
    · subst same
      rw [puts.self, used] at unused
      cases unused
    · rw [puts.of_ne same] at unused ⊢
      exact stores.unused_invalid l inTable' unused
  · intro l inTable' hused
    by_cases same : l = loc
    · subst same
      rw [puts.self]
      exact ⟨tag, color⟩
    · rw [puts.of_ne same] at hused ⊢
      exact stores.tag_color l inTable' hused
  · intro l h' c' at'
    rcases puts.at_cases at' with ⟨rfl, -⟩ | ⟨ne, old⟩
    · obtain ⟨rfl, rfl⟩ := here.name_eq at'
      rw [puts.self, Store.set_entry_self]
    · rw [puts.of_ne ne, Store.set_entry_of_ne _ _ (other old)]
      exact stores.content l h' c' old
  · intro h' c' e' stored
    by_cases same : h' = h ∧ c' = c
    · obtain ⟨rfl, rfl⟩ := same
      exact ⟨loc, here, nofun⟩
    · rw [Store.set_entry_of_ne _ _ same] at stored
      obtain ⟨l, old, -⟩ := stores.stored h' c' e' stored
      exact ⟨l, (puts.at_of_ne (elsewhere old)).mpr old, nofun⟩
  · intro l l' h' c' at' at'' _ _
    rcases puts.at_cases at' with ⟨rfl, -⟩ | ⟨ne, old⟩
    · rcases puts.at_cases at'' with ⟨rfl, -⟩ | ⟨ne', old'⟩
      · rfl
      · exact absurd (at'.name_eq here) (other old')
    · rcases puts.at_cases at'' with ⟨rfl, -⟩ | ⟨ne', old'⟩
      · exact absurd (at''.name_eq here) (other old)
      · exact stores.eq_of_at old old'
  · intro e' stored
    refine ⟨?_, nofun⟩
    by_cases same : 0 = h ∧ 0 = c
    · obtain ⟨rfl, rfl⟩ := same
      rw [← root rfl rfl]
      exact here
    · rw [Store.set_entry_of_ne _ _ same] at stored
      have root := (stores.root e' stored).1
      exact (puts.at_of_ne (elsewhere root)).mpr root
  · rw [puts.minLeaf inTable]
    exact stores.head
  · rw [puts.isEmpty]
    exact stores.isEmpty

/-- **Freeing a cell** takes its entry out of the store. -/
theorem erase (stores : t.Stores S none) (puts : t.Puts loc e t') (at_ : t.At loc h c)
    (unused : e.body.used = false) (color : e.color = invalidColor)
    (parent : e.parentColor = invalidColor) : t'.Stores (S.erase h c) none := by
  have gone : ∀ {l h' c'}, t'.At l h' c' → l ≠ loc ∧ t.At l h' c' := by
    intro l h' c' at'
    rcases puts.at_cases at' with ⟨-, used, -⟩ | old
    · rw [used] at unused
      cases unused
    · exact old
  have other : ∀ {l h' c'}, l ≠ loc → t.At l h' c' → ¬ (h' = h ∧ c' = c) := by
    rintro l h' c' ne at' ⟨rfl, rfl⟩
    exact ne (stores.eq_of_at at' at_)
  constructor
  · intro l inTable free
    by_cases same : l = loc
    · subst same
      rw [puts.self]
      exact ⟨color, parent⟩
    · rw [puts.of_ne same] at free ⊢
      exact stores.unused_invalid l inTable free
  · intro l inTable used
    by_cases same : l = loc
    · subst same
      rw [puts.self, unused] at used
      cases used
    · rw [puts.of_ne same] at used ⊢
      exact stores.tag_color l inTable used
  · intro l h' c' at'
    obtain ⟨ne, old⟩ := gone at'
    rw [puts.of_ne ne, Store.erase_entry_of_ne _ (other ne old)]
    exact stores.content l h' c' old
  · intro h' c' e' stored
    by_cases same : h' = h ∧ c' = c
    · obtain ⟨rfl, rfl⟩ := same
      rw [Store.erase_entry_self] at stored
      cases stored
    · rw [Store.erase_entry_of_ne _ same] at stored
      obtain ⟨l, old, -⟩ := stores.stored h' c' e' stored
      refine ⟨l, (puts.at_of_ne ?_).mpr old, nofun⟩
      rintro rfl
      exact same (old.name_eq at_)
  · exact fun l l' h' c' at' at'' _ _ => stores.eq_of_at (gone at').2 (gone at'').2
  · intro e' stored
    refine ⟨?_, nofun⟩
    by_cases same : 0 = h ∧ 0 = c
    · obtain ⟨rfl, rfl⟩ := same
      rw [Store.erase_entry_self] at stored
      cases stored
    · rw [Store.erase_entry_of_ne _ same] at stored
      have root := (stores.root e' stored).1
      refine (puts.at_of_ne ?_).mpr root
      rintro rfl
      exact same (root.name_eq at_)
  · rw [puts.minLeaf at_.inTable]
    exact stores.head
  · rw [puts.isEmpty]
    exact stores.isEmpty

/-- **One step of a relocation**: copy an entry into a vacant cell of its other
bucket.  The cell it was in is vacant then. -/
theorem move (stores : t.Stores S hole) (puts : t.Puts dst (t.cells src).flip t')
    (vacant : t.Vacant hole dst) (at_ : t.At src h c) (moves : hole ≠ some src)
    (bucket : dst.bucket = alternateBucket g (t.cells src) src.bucket) (srcRoot : src ≠ rootLoc)
    (dstRoot : dst ≠ rootLoc) : t'.Stores S (some src) ∧ t'.At src h c := by
  obtain ⟨inTable, vacant⟩ := vacant
  have hash : cellHash g dst (t.cells src).flip = h := by
    rw [cellHash_alternate at_.inTable bucket, at_.hash]
  have ne : src ≠ dst := by
    rintro rfl
    rcases vacant with ⟨-, unused⟩ | same
    · rw [at_.used] at unused
      cases unused
    · exact moves same
  have here : t'.At dst h c := by
    have := puts.at_self inTable (show (t.cells src).flip.body.used = true from at_.used)
    rw [hash] at this
    exact at_.color ▸ this
  -- a cell other than the vacant one counted before
  have counts : ∀ {l h' c'}, l ≠ dst → t.At l h' c' → hole ≠ some l := by
    intro l h' c' neDst at'
    rcases vacant with ⟨rfl, -⟩ | rfl
    · nofun
    · exact fun same => neDst (Option.some.inj same).symm
  refine ⟨?_, (puts.at_of_ne ne).mpr at_⟩
  constructor
  · intro l inTable' unused
    by_cases same : l = dst
    · subst same
      rw [puts.self] at unused
      exact absurd at_.used (by rw [show (t.cells src).body.used = false from unused]; decide)
    · rw [puts.of_ne same] at unused ⊢
      exact stores.unused_invalid l inTable' unused
  · intro l inTable' used
    by_cases same : l = dst
    · subst same
      rw [puts.self]
      exact stores.tag_color src at_.inTable at_.used
    · rw [puts.of_ne same] at used ⊢
      exact stores.tag_color l inTable' used
  · intro l h' c' at'
    rcases puts.at_cases at' with ⟨rfl, -⟩ | ⟨neDst, old⟩
    · obtain ⟨rfl, rfl⟩ := here.name_eq at'
      rw [puts.self, Entry.content_flip]
      exact stores.content src _ _ at_
    · rw [puts.of_ne neDst]
      exact stores.content l h' c' old
  · intro h' c' e' stored
    by_cases same : h' = h ∧ c' = c
    · obtain ⟨rfl, rfl⟩ := same
      exact ⟨dst, here, fun same => ne (Option.some.inj same)⟩
    · obtain ⟨l, old, counted⟩ := stores.stored h' c' e' stored
      have neDst : l ≠ dst := by
        rintro rfl
        rcases vacant with ⟨-, unused⟩ | same'
        · rw [old.used] at unused
          cases unused
        · exact counted same'
      refine ⟨l, (puts.at_of_ne neDst).mpr old, ?_⟩
      intro same'
      cases same'
      exact same (old.name_eq at_)
  · intro l l' h' c' at' at'' counted counted'
    have old : ∀ {l}, t'.At l h' c' → some src ≠ some l →
        l = dst ∧ h' = h ∧ c' = c ∨ l ≠ dst ∧ t.At l h' c' ∧ ¬ (h' = h ∧ c' = c) := by
      intro l at' counted
      rcases puts.at_cases at' with ⟨rfl, -⟩ | ⟨neDst, old⟩
      · exact Or.inl ⟨rfl, at'.name_eq here⟩
      · refine Or.inr ⟨neDst, old, ?_⟩
        rintro ⟨rfl, rfl⟩
        exact counted (congrArg some (stores.unique src l _ _ at_ old moves (counts neDst old)))
    rcases old at' counted with ⟨rfl, name⟩ | ⟨neDst, at', other⟩
    · rcases old at'' counted' with ⟨rfl, -⟩ | ⟨-, -, other'⟩
      · rfl
      · exact absurd name other'
    · rcases old at'' counted' with ⟨rfl, name⟩ | ⟨neDst', at'', -⟩
      · exact absurd name other
      · exact stores.unique l l' h' c' at' at'' (counts neDst at') (counts neDst' at'')
  · intro e' stored
    have root := (stores.root e' stored).1
    exact ⟨(puts.at_of_ne dstRoot.symm).mpr root, fun same => srcRoot (Option.some.inj same)⟩
  · rw [puts.minLeaf inTable]
    exact stores.head
  · rw [puts.isEmpty]
    exact stores.isEmpty

/-- **The last step of a relocation**: free the cell copied from last. -/
theorem fill (stores : t.Stores S (some src)) (puts : t.Puts src e t')
    (inTable : src.bucket < g.numBuckets) (unused : e.body.used = false)
    (color : e.color = invalidColor) (parent : e.parentColor = invalidColor) :
    t'.Stores S none := by
  have gone : ∀ {l h' c'}, t'.At l h' c' → l ≠ src ∧ t.At l h' c' := by
    intro l h' c' at'
    rcases puts.at_cases at' with ⟨-, used, -⟩ | old
    · rw [used] at unused
      cases unused
    · exact old
  constructor
  · intro l inTable' free
    by_cases same : l = src
    · subst same
      rw [puts.self]
      exact ⟨color, parent⟩
    · rw [puts.of_ne same] at free ⊢
      exact stores.unused_invalid l inTable' free
  · intro l inTable' used
    by_cases same : l = src
    · subst same
      rw [puts.self, unused] at used
      cases used
    · rw [puts.of_ne same] at used ⊢
      exact stores.tag_color l inTable' used
  · intro l h' c' at'
    obtain ⟨ne, old⟩ := gone at'
    rw [puts.of_ne ne]
    exact stores.content l h' c' old
  · intro h' c' e' stored
    obtain ⟨l, old, counted⟩ := stores.stored h' c' e' stored
    exact ⟨l, (puts.at_of_ne fun same => counted (same ▸ rfl)).mpr old, nofun⟩
  · intro l l' h' c' at' at'' _ _
    obtain ⟨ne, old⟩ := gone at'
    obtain ⟨ne', old'⟩ := gone at''
    exact stores.unique l l' h' c' old old' (fun same => ne (Option.some.inj same).symm)
      fun same => ne' (Option.some.inj same).symm
  · intro e' stored
    obtain ⟨root, counted⟩ := stores.root e' stored
    exact ⟨(puts.at_of_ne fun same => counted (same ▸ rfl)).mpr root, nofun⟩
  · rw [puts.minLeaf inTable]
    exact stores.head
  · rw [puts.isEmpty]
    exact stores.isEmpty

/-- A store into the list head. -/
theorem setHead (stores : t.Stores S hole) (puts : t.Puts (trieMinLeaf g) e t') :
    t'.Stores (S.setHead e) hole := by
  have same : ∀ {l h' c'}, t'.At l h' c' ↔ t.At l h' c' := by
    intro l h' c'
    constructor
    · exact fun a => (puts.at_of_ne a.ne_minLeaf).mp a
    · exact fun a => (puts.at_of_ne a.ne_minLeaf).mpr a
  have cells : ∀ l : Loc, l.bucket < g.numBuckets → t'.cells l = t.cells l := by
    intro l inTable
    refine puts.of_ne ?_
    rintro rfl
    exact absurd inTable (lt_irrefl _)
  constructor
  · intro l inTable unused
    rw [cells l inTable] at unused ⊢
    exact stores.unused_invalid l inTable unused
  · intro l inTable used
    rw [cells l inTable] at used ⊢
    exact stores.tag_color l inTable used
  · intro l h' c' at'
    rw [cells l at'.inTable]
    exact stores.content l h' c' (same.mp at')
  · intro h' c' e' stored
    obtain ⟨l, old, counted⟩ := stores.stored h' c' e' stored
    exact ⟨l, same.mpr old, counted⟩
  · exact fun l l' h' c' at' at'' => stores.unique l l' h' c' (same.mp at') (same.mp at'')
  · intro e' stored
    obtain ⟨root, counted⟩ := stores.root e' stored
    exact ⟨same.mpr root, counted⟩
  · exact puts.self
  · rw [puts.isEmpty]
    exact stores.isEmpty

end Stores

end Trie

/-! ## A fresh color -/

/-- The colors of the cells of a pair of buckets. -/
theorem testBit_usedColors (t : Trie g) (b₁ b₂ c : ℕ) :
    (cellIndices.foldl (fun mask i =>
      mask ||| 1 <<< (t.cells ⟨b₁, i⟩).color ||| 1 <<< (t.cells ⟨b₂, i⟩).color) 0).testBit c =
        true ↔ ∃ i, (t.cells ⟨b₁, i⟩).color = c ∨ (t.cells ⟨b₂, i⟩).color = c := by
  have bit : ∀ n : ℕ, (1 <<< n).testBit c = true ↔ n = c := by
    intro n
    rw [Nat.one_shiftLeft, Nat.testBit_two_pow]
    simp
  have scan : ∀ (is : List (Fin 4)) (mask : ℕ), (is.foldl (fun mask i =>
      mask ||| 1 <<< (t.cells ⟨b₁, i⟩).color ||| 1 <<< (t.cells ⟨b₂, i⟩).color) mask).testBit c =
        true ↔ mask.testBit c = true ∨
          ∃ i ∈ is, (t.cells ⟨b₁, i⟩).color = c ∨ (t.cells ⟨b₂, i⟩).color = c := by
    intro is
    induction is with
    | nil => simp
    | cons i is ih =>
      intro mask
      rw [List.foldl_cons, ih]
      simp only [Nat.testBit_or, Bool.or_eq_true, bit, List.mem_cons, exists_eq_or_imp, or_assoc]
  rw [scan]
  simp [mem_cellIndices]

/-- Eight colors are not all of the valid ones. -/
theorem exists_unused_color {colors : List ℕ} (few : colors.length ≤ maxValidColor) :
    ∃ c ≤ maxValidColor, c ∉ colors := by
  by_contra none
  push Not at none
  have covers : List.range (maxValidColor + 1) ⊆ colors := fun c mem =>
    none c (Nat.lt_succ_iff.mp (List.mem_range.mp mem))
  have count := (List.subperm_of_subset List.nodup_range covers).length_le
  rw [List.length_range] at count
  omega

/-- The first number that passes a test is not behind another one that does. -/
theorem find?_range_le {p : ℕ → Bool} {n c : ℕ} (inside : c < n) (passes : p c = true) :
    ∃ first ≤ c, (List.range n).find? p = some first ∧ p first = true := by
  cases found : (List.range n).find? p with
  | none =>
    have fails := List.find?_eq_none.mp found c (List.mem_range.mpr inside)
    exact absurd passes fails
  | some first =>
    obtain ⟨hit, -, fails⟩ := List.find?_range_eq_some.mp found
    refine ⟨first, ?_, rfl, hit⟩
    by_contra behind
    have := fails c (not_le.mp behind)
    rw [passes] at this
    cases this

/-- `unused_color_in_pair` returns the least color that no cell of the pair has. -/
theorem unusedColorInPair_le (t : Trie g) {b₁ b₂ c : ℕ} (inside : c < 64)
    (free : ∀ i, (t.cells ⟨b₁, i⟩).color ≠ c ∧ (t.cells ⟨b₂, i⟩).color ≠ c) :
    unusedColorInPair t b₁ b₂ ≤ c ∧ ∀ i, (t.cells ⟨b₁, i⟩).color ≠ unusedColorInPair t b₁ b₂ ∧
      (t.cells ⟨b₂, i⟩).color ≠ unusedColorInPair t b₁ b₂ := by
  have free_iff : ∀ c, (!(cellIndices.foldl (fun mask i =>
      mask ||| 1 <<< (t.cells ⟨b₁, i⟩).color ||| 1 <<< (t.cells ⟨b₂, i⟩).color) 0).testBit c) =
        true ↔ ∀ i, (t.cells ⟨b₁, i⟩).color ≠ c ∧ (t.cells ⟨b₂, i⟩).color ≠ c := by
    intro c
    rw [Bool.not_eq_true', ← Bool.not_eq_true, testBit_usedColors]
    push Not
    rfl
  obtain ⟨first, le, found, hit⟩ :=
    @find?_range_le (fun c => !Nat.testBit _ c) 64 c inside ((free_iff c).mpr free)
  rw [unusedColorInPair]
  simp only [found, Option.getD_some]
  exact ⟨le, (free_iff first).mp hit⟩

/-- **The color of a new entry**: a valid one that no cell of the pair has. -/
theorem unusedColorInPair_spec (t : Trie g) (b₁ b₂ : ℕ) :
    unusedColorInPair t b₁ b₂ ≤ maxValidColor ∧
      ∀ i, (t.cells ⟨b₁, i⟩).color ≠ unusedColorInPair t b₁ b₂ ∧
        (t.cells ⟨b₂, i⟩).color ≠ unusedColorInPair t b₁ b₂ := by
  obtain ⟨c, valid, free⟩ := @exists_unused_color
    (cellIndices.map (fun i => (t.cells ⟨b₁, i⟩).color) ++
      cellIndices.map fun i => (t.cells ⟨b₂, i⟩).color) le_rfl
  obtain ⟨le, fresh⟩ := unusedColorInPair_le t (lt_of_le_of_lt valid (by decide)) fun i =>
    ⟨fun same => free (List.mem_append_left _ (List.mem_map.mpr ⟨i, mem_cellIndices i, same⟩)),
      fun same => free (List.mem_append_right _ (List.mem_map.mpr ⟨i, mem_cellIndices i, same⟩))⟩
  exact ⟨le.trans valid, fresh⟩

end CuckooTrie
