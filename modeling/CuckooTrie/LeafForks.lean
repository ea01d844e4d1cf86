import CuckooTrie.InsertStates
import CuckooTrie.SplitPath

/-!
# A leaf that becomes a path

The layouts of a split of a leaf.  Below the place where the two keys part (`Layout.Parts`) the
greater leaf is drafted first, then a bitmap and the jump nodes up to the old leaf
(`Layout.Paves`), last the smaller leaf (`Layout.Forks`).  Writing the head of the path into the
place of the old leaf gives a trie for the map with the new object, whose list of leaves is right
as soon as the place before the two leaves is linked to the smaller one.
-/

namespace CuckooTrie

variable {g : Geometry} {L D K : Layout} {M : KeyMap} {S : Store} {p q r P seg : List ℕ} {n m : Node}
  {kv₀ kv lo hi : CtKv} {place : ListPlace} {c x y : ℕ} {lnk loc : Locator}

namespace Layout

/-! ## Where two keys part -/

/-- The key of a new object parts from that of a leaf: after a prefix below the position of the
leaf, the smaller one goes on with `x` and the greater one with `y`. -/
structure Parts (L : Layout) (M : KeyMap) (p P : List ℕ) (kv₀ kv lo hi : CtKv) (x y : ℕ) :
    Prop where
  leaf : L.node p = some (.leaf kv₀)
  onPath : p <+: P
  beside : M.Beside kv₀ kv lo hi
  less : x < y
  pathLo : P ++ [x] <+: keySymbols lo.key
  pathHi : P ++ [y] <+: keySymbols hi.key

/-- The children of the bitmap at the end of the path. -/
def forkBits (x y : ℕ) : ℕ := setChildBit (setChildBit 0 x) y

theorem testBit_forkBits {s : ℕ} : (forkBits x y).testBit s = true ↔ s = x ∨ s = y := by
  rw [forkBits, testBit_setChildBit, testBit_setChildBit, Nat.zero_testBit, Bool.false_or,
    Bool.or_eq_true, decide_eq_true_eq, decide_eq_true_eq]

theorem log2_forkBits (less : x < y) : Nat.log2 (forkBits x y) = y := by
  refine log2_eq_of_testBit (testBit_forkBits.mpr (Or.inr rfl)) fun c bit => ?_
  rcases testBit_forkBits.mp bit with rfl | rfl
  · exact less.le
  · exact le_rfl

namespace Parts

theorem absent (parts : L.Parts M p P kv₀ kv lo hi x y) (shape : L.Shape M) (ext : p <+: r)
    (ne : r ≠ p) : L.node r = none := shape.none_below_leaf parts.leaf ext ne

theorem below (parts : L.Parts M p P kv₀ kv lo hi x y) (s : ℕ) : p <+: P ++ [s] ∧ P ++ [s] ≠ p := by
  refine ⟨parts.onPath.trans (List.prefix_append _ _), fun same => ?_⟩
  have := parts.onPath.length_le
  rw [← same, List.length_append, List.length_singleton] at this
  omega

theorem ne (parts : L.Parts M p P kv₀ kv lo hi x y) : P ++ [x] ≠ P ++ [y] := by
  simpa using parts.less.ne

theorem mem_lo (parts : L.Parts M p P kv₀ kv lo hi x y) : lo ∈ M.insert kv := by
  have beside := parts.beside
  obtain ⟨rfl, -, -⟩ | ⟨rfl, -, -⟩ := beside.order
  · exact KeyMap.mem_insert_of_mem beside.new beside.mem
  · exact KeyMap.self_mem_insert

theorem mem_hi (parts : L.Parts M p P kv₀ kv lo hi x y) : hi ∈ M.insert kv := by
  have beside := parts.beside
  obtain ⟨-, rfl, -⟩ | ⟨-, rfl, -⟩ := beside.order
  · exact KeyMap.self_mem_insert
  · exact KeyMap.mem_insert_of_mem beside.new beside.mem

/-- There is an object below every position on the path. -/
theorem live (parts : L.Parts M p P kv₀ kv lo hi x y) (up : r <+: P) :
    ∃ kv' ∈ M.insert kv, KeyMap.Below r kv' :=
  ⟨hi, parts.mem_hi, (up.trans (List.prefix_append _ _)).trans parts.pathHi⟩

theorem below_kv (parts : L.Parts M p P kv₀ kv lo hi x y) : KeyMap.Below p kv := by
  obtain ⟨-, rfl, -⟩ | ⟨rfl, -, -⟩ := parts.beside.order
  · exact (parts.below y).1.trans parts.pathHi
  · exact (parts.below x).1.trans parts.pathLo

/-- The greater of the two is the greatest object below every position on the path. -/
theorem last (parts : L.Parts M p P kv₀ kv lo hi x y) (shape : L.Shape M) (down : p <+: r)
    (up : r <+: P) : (M.insert kv).last (KeyMap.Below r) = some hi := by
  have less := parts.beside.lt
  refine KeyMap.last_eq_some_iff.mpr ⟨parts.mem_hi,
    (up.trans (List.prefix_append _ _)).trans parts.pathHi, fun kv' mem below => ?_⟩
  rcases KeyMap.mem_insert.mp mem with rfl | ⟨mem, -⟩
  · obtain ⟨-, rfl, -⟩ | ⟨rfl, -, -⟩ := parts.beside.order
    · exact le_rfl
    · exact less.le
  · obtain rfl := shape.eq_of_below_leaf parts.leaf mem (down.trans below)
    obtain ⟨rfl, -, -⟩ | ⟨-, rfl, -⟩ := parts.beside.order
    · exact less.le
    · exact le_rfl

end Parts

/-- **Where the keys part**: the key of a new object that leads to a leaf leaves the key there at
some symbol. -/
theorem exists_parts (shape : L.Shape M) (leaf : L.node p = some (.leaf kv₀))
    (onPath : p <+: keySymbols kv.key) (ne : kv₀.key ≠ kv.key) :
    ∃ P e n, p <+: P ∧ e ≠ n ∧ P ++ [e] <+: keySymbols kv₀.key ∧ P ++ [n] <+: keySymbols kv.key ∧
      (kv₀.key < kv.key → L.Parts M p P kv₀ kv kv₀ kv e n) ∧
      (kv.key < kv₀.key → L.Parts M p P kv₀ kv kv kv₀ n e) := by
  obtain ⟨P, e, n, ne', he, hn⟩ := exists_parting ne
  obtain ⟨mem, onPath₀⟩ := shape.leaf p kv₀ leaf
  have down := prefix_parting ne' he hn onPath₀ onPath
  have new : ∀ kv' ∈ M, kv'.key ≠ kv.key := by
    intro kv' mem' same
    have here : KeyMap.Below p kv' := by
      rw [KeyMap.Below, same]
      exact onPath
    exact ne (by rw [← shape.eq_of_below_leaf leaf mem' here, same])
  have between : ∀ kv' ∈ M, kv' ≠ kv₀ → (kv'.key < kv₀.key ↔ kv'.key < kv.key) := by
    intro kv' mem' other
    rw [← keySymbols_lt_iff, ← keySymbols_lt_iff]
    exact PrefixOrder.lt_iff_outside
      (fun here => other (shape.eq_of_below_leaf leaf mem' here)) onPath₀ onPath
  refine ⟨P, e, n, down, ne', he, hn, fun less => ?_, fun less => ?_⟩
  · refine ⟨leaf, down, ⟨mem, new, between, Or.inl ⟨rfl, rfl, less⟩⟩, ?_, he, hn⟩
    exact (PrefixOrder.lt_iff_of_concat ne' he hn).mp (keySymbols_lt_iff.mpr less)
  · refine ⟨leaf, down, ⟨mem, new, between, Or.inr ⟨rfl, rfl, less⟩⟩, ?_, hn, he⟩
    exact (PrefixOrder.lt_iff_of_concat ne'.symm hn he).mp (keySymbols_lt_iff.mpr less)

/-! ## Drafting the path -/

/-- What is drafted while the path is built: the greater leaf, and inner nodes on the way up from
where the keys part. -/
structure Paves (g : Geometry) (L K : Layout) (p P : List ℕ) (hi : CtKv) (x y : ℕ) : Prop where
  same : L.SameNodes K
  maximal : K.draft (P ++ [y]) = some (.leaf hi)
  linkHi : K.link (P ++ [y]) = L.link p
  clean : ∀ r n, K.draft r = some n → K.dirty r = false
  inner : ∀ r n, K.draft r = some n → r ≠ P ++ [y] → n.isInner = true ∧ p <+: r ∧ r ≠ p ∧
    r <+: P ∧ K.parent r = invalidColor ∧ K.link r = K.locator g (P ++ [y])
  bitmap : ∀ r children, K.draft r = some (.bitmap children) → r = P ∧ children = forkBits x y

theorem locator_draftAt {par : ℕ} (ne : q ≠ r) :
    (K.draftAt r n c par lnk).locator g q = K.locator g q := by
  rw [locator, locator, show (K.draftAt r n c par lnk).color q = K.color q from
    Function.update_of_ne ne _ _]

namespace Paves

theorem ne_leaf (up : r <+: P) (s : ℕ) : r ≠ P ++ [s] := by
  rintro rfl
  have := up.length_le
  rw [List.length_append, List.length_singleton] at this
  omega

/-- **One more node on the path.** -/
theorem draftAt (paves : Paves g L K p P hi x y) (free : L.node r = none) (down : p <+: r)
    (ne : r ≠ p) (up : r <+: P) (inner : n.isInner = true)
    (only : ∀ children, n = .bitmap children → r = P ∧ children = forkBits x y) :
    Paves g L (K.draftAt r n c invalidColor (K.locator g (P ++ [y]))) p P hi x y := by
  have apart := ne_leaf up y
  have locator : (K.draftAt r n c invalidColor (K.locator g (P ++ [y]))).locator g (P ++ [y]) =
      K.locator g (P ++ [y]) := locator_draftAt apart.symm
  have old : ∀ {r' n'}, r' ≠ r →
      (K.draftAt r n c invalidColor (K.locator g (P ++ [y]))).draft r' = some n' →
      K.draft r' = some n' := fun other h => (Function.update_of_ne other _ _).symm.trans h
  constructor
  · exact paves.same.trans (sameNodes_draftAt (by rw [paves.same.node]; exact free))
  · exact (Function.update_of_ne apart.symm _ _).trans paves.maximal
  · exact (Function.update_of_ne apart.symm _ _).trans paves.linkHi
  · intro r' n' h
    by_cases here : r' = r
    · subst here
      exact Function.update_self _ _ _
    · exact (Function.update_of_ne here _ _).trans (paves.clean r' n' (old here h))
  · intro r' n' h other
    rw [locator]
    by_cases here : r' = r
    · subst here
      rw [show (K.draftAt r' n c invalidColor (K.locator g (P ++ [y]))).draft r' = some n from
        Function.update_self _ _ _] at h
      cases h
      exact ⟨inner, down, ne, up, Function.update_self _ _ _, Function.update_self _ _ _⟩
    · obtain ⟨inner', down', ne', up', parent, link⟩ := paves.inner r' n' (old here h) other
      exact ⟨inner', down', ne', up', (Function.update_of_ne here _ _).trans parent,
        (Function.update_of_ne here _ _).trans link⟩
  · intro r' children h
    by_cases here : r' = r
    · subst here
      rw [show (K.draftAt r' n c invalidColor (K.locator g (P ++ [y]))).draft r' = some n from
        Function.update_self _ _ _] at h
      exact only children (Option.some.inj h)
    · exact paves.bitmap r' children (old here h)

/-- The greater leaf alone. -/
theorem of_draftAt (parts : L.Parts M p P kv₀ kv lo hi x y) (shape : L.Shape M)
    (finished : L.Finished) {par : ℕ} :
    Paves g L (L.draftAt (P ++ [y]) (.leaf hi) c par (L.link p)) p P hi x y := by
  have old : ∀ {r n}, (L.draftAt (P ++ [y]) (.leaf hi) c par (L.link p)).draft r = some n →
      r = P ++ [y] ∧ n = .leaf hi := by
    intro r n h
    by_cases here : r = P ++ [y]
    · subst here
      exact ⟨rfl, Option.some.inj (h.symm.trans (Function.update_self _ _ _))⟩
    · have none := (Function.update_of_ne here _ _).symm.trans h
      rw [finished.no_draft] at none
      cases none
  refine ⟨sameNodes_draftAt (parts.absent shape (parts.below y).1 (parts.below y).2),
    Function.update_self _ _ _, Function.update_self _ _ _, fun r n h => ?_, fun r n h ne => ?_,
    fun r children h => ?_⟩
  · rw [(old h).1]
    exact Function.update_self _ _ _
  · exact absurd (old h).1 ne
  · cases (old h).2

/-- Nothing is drafted at or above the old leaf. -/
theorem draft_none (paves : Paves g L K p P hi x y) (parts : L.Parts M p P kv₀ kv lo hi x y)
    (above : r <+: p) : K.draft r = none := by
  by_contra some_
  obtain ⟨n, hn⟩ := Option.ne_none_iff_exists'.mp some_
  have ne := ne_leaf (above.trans parts.onPath) y
  obtain ⟨-, down, other, -⟩ := paves.inner r n hn ne
  exact other (above.eq_of_length (le_antisymm above.length_le down.length_le))

end Paves

/-- The tree below the end of the path, with the smaller leaf that is still missing. -/
def forkTree (K : Layout) (P : List ℕ) (lo : CtKv) (x : ℕ) : List ℕ → Option Node :=
  Function.update K.draft (P ++ [x]) (some (.leaf lo))

theorem forkTree_draftAt (c par : ℕ) (lnk : Locator) (ne : r ≠ P ++ [x]) :
    (K.draftAt r n c par lnk).forkTree P lo x =
      Function.update (K.forkTree P lo x) r (some n) :=
  Function.update_comm ne _ _ _

/-- **The bitmap** at the end of the path, with the two leaves. -/
theorem Parts.grown_fork (parts : L.Parts M p P kv₀ kv lo hi x y)
    (only : K.draft = Function.update (fun _ => none) (P ++ [y]) (some (.leaf hi))) :
    Grown L.node (Function.update (K.forkTree P lo x) P (some (.bitmap (forkBits x y))))
      (M.insert kv) fun r => r = P := by
  have fork := Grown.fork (N := L.node) parts.less.ne' parts.mem_hi parts.mem_lo parts.pathHi
    parts.pathLo
  rw [forkTree, only]
  exact fork

/-- **A jump node** on top. -/
theorem Parts.grown_jump (parts : L.Parts M p P kv₀ kv lo hi x y) {T : List ℕ → Option Node}
    (grown : Grown L.node T (M.insert kv) fun z => z = r ++ seg) (up : r ++ seg <+: P)
    (ne : seg ≠ []) (short : seg.length ≤ maxJumpSymbols)
    (range : ∀ s ∈ seg, 1 ≤ s ∧ s ≤ fanout) (hn : T (r ++ seg) = some n)
    (inner : n.isInner = true) :
    Grown L.node (Function.update T r (some (.jump seg))) (M.insert kv) fun z => z = r := by
  have free : T r = none := by
    by_contra some_
    obtain ⟨z, rfl, above⟩ := grown.below r some_
    have := above.length_le
    rw [List.length_append] at this
    exact ne (List.length_eq_zero_iff.mp (by omega))
  refine grown.onJump free ne short range (parts.live ((List.prefix_append _ _).trans up))
    (fun z h => h) (Or.inl (by rw [hn]; exact Option.some_ne_none n)) fun y hy => ?_
  rw [hn, Option.some_or] at hy
  cases hy
  exact inner

/-! ## The whole path -/

/-- Everything but the head `n` of the path is drafted. -/
structure Forks (g : Geometry) (L K : Layout) (M : KeyMap) (p P : List ℕ) (kv lo hi : CtKv)
    (x y : ℕ) (n : Node) : Prop where
  same : L.SameNodes K
  grown : Grown L.node (Function.update K.draft p (some n)) (M.insert kv) fun r => r = p
  isInner : n.isInner = true
  head : ∀ children, n = .bitmap children → p = P ∧ children = forkBits x y
  maximal : K.draft (P ++ [y]) = some (.leaf hi)
  minimal : K.draft (P ++ [x]) = some (.leaf lo)
  linkHi : K.link (P ++ [y]) = L.link p
  linkLo : K.link (P ++ [x]) = K.locator g (P ++ [y])
  parentHi : K.parent (P ++ [y]) = K.color P
  parentLo : K.parent (P ++ [x]) = K.color P
  clean : ∀ r n, K.draft r = some n → K.dirty r = false
  inner : ∀ r n, K.draft r = some n → r ≠ P ++ [y] → r ≠ P ++ [x] → n.isInner = true ∧ p <+: r ∧
    r ≠ p ∧ r <+: P ∧ K.parent r = invalidColor ∧ K.link r = K.locator g (P ++ [y])
  bitmap : ∀ r children, K.draft r = some (.bitmap children) → r = P ∧ children = forkBits x y

/-- The smaller leaf comes last, after the parent color of the greater one was set. -/
theorem Paves.forks (paves : Paves g L K p P hi x y) (parts : L.Parts M p P kv₀ kv lo hi x y)
    (shape : L.Shape M) (isInner : n.isInner = true)
    (head : ∀ children, n = .bitmap children → p = P ∧ children = forkBits x y)
    (grown : Grown L.node (Function.update (K.forkTree P lo x) p (some n)) (M.insert kv)
      fun r => r = p) :
    Forks g L ((K.amend (P ++ [y]) (K.color P) (K.link (P ++ [y])) (K.dirty (P ++ [y]))).draftAt
      (P ++ [x]) (.leaf lo) c (K.color P) (K.locator g (P ++ [y]))) M p P kv lo hi x y n := by
  have apart := parts.ne
  have absent : ∀ s, L.node (P ++ [s]) = none := fun s =>
    parts.absent shape (parts.below s).1 (parts.below s).2
  have notNode : ∀ s, K.node (P ++ [s]) = none := fun s => by rw [paves.same.node]; exact absent s
  have color : ∀ r, r ≠ P ++ [x] → ((K.amend (P ++ [y]) (K.color P) (K.link (P ++ [y]))
      (K.dirty (P ++ [y]))).draftAt (P ++ [x]) (.leaf lo) c (K.color P)
        (K.locator g (P ++ [y]))).color r = K.color r := fun r ne => Function.update_of_ne ne _ _
  have locator : ((K.amend (P ++ [y]) (K.color P) (K.link (P ++ [y]))
      (K.dirty (P ++ [y]))).draftAt (P ++ [x]) (.leaf lo) c (K.color P)
        (K.locator g (P ++ [y]))).locator g (P ++ [y]) = K.locator g (P ++ [y]) :=
    locator_draftAt apart.symm
  have old : ∀ {r m}, r ≠ P ++ [x] → ((K.amend (P ++ [y]) (K.color P) (K.link (P ++ [y]))
      (K.dirty (P ++ [y]))).draftAt (P ++ [x]) (.leaf lo) c (K.color P)
        (K.locator g (P ++ [y]))).draft r = some m → K.draft r = some m := fun ne h =>
    (Function.update_of_ne ne _ _).symm.trans h
  have colorP := color P (Paves.ne_leaf List.prefix_rfl x)
  have minimal : ((K.amend (P ++ [y]) (K.color P) (K.link (P ++ [y]))
      (K.dirty (P ++ [y]))).draftAt (P ++ [x]) (.leaf lo) c (K.color P)
        (K.locator g (P ++ [y]))).draft (P ++ [x]) = some (.leaf lo) := Function.update_self _ _ _
  constructor
  · exact paves.same.trans ((sameNodes_amend (notNode y)).trans (sameNodes_draftAt (notNode x)))
  · exact grown
  · exact isInner
  · exact head
  · exact (Function.update_of_ne apart.symm _ _).trans paves.maximal
  · exact minimal
  · refine (Function.update_of_ne apart.symm _ _).trans ?_
    exact (Function.update_self _ _ _).trans paves.linkHi
  · rw [locator]
    exact Function.update_self _ _ _
  · rw [colorP]
    refine (Function.update_of_ne apart.symm _ _).trans ?_
    exact Function.update_self _ _ _
  · rw [colorP]
    exact Function.update_self _ _ _
  · intro r m h
    by_cases here : r = P ++ [x]
    · rw [here]
      exact Function.update_self _ _ _
    · refine (Function.update_of_ne here _ _).trans ?_
      exact (congrFun (Function.update_eq_self _ _) r).trans (paves.clean r m (old here h))
  · intro r m h other here
    obtain ⟨inner, down, ne, up, parent, link⟩ := paves.inner r m (old here h) other
    rw [locator]
    refine ⟨inner, down, ne, up, (Function.update_of_ne here _ _).trans ?_,
      (Function.update_of_ne here _ _).trans ?_⟩
    · exact (Function.update_of_ne other _ _).trans parent
    · exact (congrFun (Function.update_eq_self _ _) r).trans link
  · intro r children h
    have here : r ≠ P ++ [x] := by
      rintro rfl
      rw [minimal] at h
      cases h
    exact paves.bitmap r children (old here h)

/-! ## The path in the trie -/

namespace Forks

theorem draft_below (forks : Forks g L K M p P kv lo hi x y n)
    (parts : L.Parts M p P kv₀ kv lo hi x y) (hr : K.draft r = some m) : p <+: r ∧ r ≠ p := by
  by_cases hereHi : r = P ++ [y]
  · rw [hereHi]
    exact parts.below y
  · by_cases hereLo : r = P ++ [x]
    · rw [hereLo]
      exact parts.below x
    · obtain ⟨-, down, ne, -⟩ := forks.inner r m hr hereHi hereLo
      exact ⟨down, ne⟩

/-- **A trie for the map with the new object.** -/
theorem shape (forks : Forks g L K M p P kv lo hi x y n) (parts : L.Parts M p P kv₀ kv lo hi x y)
    (shape : L.Shape M) (node : D.node = L.node) (draft : D.draft = K.draft) :
    (D.publish p n lnk).Shape (M.insert kv) := by
  refine (shape.congr node).splitLeaf (by rw [node]; exact parts.leaf) parts.beside.new
    (by rw [node, draft]; exact forks.grown) (fun r hr => ?_) ?_ ?_
  · rw [draft] at hr
    obtain ⟨m, hm⟩ := Option.ne_none_iff_exists'.mp hr
    exact forks.draft_below parts hm
  · rw [draft]
    obtain ⟨rfl, -, -⟩ | ⟨-, rfl, -⟩ := parts.beside.order
    · exact ⟨_, forks.minimal⟩
    · exact ⟨_, forks.maximal⟩
  · rw [draft]
    obtain ⟨-, rfl, -⟩ | ⟨rfl, -, -⟩ := parts.beside.order
    · exact ⟨_, forks.maximal⟩
    · exact ⟨_, forks.minimal⟩

/-- The children of the new bitmap have its color as their parent color. -/
theorem parent_fork (forks : Forks g L K M p P kv lo hi x y n) {s : ℕ}
    (bit : (forkBits x y).testBit s = true) : K.parent (P ++ [s]) = K.color P := by
  rcases testBit_forkBits.mp bit with rfl | rfl
  · exact forks.parentLo
  · exact forks.parentHi

/-- **Writing the head of the path** puts the new object into the map. -/
theorem becomes (forks : Forks g L K M p P kv lo hi x y n)
    (parts : L.Parts M p P kv₀ kv lo hi x y) (shape : L.Shape M) (place : ListPlace)
    (loc lnk : Locator) (d : Bool) :
    (K.relink loc d place).Becomes g M ((K.relink loc d place).slot g p)
      (((K.relink loc d place).publish p n lnk).entry g p n)
      ((K.relink loc d place).publish p n lnk) (M.insert kv) := by
  have node : (K.relink loc d place).node = L.node := node_relink.trans forks.same.node
  have nonempty : M.kvs ≠ [] := List.ne_nil_of_mem parts.beside.mem
  intro S rep
  refine rep.publish (by rw [node]; exact parts.leaf) (forks.shape parts shape node draft_relink)
    ?_ (iff_of_false KeyMap.insert_nonempty nonempty)
  intro q children s hq bit
  by_cases here : q = p
  · subst here
    obtain ⟨rfl, rfl⟩ := forks.head children (Option.some.inj ((if_pos rfl).symm.trans hq))
    rw [parent_relink, color_relink]
    exact forks.parent_fork bit
  · have hq' : (K.relink loc d place).all q = some (.bitmap children) := (if_neg here).symm.trans hq
    rcases Option.or_eq_some_iff.mp hq' with node | ⟨-, drafted⟩
    · exact rep.parent q children s node bit
    · rw [draft_relink] at drafted
      obtain ⟨rfl, rfl⟩ := forks.bitmap q children drafted
      rw [parent_relink, color_relink]
      exact forks.parent_fork bit

end Forks

/-- The layout after the head of the path is written and the place before the two leaves is
linked to the smaller one; that place is still marked dirty, and the greatest leaves above the
path are the old ones. -/
def fork (K : Layout) (g : Geometry) (p P : List ℕ) (x y : ℕ) (n : Node) (place : ListPlace) :
    Layout :=
  (K.relink (K.locator g (P ++ [x])) true place).publish p n (K.locator g (P ++ [y]))

namespace Forks

theorem stays (forks : Forks g L K M p P kv lo hi x y n) : L.Stays (K.fork g p P x y n place) :=
  .trans (.of_sameNodes forks.same) (.trans (.of_node node_relink color_relink) (.publish _))

theorem node_fork_self : (K.fork g p P x y n place).node p = some n := if_pos rfl

theorem node_fork_of_ne (ne : r ≠ p) : (K.fork g p P x y n place).node r = K.all r :=
  (if_neg ne).trans (congrFun all_relink r)

theorem color_fork : (K.fork g p P x y n place).color = K.color := color_relink

theorem parent_fork_eq : (K.fork g p P x y n place).parent = K.parent := parent_relink

theorem link_fork_self : (K.fork g p P x y n place).link p = K.locator g (P ++ [y]) :=
  Function.update_self _ _ _

theorem link_fork_of_ne (ne : r ≠ p) (off : ∀ kv, place ≠ some (r, kv)) :
    (K.fork g p P x y n place).link r = K.link r :=
  (Function.update_of_ne ne _ _).trans (link_relink_of_ne off)

theorem listLink_fork (off : ∀ kv, place ≠ some (p, kv)) :
    (K.fork g p P x y n place).listLink place = K.locator g (P ++ [x]) := by
  cases place with
  | none => rfl
  | some z =>
    have ne : z.1 ≠ p := fun same => off z.2 (by rw [← same])
    exact (Function.update_of_ne ne _ _).trans (Function.update_self _ _ _)

/-- The old nodes but the leaf. -/
theorem node_fork (forks : Forks g L K M p P kv lo hi x y n) (ne : r ≠ p) (hr : L.node r = some m) :
    (K.fork g p P x y n place).node r = some m := by
  rw [node_fork_of_ne ne]
  exact all_of_node (by rw [forks.same.node]; exact hr)

/-- The nodes of the new layout. -/
theorem of_node_fork (forks : Forks g L K M p P kv lo hi x y n)
    (hr : (K.fork g p P x y n place).node r = some m) :
    r = p ∧ m = n ∨ r ≠ p ∧ (L.node r = some m ∨ K.draft r = some m) := by
  by_cases here : r = p
  · subst here
    rw [node_fork_self] at hr
    exact Or.inl ⟨rfl, (Option.some.inj hr).symm⟩
  · rw [node_fork_of_ne here] at hr
    refine Or.inr ⟨here, ?_⟩
    rcases Option.or_eq_some_iff.mp hr with node | ⟨-, drafted⟩
    · exact Or.inl (by rw [← forks.same.node]; exact node)
    · exact Or.inr drafted

theorem node_fork_draft (forks : Forks g L K M p P kv lo hi x y n)
    (parts : L.Parts M p P kv₀ kv lo hi x y) (shape : L.Shape M) (hr : K.draft r = some m) :
    (K.fork g p P x y n place).node r = some m := by
  obtain ⟨down, ne⟩ := forks.draft_below parts hr
  rw [node_fork_of_ne ne, all, forks.same.node, parts.absent shape down ne, hr]
  rfl

/-- No place in the list but the old leaf is among the new nodes. -/
theorem off_place (parts : L.Parts M p P kv₀ kv lo hi x y)
    (shape : L.Shape M) (lists : L.Lists place) (down : p <+: r) (ne : r ≠ p) :
    ∀ kv', place ≠ some (r, kv') := by
  intro kv' here
  have leaf := lists r kv' here
  rw [parts.absent shape down ne] at leaf
  cases leaf

/-- Locators of old leaves but the one that is split. -/
theorem points_fork (forks : Forks g L K M p P kv lo hi x y n)
    (parts : L.Parts M p P kv₀ kv lo hi x y) {okv : Option CtKv} (points : L.PointsTo g lnk okv)
    (other : okv ≠ some kv₀) : (K.fork g p P x y n place).PointsTo g lnk okv := by
  refine points.stays fun r kv' same hr => ?_
  have ne : r ≠ p := by
    rintro rfl
    rw [parts.leaf] at hr
    cases hr
    exact other same
  exact ⟨forks.node_fork ne hr, (congrFun color_fork r).trans (forks.same.color r _ hr)⟩

theorem pointsLo (forks : Forks g L K M p P kv lo hi x y n)
    (parts : L.Parts M p P kv₀ kv lo hi x y) (shape : L.Shape M) :
    (K.fork g p P x y n place).PointsTo g (K.locator g (P ++ [x])) (some lo) :=
  ⟨P ++ [x], forks.node_fork_draft parts shape forks.minimal, by
    rw [locator, locator, color_fork]⟩

theorem pointsHi (forks : Forks g L K M p P kv lo hi x y n)
    (parts : L.Parts M p P kv₀ kv lo hi x y) (shape : L.Shape M) :
    (K.fork g p P x y n place).PointsTo g (K.locator g (P ++ [y])) (some hi) :=
  ⟨P ++ [y], forks.node_fork_draft parts shape forks.maximal, by
    rw [locator, locator, color_fork]⟩

/-- The place before the two leaves is not the old leaf. -/
theorem place_ne (parts : L.Parts M p P kv₀ kv lo hi x y) (precedes : L.Precedes M kv₀.key place)
    (kv' : CtKv) : place ≠ some (p, kv') := by
  rintro rfl
  have leaf := precedes.lists p kv' rfl
  rw [parts.leaf] at leaf
  cases leaf
  exact absurd (KeyMap.last_eq_some_iff.mp precedes.before).2.1 (lt_irrefl _)

/-- **The list of leaves** is right. -/
theorem listed (forks : Forks g L K M p P kv lo hi x y n)
    (parts : L.Parts M p P kv₀ kv lo hi x y) (shape : L.Shape M) (linked : L.Linked g M)
    (precedes : L.Precedes M kv₀.key place) :
    (K.fork g p P x y n place).Listed g (M.insert kv) := by
  have beside := parts.beside
  have off := fun s => off_place parts shape precedes.lists (parts.below s).1 (parts.below s).2
  have listLink := listLink_fork (K := K) (g := g) (P := P) (x := x) (y := y) (n := n)
    (place_ne parts precedes)
  have before := precedes.before
  constructor
  · intro r kv' hr
    rcases forks.of_node_fork hr with ⟨-, rfl⟩ | ⟨ne, node | drafted⟩
    · cases forks.isInner
    · -- an old leaf
      have mem := (shape.leaf r kv' node).1
      have other : kv' ≠ kv₀ := fun same =>
        ne (shape.leaf_unique (by rw [← same]; exact node) parts.leaf)
      by_cases at_ : ∃ kv'', place = some (r, kv'')
      · obtain ⟨kv'', rfl⟩ := at_
        have leaf := precedes.lists _ _ rfl
        rw [node] at leaf
        cases leaf
        rw [beside.after_pred before]
        have link : (K.fork g p P x y n (some (r, kv'))).link r = _ := listLink
        rw [link]
        exact forks.pointsLo parts shape
      · have notPred : M.before kv₀.key ≠ some kv' := by
          rw [before]
          intro pred
          obtain ⟨z, rfl, same⟩ := Option.map_eq_some_iff.mp pred
          have leaf := precedes.lists z.1 z.2 rfl
          rw [same] at leaf
          exact at_ ⟨z.2, by rw [← shape.leaf_unique leaf node]⟩
        rw [link_fork_of_ne ne fun kv'' same => at_ ⟨kv'', same⟩, forks.same.link r _ node,
          beside.after_of_ne mem other notPred]
        exact forks.points_fork parts (linked.next r kv' node) fun next =>
          notPred (KeyMap.before_of_after mem next)
    · by_cases hereHi : r = P ++ [y]
      · subst hereHi
        rw [forks.maximal] at drafted
        cases drafted
        rw [link_fork_of_ne ne (off y), forks.linkHi, beside.after_hi]
        exact forks.points_fork parts (linked.next p kv₀ parts.leaf) fun next =>
          absurd (KeyMap.first_eq_some_iff.mp next).2.1 (lt_irrefl _)
      · by_cases hereLo : r = P ++ [x]
        · subst hereLo
          rw [forks.minimal] at drafted
          cases drafted
          rw [link_fork_of_ne ne (off x), forks.linkLo, beside.after_lo]
          exact forks.pointsHi parts shape
        · cases (forks.inner r _ drafted hereHi hereLo).1
  · cases place with
    | none =>
      have first : (K.fork g p P x y n none).first = _ := listLink
      rw [beside.first_of_none before, first]
      exact forks.pointsLo parts shape
    | some z =>
      rw [beside.first_of_some before]
      have first := linked.first
      rw [← forks.same.first] at first
      refine forks.points_fork parts first fun same => ?_
      obtain ⟨mem, less, -⟩ := KeyMap.last_eq_some_iff.mp before
      exact absurd ((KeyMap.first_eq_some_iff.mp same).2.2 z.2 mem trivial) (not_le.mpr less)

/-- **The greatest leaves** are right but for some above the path. -/
theorem toppedUpTo (forks : Forks g L K M p P kv lo hi x y n)
    (parts : L.Parts M p P kv₀ kv lo hi x y) (shape : L.Shape M) (linked : L.Linked g M)
    (lists : L.Lists place) : (K.fork g p P x y n place).ToppedUpTo g (M.insert kv) p := by
  refine linked.toppedUpTo shape parts.beside.new parts.below_kv ?_ ?_ fun r kv' hr notIn => ?_
  · intro r m hr inner down
    rcases forks.of_node_fork hr with ⟨rfl, -⟩ | ⟨ne, node | drafted⟩
    · rw [link_fork_self, parts.last shape List.prefix_rfl parts.onPath]
      exact forks.pointsHi parts shape
    · rw [parts.absent shape down ne] at node
      cases node
    · have here : r ≠ P ++ [y] ∧ r ≠ P ++ [x] := by
        constructor
        · rintro rfl
          rw [forks.maximal] at drafted
          cases drafted
          cases inner
        · rintro rfl
          rw [forks.minimal] at drafted
          cases drafted
          cases inner
      obtain ⟨-, -, -, up, -, link⟩ := forks.inner r m drafted here.1 here.2
      rw [link_fork_of_ne ne (off_place parts shape lists down ne), link,
        parts.last shape down up]
      exact forks.pointsHi parts shape
  · intro r m hr inner notIn
    rcases forks.of_node_fork hr with ⟨rfl, -⟩ | ⟨ne, node | drafted⟩
    · exact absurd List.prefix_rfl notIn
    · refine ⟨node, ?_⟩
      rw [link_fork_of_ne ne fun kv' here => ?_]
      · exact forks.same.link r m node
      · have leaf := lists r kv' here
        rw [node] at leaf
        cases leaf
        cases inner
    · exact absurd (forks.draft_below parts drafted).1 notIn
  · have ne : r ≠ p := fun same => notIn (same ▸ List.prefix_rfl)
    exact ⟨forks.node_fork ne hr, (congrFun color_fork r).trans (forks.same.color r _ hr)⟩

/-- The children of the jump nodes on the path have no parent color. -/
theorem parent_jump (forks : Forks g L K M p P kv lo hi x y n)
    (parts : L.Parts M p P kv₀ kv lo hi x y) (shape : L.Shape M)
    (hr : Function.update K.draft p (some n) r = some (.jump seg)) (down : p <+: r)
    (ne : seg ≠ []) : K.parent (r ++ seg) = invalidColor := by
  have longer : r ++ seg ≠ p := fun same => by
    have := down.length_le
    rw [← same, List.length_append] at this
    exact ne (List.length_eq_zero_iff.mp (by omega))
  have absent := parts.absent shape (down.trans (List.prefix_append _ _)) longer
  have some_ := (forks.grown.kids r _ (.jump hr)).resolve_right (not_not.mpr absent)
  obtain ⟨m, hm⟩ := Option.ne_none_iff_exists'.mp some_
  have inner := forks.grown.jump_kids r seg hr m (by rw [hm, Option.some_or])
  rw [Function.update_of_ne longer] at hm
  refine (forks.inner _ m hm ?_ ?_).2.2.2.2.1
  · intro here
    rw [here, forks.maximal] at hm
    cases hm
    cases inner
  · intro here
    rw [here, forks.minimal] at hm
    cases hm
    cases inner

theorem unclaimed (forks : Forks g L K M p P kv lo hi x y n)
    (parts : L.Parts M p P kv₀ kv lo hi x y) (shape : L.Shape M) (unclaimed : L.Unclaimed) :
    (K.fork g p P x y n place).Unclaimed where
  root _ := by
    obtain ⟨m, hm⟩ := shape.root parts.leaf
    rw [parent_fork_eq, forks.same.parent [] m hm]
    exact unclaimed.root (by rw [hm]; exact Option.some_ne_none m)
  jump r seg hr := by
    rw [parent_fork_eq]
    have nonempty : ∀ {T : List ℕ → Option Node}, Grown L.node T (M.insert kv) (fun z => z = p) →
        T r = some (.jump seg) → seg ≠ [] := fun grown h => ((grown.fits r _ h).jump seg rfl).1
    rcases forks.of_node_fork hr with ⟨rfl, rfl⟩ | ⟨ne, node | drafted⟩
    · have here : Function.update K.draft r (some (Node.jump seg)) r = some (.jump seg) :=
        Function.update_self _ _ _
      exact forks.parent_jump parts shape here List.prefix_rfl (nonempty forks.grown here)
    · obtain ⟨m, hm⟩ := Option.ne_none_iff_exists'.mp (shape.child _ _ (.jump node))
      rw [forks.same.parent _ m hm]
      exact unclaimed.jump r seg node
    · have here : Function.update K.draft p (some n) r = some (.jump seg) :=
        (Function.update_of_ne ne _ _).trans drafted
      exact forks.parent_jump parts shape here
        (forks.draft_below parts drafted).1 (nonempty forks.grown here)

/-- **What is left to do** after the head of the path is written. -/
theorem unsettled (forks : Forks g L K M p P kv lo hi x y n)
    (parts : L.Parts M p P kv₀ kv lo hi x y) (shape : L.Shape M) (linked : L.Linked g M)
    (finished : L.Finished) (precedes : L.Precedes M kv₀.key place) :
    (K.fork g p P x y n place).Unsettled g (M.insert kv) place p where
  listed := forks.listed parts shape linked precedes
  upTo := forks.toppedUpTo parts shape linked precedes.lists
  clean r m hr away := by
    change (K.relink (K.locator g (P ++ [x])) true place).dirty r = false
    rw [dirty_relink_of_ne away]
    rcases forks.of_node_fork hr with ⟨rfl, -⟩ | ⟨-, node | drafted⟩
    · rw [forks.same.dirty r _ parts.leaf]
      exact linked.clean r _ parts.leaf
    · rw [forks.same.dirty r m node]
      exact linked.clean r m node
    · exact forks.clean r m drafted
  first_clean some_ := by
    cases place with
    | none => exact absurd rfl some_
    | some z => exact forks.same.firstDirty.trans linked.first_clean
  noDraft _ := rfl
  unclaimed := forks.unclaimed parts shape (finished.unclaimed shape)

end Forks

end Layout

end CuckooTrie
