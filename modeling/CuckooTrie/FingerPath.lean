import CuckooTrie.Bookkeeping
import CuckooTrie.Combs
import CuckooTrie.Iteration

/-!
# The path of a finger

A finger that tracks its path stores one entry for each node on it.  On a well-formed
trie these are exactly the nodes at prefixes of the key (`Layout.nodesOn`), so the
`MAX_KEY_SYMBOLS` places of `finger.path` are enough as long as there are not more of
them, one less if the key leaves the trie inside a jump node (`finger_path_fits_iff`).
-/

namespace CuckooTrie

open Sys

variable {g : Geometry} {t : Trie g} {L : Layout} {M : KeyMap} {p q r x : List ℕ} {n : Node}
  {key : List UInt8}

/-! ## Nodes at the prefixes of a string -/

/-- The number of nodes at prefixes of a string of symbols. -/
def Layout.nodesOn (L : Layout) (x : List ℕ) : ℕ := x.inits.countP fun p => (L.node p).isSome

namespace Layout

theorem nodesOn_concat (L : Layout) (x : List ℕ) (s : ℕ) :
    L.nodesOn (x ++ [s]) = L.nodesOn x + if (L.node (x ++ [s])).isSome then 1 else 0 := by
  rw [nodesOn, nodesOn, List.inits_append, List.countP_append]
  simp [List.countP_cons]

/-- Prefixes without nodes do not count. -/
theorem nodesOn_append_of_none {y : List ℕ}
    (none : ∀ r, q <+: r → r <+: q ++ y → r ≠ q → L.node r = none) :
    L.nodesOn (q ++ y) = L.nodesOn q := by
  induction y using List.reverseRecOn with
  | nil => rw [List.append_nil]
  | append_singleton y s ih =>
    have shorter : q ++ y <+: q ++ (y ++ [s]) :=
      (List.prefix_append_right_inj q).mpr (List.prefix_append _ _)
    rw [← List.append_assoc, nodesOn_concat, ih fun r above below => none r above
      (below.trans shorter), List.append_assoc,
      none _ (List.prefix_append _ _) List.prefix_rfl (by simp)]
    rfl

theorem nodesOn_le (L : Layout) (x : List ℕ) : L.nodesOn x ≤ x.length + 1 := by
  rw [nodesOn, ← List.length_inits]
  exact List.countP_le_length

namespace Shape

/-- There is no node between a node and its child. -/
theorem eq_or_eq_of_child (shape : L.Shape M) (child : L.Child q p) {m : Node}
    (hr : L.node r = some m) (above : q <+: r) (below : r <+: p) : r = q ∨ r = p := by
  by_cases same : q = r
  · exact Or.inl same.symm
  · obtain ⟨n, hq, -⟩ := child.inner
    obtain ⟨c, child', onPath⟩ := shape.exists_child hq hr above same
    have equal := Layout.Shape.child_unique child' child (onPath.trans below)
    exact Or.inr (below.eq_of_length_le (equal ▸ onPath.length_le))

/-- A child adds one node to the prefixes. -/
theorem nodesOn_child (shape : L.Shape M) (child : L.Child q p) (hp : L.node p = some n) :
    L.nodesOn p = L.nodesOn q + 1 := by
  obtain ⟨y, rfl⟩ := child.isPrefix
  have nonempty : y ≠ [] := by
    rintro rfl
    exact shape.child_ne child (by simp)
  obtain ⟨z, s, rfl⟩ := y.eq_nil_or_concat.resolve_left nonempty
  rw [List.concat_eq_append] at child
  rw [List.concat_eq_append, ← List.append_assoc] at hp ⊢
  rw [nodesOn_concat, hp, nodesOn_append_of_none]
  · rfl
  · intro r above below ne
    cases hr : L.node r with
    | none => rfl
    | some m =>
      have longer : q ++ z <+: q ++ (z ++ [s]) :=
        (List.prefix_append_right_inj q).mpr (List.prefix_append _ _)
      rcases shape.eq_or_eq_of_child child hr above (below.trans longer) with rfl | rfl
      · exact absurd rfl ne
      · exact absurd below.length_le (by simp)

theorem nodesOn_root (shape : L.Shape M) (hp : L.node p = some n) : L.nodesOn [] = 1 := by
  obtain ⟨m, root⟩ := shape.root hp
  simp [nodesOn, root]

end Shape

end Layout

/-- **The path has one entry for each node on it.** -/
theorem Spine.length_eq (shape : L.Shape M) {path : List PathEntry} (spine : Spine t L p path) :
    path.length = L.nodesOn p := by
  induction spine with
  | root hn => rw [shape.nodesOn_root hn, List.length_singleton]
  | child _ child hn _ _ ih => rw [List.length_cons, ih, shape.nodesOn_child child hn]

/-! ## Where a walk ends -/

/-- No node lies on the key below the place where the walk stops. -/
theorem Layout.Position.deepest {depth : ℕ} (shape : L.Shape M) (pos : L.Position p n depth x)
    (onKey : x <+: keySymbols key)
    (ends : x = keySymbols key ∨ ∃ s, x ++ [s] <+: keySymbols key ∧ ¬ n.Continues depth s)
    {m : Node} (hr : L.node r = some m) (below : r <+: keySymbols key) : r <+: p := by
  rcases PrefixOrder.comparable below (pos.isPrefix.trans onKey) with above | above
  · exact above
  by_cases same : p = r
  · exact same ▸ List.prefix_rfl
  obtain ⟨c, child, onPath⟩ := shape.exists_child pos.node hr above same
  exfalso
  obtain ⟨hp, place⟩ := pos
  cases child with
  | @bitmap children s' node bit =>
    rw [node] at hp
    cases hp
    obtain ⟨rfl, rfl⟩ := place
    rcases ends with whole | ⟨s, extended, stops⟩
    · have longer := (onPath.trans below).length_le
      rw [← whole, List.length_append, List.length_singleton] at longer
      omega
    · have equal := PrefixOrder.concat_prefix_unique (onPath.trans below) extended
      exact stops (equal ▸ bit)
  | @jump symbols node =>
    rw [node] at hp
    cases hp
    obtain ⟨inside, rfl⟩ := place
    have next : p ++ symbols.take depth ++ [symbols[depth]] <+: keySymbols key := by
      rw [List.append_assoc, List.take_append_getElem inside]
      exact ((List.prefix_append_right_inj p).mpr (List.take_prefix _ _)).trans
        (onPath.trans below)
    rcases ends with whole | ⟨s, extended, stops⟩
    · have longer := next.length_le
      rw [← whole, List.length_append, List.length_singleton] at longer
      omega
    · have equal := PrefixOrder.concat_prefix_unique next extended
      refine stops ?_
      simp [Node.Continues, List.getElem?_eq_getElem inside, equal]

/-- The nodes above the end of a walk are all those on the key. -/
theorem Layout.Position.nodesOn {depth : ℕ} (shape : L.Shape M) (pos : L.Position p n depth x)
    (onKey : x <+: keySymbols key)
    (ends : x = keySymbols key ∨ ∃ s, x ++ [s] <+: keySymbols key ∧ ¬ n.Continues depth s) :
    L.nodesOn p = L.nodesOn (keySymbols key) := by
  obtain ⟨y, whole⟩ := pos.isPrefix.trans onKey
  rw [← whole, Layout.nodesOn_append_of_none]
  intro r above below ne
  cases hr : L.node r with
  | none => rfl
  | some m =>
    rw [whole] at below
    have shorter := pos.deepest shape onKey ends hr below
    exact absurd (shorter.eq_of_length_le above.length_le) ne

/-! ## The places of the path -/

/-- Whether a finger is inside a jump node, so that an insert splits the node there. -/
def Finger.InsideJump (f : Finger) : Prop :=
  f.containingEntry.value.body.isJump = true ∧ f.depthInJump ≠ 0

/-- The entries a finger has stored fit into `finger.path`, as does the one of the
bitmap that splitting a jump node adds. -/
def Finger.PathFits (f : Finger) : Prop :=
  f.path.length ≤ maxKeySymbols ∧ (f.InsideJump → f.path.length + 1 ≤ maxKeySymbols)

/-- A key shares some but not all symbols with a jump node it reaches. -/
def Layout.LeavesInsideJump (L : Layout) (key : List UInt8) : Prop :=
  ∃ q symbols, L.node q = some (.jump symbols) ∧ q ++ symbols.take 1 <+: keySymbols key ∧
    ¬ q ++ symbols <+: keySymbols key

theorem Finger.AtPosition.isJump_iff {f : Finger} {track : Bool}
    (at_ : f.AtPosition t L p n x track) :
    f.containingEntry.value.body.isJump = true ↔ ∃ symbols, n = .jump symbols := by
  rw [at_.entry.body]
  cases n <;> simp [Layout.body, Body.isJump]

/-- A finger that walked along a key as far as possible is inside a jump node exactly if
the key leaves the trie there. -/
theorem Finger.AtPosition.insideJump_iff {f : Finger} {track : Bool} (shape : L.Shape M)
    (at_ : f.AtPosition t L p n x track) (onKey : x <+: keySymbols key)
    (ends : x = keySymbols key ∨
      ∃ s, x ++ [s] <+: keySymbols key ∧ ¬ n.Continues f.depthInJump s) :
    f.InsideJump ↔ L.LeavesInsideJump key := by
  rw [InsideJump, at_.isJump_iff]
  constructor
  · rintro ⟨⟨symbols, rfl⟩, positive⟩
    obtain ⟨hp, inside, rfl⟩ := at_.position
    refine ⟨p, symbols, hp, ?_, fun whole => ?_⟩
    · refine ((List.prefix_append_right_inj p).mpr ?_).trans onKey
      exact List.take_prefix_take_left (by omega)
    · obtain ⟨m, hm⟩ := Option.ne_none_iff_exists'.mp (shape.child _ _ (.jump hp))
      have shorter := at_.position.deepest shape onKey ends hm whole
      have nonempty := (shape.jump p symbols hp).1
      have longer := shorter.length_le
      rw [List.length_append] at longer
      exact nonempty (List.length_eq_zero_iff.mp (by omega))
  · rintro ⟨q, symbols, hq, first, notAll⟩
    have above := at_.position.deepest shape onKey ends hq
      ((List.prefix_append _ _).trans first)
    have same : q = p := by
      by_contra ne
      -- the finger is below the jump node, hence below its child
      obtain ⟨c, child, onPath⟩ := shape.exists_child hq at_.position.node above ne
      cases child with
      | bitmap node => simp [hq] at node
      | jump node =>
        rw [hq] at node
        cases node
        exact notAll (onPath.trans (at_.position.isPrefix.trans onKey))
    subst same
    obtain ⟨hp, place⟩ := at_.position
    rw [hq] at hp
    cases hp
    refine ⟨⟨symbols, rfl⟩, fun start => ?_⟩
    obtain ⟨inside, rfl⟩ := place
    rw [start] at onKey inside ends
    rw [List.take_zero, List.append_nil] at onKey ends
    have next : q ++ [symbols[0]] <+: keySymbols key := by
      have head : [symbols[0]] = symbols.take 1 := List.take_append_getElem inside
      exact head ▸ first
    rcases ends with whole | ⟨s, extended, stops⟩
    · have longer := next.length_le
      rw [← whole, List.length_append, List.length_singleton] at longer
      omega
    · have equal := PrefixOrder.concat_prefix_unique next extended
      refine stops ?_
      simp [Node.Continues, List.getElem?_eq_getElem inside, equal]

/-- The path of a finger that walked along a key as far as possible. -/
theorem Finger.AtPosition.pathFits_iff {f : Finger} (shape : L.Shape M)
    (at_ : f.AtPosition t L p n x true) (onKey : x <+: keySymbols key)
    (ends : x = keySymbols key ∨
      ∃ s, x ++ [s] <+: keySymbols key ∧ ¬ n.Continues f.depthInJump s) :
    f.path.length = L.nodesOn (keySymbols key) ∧
      (f.PathFits ↔ L.nodesOn (keySymbols key) ≤ maxKeySymbols ∧
        (L.LeavesInsideJump key → L.nodesOn (keySymbols key) + 1 ≤ maxKeySymbols)) := by
  have length : f.path.length = L.nodesOn (keySymbols key) :=
    ((at_.spine rfl).length_eq shape).trans (at_.position.nodesOn shape onKey ends)
  refine ⟨length, ?_⟩
  rw [PathFits, at_.insideJump_iff shape onKey ends, length]

/-- A key the walk stops on: it is the prefix walked, or goes on with a symbol. -/
theorem isPrefix_of_ends {P : ℕ → Prop}
    (ends : x = keySymbols key ∨ ∃ s, x ++ [s] <+: keySymbols key ∧ P s) :
    x <+: keySymbols key := by
  rcases ends with rfl | ⟨s, extended, -⟩
  · exact List.prefix_rfl
  · exact (List.prefix_append _ _).trans extended

/-- The path a descent for a key stores. -/
theorem descend_path (readable : L.Readable t M) (key : List UInt8) {f : Finger} {m : Node}
    (at_ : f.AtPosition t L [] m [] true) :
    ∃ f' symbol, descend t f key true = some (f', symbol) ∧
      f'.path.length = L.nodesOn (keySymbols key) ∧ f'.path ≠ [] ∧
      (f'.PathFits ↔ L.nodesOn (keySymbols key) ≤ maxKeySymbols ∧
        (L.LeavesInsideJump key → L.nodesOn (keySymbols key) + 1 ≤ maxKeySymbols)) := by
  obtain ⟨f', symbol, walk, p, n, x, at', ends⟩ := descend_spec readable at_ key
  have ends' : x = keySymbols key ∨
      ∃ s, x ++ [s] <+: keySymbols key ∧ ¬ n.Continues f'.depthInJump s := by
    cases symbol with
    | none => exact Or.inl ends
    | some s => exact Or.inr ⟨s, ends⟩
  obtain ⟨length, fits⟩ := at'.pathFits_iff readable.shape (isPrefix_of_ends ends') ends'
  obtain ⟨e, above, -, path, -⟩ := (at'.spine rfl).head
  exact ⟨f', symbol, walk, length, by simp [path], fits⟩

/-- The path the walk of `ct_iter_goto_internal` stores.  If it does not end in a bitmap
the position of the lowest bitmap is above its end. -/
theorem gotoLoop_path (readable : L.Readable t M) (key : List UInt8) {f : Finger} {m : Node}
    (at_ : f.AtPosition t L [] m [] true) (top : f.path.tail = []) :
    ∃ f' symbol lastBitmap,
      gotoLoop t (numKeySymbols key) f (KeyPrefetcher.start g key) 0 none =
        some (f', symbol, lastBitmap) ∧
      f'.path.length = L.nodesOn (keySymbols key) ∧
      (f'.containingEntry.value.body.isBitmap = false →
        ∀ pos, lastBitmap = some pos → pos < f'.path.length) := by
  have shape := readable.shape
  obtain ⟨k, prefetched⟩ := @KeyPrefetcher.Prefetched.start g key
  have lowest₀ : none = lastBitmapPos f.path.tail := by rw [top]; rfl
  have left₀ : numKeySymbols key + ([] : List ℕ).length = (keySymbols key).length := by
    rw [length_keySymbols, List.length_nil, Nat.add_zero]
  obtain ⟨f', symbol, lastBitmap, walk, p, n, x, at', ends, lowest⟩ :=
    gotoLoop_spec readable 0 at_ List.nil_prefix left₀ prefetched (Nat.zero_le k) lowest₀
  have ends' : x = keySymbols key ∨
      ∃ s, x ++ [s] <+: keySymbols key ∧ ¬ n.Continues f'.depthInJump s :=
    ends.imp_right fun stops => ⟨symbol, stops⟩
  obtain ⟨length, -⟩ := at'.pathFits_iff shape (isPrefix_of_ends ends') ends'
  refine ⟨f', symbol, lastBitmap, walk, length, fun notBitmap pos found => ?_⟩
  have below := lastBitmapPos_spec shape (at'.spine rfl)
  have inner : n.isInner = false ∨ ∃ symbols, n = .jump symbols := by
    cases n with
    | leaf kv => exact Or.inl rfl
    | bitmap children =>
      rw [(isBitmap_iff at'.entry).mpr ⟨children, rfl⟩] at notBitmap
      cases notBitmap
    | jump symbols => exact Or.inr ⟨symbols, rfl⟩
  rw [← lowest inner, found] at below
  obtain ⟨b, children, s, inside, -⟩ := below
  exact inside

/-- The finger `init_finger` returns has the root as its path. -/
theorem initFinger_path_tail {f : Finger} (init : initFinger t = some f) : f.path.tail = [] := by
  rw [initFinger] at init
  split at init
  · cases init
  · cases init
    rfl

/-! ## The path on a comb -/

namespace Comb

variable {n : ℕ} (c : Comb n)

/-- There is a node at every place of the back. -/
theorem nodesOn_handle (g : Geometry) :
    (c.layout g).nodesOn (keySymbols c.handle.key) = n + 1 := by
  have onBack : ∀ i ≤ n, (c.layout g).nodesOn (back i) = i + 1 := by
    intro i hi
    induction i with
    | zero =>
      obtain ⟨m, hm⟩ := c.exists_node_back hi
      exact (c.shape g).nodesOn_root (p := back 0) hm
    | succ i ih =>
      obtain ⟨m, hm⟩ := c.exists_node_back hi
      rw [(c.shape g).nodesOn_child (c.child_back hi) hm, ih (Nat.le_of_succ_le hi)]
  obtain ⟨y, whole⟩ := c.handle_key
  rw [← whole, Layout.nodesOn_append_of_none, onBack n le_rfl]
  intro r above _ ne
  cases hr : (c.layout g).node r with
  | none => rfl
  | some m => exact absurd ((c.shape g).eq_of_leaf c.node_handle hr above).symm ne

/-- The path on the way to the handle has an entry for each symbol and for the root. -/
theorem descend_handle (distinct : (bucketsFrom g n 0).Nodup) :
    ∃ f f' symbol, initFinger (c.memory g) = some f ∧
      descend (c.memory g) f c.handle.key true = some (f', symbol) ∧ f'.path.length = n + 1 := by
  have readable := c.readable distinct
  obtain ⟨f, m, init, at_⟩ := initFinger_spec readable (List.cons_ne_nil _ _) true
  obtain ⟨f', symbol, walk, length, -⟩ := descend_path readable c.handle.key at_
  exact ⟨f, f', symbol, init, walk, length.trans (c.nodesOn_handle g)⟩

end Comb

/-! ## When the path fits -/

/-- **`finger.path` is one place too short for one kind of trie**: on a trie that
encodes a map the entries fit exactly when there are at most `MAX_KEY_SYMBOLS` nodes at
prefixes of the key, or one less if the key leaves the trie inside a jump node.  The path
always has a last entry, and one after the lowest bitmap where `ct_iter_goto_internal`
reads it. -/
theorem finger_path_fits_iff (readable : L.Readable t M) (key : List UInt8) {f : Finger}
    (init : initFinger t = some f) :
    ∃ f₁ symbol₁ f₂ symbol₂ lastBitmap,
      descend t f key true = some (f₁, symbol₁) ∧
      gotoLoop t (numKeySymbols key) f (KeyPrefetcher.start g key) 0 none =
        some (f₂, symbol₂, lastBitmap) ∧
      (f₁.PathFits ∧ f₂.path.length ≤ maxKeySymbols ↔
        L.nodesOn (keySymbols key) ≤ maxKeySymbols ∧
          (L.LeavesInsideJump key → L.nodesOn (keySymbols key) + 1 ≤ maxKeySymbols)) ∧
      (∀ (s : Sys g) r, ((splitJumpNode f₁).run s).1 = some (.ok, r) →
        r.path.length = f₁.path.length + if f₁.depthInJump = 0 then 0 else 1) ∧
      f₁.path ≠ [] ∧
      (f₂.containingEntry.value.body.isBitmap = false →
        ∀ pos, lastBitmap = some pos → pos < f₂.path.length) := by
  have nonempty : M.kvs ≠ [] := by
    intro empty
    rw [initFinger_empty readable empty] at init
    cases init
  obtain ⟨f₀, n₀, init₀, at₀⟩ := initFinger_spec readable nonempty true
  rw [init] at init₀
  cases init₀
  obtain ⟨f₁, symbol₁, walk₁, length₁, onPath, fits⟩ := descend_path readable key at₀
  obtain ⟨f₂, symbol₂, lastBitmap, walk₂, length₂, lowest⟩ :=
    gotoLoop_path readable key at₀ (initFinger_path_tail init)
  refine ⟨f₁, symbol₁, f₂, symbol₂, lastBitmap, walk₁, walk₂, ?_, ?_, onPath, lowest⟩
  · rw [fits, length₂]
    exact and_iff_left_of_imp And.left
  · intro s r split
    exact (splitJumpNode_path f₁ onPath s).2 _ split rfl

/-- The path to the key of one zero byte fits in the longest comb. -/
theorem finger_path_fits_longComb :
    ∃ f f' symbol, initFinger (longComb.memory (.ctAlloc 139264 (by decide) (by decide))) = some f ∧
      descend (longComb.memory (.ctAlloc 139264 (by decide) (by decide))) f [0] true =
        some (f', symbol) ∧ f'.PathFits := by
  have readable := longComb.readable longComb_distinct
  obtain ⟨f, m, init, -⟩ := initFinger_spec readable (List.cons_ne_nil _ _) true
  obtain ⟨f', symbol, _, _, _, walk, -, fits, -⟩ := finger_path_fits_iff readable [0] init
  refine ⟨f, f', symbol, init, walk, (fits.mpr ?_).1⟩
  have few := Layout.nodesOn_le
    (longComb.layout (.ctAlloc 139264 (by decide) (by decide))) (keySymbols [0])
  have short : (keySymbols [0]).length + 1 < maxKeySymbols := by decide
  omega

/-- **The path of a finger overflows** on the way to a key of `MAX_KEY_BYTES` bytes. -/
theorem finger_path_overflows :
    WellFormed (longComb.memory (.ctAlloc 139264 (by decide) (by decide))) longComb.map ∧
      longComb.handle.key.length ≤ maxKeyBytes ∧
      ∃ f f' symbol, initFinger (longComb.memory (.ctAlloc 139264 (by decide) (by decide))) = some f ∧
        descend (longComb.memory (.ctAlloc 139264 (by decide) (by decide))) f
          longComb.handle.key true = some (f', symbol) ∧
        f'.path.length = maxKeySymbols + 1 ∧ ¬ f'.PathFits := by
  refine ⟨longComb.wellFormed longComb_distinct, by simp [longComb], ?_⟩
  obtain ⟨f, f', symbol, init, walk, length⟩ := longComb.descend_handle longComb_distinct
  refine ⟨f, f', symbol, init, walk, length, fun fits => ?_⟩
  exact absurd fits.1 (by rw [length]; exact Nat.not_succ_le_self _)

end CuckooTrie
