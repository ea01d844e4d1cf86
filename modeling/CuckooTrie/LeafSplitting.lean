import CuckooTrie.LeafForks
import CuckooTrie.LeafInsertion

/-!
# Splitting a leaf

`split_leaf` puts an object whose key parts from that of a leaf into the map
(`splitLeaf_spec`).  The greater leaf is written first (`LeafDrafted`), then the path from the
bitmap up, each node with the color its child got in the table (`addPathNodes_spec`), then the
smaller leaf (`Paved.addMinimal`).  On a retry everything that was written is removed again
(`splitLeafFailed_gaveUp`).  The write of the head of the path publishes
it all; after that only links are missing.
-/

namespace CuckooTrie

open Sys

variable {g : Geometry} {maps : Set KeyMap} {base : ℕ → ℕ} {s s' : Sys g} {t : Trie g}
  {L D K : Layout} {M : KeyMap} {S : Store} {p q r P seg : List ℕ} {n m : Node} {lc : LocalCopy}
  {kv₀ kv lo hi : CtKv} {place : ListPlace} {c x y : ℕ} {lnk loc : Locator}
  {done written nodes : List (Entry × ℕ)} {leaf : Entry}

/-! ## The path nodes -/

/-- The head of a path as the local buffer holds it in the end: the header of the old leaf, with
the body of the new node. -/
def pathHead (leaf : Entry) (p : List ℕ) (n : Node) (K : Layout) (lnk : Locator) : Entry :=
  { leaf with dirty := false, lastSymbol := p.getLastD 0, body := (K.publish p n lnk).body p n }

/-- What the loop that adds the path nodes leaves behind when it succeeds: all nodes but the
head `n` are drafted. -/
structure Paved (maps : Set KeyMap) (base : ℕ → ℕ) (L K : Layout) (M : KeyMap) (p P : List ℕ)
    (kv lo hi : CtKv) (x y : ℕ) (leaf : Entry) (done : List (Entry × ℕ)) (s' : Sys g)
    (written nodes : List (Entry × ℕ)) (K' : Layout) (n : Node) : Prop where
  carries : s'.Carries maps base K' M
  paves : Layout.Paves g L K' p P hi x y
  colors : ∀ r, K.draft r ≠ none → K'.color r = K.color r
  grown : Layout.Grown L.node (Function.update (K'.forkTree P lo x) p (some n)) (M.insert kv)
    fun r => r = p
  isInner : n.isInner = true
  head : ∀ children, n = .bitmap children → p = P ∧ children = Layout.forkBits x y
  below : ∀ seg, n = .jump seg → p ++ seg <+: P
  covers : K'.Covers g (written ++ done)
  nonempty : nodes ≠ []
  last : (nodes.map Prod.fst).getLastD default = pathHead leaf p n K' (K.locator g (P ++ [y]))

/-- The outcomes of the loop that adds the path nodes; `F` is what more is known of the nodes
when it succeeds. -/
inductive Paving (maps : Set KeyMap) (base : ℕ → ℕ) (L K : Layout) (M : KeyMap) (p P : List ℕ)
    (kv lo hi : CtKv) (x y : ℕ) (leaf : Entry) (done : List (Entry × ℕ))
    (F : List (Entry × ℕ) → Layout → Prop) (s s' : Sys g) :
    InternalStatus × List (Entry × ℕ) × List (Entry × ℕ) → Prop
  | ok {written nodes : List (Entry × ℕ)} {K' : Layout} {n : Node} :
      Paved maps base L K M p P kv lo hi x y leaf done s' written nodes K' n → F nodes K' →
      Paving maps base L K M p P kv lo hi x y leaf done F s s' (.ok, written, nodes)
  | retry {written nodes : List (Entry × ℕ)} {K' : Layout} : s'.Carries maps base K' M →
      Layout.Paves g L K' p P hi x y → K'.Covers g (written ++ done) → Obstructed s s' →
      Paving maps base L K M p P kv lo hi x y leaf done F s s' (.retry, written, nodes)
  | fail {written nodes : List (Entry × ℕ)} {K' : Layout} : s'.Carries maps base K' M →
      Layout.Paves g L K' p P hi x y →
      Paving maps base L K M p P kv lo hi x y leaf done F s s' (.fail, written, nodes)

/-- The jump nodes of the path, with the head as it replaces the leaf. -/
def pathEntries (leaf : Entry) (lnk : Locator) (nodes : List (Entry × ℕ)) : List (Entry × ℕ) :=
  setPathMaxLeaf lnk (mapPathHead (inheritHeader leaf) nodes)

theorem pathEntries_cons {node : Entry × ℕ} {next : Entry × ℕ} {above : List (Entry × ℕ)} :
    pathEntries leaf lnk (node :: next :: above) =
      ({ node.1 with body := node.1.body.setMaxLeaf lnk }, node.2) ::
        pathEntries leaf lnk (next :: above) := rfl

theorem pathEntries_ne_nil {node : Entry × ℕ} {above : List (Entry × ℕ)} :
    (pathEntries leaf lnk (node :: above)).isEmpty = false := by
  cases above <;> rfl

theorem LeafPath.Builds.lt (builds : LeafPath.Builds g p nodes q) (nonempty : nodes ≠ []) :
    p.length < q.length := by
  obtain ⟨length, positive, -⟩ := builds.length_eq
  have := positive nonempty
  omega

theorem LeafPath.Builds.isPrefix (builds : LeafPath.Builds g p nodes q) : p <+: q := by
  induction builds with
  | nil => exact List.prefix_rfl
  | cons _ _ _ _ _ ih => exact ih.trans (List.prefix_append _ _)

/-- Nothing is drafted, and no jump node leads, strictly above the part of the path that is
built. -/
theorem Layout.Paves.free (paves : Layout.Paves g L K p P hi x y)
    (parts : L.Parts M p P kv₀ kv lo hi x y) (shape : L.Shape M)
    (grown : Layout.Grown L.node (K.forkTree P lo x) (M.insert kv) fun z => z = q) (down : p <+: r)
    (ne : r ≠ p) (up : r <+: P) (shorter : r.length < q.length) :
    K.all r = none ∧ K.NoJumpTo r := by
  have absent := parts.absent shape down ne
  have tree : ∀ {z}, z ≠ P ++ [x] → K.forkTree P lo x z = K.draft z := fun ne =>
    Function.update_of_ne ne _ _
  have undrafted : K.forkTree P lo x r = none := by
    by_contra some_
    obtain ⟨z, rfl, above⟩ := grown.below r some_
    exact absurd above.length_le (not_le.mpr shorter)
  refine ⟨?_, fun z symbols hz here => ?_⟩
  · rw [Layout.all, paves.same.node, absent, ← tree (Layout.Paves.ne_leaf up x), undrafted]
    rfl
  · rcases Option.or_eq_some_iff.mp hz with node | ⟨-, drafted⟩
    · rw [paves.same.node] at node
      exact shape.child _ _ (.jump node) (by rw [here, absent])
    · by_cases leafLo : z = P ++ [x]
      · have := up.length_le
        rw [← here, leafLo, List.length_append, List.length_append, List.length_singleton] at this
        omega
      · rw [← tree leafLo] at drafted
        rcases grown.kids z _ (.jump drafted) with some_ | some_
        · exact some_ (by rw [here, undrafted])
        · exact some_ (by rw [here, absent])

/-- What is drafted after a node was drafted in between. -/
theorem Paved.cons {e : Entry} {K₁ K' : Layout} {par : ℕ}
    (paved : Paved maps base L K₁ M p P kv lo hi x y leaf ((e, g.prefixHash r) :: done) s' written
      nodes K' n) (draft : K₁ = K.draftAt r m c par lnk) (free : K.draft r = none)
    (apart : P ++ [y] ≠ r) :
    Paved maps base L K M p P kv lo hi x y leaf done s' ((e, g.prefixHash r) :: written)
      ((e, g.prefixHash r) :: nodes) K' n := by
  subst draft
  refine ⟨paved.carries, paved.paves, fun r' hr => ?_, paved.grown, paved.isInner, paved.head,
    paved.below, paved.covers.perm List.perm_middle, List.cons_ne_nil _ _, ?_⟩
  · have ne : r' ≠ r := fun same => hr (same ▸ free)
    refine (paved.colors r' ?_).trans (Function.update_of_ne ne _ _)
    rw [show (K.draftAt r m c par lnk).draft r' = K.draft r' from Function.update_of_ne ne _ _]
    exact hr
  · have last := paved.last
    rw [Layout.locator_draftAt apart] at last
    rw [← last, List.map_cons]
    obtain ⟨node, above, rfl⟩ := List.exists_cons_of_ne_nil paved.nonempty
    rfl

/-- **Each path node is drafted** with the color its child got. -/
theorem addPathNodes_jumps (leaf : Entry) (carries : s.Carries maps base K M)
    (paves : Layout.Paves g L K p P hi x y) (parts : L.Parts M p P kv₀ kv lo hi x y)
    (shape : L.Shape M) (builds : LeafPath.Builds g p nodes q) (nonempty : nodes ≠ [])
    (up : q <+: P) (grown : Layout.Grown L.node (K.forkTree P lo x) (M.insert kv) fun z => z = q)
    (hq : K.draft q = some m) (inner : m.isInner = true) (covers : K.Covers g done) :
    (addPathNodes (some (K.color q)) (pathEntries leaf (K.locator g (P ++ [y])) nodes)).Returns s
      fun r s' => s.Evolves s' ∧ s.Unmoved s' ∧
        Paving maps base L K M p P kv lo hi x y leaf done (fun _ _ => True) s s' r := by
  induction builds generalizing s K m done with
  | nil => exact absurd rfl nonempty
  | @cons rest r seg builds full ne short range ih =>
    have upR : r <+: P := (List.prefix_append _ _).trans up
    have tree : K.forkTree P lo x (r ++ seg) = some m :=
      (Function.update_of_ne (Layout.Paves.ne_leaf up x) _ _).trans hq
    have jump := parts.grown_jump grown up ne short range tree inner
    cases rest with
    | nil =>
      -- the head of the path is not added
      have here : p = r := by
        cases builds
        rfl
      subst here
      have paved : Paved maps base L K M p P kv lo hi x y leaf done s []
          [(pathHead leaf p (.jump seg) K (K.locator g (P ++ [y])), g.prefixHash p)] K (.jump seg) := by
        refine ⟨carries, paves, fun _ _ => rfl, jump, rfl, ?_, ?_, covers, List.cons_ne_nil _ _, rfl⟩
        · rintro children ⟨⟩
        · rintro symbols ⟨⟩
          exact up
      have head : ({ ({ inheritHeader leaf (LeafPath.jumpEntry g p seg) with
          body := (inheritHeader leaf (LeafPath.jumpEntry g p seg)).body.setMaxLeaf
            (K.locator g (P ++ [y])) } : Entry) with
          body := ((inheritHeader leaf (LeafPath.jumpEntry g p seg)).body.setMaxLeaf
            (K.locator g (P ++ [y]))).setChildColor (K.color (p ++ seg)) } : Entry) =
          pathHead leaf p (.jump seg) K (K.locator g (P ++ [y])) := by
        simp [pathHead, inheritHeader, LeafPath.jumpEntry, Layout.body, Layout.publish,
          Body.setMaxLeaf, Body.setNextLeaf, Body.setChildColor]
      rw [← head] at paved
      exact .pure ⟨.of_quiet (.refl s), .of_cells rfl, .ok paved trivial⟩
    | cons next above =>
      have longer := builds.lt (List.cons_ne_nil _ _)
      have down := builds.isPrefix
      have ne' : r ≠ p := fun same => by rw [same] at longer; exact lt_irrefl _ longer
      have absent := parts.absent shape down ne'
      have apart := Layout.Paves.ne_leaf upR y
      have positive := List.length_pos_iff.mpr ne
      obtain ⟨free, noJump⟩ := paves.free parts shape grown down ne' upR
        (by rw [List.length_append]; omega)
      have undrafted : K.draft r = none := by
        have all := free
        rw [Layout.all, paves.same.node, absent, Option.none_or] at all
        exact all
      have root : K.node [] ≠ none := by
        obtain ⟨top, htop⟩ := shape.root parts.leaf
        rw [paves.same.node, htop]
        exact Option.some_ne_none top
      have symbols : ∀ z ∈ r, z ≤ fanout := fun z mem => le_fanout_of_mem_keySymbols
        ((upR.trans ((List.prefix_append _ _).trans parts.pathHi)).subset mem)
      rw [pathEntries_cons, addPathNodes, pathEntries_ne_nil]
      refine (Sys.Carries.addEntry (.jump seg) invalidColor (K.locator g (P ++ [y])) carries root
        none true free noJump symbols (fun c => ?_) rfl rfl).bind
        fun ret s₁ le₁ post => ?_
      · rw [Layout.entry_draftAt (by rintro _ ⟨⟩; exact ne)]
        rfl
      · obtain ⟨evolves₁, unmoved₁, drafts⟩ := post
        cases drafts with
        | @ok entry' loc drafted =>
          have paves₁ := paves.draftAt (n := .jump seg) (c := entry'.color) absent down ne' upR rfl
            (by rintro children ⟨⟩)
          have grown₁ := jump
          rw [← Layout.forkTree_draftAt entry'.color invalidColor (K.locator g (P ++ [y]))
            (Layout.Paves.ne_leaf upR x)] at grown₁
          have color : (K.draftAt r (.jump seg) entry'.color invalidColor
              (K.locator g (P ++ [y]))).color r = entry'.color := Function.update_self _ _ _
          have rest := ih drafted.carries paves₁ (List.cons_ne_nil _ _) upR grown₁
            (Function.update_self _ _ _) rfl
            (Layout.Covers.draftAt (l := []) covers undrafted (e := entry') rfl)
          rw [Layout.locator_draftAt apart.symm, color] at rest
          refine rest.bind fun ret s₂ le₂ post => ?_
          obtain ⟨evolves₂, unmoved₂, paving⟩ := post
          refine .pure ⟨evolves₁.trans evolves₂, unmoved₁.trans le₁ le₂ unmoved₂, ?_⟩
          cases paving with
          | ok paved => exact .ok (paved.cons rfl undrafted apart.symm) trivial
          | retry carries₂ paves₂ covers₂ reason =>
            exact .retry carries₂ paves₂ (covers₂.perm List.perm_middle) (reason.mono_left le₁ le₂)
          | fail carries₂ paves₂ => exact .fail carries₂ paves₂
        | retry carries₁ reason =>
          exact .pure ⟨evolves₁, unmoved₁, .retry carries₁ paves covers reason⟩
        | fail carries₁ => exact .pure ⟨evolves₁, unmoved₁, .fail carries₁ paves⟩

/-- **The path nodes are added**, from the bitmap up, all but the head. -/
theorem addPathNodes_spec {path : LeafPath} (carries : s.Carries maps base K M)
    (paves : Layout.Paves g L K p P hi x y) (parts : L.Parts M p P kv₀ kv lo hi x y)
    (shape : L.Shape M) (walked : LeafPath.Walked g p P path)
    (only : K.draft = Function.update (fun _ => none) (P ++ [y]) (some (.leaf hi)))
    (covers : K.Covers g done) (color : leaf.color = L.color p) :
    (addPathNodes none (setPathMaxLeaf (K.locator g (P ++ [y])) (setPathChildren x y
      (mapPathHead (inheritHeader leaf) path.addBitmap)))).Returns s
      fun r s' => s.Evolves s' ∧ s.Unmoved s' ∧
        Paving maps base L K M p P kv lo hi x y leaf done
          (fun nodes K' => ((nodes.map Prod.fst).headD default).color = K'.color P) s s' r := by
  have grown := parts.grown_fork only
  have builds := walked.builds
  rw [LeafPath.addBitmap, walked.prefixHash, walked.lastSymbol]
  generalize path.nodes = nodes at builds
  cases nodes with
  | nil =>
    -- the bitmap is the head of the path
    cases builds
    have paved : Paved maps base L K M p p kv lo hi x y leaf done s []
        [(pathHead leaf p (.bitmap (Layout.forkBits x y)) K (K.locator g (p ++ [y])),
          g.prefixHash p)] K (.bitmap (Layout.forkBits x y)) := by
      refine ⟨carries, paves, fun _ _ => rfl, grown, rfl, ?_, ?_, covers, List.cons_ne_nil _ _, rfl⟩
      · rintro children ⟨⟩
        exact ⟨rfl, rfl⟩
      · rintro symbols ⟨⟩
    have head : ({ ({ inheritHeader leaf ⟨invalidColor, false, false, 0, 0, p.getLastD 0,
          .bitmap 0 0 default⟩ with
        body := .bitmap (Layout.forkBits x y) y default } : Entry) with
        body := (Body.bitmap (Layout.forkBits x y) y default).setMaxLeaf
          (K.locator g (p ++ [y])) } : Entry) =
        pathHead leaf p (.bitmap (Layout.forkBits x y)) K (K.locator g (p ++ [y])) := by
      simp [pathHead, inheritHeader, Layout.body, Layout.publish, Layout.log2_forkBits parts.less,
        Body.setMaxLeaf, Body.setNextLeaf]
    have colorHead : (pathHead leaf p (.bitmap (Layout.forkBits x y)) K
        (K.locator g (p ++ [y]))).color = K.color p :=
      color.trans (paves.same.color p _ parts.leaf).symm
    rw [← head] at paved colorHead
    exact .pure ⟨.of_quiet (.refl s), .of_cells rfl, .ok paved colorHead⟩
  | cons next above =>
    have longer := builds.lt (List.cons_ne_nil _ _)
    have down := builds.isPrefix
    have ne : P ≠ p := fun same => by rw [same] at longer; exact lt_irrefl _ longer
    have absent := parts.absent shape down ne
    have apart := Layout.Paves.ne_leaf (List.prefix_refl P) y
    have undrafted : K.draft P = none := by
      rw [only]
      exact Function.update_of_ne apart _ _
    have free : K.all P = none := by
      rw [Layout.all, paves.same.node, absent, undrafted]
      rfl
    have noJump : K.NoJumpTo P := by
      intro r symbols hr here
      rcases Option.or_eq_some_iff.mp hr with node | ⟨-, drafted⟩
      · rw [paves.same.node] at node
        exact shape.child _ _ (.jump node) (by rw [here, absent])
      · rw [only] at drafted
        by_cases leafHi : r = P ++ [y]
        · rw [leafHi, Function.update_self] at drafted
          cases drafted
        · rw [Function.update_of_ne leafHi] at drafted
          cases drafted
    have root : K.node [] ≠ none := by
      obtain ⟨top, htop⟩ := shape.root parts.leaf
      rw [paves.same.node, htop]
      exact Option.some_ne_none top
    have symbols : ∀ z ∈ P, z ≤ fanout := fun z mem =>
      le_fanout_of_mem_keySymbols (((List.prefix_append _ _).trans parts.pathHi).subset mem)
    change (addPathNodes none (({ (⟨invalidColor, false, false, 0, 0, P.getLastD 0,
      .bitmap (Layout.forkBits x y) y default⟩ : Entry) with
        body := (Body.bitmap (Layout.forkBits x y) y default).setMaxLeaf
          (K.locator g (P ++ [y])) }, g.prefixHash P) ::
      pathEntries leaf (K.locator g (P ++ [y])) (next :: above))).Returns s _
    rw [addPathNodes, pathEntries_ne_nil]
    refine (Sys.Carries.addEntry (.bitmap (Layout.forkBits x y)) invalidColor
      (K.locator g (P ++ [y])) carries root none true free noJump symbols (fun c => ?_) rfl rfl).bind
      fun ret s₁ le₁ post => ?_
    · rw [Layout.entry_draftAt (by rintro _ ⟨⟩)]
      simp only [newEntry, Layout.log2_forkBits parts.less]
      rfl
    · obtain ⟨evolves₁, unmoved₁, drafts⟩ := post
      cases drafts with
      | @ok entry' loc drafted =>
        have paves₁ := paves.draftAt (n := .bitmap (Layout.forkBits x y)) (c := entry'.color) absent
          down ne List.prefix_rfl rfl (by rintro children ⟨⟩; exact ⟨rfl, rfl⟩)
        rw [← Layout.forkTree_draftAt entry'.color invalidColor (K.locator g (P ++ [y]))
          (Layout.Paves.ne_leaf List.prefix_rfl x)] at grown
        have color₁ : (K.draftAt P (.bitmap (Layout.forkBits x y)) entry'.color invalidColor
            (K.locator g (P ++ [y]))).color P = entry'.color := Function.update_self _ _ _
        have here : (K.draftAt P (.bitmap (Layout.forkBits x y)) entry'.color invalidColor
            (K.locator g (P ++ [y]))).draft P = some (.bitmap (Layout.forkBits x y)) :=
          Function.update_self _ _ _
        have rest := addPathNodes_jumps leaf drafted.carries paves₁ parts shape builds
          (List.cons_ne_nil _ _) List.prefix_rfl grown here rfl
          (Layout.Covers.draftAt (l := []) covers undrafted (e := entry') rfl)
        rw [Layout.locator_draftAt apart.symm, color₁] at rest
        refine rest.bind fun ret s₂ le₂ post => ?_
        obtain ⟨evolves₂, unmoved₂, paving⟩ := post
        refine .pure ⟨evolves₁.trans evolves₂, unmoved₁.trans le₁ le₂ unmoved₂, ?_⟩
        cases paving with
        | ok paved _ =>
          refine .ok (paved.cons rfl undrafted apart.symm) ?_
          exact (color₁.symm.trans (paved.colors P (by rw [here]; exact Option.some_ne_none _)).symm)
        | retry carries₂ paves₂ covers₂ reason =>
          exact .retry carries₂ paves₂ (covers₂.perm List.perm_middle) (reason.mono_left le₁ le₂)
        | fail carries₂ paves₂ => exact .fail carries₂ paves₂
      | retry carries₁ reason => exact .pure ⟨evolves₁, unmoved₁, .retry carries₁ paves covers reason⟩
      | fail carries₁ => exact .pure ⟨evolves₁, unmoved₁, .fail carries₁ paves⟩

/-! ## The locks -/

/-- A lock on an entry of a path fails only if it is denied or the entry is stale. -/
theorem upgradeLock_onPath {e : PathEntry} {path : List PathEntry} (mem : e ∈ path)
    (listed : LocksListed s) :
    (upgradeLock e.entry : CuckooTrie.M g InternalStatus).Returns s fun ret s' =>
      Quiet s s' ∧ (ret = .ok ∨ ret = .retry ∧ (Denied s s' ∨ s.Stale path)) := by
  refine (Quietly.upgradeLock_spec e.entry s).weaken fun ret s' _ post => ?_
  obtain ⟨quiet, outcome⟩ := post
  refine ⟨quiet, ?_⟩
  obtain ⟨rfl, -⟩ | ⟨rfl, failed⟩ := outcome
  · exact Or.inl rfl
  · refine Or.inr ⟨rfl, ?_⟩
    by_cases same : s.trie.entryUnchanged e.entry = true
    · exact Or.inl (failed listed same)
    · exact Or.inr ⟨e, mem, by simpa using same⟩

/-- **The locks of `split_leaf`.** -/
theorem splitLeafLocks_spec {f : Finger} {locator : PredLocator} {key : List UInt8}
    (whole : s.Whole maps base L M) (at_ : f.AtPosition s.trie L p (.leaf kv₀) p true)
    (selects : L.Selects g M locator (M.before key)) :
    (splitLeafLocks f locator : CuckooTrie.M g (Option LocalCopy)).Returns s fun r s' =>
      Quiet s s' ∧ match r with
        | none => Denied s s' ∨ s.Stale f.path
        | some lc => ∃ place, L.Precedes M key place ∧ lc.InList base s'.trie L place := by
  -- the leaf and its predecessor
  have rest : ∀ {s₁ : Sys g} {ret : InternalStatus}, s ≤ s₁ → Quiet s s₁ →
      (ret = .ok ∨ ret = .retry ∧ (Denied s s₁ ∨ s.Stale f.path)) →
      (do
        if ret ≠ .ok then pure none
        else if (← upgradeLock f.containingEntry) ≠ .ok then pure none
        else
          match ← getPredecessorAtomic f.path locator with
          | none => pure none
          | some predecessor =>
            if (← upgradeLock predecessor) ≠ .ok then pure none else pure (some predecessor) :
        CuckooTrie.M g (Option LocalCopy)).Returns s₁ fun r s' =>
          Quiet s s' ∧ match r with
            | none => Denied s s' ∨ s.Stale f.path
            | some lc => ∃ place, L.Precedes M key place ∧ lc.InList base s'.trie L place := by
    intro s₁ ret le₁ quiet₁ outcome
    obtain rfl | ⟨rfl, reason⟩ := outcome
    · rw [if_neg (not_not.mpr rfl)]
      refine (Quietly.upgradeLock_spec f.containingEntry s₁).bind
        fun ret s₂ le₂ post => ?_
      obtain ⟨quiet₂, outcome⟩ := post
      have quiet := quiet₁.trans quiet₂
      obtain ⟨rfl, -⟩ | ⟨rfl, failed⟩ := outcome
      · rw [if_neg (not_not.mpr rfl)]
        refine (lockPredecessor_spec (whole.quiet quiet) selects).weaken
          fun r s₃ _ post => ⟨quiet.trans post.1, ?_⟩
        cases r with
        | none =>
          exact post.2.imp (fun denied => denied.mono_left (le₁.trans le₂))
            fun stale => stale.quiet quiet
        | some lc => exact post.2
      · rw [if_pos (by simp)]
        refine .pure ⟨quiet, Or.inl ?_⟩
        refine (failed (quiet₁.locks whole.listed) ?_).mono_left le₁
        rw [Trie.entryUnchanged, quiet₁.seq]
        exact at_.entry.unchanged
    · rw [if_pos (by simp)]
      exact .pure ⟨quiet₁, reason⟩
  -- the parent and the ancestors
  rw [splitLeafLocks]
  rcases path : f.path with - | ⟨last, - | ⟨parent, above⟩⟩
  · rw [path] at rest
    exact rest le_rfl (.refl s) (Or.inl rfl)
  · rw [path] at rest
    exact rest le_rfl (.refl s) (Or.inl rfl)
  · rw [path] at rest
    have mem : parent ∈ last :: parent :: above := by simp
    refine (upgradeLock_onPath mem whole.listed).bind fun ret s₁ le₁ post => ?_
    obtain ⟨quiet₁, outcome⟩ := post
    obtain rfl | ⟨rfl, reason⟩ := outcome
    · refine (lockLeftParents_spec [] (parent :: above) (quiet₁.locks whole.listed)).bind
        fun ret s₂ le₂ post => rest (le₁.trans le₂) (quiet₁.trans post.1) ?_
      refine post.2.imp_right fun failed => ⟨failed.1, ?_⟩
      refine failed.2.imp (fun denied => denied.mono_left le₁) fun stale => ?_
      obtain ⟨e, mem, changed⟩ := stale.quiet quiet₁
      exact ⟨e, List.mem_cons_of_mem _ mem, changed⟩
    · exact rest le₁ quiet₁ (Or.inr ⟨rfl, reason⟩)

/-! ## Publishing the path -/

namespace Layout

/-- Changing a place in the list and replacing another node commute. -/
theorem relink_publish {d : Bool} (off : ∀ kv, place ≠ some (p, kv)) :
    (D.publish p n lnk).relink loc d place = (D.relink loc d place).publish p n lnk := by
  cases place with
  | none => rfl
  | some z =>
    have ne : z.1 ≠ p := fun same => off z.2 (by rw [← same])
    simp only [relink, amend, publish, Function.update_comm ne]
    rfl

/-- The entries of the nodes but the one at the place. -/
theorem entry_relink_of_ne {d : Bool} (off : ∀ kv, place ≠ some (r, kv)) :
    (D.relink loc d place).entry g r m = D.entry g r m := by
  have link : (D.relink loc d place).link r = D.link r := link_relink_of_ne off
  have dirty : (D.relink loc d place).dirty r = D.dirty r := dirty_relink_of_ne off
  cases m <;> simp [entry, body, link, dirty]

/-- The entry at the place when another node is replaced. -/
theorem listEntry_publish (off : ∀ kv, place ≠ some (p, kv)) :
    (D.publish p n lnk).listEntry g place = D.listEntry g place := by
  cases place with
  | none => rfl
  | some z =>
    have ne : z.1 ≠ p := fun same => off z.2 (by rw [← same])
    simp [listEntry, entry, body, publish, Function.update_of_ne ne]

end Layout

/-- **`split_leaf` after both leaves and the path were added**: the head of the path is written
into the place of the old leaf, then the links are set right. -/
theorem splitLeafPublish_spec {f : Finger} {predecessor : LocalCopy} {last : PathEntry}
    {above : List PathEntry} {head : Entry} (carries : s.Carries maps base K M)
    (forks : Layout.Forks g L K M p P kv lo hi x y n) (parts : L.Parts M p P kv₀ kv lo hi x y)
    (shape : L.Shape M) (linked : L.Linked g M) (finished : L.Finished)
    (precedes : L.Precedes M kv₀.key place) (copy : predecessor.InList base s.trie K place)
    (path : f.path = last :: above) (mirrors : last.entry.Mirrors base s.trie K p (.leaf kv₀))
    (trail : TrailAbove base s.trie K p above)
    (value : head = pathHead last.entry.value p n K (K.locator g (P ++ [y])))
    (mem : M.insert kv ∈ maps) :
    Regularly base (splitLeafPublish f predecessor head (K.locator g (P ++ [x]))) s fun _ s' =>
      s'.Unlocked ∧ ∃ K', s'.Whole maps base K' (M.insert kv) ∧ L.Stays K' := by
  have off := Layout.Forks.place_ne parts precedes
  have lists : K.Lists place := fun r kv' here => by
    rw [forks.same.node]
    exact precedes.lists r kv' here
  rw [splitLeafPublish, markEntryDirty, path]
  -- the place before the two leaves is marked dirty
  refine Regularly.of_orderly fun orderly => ?_
  refine Regularly.bind (Prog.Returns.ensures (carries.mark orderly.1 copy lists true))
    fun predecessor₁ s₁ _ orderly₁ post => ?_
  obtain ⟨carries₁, tracks₁, copy₁⟩ := post
  have shapeK : K.Shape M := carries.shape
  have keeps : ∀ q, K.Child q p → K.Keeps q (K.relink (K.listLink place) true place) :=
    fun q _ => .relink lists
  have trail₁ := trail.keeps shapeK keeps tracks₁
  have mirrors₁ : last.entry.Mirrors base s₁.trie (K.relink (K.listLink place) true place) p
      (.leaf kv₀) := by
    refine ⟨?_, mirrors.shows.trans (Layout.entry_relink_of_ne off).symm⟩
    rw [Layout.slot, Layout.color_relink]
    exact tracks₁ _ _ (fun isHead => Layout.slot_ne_head isHead) mirrors.tracked
  -- the head of the path replaces the leaf
  have dirty : K.dirty p = false := by
    rw [forks.same.dirty p _ parts.leaf]
    exact linked.clean p _ parts.leaf
  have body : ((K.relink (K.listLink place) true place).publish p n
      (K.locator g (P ++ [y]))).body p n = (K.publish p n (K.locator g (P ++ [y]))).body p n := by
    cases n <;> simp [Layout.body, Layout.publish]
  have content : head.content = ((K.relink (K.listLink place) true place).publish p n
      (K.locator g (P ++ [y]))).entry g p n := by
    have shown := congrArg (fun e : Entry => { e with
      dirty := false, lastSymbol := p.getLastD 0,
      body := (K.publish p n (K.locator g (P ++ [y]))).body p n }) mirrors₁.shows
    rw [value]
    refine shown.trans ?_
    have dirty₁ : (K.relink (K.listLink place) true place).dirty p = false :=
      (Layout.dirty_relink_of_ne off).trans dirty
    simp only [Layout.entry, body]
    simp only [Layout.publish, dirty₁]
  have used : head.body.used = true := by
    rw [value]
    cases n <;> rfl
  have becomes := forks.becomes parts shape place (K.listLink place) (K.locator g (P ++ [y])) true
  rw [← content] at becomes
  have leaf₁ : (K.relink (K.listLink place) true place).node p = some (.leaf kv₀) := by
    rw [Layout.node_relink, forks.same.node]
    exact parts.leaf
  refine Regularly.bind (Prog.Returns.ensures (carries₁.updateEntry orderly₁.1 mirrors₁.tracked
    (fun S rep => rep.get_slot (Layout.all_of_node leaf₁)) (by rw [value]; rfl) (by rw [value]; rfl)
    (by rw [value]; rfl) used becomes mem))
    fun newHead s₂ _ orderly₂ post => ?_
  obtain ⟨carries₂, tracks₂, -, content₂⟩ := post
  have tracks₂ : Tracks base ∅ s₁ s₂ := tracks₂.mono fun sl mem =>
    absurd mem.2 Layout.slot_ne_head
  rw [content] at content₂
  -- the place before the two leaves is linked to the smaller one
  have lists₂ : ((K.relink (K.listLink place) true place).publish p n
      (K.locator g (P ++ [y]))).Lists place := fun r kv' here => by
    have ne : r ≠ p := fun same => off kv' (by rw [here, same])
    refine (if_neg ne).trans (Layout.all_of_node ?_)
    rw [Layout.node_relink]
    exact lists r kv' here
  have copy₂ : predecessor₁.InList base s₂.trie ((K.relink (K.listLink place) true place).publish p n
      (K.locator g (P ++ [y]))) place := by
    refine copy₁.congr ?_ (Layout.listEntry_publish off) tracks₂
    cases place <;> rfl
  have value₂ : ({ predecessor₁.value with
      body := predecessor₁.value.body.setNextLeaf (K.locator g (P ++ [x])) } : Entry) =
      { predecessor₁.value with
        dirty := true, body := predecessor₁.value.body.setNextLeaf (K.locator g (P ++ [x])) } := by
    have dirty : predecessor₁.value.dirty = true := by
      have shown := congrArg Entry.dirty copy₁.shows
      rw [Layout.listEntry_relink] at shown
      exact shown
    rw [← dirty]
  refine Regularly.bind (Prog.Returns.ensures (carries₂.relink orderly₂.1 copy₂ lists₂ value₂))
    fun predecessor₂ s₃ _ _ post => ?_
  obtain ⟨carries₃, tracks₃, copy₃⟩ := post
  have fork : ((K.relink (K.listLink place) true place).publish p n
      (K.locator g (P ++ [y]))).relink (K.locator g (P ++ [x])) true place =
        K.fork g p P x y n place := by
    rw [Layout.relink_publish off, Layout.relink_relink]
    rfl
  have trail₃ : TrailAbove base s₃.trie (K.fork g p P x y n place) p above := by
    rw [← fork]
    exact (trail₁.publish carries₁.shape tracks₂).keeps carries₂.shape
      (fun q _ => .relink lists₂) tracks₃
  rw [fork] at carries₃ copy₃
  refine (carries₃.finish (forks.unsettled parts shape linked finished precedes) trail₃
    Layout.Forks.node_fork_self forks.isInner (congrArg Entry.lastSymbol content₂) ?_ copy₃ ?_).mono
      fun _ s₄ post => ⟨post.1, post.2.imp fun K' whole => ⟨whole.1, forks.stays.trans whole.2⟩⟩
  · rw [Layout.Forks.link_fork_self]
    have shown := congrArg (fun e : Entry => e.body.maxLeaf) content₂
    have isInner := forks.isInner
    cases n with
    | leaf kv' => cases isInner
    | bitmap children => exact shown.trans (Function.update_self _ _ _)
    | jump symbols => exact shown.trans (Function.update_self _ _ _)
  · rw [← fork]
    exact lists₂.relink

/-! ## Building the path -/

/-- Removing everything that was written makes the table whole again. -/
theorem splitLeafFailed_spec {ret : InternalStatus} {added : List (Entry × ℕ)}
    (kv : CtKv) (reason : Sys g → Prop) (carries : s.Carries maps base K M)
    (linked : L.Linked g M) (finished : L.Finished) (same : L.SameNodes K)
    (fresh : ∀ r, K.draft r ≠ none → L.node r = none) (covers : ret = .retry → K.Covers g added)
    (because : ret = .retry → ∀ s', s ≤ s' → reason s') :
    (splitLeafFailed ret added : CuckooTrie.M g InternalStatus).Returns s fun ret' s' =>
      Phase maps base L M kv (reason s') s' ret' := by
  rw [splitLeafFailed]
  refine .ite (fun retry => ?_) fun _ => ?_
  · refine (carries.removeNodes same fresh (covers retry)).bind
      fun _ s₁ le₁ post => ?_
    obtain ⟨K', carries₁, same', noDraft⟩ := post
    have whole := carries₁.whole linked finished same' noDraft
    refine (releaseAllLocks_spec whole.listed).bind fun _ s₂ le₂ post => ?_
    obtain ⟨quiet, unlocked⟩ := post
    exact .pure (.retry (whole.quiet quiet) (.of_sameNodes same') unlocked
      (because retry s₂ (le₁.trans le₂)))
  · exact Sys.Littered.giveUp ⟨carries, same.linked linked⟩

/-- **The failure exit**: what was added is removed, and the object has been given up. -/
theorem splitLeafFailed_gaveUp {s₀ : Sys g} {ret : InternalStatus} {added : List (Entry × ℕ)}
    (kv : CtKv) (carries : s.Carries maps base K M) (linked : L.Linked g M) (finished : L.Finished)
    (same : L.SameNodes K) (fresh : ∀ r, K.draft r ≠ none → L.node r = none)
    (covers : ret = .retry → K.Covers g added) (le : s₀ ≤ s)
    (because : ret = .retry → Obstructed s₀ s) :
    Regularly base (splitLeafFailed ret added) s fun ret' s' =>
      Phase maps base L M kv (Obstructed s₀ s') s' ret' :=
  Prog.Returns.ensures (splitLeafFailed_spec kv (Obstructed s₀) carries linked finished same fresh
    covers fun retry _ le' => (because retry).mono_right le le')

/-- The failure exit when nothing was added yet. -/
theorem splitLeafFailed_gaveUp_nil {s₀ : Sys g} {ret : InternalStatus} {stale : Prop} (kv : CtKv)
    (carries : s.Carries maps base L M) (linked : L.Linked g M) (finished : L.Finished)
    (le : s₀ ≤ s) (because : ret = .retry → Obstructed s₀ s ∨ stale) :
    Regularly base (splitLeafFailed ret []) s fun ret' s' =>
      Phase maps base L M kv (Obstructed s₀ s' ∨ stale) s' ret' :=
  Prog.Returns.ensures (splitLeafFailed_spec kv (fun s' => Obstructed s₀ s' ∨ stale) carries linked
    finished (.refl L) (fun r hr => absurd (finished.no_draft r) hr)
    (fun _ => .nil finished.no_draft) fun retry _ le' =>
      (because retry).imp_left fun reason => reason.mono_right le le')

/-- What is drafted while the path is built lies below the old leaf. -/
theorem Layout.Paves.fresh (paves : Layout.Paves g L K p P hi x y)
    (parts : L.Parts M p P kv₀ kv lo hi x y) (shape : L.Shape M) :
    ∀ r, K.draft r ≠ none → L.node r = none := by
  intro r hr
  obtain ⟨n, hn⟩ := Option.ne_none_iff_exists'.mp hr
  by_cases leafHi : r = P ++ [y]
  · rw [leafHi]
    exact parts.absent shape (parts.below y).1 (parts.below y).2
  · obtain ⟨-, down, ne, -⟩ := paves.inner r n hn leafHi
    exact parts.absent shape down ne

/-- `split_leaf` after the greater leaf was written. -/
def splitLeafBuild (f : Finger) (predecessor : LocalCopy) (minimalKv : CtKv)
    (minimalChild minimalLeafHash : ℕ) (maximalLeafContent : Entry) (maximalLeafHash : ℕ)
    (maximalLeaf : Loc) (maximalLeafSaved : Entry) (mark : ℕ) (maximalLeafLocator : Locator)
    (pathNodes : List (Entry × ℕ)) : CuckooTrie.M g InternalStatus := do
  let (ret, written, pathNodes) ← addPathNodes none pathNodes
  if ret ≠ .ok then
    splitLeafFailed ret (written ++ [(maximalLeafContent, maximalLeafHash)])
  else
    let bitmapColor := ((pathNodes.map Prod.fst).headD default).color
    recordSavedWrite maximalLeaf maximalLeafSaved mark
    storeField maximalLeaf fun e => { e with parentColor := bitmapColor }
    let (ret, minimalLeafContent, _) ← addEntry minimalLeafHash
      ⟨bitmapColor, false, false, 0, 0, minimalChild, .leaf minimalKv maximalLeafLocator⟩
      (some maximalLeaf) true
    if ret ≠ .ok then
      splitLeafFailed ret (written ++ [(maximalLeafContent, maximalLeafHash)])
    else
      splitLeafPublish f predecessor ((pathNodes.map Prod.fst).getLastD default)
        ⟨hashToBucket minimalLeafHash, hashToTag minimalLeafHash, minimalLeafContent.color⟩
      pure .ok

/-- Nothing leads to the place of the smaller leaf. -/
theorem Paved.free {K' : Layout} (paved : Paved maps base L K M p P kv lo hi x y leaf done s'
      written nodes K' n) (parts : L.Parts M p P kv₀ kv lo hi x y) (shape : L.Shape M) :
    K'.all (P ++ [x]) = none ∧ K'.NoJumpTo (P ++ [x]) := by
  have paves := paved.paves
  have absent := parts.absent shape (parts.below x).1 (parts.below x).2
  have undrafted : K'.draft (P ++ [x]) = none := by
    by_contra some_
    obtain ⟨m, hm⟩ := Option.ne_none_iff_exists'.mp some_
    exact Layout.Paves.ne_leaf (paves.inner _ m hm parts.ne).2.2.2.1 x rfl
  refine ⟨?_, fun z symbols hz here => ?_⟩
  · rw [Layout.all, paves.same.node, absent, undrafted]
    rfl
  · rcases Option.or_eq_some_iff.mp hz with node | ⟨-, drafted⟩
    · rw [paves.same.node] at node
      exact shape.child _ _ (.jump node) (by rw [here, absent])
    · -- the child of a jump node on the path is no leaf
      have neLo : z ≠ P ++ [x] := fun same => by
        rw [same, undrafted] at drafted
        cases drafted
      have ne : z ≠ p := fun same => by
        rw [same, paves.draft_none parts List.prefix_rfl] at drafted
        cases drafted
      have tree : Function.update (K'.forkTree P lo x) p (some n) z = some (.jump symbols) := by
        rw [Function.update_of_ne ne, Layout.forkTree, Function.update_of_ne neLo]
        exact drafted
      have leafLo : Function.update (K'.forkTree P lo x) p (some n) (z ++ symbols) =
          some (.leaf lo) := by
        rw [here, Function.update_of_ne (parts.below x).2, Layout.forkTree, Function.update_self]
      cases paved.grown.jump_kids z symbols tree (.leaf lo) (by rw [leafLo, Option.some_or])

/-- The entry of a leaf among the same nodes. -/
theorem Layout.SameNodes.entry_leaf (same : L.SameNodes K) (hp : L.node p = some (.leaf kv)) :
    K.entry g p (.leaf kv) = L.entry g p (.leaf kv) := by
  simp [Layout.entry, Layout.body, same.color p _ hp, same.parent p _ hp, same.link p _ hp,
    same.dirty p _ hp]

/-- All locks for the split of a leaf are taken: the copies of the leaf, of the nodes above it
and of the place before the object are current. -/
structure LeafLocked (base : ℕ → ℕ) (L : Layout) (M : KeyMap) (s : Sys g) (f : Finger)
    (predecessor : LocalCopy) (last : PathEntry) (above : List PathEntry) (place : ListPlace)
    (p : List ℕ) (kv₀ : CtKv) : Prop where
  shape : L.Shape M
  linked : L.Linked g M
  finished : L.Finished
  precedes : L.Precedes M kv₀.key place
  onPath : f.path = last :: above
  copyLeaf : last.entry = f.containingEntry
  mirrors : last.entry.Mirrors base s.trie L p (.leaf kv₀)
  trail : TrailAbove base s.trie L p above
  copy : predecessor.InList base s.trie L place

section Locked

variable {s₀ s₁ s₂ : Sys g} {f : Finger} {predecessor : LocalCopy} {last : PathEntry}
  {above : List PathEntry} {K' : Layout} {e : Entry}

/-- The head of the path stays the same when the smaller leaf is drafted. -/
theorem Paved.last_draftAt
    (paved : Paved maps base L K M p P kv lo hi x y leaf done s' written nodes K' n)
    (parts : L.Parts M p P kv₀ kv lo hi x y)
    (same : K'.locator g (P ++ [y]) = K.locator g (P ++ [y])) {K₄ : Layout}
    (draft : K₄ = (K'.amend (P ++ [y]) (K'.color P) (K'.link (P ++ [y]))
      (K'.dirty (P ++ [y]))).draftAt (P ++ [x]) (.leaf lo) c (K'.color P) (K'.locator g (P ++ [y]))) :
    (nodes.map Prod.fst).getLastD default = pathHead leaf p n K₄ (K₄.locator g (P ++ [y])) := by
  have locator : K₄.locator g (P ++ [y]) = K.locator g (P ++ [y]) := by
    rw [← same, draft]
    exact Layout.locator_draftAt parts.ne.symm
  have body : (K₄.publish p n (K.locator g (P ++ [y]))).body p n =
      (K'.publish p n (K.locator g (P ++ [y]))).body p n := by
    cases n with
    | leaf kv' => simp [Layout.body, Layout.publish]
    | bitmap children => simp [Layout.body, Layout.publish]
    | jump symbols =>
      have ne := Layout.Paves.ne_leaf (paved.below symbols rfl) x
      have color : K₄.color (p ++ symbols) = K'.color (p ++ symbols) := by
        rw [draft]
        exact Function.update_of_ne ne _ _
      simp [Layout.body, Layout.publish, color]
  rw [paved.last, pathHead, pathHead, locator, body]

/-- **The smaller leaf** follows the path, and the head of the path is published; or everything is
taken back. -/
theorem Paved.addMinimal
    (paved : Paved maps base L K M p P kv lo hi x y f.containingEntry.value done s₁ written nodes
      K' n)
    (locked : LeafLocked base L M s₀ f predecessor last above place p kv₀)
    (parts : L.Parts M p P kv₀ kv lo hi x y)
    (locator : K'.locator g (P ++ [y]) = K.locator g (P ++ [y]))
    (carries : s₂.Carries maps base (K'.amend (P ++ [y]) (K'.color P) (K'.link (P ++ [y]))
      (K'.dirty (P ++ [y]))) M)
    (tracks : Tracks base ∅ s₀ s₂) (le : s ≤ s₂) (maximalLeaf : Loc) (mem : M.insert kv ∈ maps) :
    Regularly base
      (do
        let (ret, minimalLeafContent, _) ← addEntry (g.prefixHash (P ++ [x]))
          ⟨K'.color P, false, false, 0, 0, x, .leaf lo (K.locator g (P ++ [y]))⟩ (some maximalLeaf)
          true
        if ret ≠ .ok then splitLeafFailed ret (written ++ done)
        else
          splitLeafPublish f predecessor ((nodes.map Prod.fst).getLastD default)
            ⟨hashToBucket (g.prefixHash (P ++ [x])), hashToTag (g.prefixHash (P ++ [x])),
              minimalLeafContent.color⟩
          pure .ok) s₂ fun ret s' => Phase maps base L M kv (Obstructed s s') s' ret := by
  obtain ⟨shape, linked, finished, precedes, onPath, copyLeaf, mirrors, trail, copy⟩ := locked
  have paves := paved.paves
  have absent : L.node (P ++ [y]) = none := parts.absent shape (parts.below y).1 (parts.below y).2
  have fresh : ∀ r, (K'.amend (P ++ [y]) (K'.color P) (K'.link (P ++ [y]))
      (K'.dirty (P ++ [y]))).draft r ≠ none → L.node r = none := paves.fresh parts shape
  have same : L.SameNodes (K'.amend (P ++ [y]) (K'.color P) (K'.link (P ++ [y]))
      (K'.dirty (P ++ [y]))) :=
    paves.same.trans (Layout.sameNodes_amend (by rw [paves.same.node]; exact absent))
  obtain ⟨free, noJump⟩ := paved.free parts shape
  have root : K'.node [] ≠ none := by
    obtain ⟨top, htop⟩ := shape.root parts.leaf
    rw [paves.same.node, htop]
    exact Option.some_ne_none top
  have symbols : ∀ z ∈ P ++ [x], z ≤ fanout := fun z mem =>
    le_fanout_of_mem_keySymbols (parts.pathLo.subset mem)
  refine Regularly.bind (Prog.Returns.ensures (Sys.Carries.addEntry (.leaf lo) (K'.color P)
    (K.locator g (P ++ [y])) carries root (some maximalLeaf) true free noJump symbols (fun c => ?_)
    rfl rfl)) fun r s₃ le₃ _ post => ?_
  · rw [Layout.entry_draftAt (by rintro _ ⟨⟩), newEntry, List.getLastD_concat]
  obtain ⟨evolves₃, _, drafts⟩ := post
  cases drafts with
  | @ok minimal loc' drafted =>
    dsimp only
    rw [if_neg (not_not.mpr rfl)]
    have forks := paves.forks (c := minimal.color) parts shape paved.isInner paved.head paved.grown
    have carries₃ := drafted.carries
    rw [← locator] at carries₃
    obtain ⟨K₃, hK₃⟩ : ∃ K₃, K₃ = (K'.amend (P ++ [y]) (K'.color P) (K'.link (P ++ [y]))
      (K'.dirty (P ++ [y]))).draftAt (P ++ [x]) (.leaf lo) minimal.color (K'.color P)
        (K'.locator g (P ++ [y])) := ⟨_, rfl⟩
    rw [← hK₃] at carries₃ forks
    have tracks₃ : Tracks base ∅ s₀ s₃ := tracks.trans (.of_evolves evolves₃)
    have copy₃ := copy.sameNodes precedes.lists forks.same tracks₃
    have trail₃ := trail.keeps shape (fun q _ => .of_sameNodes forks.same)
      (tracks₃.mono (Set.empty_subset _))
    have mirrors₃ : last.entry.Mirrors base s₃.trie K₃ p (.leaf kv₀) := by
      refine ⟨?_, mirrors.shows.trans (forks.same.entry_leaf parts.leaf).symm⟩
      rw [Layout.slot, forks.same.color p _ parts.leaf]
      exact tracks₃ _ _ (Set.notMem_empty _) mirrors.tracked
    have locatorLo : K₃.locator g (P ++ [x]) = ⟨hashToBucket (g.prefixHash (P ++ [x])),
        hashToTag (g.prefixHash (P ++ [x])), minimal.color⟩ := by
      rw [Layout.locator, hK₃]
      exact congrArg (Locator.mk _ _) (Function.update_self _ _ _)
    have value := paved.last_draftAt parts locator hK₃
    rw [← copyLeaf] at value
    rw [← locatorLo]
    exact Regularly.bind (splitLeafPublish_spec carries₃ forks parts shape linked finished
      precedes copy₃ onPath mirrors₃ trail₃ value mem)
      fun _ s₄ _ _ post => .pure (.ok post.2.choose_spec.1 post.2.choose_spec.2 post.1)
  | retry carries₃ reason =>
    dsimp only
    rw [if_pos (by simp)]
    exact splitLeafFailed_gaveUp kv carries₃ linked finished same fresh
      (fun _ => paved.covers.congr rfl rfl) (le.trans le₃) fun _ => reason.mono_left le le₃
  | fail carries₃ =>
    dsimp only
    rw [if_pos (by simp)]
    exact splitLeafFailed_gaveUp kv carries₃ linked finished same fresh
      (fun failed => by cases failed) (le.trans le₃) fun failed => by cases failed

/-- **`split_leaf` after the greater leaf was written**: the path and the smaller leaf follow, or
everything is taken back. -/
theorem splitLeafBuild_spec {path : LeafPath} {maximalLeaf : Loc}
    (locked : LeafLocked base L M s₀ f predecessor last above place p kv₀)
    (parts : L.Parts M p P kv₀ kv lo hi x y) (walked : LeafPath.Walked g p P path)
    (drafted : LeafDrafted maps base L M (P ++ [y]) hi e.color 0 (L.link p) s₀ s maximalLeaf)
    (mem : M.insert kv ∈ maps) :
    Regularly base (splitLeafBuild f predecessor lo x (g.prefixHash (P ++ [x])) e
      (g.prefixHash (P ++ [y])) maximalLeaf (s.trie.cells maximalLeaf) s.relocations.length
      ⟨hashToBucket (g.prefixHash (P ++ [y])), hashToTag (g.prefixHash (P ++ [y])), e.color⟩
      (setPathMaxLeaf
        ⟨hashToBucket (g.prefixHash (P ++ [y])), hashToTag (g.prefixHash (P ++ [y])), e.color⟩
        (setPathChildren x y (mapPathHead (inheritHeader f.containingEntry.value) path.addBitmap))))
      s fun ret s' => Phase maps base L M kv (Obstructed s s') s' ret := by
  obtain ⟨carries, at_, -, advanced, tracks⟩ := drafted
  have shape := locked.shape
  have finished := locked.finished
  have absent : L.node (P ++ [y]) = none := parts.absent shape (parts.below y).1 (parts.below y).2
  have paves : Layout.Paves g L (L.draftAt (P ++ [y]) (.leaf hi) e.color 0 (L.link p)) p P hi x y :=
    .of_draftAt parts shape finished
  have only : (L.draftAt (P ++ [y]) (.leaf hi) e.color 0 (L.link p)).draft =
      Function.update (fun _ => none) (P ++ [y]) (some (.leaf hi)) := by
    rw [← show L.draft = fun _ => none from funext finished.no_draft]
    rfl
  have covers : (L.draftAt (P ++ [y]) (.leaf hi) e.color 0 (L.link p)).Covers g
      [(e, g.prefixHash (P ++ [y]))] :=
    Layout.Covers.draftAt (l := []) (.nil finished.no_draft) (finished.no_draft _) rfl
  have locator : (L.draftAt (P ++ [y]) (.leaf hi) e.color 0 (L.link p)).locator g (P ++ [y]) =
      ⟨hashToBucket (g.prefixHash (P ++ [y])), hashToTag (g.prefixHash (P ++ [y])), e.color⟩ := by
    rw [Layout.locator, show (L.draftAt (P ++ [y]) (.leaf hi) e.color 0 (L.link p)).color
      (P ++ [y]) = e.color from Function.update_self _ _ _]
  have colorLeaf : f.containingEntry.value.color = L.color p := by
    rw [← locked.copyLeaf]
    exact locked.mirrors.shows.color
  have color : (L.draftAt (P ++ [y]) (.leaf hi) e.color 0 (L.link p)).color (P ++ [y]) = e.color :=
    Function.update_self _ _ _
  have maximal := paves.maximal
  generalize L.draftAt (P ++ [y]) (.leaf hi) e.color 0 (L.link p) = K at *
  rw [splitLeafBuild, ← locator]
  refine Regularly.bind (Prog.Returns.ensures (addPathNodes_spec carries paves parts shape walked
    only covers colorLeaf)) fun r s₁ le₁ _ post => ?_
  obtain ⟨evolves₁, unmoved₁, paving⟩ := post
  cases paving with
  | @ok written nodes K' n paved bitmapColor =>
    have paves' := paved.paves
    have colorHi : K'.color (P ++ [y]) = e.color :=
      (paved.colors _ (by rw [maximal]; exact Option.some_ne_none _)).trans color
    have locator' : K'.locator g (P ++ [y]) = K.locator g (P ++ [y]) := by
      rw [Layout.locator, Layout.locator, colorHi, color]
    have here : K'.all (P ++ [y]) = some (.leaf hi) := by
      rw [Layout.all, paves'.same.node, absent, paves'.maximal]
      rfl
    dsimp only
    rw [if_neg (not_not.mpr rfl), bitmapColor]
    -- the greater leaf gets its parent color, through the saved address
    refine (recordSavedWrite_spec unmoved₁ at_.used).bind fun _ s₂ le₂ _ recorded => ?_
    obtain ⟨trie₂, history₂, locks₂, relocations₂, checks₂, unchanged⟩ := recorded
    have carries₂ := paved.carries.of_trie trie₂ history₂ locks₂
    have at₂ : s₂.trie.At maximalLeaf (g.prefixHash (P ++ [y])) (K'.color (P ++ [y])) := by
      rw [trie₂, colorHi]
      exact at_.congr unchanged
    have shown := Layout.content_setParentColor (carries₂.content_at here at₂) (K'.color P)
    have becomes : K'.Becomes g M (K'.slot g (P ++ [y]))
        ((K'.amend (P ++ [y]) (K'.color P) (K'.link (P ++ [y])) (K'.dirty (P ++ [y]))).entry g
          (P ++ [y]) (.leaf hi))
        (K'.amend (P ++ [y]) (K'.color P) (K'.link (P ++ [y])) (K'.dirty (P ++ [y]))) M := by
      refine .amend here fun q children z hq bit same => ?_
      rw [(List.append_inj' same rfl).1]
    rw [← shown] at becomes
    refine Regularly.bind (Prog.Returns.ensures (carries₂.storeField at₂ (fun _ => rfl)
      (fun _ => rfl) (fun _ => rfl) at₂.used becomes carries.mem)) fun _ s₃ le₃ _ post => ?_
    obtain ⟨stored, carries₃, -, -⟩ := post
    have advanced₁ : s₀.trie.seq maximalLeaf.bucket < s₁.trie.seq maximalLeaf.bucket :=
      lt_of_lt_of_le advanced (le₁.seq _).1
    have tracks₃ : Tracks base ∅ s₀ s₃ := by
      rw [stored]
      exact ((tracks.trans (.of_evolves evolves₁)).trans (.of_trie trie₂)).storeField
        (by rw [trie₂]; exact advanced₁)
    exact paved.addMinimal locked parts locator' carries₃ tracks₃ (le₁.trans (le₂.trans le₃))
      maximalLeaf mem
  | retry carries₁ paves₁ covers₁ reason =>
    dsimp only
    rw [if_pos (by simp)]
    exact splitLeafFailed_gaveUp kv carries₁ locked.linked finished paves₁.same
      (paves₁.fresh parts shape) (fun _ => covers₁) le₁ fun _ => reason
  | fail carries₁ paves₁ =>
    dsimp only
    rw [if_pos (by simp)]
    exact splitLeafFailed_gaveUp kv carries₁ locked.linked finished paves₁.same
      (paves₁.fresh parts shape) (fun failed => by cases failed) le₁ fun failed => by cases failed

end Locked

/-! ## The whole split -/

/-- **`prefetch_leaf_predecessor`** selects the object before that of the leaf. -/
theorem prefetchLeafPredecessor_selects {f : Finger} (shape : L.Shape M)
    (at_ : f.AtPosition t L p (.leaf kv₀) p true) :
    L.Selects g M (prefetchLeafPredecessor g f) (M.before kv₀.key) := by
  obtain ⟨mem, onPath⟩ := shape.leaf p kv₀ at_.position.node
  have noneBefore : NoneBefore M kv₀.key p := by
    intro kv' mem' below
    rw [shape.eq_of_below_leaf at_.position.node mem' below]
    exact lt_irrefl _
  have left := (findLeftDescend_spec shape (at_.spine rfl).ancestry onPath).2 noneBefore
  rw [prefetchLeafPredecessor]
  rcases path : f.path with - | ⟨last, - | ⟨parent, above⟩⟩
  · rw [path] at left
    exact left
  · rw [path] at left
    exact left
  · rw [path, List.tail_cons, ← at_.lastSymbol] at left
    exact selects_of_leftNeighbour left

/-- The copies of the nodes above a leaf. -/
theorem Spine.trailAbove {path : List PathEntry} {e : PathEntry} {above : List PathEntry}
    (spine : Spine t L p path) (path_eq : path = e :: above) (stores : t.Stores S none)
    (le : ∀ b, base b ≤ t.seq b) : TrailAbove base t L p above := by
  cases spine with
  | root =>
    cases path_eq
    exact Or.inl ⟨rfl, rfl⟩
  | child spine child =>
    cases path_eq
    obtain ⟨n, hn, inner⟩ := child.inner
    exact Or.inr ⟨_, child, .of_spine spine hn inner stores le⟩

theorem LeafPath.Walked.start {f : Finger} (at_ : f.AtPosition t L p (.leaf kv₀) p true) :
    LeafPath.Walked g p p ⟨[], f.prefixLen, f.prefixHash, f.lastPrefixSymbol⟩ :=
  ⟨.nil, at_.prefixLen, at_.prefixHash, at_.lastSymbol⟩

namespace Layout

/-- The entry of a leaf with another object is that of the other draft. -/
theorem content_setKv {e : Entry} (shown : e.content = L.entry g p (.leaf kv₀)) (kv : CtKv) :
    ({ e with body := e.body.setKv kv } : Entry).content =
      (L.redraft p (.leaf kv)).entry g p (.leaf kv) :=
  congrArg (fun e : Entry => { e with body := e.body.setKv kv }) shown

theorem redraft_draftAt : (L.draftAt p n c par lnk).redraft p m = L.draftAt p m c par lnk := by
  simp [draftAt, redraft, Function.update_idem]

end Layout

/-- The drafted leaf gets its object. -/
theorem LeafDrafted.setKv {s₀ : Sys g} {kv' : CtKv} {c par : ℕ} {leafPos : Loc}
    (drafted : LeafDrafted maps base L M p kv' c par lnk s₀ s leafPos) (absent : L.node p = none)
    (kv : CtKv) :
    (CuckooTrie.storeField leafPos fun e => { e with body := e.body.setKv kv }).Returns s
      fun _ s' => LeafDrafted maps base L M p kv c par lnk s₀ s' leafPos := by
  have content := Layout.content_setKv drafted.shown kv
  have becomes : (L.draftAt p (.leaf kv') c par lnk).Becomes g M _ _ _ M :=
    Layout.Becomes.redraft (n := .leaf kv) absent (Function.update_self _ _ _)
  rw [← content, Layout.redraft_draftAt] at becomes
  rw [Layout.redraft_draftAt] at content
  exact drafted.storeField (fun _ => rfl) (fun _ => rfl) (fun _ => rfl) content becomes

/-- The copies on the path of a finger in the leaf. -/
theorem LeafLocked.of_position {s₁ : Sys g} {f : Finger} {predecessor : LocalCopy}
    (whole : s.Whole maps base L M) (at_ : f.AtPosition s.trie L p (.leaf kv₀) p true)
    (quiet : Quiet s s₁) (precedes : L.Precedes M kv₀.key place)
    (copy : predecessor.InList base s₁.trie L place) :
    ∃ last above, LeafLocked base L M s₁ f predecessor last above place p kv₀ := by
  have whole₁ := whole.quiet quiet
  obtain ⟨S, sound, -⟩ := whole₁.represents
  have spine := (at_.spine rfl).congr quiet.cells quiet.seq
  have entry := at_.entry.congr quiet.cells quiet.seq
  obtain ⟨last, above, m, path_eq, hm, describes, -⟩ := spine.head
  cases hm.symm.trans at_.position.node
  exact ⟨last, above, whole.shape, whole.linked, whole.finished, precedes, path_eq,
    describes.unique entry sound.stores, describes.mirrors sound.stores whole₁.base_le,
    spine.trailAbove path_eq sound.stores whole₁.base_le, copy⟩

/-- Which of the two leaves is the smaller one. -/
theorem Layout.exists_ordered {e n : ℕ} {isMaximal : Bool} (ne : kv₀.key ≠ kv.key)
    (maximal : isMaximal = true ↔ kv₀.key < kv.key)
    (less : kv₀.key < kv.key → L.Parts M p P kv₀ kv kv₀ kv e n)
    (greater : kv.key < kv₀.key → L.Parts M p P kv₀ kv kv kv₀ n e) :
    ∃ lo hi x y, L.Parts M p P kv₀ kv lo hi x y ∧
      (if isMaximal then e else n) = x ∧ (if isMaximal then n else e) = y ∧
      (if isMaximal then kv₀ else kv) = lo ∧ (if isMaximal then kv else kv₀) = hi := by
  cases isMaximal with
  | true => exact ⟨_, _, _, _, less (maximal.mp rfl), rfl, rfl, rfl, rfl⟩
  | false =>
    refine ⟨_, _, _, _, greater ?_, rfl, rfl, rfl, rfl⟩
    refine lt_of_le_of_ne (not_lt.mp fun less => ?_) (Ne.symm ne)
    cases maximal.mpr less

/-- **`split_leaf`** inserts the object, or gives it up for a reason without any change of the
map. -/
theorem splitLeaf_spec {f : Finger} {isMaximal : Bool} (whole : s.Whole maps base L M)
    (at_ : f.AtPosition s.trie L p (.leaf kv₀) p true) (onPath : p <+: keySymbols kv.key)
    (ne : kv₀.key ≠ kv.key) (maximal : isMaximal = true ↔ kv₀.key < kv.key)
    (mem : M.insert kv ∈ maps) :
    Regularly base (splitLeaf f kv isMaximal (prefetchLeafPredecessor g f)) s fun ret s' =>
      Phase maps base L M kv (Obstructed s s' ∨ s.Stale f.path) s' ret := by
  have shape := whole.shape
  obtain ⟨P, e, n, down, ne', he, hn, partsLt, partsGt⟩ :=
    Layout.exists_parts shape at_.position.node onPath ne
  rw [splitLeaf]
  refine Regularly.bind (Prog.Returns.ensures (splitLeafLocks_spec whole at_
    (prefetchLeafPredecessor_selects shape at_))) fun r s₁ le₁ _ post => ?_
  obtain ⟨quiet₁, outcome⟩ := post
  have whole₁ := whole.quiet quiet₁
  cases r with
  | none =>
    exact splitLeafFailed_gaveUp_nil kv whole₁.toCarries whole.linked whole.finished le₁
      fun _ => outcome.imp_left Or.inl
  | some predecessor =>
    obtain ⟨place, precedes, copy⟩ := outcome
    obtain ⟨last, above, locked⟩ := LeafLocked.of_position whole at_ quiet₁ precedes copy
    -- the two keys part
    have existing : f.containingEntry.value.body = .leaf kv₀ (L.link p) := at_.entry.body
    have enough : P.length < numKeySymbols kv.key + 1 + p.length := by
      have := hn.length_le
      rw [length_keySymbols, List.length_append, List.length_singleton] at this
      omega
    obtain ⟨path, walk, walked⟩ := LeafPath.walk_spec ne' he hn (.start at_) down enough
    rw [show f.containingEntry.value.body.kv = kv₀ by rw [existing]; rfl]
    refine Regularly.bind (Q := fun r s' => r = (path, e, n) ∧ s' = s₁)
      (Prog.Returns.ensures (.find walk ⟨rfl, rfl⟩)) ?_
    rintro _ s₁ - - ⟨rfl, rfl⟩
    obtain ⟨lo, hi, x, y, parts, hx, hy, hlo, hhi⟩ :=
      Layout.exists_ordered ne maximal partsLt partsGt
    have absent := parts.absent shape (parts.below y).1 (parts.below y).2
    have root : L.node [] ≠ none := by
      obtain ⟨top, htop⟩ := shape.root parts.leaf
      rw [htop]
      exact Option.some_ne_none top
    have symbols : ∀ z ∈ P ++ [y], z ≤ fanout := fun z mem =>
      le_fanout_of_mem_keySymbols (parts.pathHi.subset mem)
    dsimp only
    simp only [hx, hy, hlo, hhi, walked.prefixHash, ← g.prefixHash_concat]
    refine Regularly.bind (Prog.Returns.ensures (Sys.Carries.addEntry (.leaf default) 0 default
      whole₁.toCarries root none true (whole.finished.all_none absent)
      (whole.finished.noJumpTo shape absent) symbols (fun c => ?_) rfl rfl))
      fun r s₂ le₂ _ post => ?_
    · rw [Layout.entry_draftAt (by rintro _ ⟨⟩), newEntry, List.getLastD_concat]
    obtain ⟨evolves₂, _, drafts⟩ := post
    cases drafts with
    | retry carries₂ reason =>
      dsimp only
      rw [if_pos (by simp)]
      exact splitLeafFailed_gaveUp_nil kv carries₂ whole.linked whole.finished (le₁.trans le₂)
        fun _ => Or.inl (reason.mono_left le₁ le₂)
    | fail carries₂ =>
      dsimp only
      rw [if_pos (by simp)]
      exact splitLeafFailed_gaveUp_nil kv carries₂ whole.linked whole.finished (le₁.trans le₂)
        fun failed => by cases failed
    | @ok entry' maximalLeaf drafted =>
      dsimp only
      rw [if_neg (not_not.mpr rfl)]
      -- the greater leaf gets its object, and goes on where the old leaf does
      refine Regularly.bind (Prog.Returns.ensures ((LeafDrafted.of_drafted drafted evolves₂).setKv
        absent hi)) fun _ s₃ le₃ _ leaf₃ => ?_
      rw [show f.containingEntry.value.body.nextLeaf = L.link p by rw [existing]; rfl]
      refine Regularly.bind (Prog.Returns.ensures (leaf₃.setNextLeaf absent (L.link p)))
        fun _ s₄ le₄ _ leaf₄ => ?_
      refine Regularly.bind (Q := fun t s' => t = s₄.trie ∧ s' = s₄)
        (Prog.Returns.ensures (.read ⟨rfl, rfl⟩)) ?_
      rintro _ s₄ - - ⟨rfl, rfl⟩
      refine Regularly.bind (Q := fun mark s' => mark = s₄.relocations.length ∧ s' = s₄)
        (Prog.Returns.ensures (.read ⟨rfl, rfl⟩)) ?_
      rintro _ s₄ - - ⟨rfl, rfl⟩
      rw [leaf₄.at_.color]
      refine (splitLeafBuild_spec locked parts walked leaf₄ mem).weaken
        fun ret s₅ le₅ _ outcome => ?_
      exact outcome.mono fun reason =>
        Or.inl (reason.mono_left (le₁.trans (le₂.trans (le₃.trans le₄))) le₅)

end CuckooTrie
