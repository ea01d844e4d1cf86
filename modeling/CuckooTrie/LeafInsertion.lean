import CuckooTrie.InsertStates

/-!
# A new leaf below a bitmap

The flow of `create_leaf` at a bitmap that has no child on the next symbol of the key
(`createLeafAtBitmap_spec`): the new leaf is drafted, the place before it in the list is marked
dirty and linked to it, the bitmap gets its bit, and the greatest leaves above are updated.
`Layout.addChild` is the layout after the bitmap was written; the rest of the run sets the last
links right.
-/

namespace CuckooTrie

open Sys

variable {g : Geometry} {maps : Set KeyMap} {base : ℕ → ℕ} {s s' : Sys g} {t : Trie g}
  {L L' K : Layout} {M M' : KeyMap} {S : Store} {p q r : List ℕ} {n : Node} {lc : LocalCopy}
  {kv : CtKv} {place : ListPlace} {children symbol c par : ℕ} {lnk loc : Locator} {d : Bool}

/-! ## The new layout -/

namespace Layout

/-- The key leaves the layout at a bitmap. -/
structure Misses (L : Layout) (q : List ℕ) (children symbol : ℕ) (kv : CtKv) : Prop where
  bitmap : L.node q = some (.bitmap children)
  clear : children.testBit symbol = false
  onPath : q ++ [symbol] <+: keySymbols kv.key

namespace Misses

/-- The key is new. -/
theorem new (misses : L.Misses q children symbol kv) (shape : L.Shape M) :
    ∀ kv' ∈ M, kv'.key ≠ kv.key := by
  intro kv' mem same
  have below : KeyMap.Below (q ++ [symbol]) kv' := by
    rw [KeyMap.Below, same]
    exact misses.onPath
  obtain ⟨c, bit, below'⟩ :=
    shape.bitmap_below misses.bitmap mem ((List.prefix_append _ _).trans below)
  rw [PrefixOrder.concat_prefix_unique below' below, misses.clear] at bit
  cases bit

theorem none (misses : L.Misses q children symbol kv) (shape : L.Shape M) :
    L.node (q ++ [symbol]) = none :=
  shape.none_of_clear misses.bitmap misses.clear List.prefix_rfl

end Misses

/-- Another link of a draft. -/
theorem amend_draftAt {lnk' : Locator} :
    (L.draftAt p n c par lnk).amend p ((L.draftAt p n c par lnk).parent p) lnk'
      ((L.draftAt p n c par lnk).dirty p) = L.draftAt p n c par lnk' := by
  simp [draftAt, amend, Function.update_idem]

theorem relink_relink {lnk' : Locator} {d' : Bool} :
    (L.relink lnk d place).relink lnk' d' place = L.relink lnk' d' place := by
  cases place with
  | none => rfl
  | some x => simp [relink, amend, Function.update_idem]

/-- The layout with a new leaf below a bitmap, linked into the list at a place that is still
marked dirty.  The greatest leaves above the bitmap are the old ones. -/
def addChild (L : Layout) (q : List ℕ) (children symbol : ℕ) (kv : CtKv) (c : ℕ) (loc : Locator)
    (place : ListPlace) : Layout :=
  ((L.draftAt (q ++ [symbol]) (.leaf kv) c (L.color q) (L.listLink place)).relink loc true
    place).publish q (.bitmap (setChildBit children symbol))
      (if Nat.log2 children < symbol then loc else L.link q)

theorem node_addChild_self : (L.addChild q children symbol kv c loc place).node q =
    some (.bitmap (setChildBit children symbol)) := by
  simp [addChild, publish]

theorem node_addChild_leaf (misses : L.Misses q children symbol kv) (shape : L.Shape M) :
    (L.addChild q children symbol kv c loc place).node (q ++ [symbol]) = some (.leaf kv) := by
  have ne : q ++ [symbol] ≠ q := by simp
  simp only [addChild, publish, if_neg ne, all_relink, all_draftAt (misses.none shape), if_true]

theorem node_addChild_of_ne (misses : L.Misses q children symbol kv) (finished : L.Finished)
    (shape : L.Shape M) (ne : r ≠ q) (ne' : r ≠ q ++ [symbol]) :
    (L.addChild q children symbol kv c loc place).node r = L.node r := by
  simp only [addChild, publish, if_neg ne, all_relink, all_draftAt (misses.none shape),
    if_neg ne']
  rw [all, finished.no_draft, Option.or_none]

theorem stays_addChild (misses : L.Misses q children symbol kv) (shape : L.Shape M) :
    L.Stays (L.addChild q children symbol kv c loc place) :=
  .trans (.of_sameNodes (sameNodes_draftAt (misses.none shape)))
    (.trans (.of_node node_relink color_relink) (.publish _))

theorem color_addChild_leaf :
    (L.addChild q children symbol kv c loc place).color (q ++ [symbol]) = c := by
  simp [addChild, publish, draftAt]

theorem color_addChild_of_ne (ne : r ≠ q ++ [symbol]) :
    (L.addChild q children symbol kv c loc place).color r = L.color r := by
  simp [addChild, publish, draftAt, Function.update_of_ne ne]

theorem parent_addChild_of_ne (ne : r ≠ q ++ [symbol]) :
    (L.addChild q children symbol kv c loc place).parent r = L.parent r := by
  simp [addChild, publish, draftAt, Function.update_of_ne ne]

theorem link_addChild_self : (L.addChild q children symbol kv c loc place).link q =
    if Nat.log2 children < symbol then loc else L.link q := by
  simp [addChild, publish]

/-- The links but those of the bitmap and at the place. -/
theorem link_addChild_of_ne (ne : r ≠ q) (off : ∀ kv, place ≠ some (r, kv)) :
    (L.addChild q children symbol kv c loc place).link r =
      if r = q ++ [symbol] then L.listLink place else L.link r := by
  simp only [addChild, publish, Function.update_of_ne ne, link_relink_of_ne off, draftAt]
  split
  · next same => rw [same, Function.update_self]
  · next other => rw [Function.update_of_ne other]

theorem listLink_addChild (misses : L.Misses q children symbol kv) (lists : L.Lists place) :
    (L.addChild q children symbol kv c loc place).listLink place = loc := by
  cases place with
  | none => rfl
  | some x =>
    have ne : x.1 ≠ q := by
      intro same
      have leaf := lists x.1 x.2 rfl
      rw [same, misses.bitmap] at leaf
      cases leaf
    simp only [listLink, addChild, publish, Function.update_of_ne ne]
    exact Function.update_self _ _ _

/-- **The list of leaves** is right again as soon as the bitmap is written. -/
theorem Linked.listed_addChild (linked : L.Linked g M) (shape : L.Shape M)
    (finished : L.Finished) (misses : L.Misses q children symbol kv)
    (precedes : L.Precedes M kv.key place)
    (name : loc = ⟨hashToBucket (g.prefixHash (q ++ [symbol])),
      hashToTag (g.prefixHash (q ++ [symbol])), c⟩) :
    (L.addChild q children symbol kv c loc place).Listed g (M.insert kv) := by
  have new := misses.new shape
  have absent := misses.none shape
  -- the new leaf, and the old ones
  have points : (L.addChild q children symbol kv c loc place).PointsTo g loc (some kv) :=
    ⟨q ++ [symbol], node_addChild_leaf misses shape, by rw [name, locator, color_addChild_leaf]⟩
  have stays : ∀ {lnk okv}, L.PointsTo g lnk okv →
      (L.addChild q children symbol kv c loc place).PointsTo g lnk okv := by
    intro lnk okv old
    refine old.stays fun p kv' _ hp => ?_
    have ne : p ≠ q := by
      rintro rfl
      rw [misses.bitmap] at hp
      cases hp
    have ne' : p ≠ q ++ [symbol] := by
      rintro rfl
      rw [absent] at hp
      cases hp
    rw [node_addChild_of_ne misses finished shape ne ne', color_addChild_of_ne ne']
    exact ⟨hp, rfl⟩
  have listLink : (L.addChild q children symbol kv c loc place).listLink place = loc :=
    listLink_addChild misses precedes.lists
  have before := precedes.before
  constructor
  · intro r kv' hr
    have ne : r ≠ q := by
      rintro rfl
      rw [node_addChild_self] at hr
      cases hr
    by_cases here : r = q ++ [symbol]
    · -- the new leaf goes on where the place before it did
      subst here
      rw [node_addChild_leaf misses shape] at hr
      cases hr
      rw [KeyMap.after_insert_self new, link_addChild_of_ne ne, if_pos rfl]
      · cases place with
        | none =>
          rw [← KeyMap.first_of_before_none new before]
          exact stays linked.first
        | some x =>
          rw [← KeyMap.after_pred new before]
          exact stays (linked.next x.1 x.2 (precedes.lists x.1 x.2 rfl))
      · intro kv' same
        have leaf := precedes.lists _ _ same
        rw [absent] at leaf
        cases leaf
    · rw [node_addChild_of_ne misses finished shape ne here] at hr
      by_cases at_ : ∃ kv'', place = some (r, kv'')
      · obtain ⟨kv'', rfl⟩ := at_
        have leaf := precedes.lists _ _ rfl
        rw [hr] at leaf
        cases leaf
        have link : (L.addChild q children symbol kv c loc (some (r, kv'))).link r = loc := listLink
        rw [KeyMap.after_insert_pred before, link]
        exact points
      · rw [link_addChild_of_ne ne fun kv'' same => at_ ⟨kv'', same⟩, if_neg here,
          KeyMap.after_insert_of_ne new (shape.leaf r kv' hr).1 fun pred => ?_]
        · exact stays (linked.next r kv' hr)
        · -- the leaf before the new one is at the place
          rw [before] at pred
          obtain ⟨x, rfl, same⟩ := Option.map_eq_some_iff.mp pred
          have leaf := precedes.lists x.1 x.2 rfl
          rw [same] at leaf
          exact at_ ⟨x.2, by rw [← shape.leaf_unique leaf hr]⟩
  · cases place with
    | none =>
      have first : (L.addChild q children symbol kv c loc none).first = loc := listLink
      rw [KeyMap.first_insert_of_before_none new before, first]
      exact points
    | some x =>
      rw [KeyMap.first_insert_of_before_some new before]
      exact stays linked.first

/-- **The greatest leaves** are right but for some above the bitmap. -/
theorem Linked.toppedUpTo_addChild (linked : L.Linked g M) (shape : L.Shape M)
    (finished : L.Finished) (misses : L.Misses q children symbol kv) (lists : L.Lists place)
    (name : loc = ⟨hashToBucket (g.prefixHash (q ++ [symbol])),
      hashToTag (g.prefixHash (q ++ [symbol])), c⟩) :
    (L.addChild q children symbol kv c loc place).ToppedUpTo g (M.insert kv) q := by
  have new := misses.new shape
  have absent := misses.none shape
  have offPlace : ∀ {r n}, L.node r = some n → n.isInner = true → ∀ kv, place ≠ some (r, kv) := by
    rintro r n hr inner kv' rfl
    rw [lists r kv' rfl] at hr
    cases hr
    cases inner
  -- inner nodes but the bitmap are the old ones, with the old links
  have old : ∀ {r n}, (L.addChild q children symbol kv c loc place).node r = some n →
      n.isInner = true → r ≠ q → L.node r = some n ∧ r ≠ q ++ [symbol] ∧
        (L.addChild q children symbol kv c loc place).link r = L.link r := by
    intro r n hr inner ne
    have ne' : r ≠ q ++ [symbol] := by
      rintro rfl
      rw [node_addChild_leaf misses shape] at hr
      cases hr
      cases inner
    rw [node_addChild_of_ne misses finished shape ne ne'] at hr
    exact ⟨hr, ne', by rw [link_addChild_of_ne ne (offPlace hr inner), if_neg ne']⟩
  have stays : ∀ r kv', L.node r = some (.leaf kv') →
      (L.addChild q children symbol kv c loc place).node r = some (.leaf kv') ∧
        (L.addChild q children symbol kv c loc place).color r = L.color r := by
    intro r kv' hr
    have ne : r ≠ q := by
      rintro rfl
      rw [misses.bitmap] at hr
      cases hr
    have ne' : r ≠ q ++ [symbol] := by
      rintro rfl
      rw [absent] at hr
      cases hr
    exact ⟨(node_addChild_of_ne misses finished shape ne ne').trans hr, color_addChild_of_ne ne'⟩
  refine linked.toppedUpTo shape new ((List.prefix_append _ _).trans misses.onPath) ?_ ?_
    fun r kv' hr _ => stays r kv' hr
  · intro r n hr inner ext
    by_cases here : r = q
    · -- the bitmap: is the new leaf its greatest one?
      subst here
      rw [link_addChild_self]
      split
      · next greatest =>
        rw [KeyMap.last_insert_self ((List.prefix_append _ _).trans misses.onPath)
          fun kv' mem below => ?_]
        · exact ⟨r ++ [symbol], node_addChild_leaf misses shape,
            by rw [name, locator, color_addChild_leaf]⟩
        · obtain ⟨s, bit, below'⟩ := shape.bitmap_below misses.bitmap mem below
          exact keySymbols_lt_iff.mp (PrefixOrder.lt_of_concat
            (lt_of_le_of_lt (le_log2_of_testBit bit) greatest) below' misses.onPath)
      · next notGreatest =>
        have bit := Nat.testBit_log2 (shape.bitmap r _ misses.bitmap).1
        obtain ⟨y, hy⟩ := Option.ne_none_iff_exists'.mp
          (shape.child _ _ (.bitmap misses.bitmap bit))
        obtain ⟨kv', mem, below⟩ := shape.exists_below hy
        have less : symbol < Nat.log2 children := by
          refine lt_of_le_of_ne (not_lt.mp notGreatest) fun same => ?_
          have clear := misses.clear
          rw [same, bit] at clear
          cases clear
        have before := keySymbols_lt_iff.mp (PrefixOrder.lt_of_concat less misses.onPath below)
        rcases KeyMap.last_insert (P := KeyMap.Below r) new with same | ⟨-, -, all⟩
        · rw [same]
          exact (linked.max r _ misses.bitmap rfl).stays fun p kv' _ hp => stays p kv' hp
        · exact absurd (all kv' mem ((List.prefix_append _ _).trans below)) (not_lt.mpr before.le)
    · -- a node below another child
      obtain ⟨hr', ne', link⟩ := old hr inner here
      have notBelow : ¬ KeyMap.Below r kv := by
        intro below
        rcases PrefixOrder.comparable below misses.onPath with up | down
        · rcases List.prefix_concat_iff.mp up with same | up
          · exact ne' same
          · exact here (up.eq_of_length (le_antisymm up.length_le ext.length_le))
        · rw [shape.none_of_clear misses.bitmap misses.clear down] at hr'
          cases hr'
      rw [KeyMap.last_insert_of_not new notBelow, link]
      exact (linked.max r n hr' inner).stays fun p kv' _ hp => stays p kv' hp
  · intro r n hr inner notIn
    obtain ⟨hr', -, link⟩ := old hr inner fun same => notIn (same ▸ List.prefix_rfl)
    exact ⟨hr', link⟩

/-- The new leaf has a bitmap above it. -/
theorem Unclaimed.addChild (unclaimed : L.Unclaimed) (shape : L.Shape M) (finished : L.Finished)
    (misses : L.Misses q children symbol kv) :
    (L.addChild q children symbol kv c loc place).Unclaimed where
  root _ := by
    obtain ⟨n, hn⟩ := shape.root misses.bitmap
    rw [parent_addChild_of_ne (by simp)]
    exact unclaimed.root (by rw [hn]; exact Option.some_ne_none n)
  jump r symbols hr := by
    have ne : r ≠ q := by
      rintro rfl
      rw [node_addChild_self] at hr
      cases hr
    have ne' : r ≠ q ++ [symbol] := by
      rintro rfl
      rw [node_addChild_leaf misses shape] at hr
      cases hr
    rw [node_addChild_of_ne misses finished shape ne ne'] at hr
    have away : r ++ symbols ≠ q ++ [symbol] := by
      intro same
      have some_ := shape.child _ _ (.jump hr)
      rw [same, misses.none shape] at some_
      exact some_ rfl
    rw [parent_addChild_of_ne away]
    exact unclaimed.jump r symbols hr

/-- **Writing the bitmap** puts the new leaf into the trie. -/
theorem Becomes.addChild (shape : L.Shape M) (finished : L.Finished)
    (misses : L.Misses q children symbol kv) {K : Layout}
    (before : K = (L.draftAt (q ++ [symbol]) (.leaf kv) c (L.color q) (L.listLink place)).relink
      loc true place) :
    K.Becomes g M (K.slot g q) ((L.addChild q children symbol kv c loc place).entry g q
      (.bitmap (setChildBit children symbol))) (L.addChild q children symbol kv c loc place)
      (M.insert kv) := by
  subst before
  intro S rep
  have node : ((L.draftAt (q ++ [symbol]) (.leaf kv) c (L.color q) (L.listLink place)).relink loc
      true place).node = L.node := node_relink
  have hq := misses.bitmap
  have nonempty : M.kvs ≠ [] := by
    obtain ⟨m, hroot⟩ := shape.root hq
    exact shape.root_iff.mp (by rw [hroot]; exact Option.some_ne_none m)
  refine rep.publish (by rw [node]; exact hq) ?_ ?_
    (iff_of_false KeyMap.insert_nonempty nonempty)
  · refine rep.shape.addChild (by rw [node]; exact hq) misses.clear ?_ (misses.new shape)
      misses.onPath
    rw [draft_relink, ← show L.draft = fun _ => none from funext finished.no_draft]
    rfl
  · intro q' children' s hq' bit
    change (L.addChild q children symbol kv c loc place).node q' = _ at hq'
    by_cases same : q' = q
    · subst same
      rw [node_addChild_self] at hq'
      cases hq'
      rw [testBit_setChildBit, Bool.or_eq_true, decide_eq_true_eq] at bit
      rcases bit with bit | rfl
      · exact rep.parent q' children s (by rw [node]; exact hq) bit
      · simp [draftAt]
    · have ne : q' ≠ q ++ [symbol] := by
        rintro rfl
        rw [node_addChild_leaf misses shape] at hq'
        cases hq'
      rw [node_addChild_of_ne misses finished shape same ne] at hq'
      exact rep.parent q' children' s (by rw [node]; exact hq') bit

end Layout

/-! ## The locks -/

/-- A finger in an inner node, with copies of the nodes up to the root. -/
structure Finger.AtNode (f : Finger) (base : ℕ → ℕ) (t : Trie g) (L : Layout) (q : List ℕ)
    (n : Node) : Prop where
  node : L.node q = some n
  path : ∃ above, f.path = ⟨f.containingEntry, f.prefixHash⟩ :: above
  trail : Trail base t L q f.path
  prefixHash : f.prefixHash = g.prefixHash q

theorem Finger.AtNode.mirrors {f : Finger} (at_ : f.AtNode base t L q n) :
    f.containingEntry.Mirrors base t L q n := by
  obtain ⟨above, path⟩ := at_.path
  obtain ⟨e, rest, n', same, hq, -, mirrors, -⟩ := at_.trail.head
  rw [path] at same
  cases same
  rw [at_.node] at hq
  cases hq
  exact mirrors

/-- **The locks of the bitmap flow** of `create_leaf`. -/
theorem bitmapChildLocks_spec {f : Finger} {locator : PredLocator}
    (whole : s.Whole maps base L M) (at_ : f.AtNode base s.trie L q n)
    (selects : L.Selects g M locator (M.before kv.key)) :
    (bitmapChildLocks f locator : CuckooTrie.M g (Option LocalCopy)).Returns s fun r s' =>
      Quiet s s' ∧ match r with
        | none => Denied s s' ∨ s.Stale f.path
        | some lc => ∃ place, L.Precedes M kv.key place ∧ lc.InList base s'.trie L place := by
  rw [bitmapChildLocks]
  refine (Quietly.upgradeLock_spec f.containingEntry s).bind
    fun ret s₁ le₁ post => ?_
  obtain ⟨quiet₁, outcome⟩ := post
  obtain ⟨rfl, -⟩ | ⟨rfl, failed⟩ := outcome
  · refine (lockLeftParents_spec [] f.path (quiet₁.locks whole.listed)).bind
      fun ret s₂ le₂ post => ?_
    obtain ⟨quiet₂, outcome⟩ := post
    have quiet := quiet₁.trans quiet₂
    obtain rfl | ⟨rfl, reason⟩ := outcome
    · refine (lockPredecessor_spec (whole.quiet quiet) selects).weaken
        fun r s₃ le₃ post => ⟨quiet.trans post.1, ?_⟩
      cases r with
      | none =>
        exact post.2.imp (fun denied => denied.mono_left (le₁.trans le₂)) fun stale =>
          stale.quiet quiet
      | some lc => exact post.2
    · refine .pure ⟨quiet, ?_⟩
      exact reason.imp (fun denied => denied.mono_left le₁) fun stale => stale.quiet quiet₁
  · refine .pure ⟨quiet₁, ?_⟩
    by_cases same : s.trie.entryUnchanged f.containingEntry = true
    · exact Or.inl (failed whole.listed same)
    · obtain ⟨above, path⟩ := at_.path
      exact Or.inr ⟨⟨f.containingEntry, f.prefixHash⟩, by rw [path]; simp, by simpa using same⟩

/-! ## Linking the new leaf -/

/-- The bitmap that `mark_bitmap_child` writes. -/
theorem LocalCopy.Shows.markedBitmap (shows : lc.Shows g K q (.bitmap children))
    (ne : children ≠ 0)
    (before : K = (L.draftAt (q ++ [symbol]) (.leaf kv) c (L.color q) (L.listLink place)).relink
      loc true place) (off : ∀ kv, place ≠ some (q, kv)) :
    (CuckooTrie.markedBitmap lc.value symbol loc).content =
      (L.addChild q children symbol kv c loc place).entry g q
        (.bitmap (setChildBit children symbol)) := by
  have away : q ≠ q ++ [symbol] := by simp
  have link : K.link q = L.link q := by
    rw [before, Layout.link_relink_of_ne off]
    exact Function.update_of_ne away _ _
  have body := shows.body
  have whole : (L.addChild q children symbol kv c loc place).entry g q
      (.bitmap (setChildBit children symbol)) =
      { K.entry g q (.bitmap children) with
        body := .bitmap (setChildBit children symbol) (max (Nat.log2 children) symbol)
          (if Nat.log2 children < symbol then loc else K.link q) } := by
    rw [before] at link ⊢
    rw [link]
    simp [Layout.entry, Layout.body, Layout.addChild, Layout.publish, log2_setChildBit ne]
  rw [whole, ← show lc.value.content = K.entry g q (.bitmap children) from shows]
  rw [CuckooTrie.markedBitmap, body]
  simp only [Layout.body, Body.maxChild, Body.childBitmap, Body.maxLeaf, Body.nextLeaf]
  by_cases less : Nat.log2 children < symbol
  · simp [Entry.content, less, max_eq_right less.le]
  · simp [Entry.content, less, max_eq_left (not_lt.mp less)]

/-- **`create_leaf` after the new leaf was added**: it is linked into the list and into the
tree. -/
theorem bitmapChildPublish_spec {f : Finger} {predecessor : LocalCopy}
    (linked : L.Linked g M) (shape : L.Shape M) (finished : L.Finished)
    (misses : L.Misses q children symbol kv) (precedes : L.Precedes M kv.key place)
    (carries : s.Carries maps base
      (L.draftAt (q ++ [symbol]) (.leaf kv) c (L.color q) (L.listLink place)) M)
    (name : loc = ⟨hashToBucket (g.prefixHash (q ++ [symbol])),
      hashToTag (g.prefixHash (q ++ [symbol])), c⟩)
    (copy : predecessor.InList base s.trie
      (L.draftAt (q ++ [symbol]) (.leaf kv) c (L.color q) (L.listLink place)) place)
    (trail : Trail base s.trie L q f.path) (mem : M.insert kv ∈ maps) :
    Regularly base (bitmapChildPublish f predecessor symbol loc) s fun _ s' =>
      s'.Unlocked ∧ ∃ K, s'.Whole maps base K (M.insert kv) ∧ L.Stays K := by
  have added : L.Stays (L.addChild q children symbol kv c loc place) :=
    Layout.stays_addChild misses shape
  have same : L.SameNodes (L.draftAt (q ++ [symbol]) (.leaf kv) c (L.color q) (L.listLink place)) :=
    Layout.sameNodes_draftAt (misses.none shape)
  generalize hdraft : L.draftAt (q ++ [symbol]) (.leaf kv) c (L.color q) (L.listLink place) = K at *
  have lists : K.Lists place := by
    unfold Layout.Lists
    rw [same.node]
    exact precedes.lists
  have off : ∀ kv, place ≠ some (q, kv) := by
    rintro kv' rfl
    have leaf := precedes.lists q kv' rfl
    rw [misses.bitmap] at leaf
    cases leaf
  rw [bitmapChildPublish, markEntryDirty]
  -- the place before the new leaf is marked dirty, then linked to it
  refine Regularly.of_orderly fun orderly => ?_
  refine Regularly.bind (Prog.Returns.ensures (carries.mark orderly.1 copy lists true))
    fun predecessor₁ s₁ _ orderly₁ post => ?_
  obtain ⟨carries₁, tracks₁, copy₁⟩ := post
  have value : ({ predecessor₁.value with
      body := predecessor₁.value.body.setNextLeaf loc } : Entry) =
      { predecessor₁.value with
        dirty := true, body := predecessor₁.value.body.setNextLeaf loc } := by
    have dirty : predecessor₁.value.dirty = true := by
      have shown := congrArg Entry.dirty copy₁.shows
      rw [Layout.listEntry_relink] at shown
      exact shown
    rw [← dirty]
  refine Regularly.bind (Prog.Returns.ensures (carries₁.relink orderly₁.1 copy₁ lists.relink value))
    fun predecessor₂ s₂ _ orderly₂ post => ?_
  obtain ⟨carries₂, tracks₂, copy₂⟩ := post
  rw [Layout.relink_relink] at carries₂ copy₂
  have tracks : Tracks base {.head} s s₂ := tracks₁.trans tracks₂
  have trail₂ : Trail base s₂.trie (K.relink loc true place) q f.path :=
    trail.keeps shape ((Layout.Keeps.of_sameNodes same).trans (.relink lists)) tracks
  have before : K.relink loc true place = (L.draftAt (q ++ [symbol]) (.leaf kv) c (L.color q)
      (L.listLink place)).relink loc true place := by rw [hdraft]
  generalize hK : K.relink loc true place = K₂ at *
  have hq : K₂.node q = some (.bitmap children) := by
    rw [← hK, Layout.node_relink, same.node]
    exact misses.bitmap
  obtain ⟨last, above, n, path, hq', -, mirrors, -⟩ := trail₂.head
  rw [hq] at hq'
  cases hq'
  rw [path] at trail₂ ⊢
  -- the bitmap gets its bit
  have content := mirrors.shows.markedBitmap (shape.bitmap q _ misses.bitmap).1 before off
  have becomes := Layout.Becomes.addChild (g := g) shape finished misses before
  rw [← content] at becomes
  have used : (markedBitmap last.entry.value symbol loc).body.used = true := by
    rw [markedBitmap]
    split <;> rfl
  simp only [markBitmapChild]
  refine Regularly.bind (Prog.Returns.ensures (carries₂.updateEntry orderly₂.1 mirrors.tracked
    (fun S rep => rep.get_slot (Layout.all_of_node hq)) rfl rfl rfl used becomes mem))
    fun newBitmap s₃ _ _ post => ?_
  obtain ⟨carries₃, tracks₃, -, content₃⟩ := post
  have tracks₃ : Tracks base ∅ s₂ s₃ := tracks₃.mono fun sl mem =>
    absurd mem.2 Layout.slot_ne_head
  rw [content] at content₃
  have shape₂ := carries₂.shape
  -- the greatest leaves above
  have trail₃ : TrailAbove base s₃.trie (L.addChild q children symbol kv c loc place) q above := by
    rw [Layout.addChild, ← before]
    exact trail₂.tail.publish shape₂ tracks₃
  have absent := misses.none shape
  have color : ∀ r, (L.addChild q children symbol kv c loc place).color r = K₂.color r := fun r => by
    rw [Layout.addChild, ← before]
    rfl
  have parent : ∀ r, (L.addChild q children symbol kv c loc place).parent r = K₂.parent r :=
    fun r => by
      rw [Layout.addChild, ← before]
      rfl
  have dirty : ∀ r, (L.addChild q children symbol kv c loc place).dirty r = K₂.dirty r := fun r => by
    rw [Layout.addChild, ← before]
    rfl
  have link : ∀ r, r ≠ q → (L.addChild q children symbol kv c loc place).link r = K₂.link r :=
    fun r ne => by
      rw [Layout.addChild, ← before]
      exact Function.update_of_ne ne _ _
  have leaf : ∀ r kv', place = some (r, kv') → r ≠ q ∧
      (L.addChild q children symbol kv c loc place).node r = some (.leaf kv') := by
    intro r kv' here
    have hr := precedes.lists r kv' here
    have ne : r ≠ q := fun eq => off kv' (by rw [here, eq])
    have ne' : r ≠ q ++ [symbol] := by
      rintro rfl
      rw [absent] at hr
      cases hr
    exact ⟨ne, by rw [Layout.node_addChild_of_ne misses finished shape ne ne', hr]⟩
  have copy₃ : predecessor₂.InList base s₃.trie
      (L.addChild q children symbol kv c loc place) place := by
    refine copy₂.congr ?_ ?_ tracks₃
    · cases place with
      | none => rfl
      | some x => rw [Layout.listSlot, Layout.listSlot, Layout.slot, Layout.slot, color]
    · cases place with
      | none =>
        rw [Layout.listEntry, Layout.listEntry, Layout.addChild, ← before]
        rfl
      | some x =>
        obtain ⟨ne, hx⟩ := leaf x.1 x.2 rfl
        simp [Layout.listEntry, Layout.entry, Layout.body, color, parent, dirty, link _ ne]
  refine (carries₃.finish ⟨linked.listed_addChild shape finished misses precedes name,
    linked.toppedUpTo_addChild shape finished misses precedes.lists name, ?_, ?_, fun _ => rfl,
    (finished.unclaimed shape).addChild shape finished misses⟩ trail₃ Layout.node_addChild_self rfl
    (congrArg Entry.lastSymbol content₃) (congrArg (fun e => e.body.maxLeaf) content₃) copy₃
    fun r kv' here => (leaf r kv' here).2).mono fun _ s₄ post =>
      ⟨post.1, post.2.imp fun K' whole => ⟨whole.1, added.trans whole.2⟩⟩
  · intro r n hr away
    rw [dirty, ← hK, Layout.dirty_relink_of_ne away, ← hdraft]
    by_cases new : r = q ++ [symbol]
    · rw [new]
      exact Function.update_self _ _ _
    · refine (Function.update_of_ne new _ _).trans ?_
      by_cases here : r = q
      · rw [here]
        exact linked.clean q _ misses.bitmap
      · rw [Layout.node_addChild_of_ne misses finished shape here new] at hr
        exact linked.clean r n hr
  · intro some_
    rw [Layout.addChild, ← before, ← hK]
    cases place with
    | none => exact absurd rfl some_
    | some x =>
      rw [← hdraft]
      exact linked.first_clean

/-! ## The flow at a bitmap -/

/-- The entry of the new leaf. -/
theorem newEntry_leaf {h : ℕ} (shows : lc.Shows g L q n) (c : ℕ) (hash : h = g.prefixHash p)
    (last : p.getLastD 0 = symbol) :
    newEntry ⟨lc.value.color, false, false, 0, 0, symbol, .leaf kv default⟩ h c =
      (L.draftAt p (.leaf kv) c (L.color q) default).entry g p (.leaf kv) := by
  rw [Layout.entry_draftAt (by simp), newEntry, shows.color, last, hash]

/-- A leaf that was drafted since a state: its cell is the one it was added to, and the sequence
of that bucket has advanced. -/
structure LeafDrafted (maps : Set KeyMap) (base : ℕ → ℕ) (L : Layout) (M : KeyMap) (p : List ℕ)
    (kv : CtKv) (c par : ℕ) (lnk : Locator) (s s' : Sys g) (loc : Loc) : Prop where
  carries : s'.Carries maps base (L.draftAt p (.leaf kv) c par lnk) M
  at_ : s'.trie.At loc (g.prefixHash p) c
  shown : (s'.trie.cells loc).content =
    (L.draftAt p (.leaf kv) c par lnk).entry g p (.leaf kv)
  advanced : s.trie.seq loc.bucket < s'.trie.seq loc.bucket
  tracks : Tracks base ∅ s s'

theorem LeafDrafted.of_drafted {par : ℕ} {lnk : Locator} {entry' : Entry} {loc : Loc}
    (drafted : Drafted maps base L M p (.leaf kv) par lnk s s' entry' loc)
    (evolves : s.Evolves s') :
    LeafDrafted maps base L M p kv entry'.color par lnk s s' loc :=
  ⟨drafted.carries, drafted.at_, by rw [drafted.cell, drafted.content], drafted.advanced,
    .of_evolves evolves⟩

/-- **A store into the drafted leaf** drafts another leaf at its place. -/
theorem LeafDrafted.storeField {s₀ : Sys g} {kv' : CtKv} {c par : ℕ} {lnk lnk' : Locator}
    {loc : Loc} {f : Entry → Entry} (drafted : LeafDrafted maps base L M p kv c par lnk s₀ s loc)
    (tag : ∀ e, (f e).tag = e.tag) (color : ∀ e, (f e).color = e.color)
    (secondary : ∀ e, (f e).secondary = e.secondary)
    (content : (f (s.trie.cells loc)).content =
      (L.draftAt p (.leaf kv') c par lnk').entry g p (.leaf kv'))
    (becomes : (L.draftAt p (.leaf kv) c par lnk).Becomes g M
      ((L.draftAt p (.leaf kv) c par lnk).slot g p) (f (s.trie.cells loc)).content
      (L.draftAt p (.leaf kv') c par lnk') M) :
    (CuckooTrie.storeField loc f).Returns s fun _ s' =>
      LeafDrafted maps base L M p kv' c par lnk' s₀ s' loc := by
  obtain ⟨carries, at_, -, advanced, tracks⟩ := drafted
  have here : (L.draftAt p (.leaf kv) c par lnk).color p = c := Function.update_self _ _ _
  rw [← here] at at_
  refine Prog.Returns.weaken (carries.storeField at_ tag color secondary
    (congrArg (fun e : Entry => e.body.used) content) becomes carries.mem) fun _ s' le post => ?_
  obtain ⟨stored, carries', at', cell⟩ := post
  refine ⟨carries', here ▸ at', by rw [cell, content], lt_of_lt_of_le advanced (le.seq _).1, ?_⟩
  rw [stored]
  exact tracks.storeField advanced

/-- The drafted leaf gets its link. -/
theorem LeafDrafted.setNextLeaf {s₀ : Sys g} {c par : ℕ} {lnk : Locator} {loc : Loc}
    (drafted : LeafDrafted maps base L M p kv c par lnk s₀ s loc) (absent : L.node p = none)
    (lnk' : Locator) :
    (CuckooTrie.storeField loc fun e => { e with body := e.body.setNextLeaf lnk' }).Returns s
      fun _ s' => LeafDrafted maps base L M p kv c par lnk' s₀ s' loc := by
  have content := Layout.content_setNextLeaf drafted.shown lnk'
  have here : (L.draftAt p (.leaf kv) c par lnk).all p = some (.leaf kv) := by
    rw [Layout.all_draftAt absent, if_pos rfl]
  have becomes := Layout.Becomes.amend_same (g := g) (M := M) lnk'
    ((L.draftAt p (.leaf kv) c par lnk).dirty p) here
  rw [← content, Layout.amend_draftAt] at becomes
  rw [Layout.amend_draftAt] at content
  exact drafted.storeField (fun _ => rfl) (fun _ => rfl) (fun _ => rfl) content becomes

/-- **The flow of `create_leaf` at a bitmap** inserts the object, or gives it up for a reason
without any change of the map. -/
theorem createLeafAtBitmap_spec {f : Finger} (whole : s.Whole maps base L M)
    (at_ : f.AtNode base s.trie L q (.bitmap children))
    (misses : L.Misses q children symbol kv) (mem : M.insert kv ∈ maps) :
    Regularly base (createLeafAtBitmap f kv symbol) s fun ret s' =>
      Phase maps base L M kv (s.Obstructed s' ∨ s.Stale f.path ∧ Quiet s s') s' ret := by
  have shape := whole.shape
  have absent := misses.none shape
  have selects : L.Selects g M (prefetchBitmapChildPredecessor g f symbol) (M.before kv.key) :=
    selects_of_leftNeighbour ((findLeftDescend_spec shape at_.trail.ancestry
      ((List.prefix_append _ _).trans misses.onPath)).1 children symbol misses.bitmap
        (cutsAt_of_absent shape misses.bitmap misses.onPath misses.clear))
  have hash : g.accumulateHash f.prefixHash symbol = g.prefixHash (q ++ [symbol]) := by
    rw [at_.prefixHash, g.prefixHash_concat]
  rw [createLeafAtBitmap]
  simp only [createBitmapChild, hash]
  refine Regularly.bind (Prog.Returns.ensures (bitmapChildLocks_spec whole at_ selects))
    fun r s₁ le₁ _ post => ?_
  obtain ⟨quiet₁, outcome⟩ := post
  have whole₁ := whole.quiet quiet₁
  cases r with
  | none =>
    refine Prog.Returns.ensures (whole₁.giveUp fun s₂ le₂ quiet₂ => ?_)
    exact outcome.imp (fun denied => Or.inl (denied.mono_right le₂))
      fun stale => ⟨stale, quiet₁.trans quiet₂⟩
  | some predecessor =>
    obtain ⟨place, precedes, copy⟩ := outcome
    have root : L.node [] ≠ none := by
      obtain ⟨m, hroot⟩ := shape.root misses.bitmap
      rw [hroot]
      exact Option.some_ne_none m
    refine Regularly.bind (Prog.Returns.ensures (Sys.Carries.addEntry (.leaf kv) (L.color q) default
      whole₁.toCarries root (some f.containingEntry.lastPos) true (whole.finished.all_none absent)
      (whole.finished.noJumpTo shape absent)
      (fun x mem => le_fanout_of_mem_keySymbols (misses.onPath.subset mem))
      (fun c => newEntry_leaf at_.mirrors.shows c rfl (List.getLastD_concat ..)) rfl rfl))
      fun r s₂ le₂ _ post => ?_
    obtain ⟨evolves, -, drafts⟩ := post
    cases drafts with
    | retry carries₂ reason =>
      refine Prog.Returns.ensures (Sys.Whole.giveUp ⟨carries₂, whole.linked, whole.finished⟩
        fun s₃ le₃ _ => Or.inl ?_)
      exact (reason.mono_left le₁ le₂).mono_right (le₁.trans le₂) le₃
    | fail carries₂ =>
      exact Prog.Returns.ensures (Sys.Littered.giveUp ⟨carries₂, whole.linked⟩)
    | @ok entry' newLeaf drafted =>
      have link : predecessor.value.body.nextLeaf = L.listLink place := by
        rw [copy.body]
        cases place <;> rfl
      have tag : entry'.tag = hashToTag (g.prefixHash (q ++ [symbol])) :=
        congrArg Entry.tag drafted.content
      simp only [ne_eq, not_true_eq_false, if_false, link, tag]
      -- the new leaf goes on where the place before it does
      refine Regularly.bind (Prog.Returns.ensures ((LeafDrafted.of_drafted drafted
        evolves).setNextLeaf absent (L.listLink place))) fun _ s₃ le₃ _ leaf => ?_
      have same : L.SameNodes
          (L.draftAt (q ++ [symbol]) (.leaf kv) entry'.color (L.color q) (L.listLink place)) :=
        Layout.sameNodes_draftAt absent
      refine Regularly.bind (bitmapChildPublish_spec whole.linked shape whole.finished misses
        precedes leaf.carries rfl ?_ ?_ mem) fun _ s₄ _ _ post =>
        .pure (.ok post.2.choose_spec.1 post.2.choose_spec.2 post.1)
      · exact LocalCopy.InList.sameNodes copy precedes.lists same leaf.tracks
      · exact at_.trail.keeps shape (.refl q L)
          (((Tracks.of_quiet quiet₁).trans leaf.tracks).mono (Set.empty_subset _))

end CuckooTrie
