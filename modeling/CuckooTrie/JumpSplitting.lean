import CuckooTrie.LeafInsertion

/-!
# Splitting a jump node

`split_jump_node` makes a bitmap of the symbol of a jump node at which a key leaves it
(`splitJumpNode_spec`).  The bitmap itself, if symbols remain before it, and a jump node for
the symbols behind it are drafted first; without such symbols the old child gets the color of
the bitmap as its parent color, through an address that was saved.  One write of the old node
then publishes everything, for the same map (`Layout.Cuts`).
-/

namespace CuckooTrie

open Sys

variable {g : Geometry} {maps : Set KeyMap} {base : ℕ → ℕ} {s s' : Sys g} {t : Trie g}
  {L D K : Layout} {M : KeyMap} {S : Store} {p q r a b : List ℕ} {n m : Node} {lc : LocalCopy}
  {kv : CtKv} {c c' symbol : ℕ}

namespace Layout

/-! ## The new layout -/

/-- A node has one parent. -/
theorem Shape.parent_unique (shape : L.Shape M) (child : L.Child q p) (child' : L.Child r p) :
    q = r := by
  obtain ⟨n, hq, -⟩ := child.inner
  obtain ⟨m, hr, -⟩ := child'.inner
  by_contra ne
  rcases PrefixOrder.comparable child.isPrefix child'.isPrefix with up | down
  · obtain ⟨z, between, below⟩ := shape.exists_child hq hr up ne
    have whole := Shape.child_unique between child (below.trans child'.isPrefix)
    exact absurd (whole ▸ below).length_le (not_le.mpr (shape.child_length child'))
  · obtain ⟨z, between, below⟩ := shape.exists_child hr hq down (Ne.symm ne)
    have whole := Shape.child_unique between child' (below.trans child.isPrefix)
    exact absurd (whole ▸ below).length_le (not_le.mpr (shape.child_length child))

/-- What the split node becomes: a bitmap, or a jump node with the symbols before it. -/
def cutNode (a : List ℕ) (symbol : ℕ) : Node :=
  if a = [] then .bitmap (setChildBit 0 symbol) else .jump a

theorem isInner_cutNode : (cutNode a symbol).isInner = true := by
  rw [cutNode]
  split <;> rfl

/-- A layout in which a jump node is about to be split: what is drafted is the bitmap, if
symbols remain before it, and the jump node behind it, if symbols remain for it. -/
structure Cuts (L D : Layout) (q a : List ℕ) (symbol : ℕ) (b : List ℕ) : Prop where
  node : D.node = L.node
  draft : D.draft = if a = [] then tailDraft (q ++ a ++ [symbol]) b
    else Function.update (tailDraft (q ++ a ++ [symbol]) b) (q ++ a)
      (some (.bitmap (setChildBit 0 symbol)))
  color : ∀ r n, L.node r = some n → D.color r = L.color r
  parent : ∀ r n, L.node r = some n → r ≠ q ++ a ++ [symbol] → D.parent r = L.parent r
  below : D.parent (q ++ a ++ [symbol]) = D.color (q ++ a)
  head : a ≠ [] → D.parent (q ++ a) = invalidColor
  link : ∀ r n, L.node r = some n → D.link r = L.link r
  dirty : ∀ r n, L.node r = some n → D.dirty r = L.dirty r
  new : ∀ r n, D.draft r = some n → D.link r = L.link q ∧ D.dirty r = false
  first : D.first = L.first
  firstDirty : D.firstDirty = L.firstDirty

theorem body_cutNode {lnk : Locator} :
    (D.publish q (cutNode a symbol) lnk).body q (cutNode a symbol) =
      if a = [] then .bitmap (setChildBit 0 symbol) symbol lnk
      else .jump (a.map (· - 1)) (D.color (q ++ a)) lnk := by
  by_cases ha : a = []
  · simp [cutNode, ha, body, publish, log2_setChildBit_zero]
  · simp [cutNode, ha, body, publish]

namespace Cuts

/-- The drafts lie inside the jump node. -/
theorem between (cuts : L.Cuts D q a symbol b) (hr : D.draft r = some n) : n.isInner = true ∧
    ∃ a' b', a ++ symbol :: b = a' ++ b' ∧ a' ≠ [] ∧ b' ≠ [] ∧ r = q ++ a' := by
  rw [cuts.draft] at hr
  have tail : ∀ {n}, tailDraft (q ++ a ++ [symbol]) b r = some n → n.isInner = true ∧
      ∃ a' b', a ++ symbol :: b = a' ++ b' ∧ a' ≠ [] ∧ b' ≠ [] ∧ r = q ++ a' := by
    intro n hr
    by_cases here : r = q ++ a ++ [symbol]
    · rw [tailDraft] at hr
      split at hr
      · cases hr
      · next hb =>
        rw [here, Function.update_self] at hr
        cases hr
        exact ⟨rfl, a ++ [symbol], b, by simp, by simp, hb, by simp [here]⟩
    · rw [tailDraft_of_ne here] at hr
      cases hr
  split at hr
  · exact tail hr
  · next ha =>
    by_cases here : r = q ++ a
    · rw [here, Function.update_self] at hr
      cases hr
      exact ⟨rfl, a, symbol :: b, rfl, ha, by simp, here⟩
    · rw [Function.update_of_ne here] at hr
      exact tail hr

/-- The inner nodes down to the jump node are as before. -/
theorem keeps (cuts : L.Cuts D q a symbol b) : L.Keeps q D where
  stays r n hr := by
    rw [cuts.node, hr]
    exact ⟨Option.some_ne_none n, cuts.color r n hr⟩
  inner r n above hr _ := by
    refine ⟨by rw [cuts.node]; exact hr, cuts.link r n hr, cuts.parent r n hr ?_, cuts.dirty r n hr⟩
    rintro rfl
    have := above.length_le
    simp at this

/-- The nodes after the split. -/
theorem node_publish (cuts : L.Cuts D q a symbol b) {lnk : Locator}
    (hr : (D.publish q (cutNode a symbol) lnk).node r = some n) :
    r = q ∧ n = cutNode a symbol ∨ r ≠ q ∧ (L.node r = some n ∨ D.draft r = some n) := by
  by_cases here : r = q
  · subst here
    simp only [publish, if_true, Option.some.injEq] at hr
    exact Or.inl ⟨rfl, hr.symm⟩
  · simp only [publish, if_neg here] at hr
    refine Or.inr ⟨here, ?_⟩
    rw [all, cuts.node] at hr
    cases hr' : L.node r with
    | none =>
      rw [hr', Option.none_or] at hr
      exact Or.inr hr
    | some n' =>
      rw [hr', Option.some_or] at hr
      exact Or.inl hr

/-- **The split layout is a trie** for the same map. -/
theorem shape_publish {lnk : Locator} (cuts : L.Cuts D q a symbol b) (shape : L.Shape M)
    (hq : L.node q = some (.jump (a ++ symbol :: b))) :
    (D.publish q (cutNode a symbol) lnk).Shape M := by
  have shape' : D.Shape M := shape.congr cuts.node
  have hq' : D.node q = some (.jump (a ++ symbol :: b)) := by rw [cuts.node, hq]
  obtain ⟨-, short, range⟩ := shape.jump q _ hq
  have cut := Grown.cut shape' hq'
  have whole : q ++ (a ++ symbol :: b) = q ++ a ++ [symbol] ++ b := by simp
  -- the symbols behind the bitmap lead to the old child
  have leadsTail : ∀ T : List ℕ → Option Node, T (q ++ a) = some (.bitmap (setChildBit 0 symbol)) →
      (b ≠ [] → T (q ++ a ++ [symbol]) = some (.jump b)) →
      ∃ z, Leads T z (q ++ (a ++ symbol :: b)) := by
    intro T bitmap tail
    rw [whole]
    by_cases hb : b = []
    · rw [hb, List.append_nil]
      exact ⟨q ++ a, .bitmap bitmap (by simp)⟩
    · exact ⟨q ++ a ++ [symbol], .jump (tail hb)⟩
  have tailAt : b ≠ [] → tailDraft (q ++ a ++ [symbol]) b (q ++ a ++ [symbol]) = some (.jump b) := by
    intro hb
    rw [tailDraft, if_neg hb, Function.update_self]
  have between : ∀ r, D.draft r ≠ none → ∃ a' b', a ++ symbol :: b = a' ++ b' ∧ a' ≠ [] ∧
      b' ≠ [] ∧ r = q ++ a' := by
    intro r hr
    obtain ⟨n, hn⟩ := Option.ne_none_iff_exists'.mp hr
    exact (cuts.between hn).2
  by_cases ha : a = []
  · subst ha
    have draft : D.draft = tailDraft (q ++ [] ++ [symbol]) b := cuts.draft
    rw [List.append_nil] at cut draft tailAt
    refine shape'.splitJump hq' rfl ?_ between ?_
    · rw [draft]
      exact cut
    · rw [draft]
      refine leadsTail _ ?_ fun hb => ?_
      · rw [List.append_nil, Function.update_self]
        rfl
      · rw [List.append_nil, Function.update_of_ne (by simp)]
        exact tailAt hb
  · have draft := cuts.draft
    rw [if_neg ha] at draft
    have away : q ++ a ≠ q := by simpa using ha
    rw [cutNode, if_neg ha]
    refine shape'.splitJump hq' rfl ?_ between ?_
    · rw [draft]
      obtain ⟨kv, mem, below⟩ := shape.exists_below hq
      refine cut.onJump ?_ ha (by simp at short; omega) (fun x mem => range x (by simp [mem]))
        ⟨kv, mem, below⟩ (fun _ => id) (Or.inl ?_) fun y hy => ?_
      · rw [Function.update_of_ne (Ne.symm away)]
        exact tailDraft_of_ne (by simp)
      · rw [Function.update_self]
        exact Option.some_ne_none _
      · rw [Function.update_self, Option.some_or] at hy
        cases hy
        rfl
    · rw [draft]
      refine leadsTail _ ?_ fun hb => ?_
      · rw [Function.update_of_ne away, Function.update_self]
      · rw [Function.update_of_ne (by simp), Function.update_of_ne (by simp)]
        exact tailAt hb

/-- Everything below the split node is below its old child. -/
theorem last_inside (shape : L.Shape M) (hq : L.node q = some (.jump (a ++ symbol :: b)))
    (up : q <+: r) (down : r <+: q ++ (a ++ symbol :: b)) :
    M.last (KeyMap.Below r) = M.last (KeyMap.Below q) := by
  obtain ⟨kv, last⟩ := shape.exists_last hq
  obtain ⟨mem, below, greatest⟩ := KeyMap.last_eq_some_iff.mp last
  rw [last]
  exact KeyMap.last_eq_some_iff.mpr ⟨mem, down.trans (shape.jump_below hq mem below),
    fun kv' mem' below' => greatest kv' mem' (up.trans below')⟩

/-- **The links stay right.** -/
theorem linked_publish (cuts : L.Cuts D q a symbol b) (shape : L.Shape M)
    (linked : L.Linked g M) (hq : L.node q = some (.jump (a ++ symbol :: b))) :
    (D.publish q (cutNode a symbol) (L.link q)).Linked g M := by
  have linkQ : (D.publish q (cutNode a symbol) (L.link q)).link q = L.link q :=
    Function.update_self _ _ _
  have link : ∀ r, r ≠ q → (D.publish q (cutNode a symbol) (L.link q)).link r = D.link r :=
    fun r ne => Function.update_of_ne ne _ _
  have points : ∀ {lnk okv}, L.PointsTo g lnk okv →
      (D.publish q (cutNode a symbol) (L.link q)).PointsTo g lnk okv := by
    intro lnk okv old
    refine old.stays fun p kv' _ hp => ⟨?_, cuts.color p _ hp⟩
    have ne : p ≠ q := by
      rintro rfl
      rw [hq] at hp
      cases hp
    simp only [publish, if_neg ne]
    rw [all, cuts.node, hp]
    rfl
  constructor
  · intro r n hr
    change D.dirty r = false
    rcases cuts.node_publish hr with ⟨rfl, -⟩ | ⟨ne, hr | hr⟩
    · rw [cuts.dirty r _ hq]
      exact linked.clean r _ hq
    · rw [cuts.dirty r _ hr]
      exact linked.clean r _ hr
    · exact (cuts.new r _ hr).2
  · exact cuts.firstDirty.trans linked.first_clean
  · intro r kv hr
    rcases cuts.node_publish hr with ⟨-, leaf⟩ | ⟨ne, hr | hr⟩
    · have inner : (cutNode a symbol).isInner = true := isInner_cutNode
      rw [← leaf] at inner
      cases inner
    · rw [link r ne, cuts.link r _ hr]
      exact points (linked.next r kv hr)
    · cases (cuts.between hr).1
  · intro r n hr inner
    rcases cuts.node_publish hr with ⟨rfl, -⟩ | ⟨ne, hr | hr⟩
    · rw [linkQ]
      exact points (linked.max r _ hq rfl)
    · rw [link r ne, cuts.link r _ hr]
      exact points (linked.max r n hr inner)
    · obtain ⟨-, a', b', split, -, -, rfl⟩ := cuts.between hr
      rw [link _ ne, (cuts.new _ _ hr).1, last_inside shape hq (List.prefix_append _ _)
        (by rw [split, ← List.append_assoc]; exact List.prefix_append _ _)]
      exact points (linked.max q _ hq rfl)
  · change (D.publish q (cutNode a symbol) (L.link q)).PointsTo g D.first _
    rw [cuts.first]
    exact points linked.first

theorem unclaimed_publish (cuts : L.Cuts D q a symbol b) (shape : L.Shape M)
    (unclaimed : L.Unclaimed) (hq : L.node q = some (.jump (a ++ symbol :: b))) {lnk : Locator} :
    (D.publish q (cutNode a symbol) lnk).Unclaimed where
  root _ := by
    obtain ⟨n, hn⟩ := shape.root hq
    change D.parent [] = invalidColor
    rw [cuts.parent [] n hn (by simp)]
    exact unclaimed.root (by rw [hn]; exact Option.some_ne_none n)
  jump r symbols hr := by
    change D.parent (r ++ symbols) = invalidColor
    have child := shape.child _ _ (.jump hq)
    have whole : q ++ (a ++ symbol :: b) = q ++ a ++ [symbol] ++ b := by simp
    rcases cuts.node_publish hr with ⟨rfl, same⟩ | ⟨ne, hr | hr⟩
    · -- the jump node before the bitmap
      rw [cutNode] at same
      split at same
      · cases same
      · next ha =>
        cases same
        exact cuts.head ha
    · obtain ⟨n, hn⟩ := Option.ne_none_iff_exists'.mp (shape.child _ _ (.jump hr))
      rw [cuts.parent _ n hn fun same => ?_]
      · exact unclaimed.jump r symbols hr
      · -- another jump node with the same child
        by_cases hb : b = []
        · have parent : L.Child q (q ++ (a ++ symbol :: b)) := .jump hq
          rw [whole, hb, List.append_nil, ← same] at parent
          exact ne (shape.parent_unique (.jump hr) parent)
        · rw [same, List.append_assoc, shape.none_in_jump (b := b)] at hn
          · cases hn
          · simpa using hq
          · simp
          · exact hb
    · -- the jump node behind it
      rw [cuts.draft] at hr
      have tail : tailDraft (q ++ a ++ [symbol]) b r = some (.jump symbols) := by
        split at hr
        · exact hr
        · by_cases here : r = q ++ a
          · rw [here, Function.update_self] at hr
            cases hr
          · rwa [Function.update_of_ne here] at hr
      have here : r = q ++ a ++ [symbol] := by
        by_contra other
        rw [tailDraft_of_ne other] at tail
        cases tail
      subst here
      rw [tailDraft] at tail
      split at tail
      · cases tail
      · next hb =>
        rw [Function.update_self] at tail
        cases tail
        obtain ⟨n, hn⟩ := Option.ne_none_iff_exists'.mp child
        rw [whole] at hn
        rw [cuts.parent _ n hn (by simpa using hb), ← whole]
        exact unclaimed.jump q _ hq

end Cuts

/-- The layout with the bitmap drafted, if symbols remain before it. -/
def cutHead (L : Layout) (q a : List ℕ) (symbol c : ℕ) : Layout :=
  if a = [] then L
  else L.draftAt (q ++ a) (.bitmap (setChildBit 0 symbol)) c invalidColor (L.link q)

/-- The layout with the jump node behind the bitmap drafted, or, if no symbols remain for it,
with the old child made one of the bitmap. -/
def cutTail (D : Layout) (q a : List ℕ) (symbol : ℕ) (b : List ℕ) (c : ℕ) (lnk : Locator) :
    Layout :=
  if b = [] then
    D.amend (q ++ a ++ [symbol]) (D.color (q ++ a)) (D.link (q ++ a ++ [symbol]))
      (D.dirty (q ++ a ++ [symbol]))
  else D.draftAt (q ++ a ++ [symbol]) (.jump b) c (D.color (q ++ a)) lnk

/-- Nothing lies at the two positions where nodes may be drafted. -/
theorem Shape.none_at_cut (shape : L.Shape M)
    (hq : L.node q = some (.jump (a ++ symbol :: b))) :
    (a ≠ [] → L.node (q ++ a) = none) ∧ (b ≠ [] → L.node (q ++ a ++ [symbol]) = none) := by
  refine ⟨fun ha => shape.none_in_jump hq ha (by simp), fun hb => ?_⟩
  rw [List.append_assoc]
  exact shape.none_in_jump (b := b) (by simpa using hq) (by simp) hb

@[simp] theorem node_cutHead : (L.cutHead q a symbol c).node = L.node := by
  rw [cutHead]
  split <;> rfl

theorem sameNodes_cutHead (shape : L.Shape M)
    (hq : L.node q = some (.jump (a ++ symbol :: b))) :
    L.SameNodes (L.cutHead q a symbol c) := by
  rw [cutHead]
  split
  · exact .refl L
  · next ha => exact sameNodes_draftAt ((shape.none_at_cut hq).1 ha)

/-- The only draft so far is the bitmap. -/
theorem draft_cutHead (finished : L.Finished) (hr : (L.cutHead q a symbol c).draft r = some n) :
    a ≠ [] ∧ r = q ++ a ∧ n = .bitmap (setChildBit 0 symbol) ∧
      (L.cutHead q a symbol c).link r = L.link q ∧ (L.cutHead q a symbol c).dirty r = false := by
  by_cases ha : a = []
  · rw [cutHead, if_pos ha, finished.no_draft] at hr
    cases hr
  · rw [cutHead, if_neg ha] at hr ⊢
    by_cases here : r = q ++ a
    · subst here
      rw [show (L.draftAt (q ++ a) (.bitmap (setChildBit 0 symbol)) c invalidColor
        (L.link q)).draft (q ++ a) = _ from Function.update_self _ _ _] at hr
      cases hr
      exact ⟨ha, rfl, rfl, Function.update_self _ _ _, Function.update_self _ _ _⟩
    · rw [show (L.draftAt (q ++ a) (.bitmap (setChildBit 0 symbol)) c invalidColor
        (L.link q)).draft r = L.draft r from Function.update_of_ne here _ _,
        finished.no_draft] at hr
      cases hr

/-- **The two drafts** are those of a split. -/
theorem cuts_cutTail (c c' : ℕ) (shape : L.Shape M) (finished : L.Finished)
    (hq : L.node q = some (.jump (a ++ symbol :: b))) :
    L.Cuts ((L.cutHead q a symbol c).cutTail q a symbol b c' (L.link q)) q a symbol b := by
  have same : L.SameNodes (L.cutHead q a symbol c) := sameNodes_cutHead shape hq
  have new : ∀ {r n}, (L.cutHead q a symbol c).draft r = some n → a ≠ [] ∧ r = q ++ a ∧ _ :=
    draft_cutHead finished
  have away : q ++ a ≠ q ++ a ++ [symbol] := by simp
  have draft : (L.cutHead q a symbol c).draft = if a = [] then fun _ => none
      else Function.update (fun _ => none) (q ++ a) (some (.bitmap (setChildBit 0 symbol))) := by
    have noDraft : L.draft = fun _ => none := funext finished.no_draft
    rw [cutHead]
    split
    · exact noDraft
    · rw [← noDraft]
      rfl
  have head : a ≠ [] → (L.cutHead q a symbol c).parent (q ++ a) = invalidColor := by
    intro ha
    rw [cutHead, if_neg ha]
    exact Function.update_self _ _ _
  generalize L.cutHead q a symbol c = H at *
  by_cases hb : b = []
  · rw [cutTail, if_pos hb]
    refine ⟨same.node, ?_, same.color, fun r n hr ne => ?_, Function.update_self _ _ _,
      fun ha => (Function.update_of_ne away _ _).trans (head ha), fun r n hr => ?_,
      fun r n hr => ?_, fun r n hr => ?_, same.first, same.firstDirty⟩
    · rw [tailDraft, if_pos hb]
      exact draft
    · exact (Function.update_of_ne ne _ _).trans (same.parent r n hr)
    · exact (congrFun (Function.update_eq_self _ _) r).trans (same.link r n hr)
    · exact (congrFun (Function.update_eq_self _ _) r).trans (same.dirty r n hr)
    · obtain ⟨-, -, -, link, dirty⟩ := new hr
      exact ⟨(congrFun (Function.update_eq_self _ _) r).trans link,
        (congrFun (Function.update_eq_self _ _) r).trans dirty⟩
  · have notNode : H.node (q ++ a ++ [symbol]) = none := by
      rw [same.node]
      exact (shape.none_at_cut hq).2 hb
    have nodes : L.SameNodes (H.draftAt (q ++ a ++ [symbol]) (.jump b) c' (H.color (q ++ a))
        (L.link q)) := same.trans (sameNodes_draftAt notNode)
    rw [cutTail, if_neg hb]
    refine ⟨nodes.node, ?_, nodes.color, fun r n hr _ => nodes.parent r n hr, ?_,
      fun ha => (Function.update_of_ne away _ _).trans (head ha), nodes.link, nodes.dirty,
      fun r n hr => ?_, nodes.first, nodes.firstDirty⟩
    · rw [show (H.draftAt (q ++ a ++ [symbol]) (.jump b) c' (H.color (q ++ a)) (L.link q)).draft =
        Function.update H.draft (q ++ a ++ [symbol]) (some (.jump b)) from rfl, draft, tailDraft,
        if_neg hb]
      split
      · rfl
      · exact Function.update_comm away _ _ _
    · exact (Function.update_self _ _ _).trans (Function.update_of_ne away _ _).symm
    · by_cases here : r = q ++ a ++ [symbol]
      · subst here
        exact ⟨Function.update_self _ _ _, Function.update_self _ _ _⟩
      · rw [show (H.draftAt (q ++ a ++ [symbol]) (.jump b) c' (H.color (q ++ a))
          (L.link q)).draft r = H.draft r from Function.update_of_ne here _ _] at hr
        obtain ⟨-, -, -, link, dirty⟩ := new hr
        exact ⟨(Function.update_of_ne here _ _).trans link,
          (Function.update_of_ne here _ _).trans dirty⟩

/-- The bitmap below what remains of the jump node. -/
theorem Cuts.bitmap_publish (cuts : L.Cuts D q a symbol b) (shape : L.Shape M) (ha : a ≠ [])
    (hq : L.node q = some (.jump (a ++ symbol :: b))) {lnk : Locator} :
    (D.publish q (cutNode a symbol) lnk).node (q ++ a) = some (.bitmap (setChildBit 0 symbol)) := by
  have away : q ++ a ≠ q := by simpa using ha
  simp only [publish, if_neg away]
  rw [all, cuts.node, (shape.none_at_cut hq).1 ha, Option.none_or, cuts.draft, if_neg ha]
  exact Function.update_self _ _ _

theorem color_cutTail {lnk : Locator} :
    (D.cutTail q a symbol b c lnk).color (q ++ a) = D.color (q ++ a) := by
  rw [cutTail]
  split
  · rfl
  · exact Function.update_of_ne (by simp) _ _

/-- Its entry does not change any more. -/
theorem entry_cutTail (ha : a ≠ []) {lnk lnk' : Locator} {children : ℕ} :
    ((D.cutTail q a symbol b c lnk).publish q m lnk').entry g (q ++ a) (.bitmap children) =
      D.entry g (q ++ a) (.bitmap children) := by
  rw [cutTail]
  split <;> simp [entry, body, publish, amend, draftAt, ha]

/-- **Writing the head** puts the split into the trie. -/
theorem Cuts.becomes (cuts : L.Cuts D q a symbol b) (shape : L.Shape M)
    (hq : L.node q = some (.jump (a ++ symbol :: b))) (lnk : Locator) :
    D.Becomes g M (D.slot g q) ((D.publish q (cutNode a symbol) lnk).entry g q (cutNode a symbol))
      (D.publish q (cutNode a symbol) lnk) M := by
  intro S rep
  refine rep.publish (by rw [cuts.node]; exact hq) (cuts.shape_publish shape hq) ?_ Iff.rfl
  -- the only child of the new bitmap is the one on the symbol
  have new : ∀ {children x}, Node.bitmap (setChildBit 0 symbol) = .bitmap children →
      children.testBit x = true → D.parent (q ++ a ++ [x]) = D.color (q ++ a) := by
    intro children x same bit
    cases same
    rw [testBit_setChildBit, Nat.zero_testBit, Bool.false_or, decide_eq_true_eq] at bit
    rw [bit]
    exact cuts.below
  intro q' children x hq' bit
  rcases cuts.node_publish hq' with ⟨rfl, same⟩ | ⟨-, hq' | hq'⟩
  · rw [cutNode] at same
    split at same
    · next ha =>
      rw [ha, List.append_nil] at new
      exact new same.symm bit
    · cases same
  · exact rep.parent q' children x (by rw [cuts.node]; exact hq') bit
  · rw [cuts.draft] at hq'
    have tail : tailDraft (q ++ a ++ [symbol]) b q' ≠ some (.bitmap children) := by
      intro hq'
      by_cases here : q' = q ++ a ++ [symbol]
      · rw [tailDraft] at hq'
        split at hq'
        · cases hq'
        · rw [here, Function.update_self] at hq'
          cases hq'
      · rw [tailDraft_of_ne here] at hq'
        cases hq'
    split at hq'
    · exact absurd hq' tail
    · by_cases here : q' = q ++ a
      · subst here
        rw [Function.update_self] at hq'
        exact new (Option.some.inj hq') bit
      · rw [Function.update_of_ne here] at hq'
        exact absurd hq' tail

end Layout

/-! ## The steps of a split -/

/-- The old child, found and locked, if no symbols remain behind the bitmap. -/
def ChildSaved (sm : Sys g) (L : Layout) (p b : List ℕ) : Option JumpChild → Prop
  | none => b ≠ []
  | some child => b = [] ∧ child.mark = sm.relocations.length ∧
      sm.trie.At child.copy.lastPos (g.prefixHash p) (L.color p)

theorem ChildSaved.quiet {child : Option JumpChild} (saved : ChildSaved s L p b child)
    (quiet : Quiet s s') : ChildSaved s' L p b child := by
  cases child with
  | none => exact saved
  | some child =>
    obtain ⟨hb, mark, at_⟩ := saved
    exact ⟨hb, by rw [quiet.relocations]; exact mark, at_.congr (congrFun quiet.cells _)⟩

/-- The symbols of a jump node in its entry. -/
theorem LocalCopy.Shows.jump {symbols : List ℕ} (shows : lc.Shows g L q (.jump symbols)) :
    lc.value.body = .jump (symbols.map (· - 1)) (L.color (q ++ symbols)) (L.link q) :=
  shows.body

/-- **The child of the jump node is found and locked.** -/
theorem lockJumpChild_spec (whole : s.Whole maps base L M)
    (hq : L.node q = some (.jump (a ++ symbol :: b)))
    (shows : lc.Shows g L q (.jump (a ++ symbol :: b))) (hasTail : Bool)
    (tail : hasTail = true ↔ b ≠ []) :
    (lockJumpChild lc.value hasTail (g.prefixHash (q ++ a ++ [symbol])) :
      CuckooTrie.M g (Option (Option JumpChild))).Returns s fun r s' =>
        Quiet s s' ∧ match r with
          | none => Denied s s'
          | some child => ChildSaved s L (q ++ a ++ [symbol]) b child := by
  rw [lockJumpChild]
  by_cases hb : b = []
  · rw [if_neg (by rw [tail]; exact not_not.mpr hb)]
    obtain ⟨n, hn⟩ := Option.ne_none_iff_exists'.mp (whole.shape.child _ _ (.jump hq))
    have pos : q ++ (a ++ symbol :: b) = q ++ a ++ [symbol] := by simp [hb]
    rw [pos] at hn
    obtain ⟨child, found, describes⟩ := whole.readable.byColor hn
    have color : lc.value.body.childColor = L.color (q ++ a ++ [symbol]) := by
      rw [shows.jump, pos]
      rfl
    rw [← color] at found
    refine Prog.Returns.bind (Q := fun child' s' => child' = child ∧ s' = s)
      (.find found ⟨rfl, rfl⟩) ?_
    rintro child' s' - ⟨rfl, rfl⟩
    refine Prog.Returns.bind (Q := fun mark s'' => mark = s'.relocations.length ∧ s'' = s')
      (.read ⟨rfl, rfl⟩) ?_
    rintro mark s'' - ⟨rfl, rfl⟩
    refine (Quietly.upgradeLock_spec child' s'').bind fun ret s₁ _ post => ?_
    obtain ⟨quiet, outcome⟩ := post
    obtain ⟨rfl, -⟩ | ⟨rfl, failed⟩ := outcome
    · exact .pure ⟨quiet, hb, rfl, describes.reads.at_⟩
    · exact .pure ⟨quiet, failed whole.listed describes.unchanged⟩
  · rw [if_pos (tail.mpr hb)]
    exact .pure ⟨Quiet.refl s, hb⟩

/-- How the part of a split below the bitmap ends. -/
inductive CutBelow (maps : Set KeyMap) (base : ℕ → ℕ) (L H : Layout) (M : KeyMap) (q a : List ℕ)
    (symbol : ℕ) (b : List ℕ) (s s' : Sys g) : InternalStatus → Prop
  | ok {c : ℕ} : s'.Carries maps base (H.cutTail q a symbol b c (L.link q)) M →
      CutBelow maps base L H M q a symbol b s s' .ok
  | retry : s'.Carries maps base H M → Obstructed s s' →
      CutBelow maps base L H M q a symbol b s s' .retry
  | fail : s'.Carries maps base H M → CutBelow maps base L H M q a symbol b s s' .fail

/-- **Below the bitmap**: the jump node behind it is drafted, or the old child becomes one of
the bitmap. -/
theorem splitJumpBelow_spec {H : Layout} {child : Option JumpChild} (bitmapLoc : Option Loc)
    {sm : Sys g} {depth : ℕ} (carries : s.Carries maps base H M) (same : L.SameNodes H)
    (draft : ∀ r n, H.draft r = some n → r = q ++ a ∧ n = .bitmap (setChildBit 0 symbol))
    (shape : L.Shape M) (hq : L.node q = some (.jump (a ++ symbol :: b)))
    (shows : lc.Shows g L q (.jump (a ++ symbol :: b))) (depth_eq : depth = a.length)
    (saved : ChildSaved sm L (q ++ a ++ [symbol]) b child) (unmoved : sm.Unmoved s) :
    Regularly base (splitJumpBelow lc.value depth (H.color (q ++ a)) symbol
      (g.prefixHash (q ++ a ++ [symbol])) bitmapLoc child) s fun ret s' =>
        Tracks base ∅ s s' ∧ CutBelow maps base L H M q a symbol b s s' ret := by
  have away : q ++ a ++ [symbol] ≠ q ++ a := by simp
  have shapeH : H.Shape M := shape.congr same.node
  have pos : q ++ (a ++ symbol :: b) = q ++ a ++ [symbol] ++ b := by simp
  obtain ⟨y, hy⟩ := Option.ne_none_iff_exists'.mp (shape.child _ _ (.jump hq))
  have colorChild : H.color (q ++ (a ++ symbol :: b)) = L.color (q ++ (a ++ symbol :: b)) :=
    same.color _ _ hy
  cases child with
  | none =>
    have hb : b ≠ [] := saved
    have notNode : H.node (q ++ a ++ [symbol]) = none := by
      rw [same.node]
      exact (shape.none_at_cut hq).2 hb
    have notDraft : H.draft (q ++ a ++ [symbol]) = none := by
      by_contra some_
      obtain ⟨n, hn⟩ := Option.ne_none_iff_exists'.mp some_
      exact away (draft _ _ hn).1
    have free : H.all (q ++ a ++ [symbol]) = none := by rw [Layout.all, notNode, notDraft]; rfl
    have root : H.node [] ≠ none := by
      obtain ⟨m, hroot⟩ := shape.root hq
      rw [same.node, hroot]
      exact Option.some_ne_none m
    have noJump : H.NoJumpTo (q ++ a ++ [symbol]) := by
      intro r symbols hr here
      rw [Layout.all] at hr
      rcases Option.or_eq_some_iff.mp hr with node | ⟨-, drafted⟩
      · have some_ := shapeH.child _ _ (.jump node)
        rw [here, notNode] at some_
        exact some_ rfl
      · have := (draft _ _ drafted).2
        cases this
    have symbols : ∀ x ∈ q ++ a ++ [symbol], x ≤ fanout := fun x mem => by
      refine shape.symbol_le hy x ?_
      rw [pos]
      exact List.mem_append_left _ mem
    unfold splitJumpBelow
    refine Regularly.bind (Prog.Returns.ensures (Sys.Carries.addEntry (.jump b) (H.color (q ++ a))
      (L.link q) carries root bitmapLoc false free noJump symbols (fun c => ?_) rfl rfl))
      fun r s₁ _ _ post => ?_
    · rw [Layout.entry_draftAt (fun symbols h => by cases h; exact hb), newEntry, shows.jump]
      simp only [Body.jumpBits, Body.childColor, Body.maxLeaf, Body.nextLeaf,
        List.getLastD_concat, ← pos, colorChild]
      rw [← List.map_drop, depth_eq]
      simp
    · obtain ⟨evolves, _, drafts⟩ := post
      refine .pure ⟨.of_evolves evolves, ?_⟩
      cases drafts with
      | @ok entry' loc drafted =>
        refine .ok (c := entry'.color) ?_
        rw [Layout.cutTail, if_neg hb]
        exact drafted.carries
      | retry carries₁ reason => exact .retry carries₁ reason
      | fail carries₁ => exact .fail carries₁
  | some child =>
    obtain ⟨hb, mark, at_⟩ := saved
    have whole : q ++ (a ++ symbol :: b) = q ++ a ++ [symbol] := by rw [pos, hb, List.append_nil]
    rw [whole] at hy colorChild
    have hy' : H.node (q ++ a ++ [symbol]) = some y := by rw [same.node]; exact hy
    -- the old child is no child of another bitmap
    have becomes : H.Becomes g M (H.slot g (q ++ a ++ [symbol]))
        ((H.cutTail q a symbol b 0 (L.link q)).entry g (q ++ a ++ [symbol]) y)
        (H.cutTail q a symbol b 0 (L.link q)) M := by
      rw [Layout.cutTail, if_pos hb]
      refine .amend (Layout.all_of_node hy') fun r children x hr bit here => ?_
      have jump : L.Child q (q ++ a ++ [symbol]) := whole ▸ .jump hq
      have bitmap : L.Child r (q ++ a ++ [symbol]) := by
        rw [here]
        exact .bitmap (by rw [← same.node]; exact hr) bit
      obtain rfl := shape.parent_unique jump bitmap
      rw [same.node, hq] at hr
      cases hr
    obtain ⟨copy, mark'⟩ := child
    change mark' = sm.relocations.length at mark
    subst mark
    unfold splitJumpBelow
    refine (recordSavedWrite_spec unmoved at_.used).bind fun _ s₁ _ _ recorded => ?_
    obtain ⟨trie, history, locks, _, _, unchanged⟩ := recorded
    have carries₁ := carries.of_trie trie history locks
    have at₁ : s₁.trie.At copy.lastPos (g.prefixHash (q ++ a ++ [symbol]))
        (H.color (q ++ a ++ [symbol])) := by
      rw [trie, colorChild]
      exact at_.congr unchanged
    refine Regularly.bind (Prog.Returns.ensures (Q := fun t s' => t = s₁.trie ∧ s' = s₁)
      (.read ⟨rfl, rfl⟩)) ?_
    rintro _ s₂ - - ⟨rfl, rfl⟩
    have shown := Layout.content_setParentColor
      (carries₁.content_at (Layout.all_of_node hy') at₁) (H.color (q ++ a))
    refine Regularly.bind (Prog.Returns.ensures (carries₁.writeEntry at₁ rfl rfl rfl at₁.used
      (e := { s₂.trie.cells copy.lastPos with parentColor := H.color (q ++ a) }) ?_
      carries.mem)) fun _ s₃ _ _ post =>
        .pure ⟨(Tracks.of_trie trie).trans (.of_evolves post.1), .ok (c := 0) post.2⟩
    rw [shown]
    rw [Layout.cutTail, if_pos hb] at becomes ⊢
    exact becomes

/-! ## Publishing the split -/

/-- **The last write** of a split puts it into the trie. -/
theorem cutPublish_spec {last : PathEntry} {above : List PathEntry} {newHead : Entry}
    (cuts : L.Cuts D q a symbol b) (linked : L.Linked g M) (finished : L.Finished)
    (hq : L.node q = some (.jump (a ++ symbol :: b))) (carries : s.Carries maps base D M)
    (orderly : s.Orderly base) (trail : Trail base s.trie D q (last :: above))
    (value : newHead = { last.entry.value with
      body := (D.publish q (Layout.cutNode a symbol) (L.link q)).body q (Layout.cutNode a symbol) }) :
    (CuckooTrie.updateEntry last.entry newHead).Returns s fun newLast s' =>
      s'.Whole maps base (D.publish q (Layout.cutNode a symbol) (L.link q)) M ∧ Tracks base ∅ s s' ∧
        Trail base s'.trie (D.publish q (Layout.cutNode a symbol) (L.link q)) q
          ({ last with entry := newLast } :: above) := by
  have shape : L.Shape M := carries.shape.congr cuts.node.symm
  have hq' : D.node q = some (.jump (a ++ symbol :: b)) := by rw [cuts.node, hq]
  obtain ⟨e, rest, n, same, hn, -, mirrors, hash⟩ := trail.head
  cases same
  rw [hq'] at hn
  cases hn
  have content : newHead.content = (D.publish q (Layout.cutNode a symbol) (L.link q)).entry g q
      (Layout.cutNode a symbol) := by
    rw [value]
    exact congrArg (fun e : Entry => { e with
      body := (D.publish q (Layout.cutNode a symbol) (L.link q)).body q
        (Layout.cutNode a symbol) }) mirrors.shows
  have used : newHead.body.used = true := by
    rw [value]
    simp only [Layout.cutNode]
    split <;> rfl
  have becomes := cuts.becomes (g := g) shape hq (L.link q)
  rw [← content] at becomes
  refine (carries.updateEntry orderly.1 mirrors.tracked
    (fun S rep => rep.get_slot (Layout.all_of_node hq')) ?_ ?_ ?_ used becomes carries.mem).weaken
    fun newLast s' le post => ?_
  · rw [value]
  · rw [value]
  · rw [value]
  obtain ⟨carries', tracks, tracked, content'⟩ := post
  have tracks' : Tracks base ∅ s s' := tracks.mono fun sl mem => absurd mem.2 Layout.slot_ne_head
  obtain ⟨S, sound, rep⟩ := carries'.represents
  refine ⟨⟨carries', cuts.linked_publish shape linked hq, rep.finished (fun _ => rfl)
    (cuts.unclaimed_publish shape (finished.unclaimed shape) hq)⟩, tracks', ?_⟩
  refine (trail.tail.publish carries.shape tracks').trail ?_ Layout.isInner_cutNode
    ⟨tracked, content'.trans content⟩ hash
  exact if_pos rfl

/-! ## Giving up -/

/-- Removing the bitmap makes the table whole again. -/
theorem splitJumpFailed_spec {ret : InternalStatus} {bitmap : Option (Entry × ℕ)} {H : Layout}
    (kv : CtKv) (reason : Sys g → Prop) (carries : s.Carries maps base H M)
    (linked : L.Linked g M) (finished : L.Finished) (same : L.SameNodes H)
    (fresh : ∀ r, H.draft r ≠ none → L.node r = none) (covers : H.Covers g bitmap.toList)
    (because : ret = .retry → ∀ s', s ≤ s' → reason s') :
    (splitJumpFailed ret bitmap : CuckooTrie.M g InternalStatus).Returns s fun ret' s' =>
      ret' ≠ .ok ∧ Phase maps base L M kv (reason s') s' ret' := by
  rw [splitJumpFailed]
  refine .ite (fun retry => ?_) fun _ => ?_
  · have release : ∀ {s₁ : Sys g} {K : Layout}, s ≤ s₁ → s₁.Whole maps base K M → L.SameNodes K →
        (do releaseAllLocks; pure .retry : CuckooTrie.M g InternalStatus).Returns s₁ fun ret' s' =>
          ret' ≠ .ok ∧ Phase maps base L M kv (reason s') s' ret' := by
      intro s₁ K le whole same'
      refine (releaseAllLocks_spec whole.listed).bind fun _ s₂ le₂ post => ?_
      obtain ⟨quiet, unlocked⟩ := post
      exact .pure ⟨by simp, .retry (whole.quiet quiet) (.of_sameNodes same') unlocked
        (because retry s₂ (le.trans le₂))⟩
    cases bitmap with
    | none => exact release le_rfl (carries.whole linked finished same covers.no_draft) same
    | some node =>
      obtain ⟨p, n, hash, color, hn, covers'⟩ := Layout.Covers.cons (l := []) covers
      have notNode : H.node p = none := by
        rw [same.node]
        exact fresh p (by rw [hn]; exact Option.some_ne_none n)
      simp only [hash]
      exact (carries.removeEntryByValue hn notNode color).bind fun _ s₁ le post =>
        release le (post.2.2.whole linked finished (same.drop p) covers'.no_draft) (same.drop p)
  · refine (releaseAllLocks_spec carries.listed).bind fun _ s₁ _ post => ?_
    obtain ⟨quiet, unlocked⟩ := post
    exact .pure ⟨by simp, .fail ⟨carries.quiet quiet, same.linked linked⟩ unlocked⟩

/-! ## The whole split -/

/-- How the split of a jump node ends: with the finger in the new bitmap, for the same map, or
in giving up. -/
inductive JumpSplit (maps : Set KeyMap) (base : ℕ → ℕ) (L : Layout) (M : KeyMap) (kv : CtKv)
    (q : List ℕ) (symbol : ℕ) (s s' : Sys g) : InternalStatus × Finger → Prop
  | split {K : Layout} {f : Finger} : s'.Whole maps base K M → L.Stays K → s'.Unlocked →
      f.AtNode base s'.trie K q (.bitmap (setChildBit 0 symbol)) →
      JumpSplit maps base L M kv q symbol s s' (.ok, f)
  | gaveUp {ret : InternalStatus} {f : Finger} : ret ≠ .ok →
      Phase maps base L M kv (Obstructed s s') s' ret →
      JumpSplit maps base L M kv q symbol s s' (ret, f)

/-- What a split reads off its jump node. -/
theorem LocalCopy.Shows.splitSymbol (shows : lc.Shows g L q (.jump (a ++ symbol :: b)))
    (positive : 0 < symbol) :
    lc.value.jumpSymbol a.length = symbol ∧
      (a.length + 1 < lc.value.jumpSize ↔ b ≠ []) := by
  constructor
  · rw [Entry.jumpSymbol, shows.jump]
    simp only [Body.jumpBits, List.getD_eq_getElem?_getD, List.map_append, List.map_cons]
    rw [List.getElem?_append_right (by simp)]
    simp
    omega
  · rw [Entry.jumpSize, shows.jump]
    simp only [Body.jumpBits, List.length_map, List.length_append, List.length_cons,
      ← List.length_pos_iff]
    omega

/-- **The failure exit**: what was added is removed, and the split has been given up. -/
theorem splitJumpFailed_gaveUp {s₀ : Sys g} {H : Layout} {ret : InternalStatus}
    {bitmap : Option (Entry × ℕ)} (kv : CtKv) (f : Finger) (symbol : ℕ)
    (carries : s.Carries maps base H M) (linked : L.Linked g M) (finished : L.Finished) (same : L.SameNodes H)
    (fresh : ∀ r, H.draft r ≠ none → L.node r = none) (covers : H.Covers g bitmap.toList)
    (le : s₀ ≤ s) (because : ret = .retry → Obstructed s₀ s) :
    Regularly base (do let ret ← splitJumpFailed ret bitmap; pure (ret, f)) s
      fun r s' => JumpSplit maps base L M kv q symbol s₀ s' r :=
  Regularly.bind (Prog.Returns.ensures (splitJumpFailed_spec kv (Obstructed s₀) carries linked
    finished same fresh covers fun retry _ le' => (because retry).mono_right le le'))
    fun _ _ _ _ post => .pure (.gaveUp post.1 post.2)

/-- The failure exit when nothing was added yet. -/
theorem splitJumpFailed_gaveUp_nil {s₀ : Sys g} {ret : InternalStatus} (kv : CtKv) (f : Finger)
    (symbol : ℕ) (carries : s.Carries maps base L M) (linked : L.Linked g M) (finished : L.Finished)
    (le : s₀ ≤ s) (because : ret = .retry → Obstructed s₀ s) :
    Regularly base (do let ret ← splitJumpFailed ret none; pure (ret, f)) s
      fun r s' => JumpSplit maps base L M kv q symbol s₀ s' r :=
  splitJumpFailed_gaveUp kv f symbol carries linked finished (.refl L)
    (fun r hr => absurd (finished.no_draft r) hr) (.nil finished.no_draft) le because

/-- All locks for a split are taken: the copies on the path of the finger are current, and
nothing has been written. -/
structure JumpLocked (maps : Set KeyMap) (base : ℕ → ℕ) (L : Layout) (M : KeyMap) (s₀ s : Sys g)
    (f : Finger) (last : PathEntry) (above : List PathEntry) (child : Option JumpChild)
    (q a : List ℕ) (symbol : ℕ) (b : List ℕ) : Prop where
  whole : s.Whole maps base L M
  linked : L.Linked g M
  finished : L.Finished
  le : s₀ ≤ s
  node : L.node q = some (.jump (a ++ symbol :: b))
  depth : f.depthInJump = a.length
  shows : f.containingEntry.Shows g L q (.jump (a ++ symbol :: b))
  prefixHash : f.prefixHash = g.prefixHash (q ++ a)
  lastSymbol : f.lastPrefixSymbol = (q ++ a).getLastD 0
  copy : last.entry = f.containingEntry
  hashLast : last.prefixHash = g.prefixHash q
  trail : Trail base s.trie L q (last :: above)
  saved : ChildSaved s L (q ++ a ++ [symbol]) b child

section Locked

variable {s₀ : Sys g} {f : Finger} {last : PathEntry} {above : List PathEntry}
  {child : Option JumpChild}

/-- **At the first symbol** the jump node becomes the bitmap itself. -/
theorem JumpLocked.splitHead
    (locked : JumpLocked maps base L M s₀ s f last above child q a symbol b) (kv : CtKv)
    (ha : a = []) :
    Regularly base
      (do
        let ret ← splitJumpBelow f.containingEntry.value f.depthInJump
          f.containingEntry.value.color symbol (g.prefixHash (q ++ a ++ [symbol])) none child
        if ret ≠ .ok then
          let ret ← splitJumpFailed ret none
          pure (ret, f)
        else
          let newLast ← updateEntry last.entry
            { f.containingEntry.value with
              body := .bitmap (setChildBit 0 symbol) symbol f.containingEntry.value.body.maxLeaf }
          releaseAllLocks
          pure (.ok,
            Finger.rereadPathEnd { f with path := { last with entry := newLast } :: above }))
      s fun r s' => JumpSplit maps base L M kv (q ++ a) symbol s₀ s' r := by
  subst ha
  obtain ⟨whole, linked, finished, le, hq, depth, shows, prefixHash, -, copy, hashLast, trail,
    saved⟩ := locked
  have shape := whole.shape
  have color : L.color (q ++ []) = f.containingEntry.value.color := by
    rw [List.append_nil, shows.color]
  have cuts := fun c => Layout.cuts_cutTail 0 c shape finished hq
  rw [show L.cutHead q [] symbol 0 = L from if_pos rfl] at cuts
  have step := splitJumpBelow_spec none whole.toCarries (.refl L)
    (fun r n hr => absurd hr (by rw [finished.no_draft]; simp)) shape hq shows depth saved
    fun _ _ _ => rfl
  rw [color] at step
  refine Regularly.bind step fun ret s₁ le₁ orderly₁ post => ?_
  obtain ⟨tracks₁, below⟩ := post
  cases below with
  | @ok c carries₁ =>
    rw [if_neg (not_not.mpr rfl)]
    have trail₁ := trail.keeps shape (cuts c).keeps (tracks₁.mono (Set.empty_subset _))
    refine Regularly.bind (Prog.Returns.ensures (cutPublish_spec (cuts c) linked finished hq
      carries₁ orderly₁ trail₁ ?_)) fun newLast s₂ _ _ post => ?_
    · rw [copy, Layout.body_cutNode, if_pos rfl, shows.jump]
      rfl
    · obtain ⟨whole₂, _, trail₂⟩ := post
      refine Regularly.bind (Prog.Returns.ensures (releaseAllLocks_spec whole₂.listed))
        fun _ s₃ _ _ released => .pure (.split (whole₂.quiet released.1)
          ((cuts c).keeps.stays.trans (.publish _)) released.2 ?_)
      rw [List.append_nil]
      refine ⟨if_pos rfl, ⟨above, ?_⟩, trail₂.quiet whole₂.shape released.1, ?_⟩
      · rw [Finger.rereadPathEnd, hashLast, prefixHash, List.append_nil]
      · rw [Finger.rereadPathEnd, prefixHash, List.append_nil]
  | retry carries₁ reason =>
    exact splitJumpFailed_gaveUp_nil kv f symbol carries₁ linked finished (le.trans le₁)
      fun _ => reason.mono_left le le₁
  | fail carries₁ =>
    exact splitJumpFailed_gaveUp_nil kv f symbol carries₁ linked finished (le.trans le₁)
      fun failed => by cases failed

/-- **Behind other symbols** a bitmap is drafted below what remains of the jump node. -/
theorem JumpLocked.splitTail
    (locked : JumpLocked maps base L M s₀ s f last above child q a symbol b) (kv : CtKv)
    (ha : a ≠ []) :
    Regularly base
      (do
        let (ret, bitmapNode, bitmapLoc) ← addEntry f.prefixHash
          ⟨invalidColor, false, false, 0, 0, f.lastPrefixSymbol,
            .bitmap (setChildBit 0 symbol) symbol f.containingEntry.value.body.maxLeaf⟩
          none true
        if ret ≠ .ok then
          let ret ← splitJumpFailed ret none
          pure (ret, f)
        else
          let t ← getTrie
          let bitmapSeq := t.seq bitmapLoc.bucket
          let newHead :=
            { f.containingEntry.value with
              body := .jump (f.containingEntry.value.body.jumpBits.take f.depthInJump)
                bitmapNode.color f.containingEntry.value.body.maxLeaf }
          let ret ← splitJumpBelow f.containingEntry.value f.depthInJump bitmapNode.color symbol
            (g.prefixHash (q ++ a ++ [symbol])) (some bitmapLoc) child
          if ret ≠ .ok then
            let ret ← splitJumpFailed ret (some (bitmapNode, f.prefixHash))
            pure (ret, f)
          else
            let newLast ← updateEntry last.entry newHead
            releaseAllLocks
            let f := Finger.rereadPathEnd { f with path := { last with entry := newLast } :: above }
            pure (.ok, Finger.nodeChanged
              { f with
                containingEntry := ⟨bitmapNode, bitmapLoc, hashToBucket f.prefixHash, bitmapSeq⟩ }
              true))
      s fun r s' => JumpSplit maps base L M kv (q ++ a) symbol s₀ s' r := by
  obtain ⟨whole, linked, finished, le, hq, depth, shows, prefixHash, lastSymbol, copy, -, trail,
    saved⟩ := locked
  have shape := whole.shape
  have absent := (Layout.Shape.none_at_cut shape hq).1 ha
  have root : L.node [] ≠ none := by
    obtain ⟨m, hroot⟩ := shape.root hq
    rw [hroot]
    exact Option.some_ne_none m
  have symbols : ∀ x ∈ q ++ a, x ≤ fanout := fun x mem => by
    obtain ⟨y, hy⟩ := Option.ne_none_iff_exists'.mp (shape.child _ _ (.jump hq))
    refine shape.symbol_le hy x ?_
    rw [← List.append_assoc]
    exact List.mem_append_left _ mem
  simp only [prefixHash]
  refine Regularly.bind (Prog.Returns.ensures (Sys.Carries.addEntry
    (.bitmap (setChildBit 0 symbol)) invalidColor (L.link q) whole.toCarries root none true
    (finished.all_none absent) (finished.noJumpTo shape absent) symbols
    (fun c => ?_) rfl rfl)) fun r s₁ le₁ _ post => ?_
  · rw [Layout.entry_draftAt (by simp), newEntry, shows.jump, lastSymbol]
    simp only [Body.maxLeaf, Body.nextLeaf, log2_setChildBit_zero]
  obtain ⟨evolves₁, unmoved₁, drafts⟩ := post
  cases drafts with
  | @ok entry' loc drafted =>
    have carries₁ := drafted.carries
    rw [show L.draftAt (q ++ a) (.bitmap (setChildBit 0 symbol)) entry'.color invalidColor
      (L.link q) = L.cutHead q a symbol entry'.color from (if_neg ha).symm] at carries₁
    have same := Layout.sameNodes_cutHead (c := entry'.color) shape hq
    have color : (L.cutHead q a symbol entry'.color).color (q ++ a) = entry'.color := by
      rw [Layout.cutHead, if_neg ha]
      exact Function.update_self _ _ _
    have draft : ∀ r n, (L.cutHead q a symbol entry'.color).draft r = some n →
        r = q ++ a ∧ n = .bitmap (setChildBit 0 symbol) := fun r n hr => by
      obtain ⟨-, here, node, -⟩ := Layout.draft_cutHead finished hr
      exact ⟨here, node⟩
    have step := splitJumpBelow_spec (some loc) carries₁ same draft shape hq shows depth saved
      unmoved₁
    rw [color] at step
    dsimp only
    rw [if_neg (not_not.mpr rfl)]
    refine Regularly.bind (Prog.Returns.ensures (Q := fun t s' => t = s₁.trie ∧ s' = s₁)
      (.read ⟨rfl, rfl⟩)) ?_
    rintro _ s₁ - - ⟨rfl, rfl⟩
    refine Regularly.bind step fun ret s₂ le₂ orderly₂ post => ?_
    obtain ⟨tracks₂, below⟩ := post
    have covers : (L.cutHead q a symbol entry'.color).Covers g
        [(entry', g.prefixHash (q ++ a))] := by
      rw [Layout.cutHead, if_neg ha]
      exact Layout.Covers.draftAt (l := []) (.nil finished.no_draft) (finished.no_draft _) rfl
    have fresh : ∀ r, (L.cutHead q a symbol entry'.color).draft r ≠ none → L.node r = none :=
      fun r hr => by
        obtain ⟨n, hn⟩ := Option.ne_none_iff_exists'.mp hr
        rw [(draft r n hn).1]
        exact absent
    cases below with
    | @ok c carries₂ =>
      have cuts := Layout.cuts_cutTail entry'.color c shape finished hq
      have trail₂ := trail.keeps shape cuts.keeps
        (((Tracks.of_evolves evolves₁).trans tracks₂).mono (Set.empty_subset _))
      rw [if_neg (not_not.mpr rfl)]
      refine Regularly.bind (Prog.Returns.ensures (cutPublish_spec cuts linked finished hq carries₂
        orderly₂ trail₂ ?_)) fun newLast s₃ _ _ post => ?_
      · rw [copy, Layout.body_cutNode, if_neg ha, shows.jump, Layout.color_cutTail, color]
        simp [Body.jumpBits, Body.maxLeaf, Body.nextLeaf, depth]
      obtain ⟨whole₃, tracks₃, trail₃⟩ := post
      refine Regularly.bind (Prog.Returns.ensures (releaseAllLocks_spec whole₃.listed))
        fun _ s₄ _ _ released => .pure (.split (whole₃.quiet released.1)
          (cuts.keeps.stays.trans (.publish _)) released.2 ?_)
      obtain ⟨quiet₄, -⟩ := released
      -- the copy of the bitmap was made when it was added
      have tracked := ((tracks₂.trans tracks₃).trans (.of_quiet quiet₄)) _ _
        (Set.notMem_empty _) drafted.tracked
      refine ⟨cuts.bitmap_publish shape ha hq, ⟨{ last with entry := newLast } :: above, ?_⟩,
        .child (trail₃.quiet whole₃.shape quiet₄) (.jump ?_) (cuts.bitmap_publish shape ha hq) rfl
          ⟨?_, ?_⟩ ?_, ?_⟩
      · rfl
      · exact (if_pos rfl).trans (congrArg some (if_neg ha))
      · rw [Layout.slot, show (Layout.publish _ q (Layout.cutNode a symbol)
          (L.link q)).color (q ++ a) = entry'.color from Layout.color_cutTail.trans color]
        exact tracked
      · rw [LocalCopy.Shows, Layout.entry_cutTail ha, Layout.cutHead, if_neg ha]
        exact drafted.content
      · rfl
      · rfl
    | retry carries₂ reason =>
      exact splitJumpFailed_gaveUp kv f symbol carries₂ linked finished same fresh covers
        ((le.trans le₁).trans le₂) fun _ => reason.mono_left (le.trans le₁) le₂
    | fail carries₂ =>
      exact splitJumpFailed_gaveUp kv f symbol carries₂ linked finished same fresh covers
        ((le.trans le₁).trans le₂) fun failed => by cases failed
  | retry carries₁ reason =>
    exact splitJumpFailed_gaveUp_nil kv f symbol carries₁ linked finished (le.trans le₁)
      fun _ => reason.mono_left le le₁
  | fail carries₁ =>
    exact splitJumpFailed_gaveUp_nil kv f symbol carries₁ linked finished (le.trans le₁)
      fun failed => by cases failed

end Locked

/-- **`split_jump_node`** puts the finger into a new bitmap, for the same map, or gives up for
a reason. -/
theorem splitJumpNode_spec {f : Finger} (kv : CtKv) (whole : s.Whole maps base L M)
    (at_ : f.AtPosition s.trie L q (.jump (a ++ symbol :: b)) (q ++ a) true)
    (depth : f.depthInJump = a.length) :
    Regularly base (splitJumpNode f) s fun r s' =>
      JumpSplit maps base L M kv (q ++ a) symbol s s' r := by
  have shape := whole.shape
  have hq := at_.position.node
  have shows := at_.entry.content
  have positive : 0 < symbol := ((shape.jump q _ hq).2.2 symbol (by simp)).1
  obtain ⟨splitSymbol, tail⟩ := shows.splitSymbol positive
  rw [← depth] at splitSymbol tail
  have hash : g.accumulateHash f.prefixHash symbol = g.prefixHash (q ++ a ++ [symbol]) := by
    rw [at_.prefixHash, g.prefixHash_concat]
  rw [splitJumpNode]
  simp only [splitSymbol, hash]
  refine Regularly.bind (Prog.Returns.ensures (lockJumpChild_spec whole hq shows
    (decide (f.depthInJump + 1 < f.containingEntry.value.jumpSize))
    (by rw [decide_eq_true_eq]; exact tail))) fun r s₁ le₁ _ post => ?_
  obtain ⟨quiet₁, outcome⟩ := post
  have whole₁ := whole.quiet quiet₁
  cases r with
  | none =>
    exact splitJumpFailed_gaveUp_nil kv f symbol whole₁.toCarries whole.linked whole.finished le₁
      fun _ => Or.inl outcome
  | some child =>
    refine Regularly.bind (Prog.Returns.ensures (Quietly.upgradeLock_spec f.containingEntry s₁))
      fun ret s₂ le₂ _ post => ?_
    obtain ⟨quiet₂, locked⟩ := post
    have whole₂ := whole₁.quiet quiet₂
    have quiet := quiet₁.trans quiet₂
    obtain ⟨rfl, -⟩ | ⟨rfl, failed⟩ := locked
    · obtain ⟨S, sound, -⟩ := whole.represents
      have trail := Trail.of_spine (at_.spine rfl) hq rfl sound.stores whole.base_le
      obtain ⟨last, above, n, path, hn, describes, hashLast⟩ := (at_.spine rfl).head
      rw [hq] at hn
      cases hn
      rw [path] at trail ⊢
      have locked : JumpLocked maps base L M s s₂ f last above child q a symbol b :=
        ⟨whole₂, whole.linked, whole.finished, le₁.trans le₂, hq, depth, shows, at_.prefixHash,
          at_.lastSymbol, describes.unique at_.entry sound.stores, hashLast,
          trail.quiet shape quiet, outcome.quiet quiet⟩
      rw [if_neg (not_not.mpr rfl)]
      by_cases ha : a = []
      · rw [if_pos (depth.trans (List.length_eq_zero_iff.mpr ha))]
        exact locked.splitHead kv ha
      · rw [if_neg (mt depth.symm.trans (mt List.length_eq_zero_iff.mp ha))]
        exact locked.splitTail kv ha
    · refine splitJumpFailed_gaveUp_nil kv f symbol whole₂.toCarries whole.linked whole.finished
        (le₁.trans le₂) fun _ => Or.inl ((failed whole₁.listed ?_).mono_left le₁)
      rw [Trie.entryUnchanged, quiet₁.seq]
      exact at_.entry.unchanged

end CuckooTrie
