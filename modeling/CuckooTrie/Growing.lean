import CuckooTrie.TreeChanges

/-!
# What an insert grows

The three ways in which a trie changes: a bitmap gets one more leaf
(`Shape.addChild`), a leaf becomes a path to a bitmap with two leaves
(`Grown.fork`, `Shape.splitLeaf`), and a symbol of a jump node becomes a bitmap
(`Grown.cut`, `Shape.splitJump`).
-/

namespace CuckooTrie

namespace Layout

variable {L : Layout} {M M' : KeyMap} {N : List ℕ → Option Node} {p q r : List ℕ} {n : Node}
  {lnk : Locator} {kv kv₀ : CtKv} {children s : ℕ}

/-! ## Where nothing lies -/

/-- Nothing lies where a bitmap has no child. -/
theorem Shape.none_of_clear (shape : L.Shape M) (hq : L.node q = some (.bitmap children))
    (clear : children.testBit s = false) (ext : q ++ [s] <+: r) : L.node r = none := by
  by_contra some_
  obtain ⟨m, hr⟩ := Option.ne_none_iff_exists'.mp some_
  have ne : q ≠ r := by
    rintro rfl
    exact absurd ext.length_le (by simp)
  obtain ⟨c, child, below⟩ := shape.exists_child hq hr ((List.prefix_append _ _).trans ext) ne
  cases child with
  | bitmap hq' bit =>
    rw [hq] at hq'
    cases hq'
    rw [PrefixOrder.concat_prefix_unique below ext, clear] at bit
    cases bit
  | jump hq' =>
    rw [hq] at hq'
    cases hq'

/-- Nothing lies inside a jump node. -/
theorem Shape.none_in_jump {a b : List ℕ} (shape : L.Shape M)
    (hq : L.node q = some (.jump (a ++ b))) (ha : a ≠ []) (hb : b ≠ []) :
    L.node (q ++ a) = none := by
  by_contra some_
  obtain ⟨m, hr⟩ := Option.ne_none_iff_exists'.mp some_
  have ne : q ≠ q ++ a := fun same => ha (by simpa using same)
  obtain ⟨c, child, below⟩ := shape.exists_child hq hr (List.prefix_append _ _) ne
  cases child with
  | bitmap hq' =>
    rw [hq] at hq'
    cases hq'
  | jump hq' =>
    rw [hq] at hq'
    cases hq'
    have := below.length_le
    have := List.length_pos_iff.mpr hb
    simp only [List.length_append] at *
    omega

/-- Nothing lies below a leaf. -/
theorem Shape.none_below_leaf (shape : L.Shape M) (hp : L.node p = some (.leaf kv)) (ext : p <+: r)
    (ne : r ≠ p) : L.node r = none := by
  by_contra some_
  obtain ⟨m, hr⟩ := Option.ne_none_iff_exists'.mp some_
  exact ne (shape.eq_of_leaf hp hr ext).symm

/-! ## A new child of a bitmap -/

/-- **A bitmap gets one more leaf.** -/
theorem Shape.addChild (shape : L.Shape M) (hq : L.node q = some (.bitmap children))
    (clear : children.testBit s = false)
    (draft : L.draft = Function.update (fun _ => none) (q ++ [s]) (some (.leaf kv)))
    (new : ∀ kv' ∈ M, kv'.key ≠ kv.key) (onPath : q ++ [s] <+: keySymbols kv.key) :
    (L.publish q (.bitmap (setChildBit children s)) lnk).Shape (M.insert kv) := by
  have ne : q ≠ q ++ [s] := by simp
  have symbol : s ≤ fanout := le_fanout_of_mem_keySymbols (onPath.subset (by simp))
  have top : Function.update L.draft q (some (.bitmap (setChildBit children s))) q =
      some (.bitmap (setChildBit children s)) := Function.update_self _ _ _
  refine shape.publish hq ?_ ?_ (fun _ => KeyMap.mem_insert_of_mem new) (fun _ => rfl) ?_ ?_
  · rw [draft]
    refine (Grown.nothing.leaf rfl (fun _ h => h.elim) KeyMap.self_mem_insert onPath).onBitmap ?_
      (setChildBit_ne_zero _ _) (setChildBit_lt (shape.bitmap q children hq).2 symbol)
      ⟨kv, KeyMap.self_mem_insert, (List.prefix_append _ _).trans onPath⟩ ?_ ?_
    · exact Function.update_of_ne ne _ _
    · rintro x (h | rfl)
      · exact h.elim
      · exact ⟨s, by simp, rfl⟩
    · intro c bit
      rw [testBit_setChildBit, Bool.or_eq_true, decide_eq_true_eq] at bit
      rcases bit with bit | rfl
      · exact Or.inr (shape.child _ _ (.bitmap hq bit))
      · exact Or.inl (by rw [Function.update_self]; exact Option.some_ne_none _)
  · intro r hr
    have same : r = q ++ [s] := by
      by_contra other
      rw [draft, Function.update_of_ne other] at hr
      exact hr rfl
    exact shape.none_of_clear hq clear (same ▸ List.prefix_rfl)
  · intro c child
    cases child with
    | bitmap hq' bit =>
      rw [hq] at hq'
      cases hq'
      exact ⟨q, .bitmap top (by simp [bit])⟩
    | jump hq' =>
      rw [hq] at hq'
      cases hq'
  · intro kv' mem
    rcases KeyMap.mem_insert.mp mem with rfl | ⟨mem, -⟩
    · refine Or.inr ⟨q ++ [s], ?_⟩
      rw [Function.update_of_ne ne.symm, draft, Function.update_self]
    · obtain ⟨r, hr⟩ := shape.key kv' mem
      refine Or.inl ⟨r, ?_, hr⟩
      rintro rfl
      rw [hq] at hr
      cases hr

/-! ## A leaf becomes a path -/

/-- A bitmap with two leaves. -/
theorem Grown.fork {kvx kvy : CtKv} {x y : ℕ} (ne : x ≠ y) (memx : kvx ∈ M) (memy : kvy ∈ M)
    (pathx : p ++ [x] <+: keySymbols kvx.key) (pathy : p ++ [y] <+: keySymbols kvy.key) :
    Grown N
      (Function.update
        (Function.update (Function.update (fun _ => none) (p ++ [x]) (some (.leaf kvx))) (p ++ [y])
          (some (.leaf kvy)))
        p (some (.bitmap (setChildBit (setChildBit 0 y) x)))) M fun r => r = p := by
  have nex : p ≠ p ++ [x] := by simp
  have ney : p ≠ p ++ [y] := by simp
  have nexy : p ++ [y] ≠ p ++ [x] := by simpa using ne.symm
  have small : setChildBit (setChildBit 0 y) x < 2 ^ 33 :=
    setChildBit_lt (setChildBit_lt (by decide) (le_fanout_of_mem_keySymbols
      (pathy.subset (by simp)))) (le_fanout_of_mem_keySymbols (pathx.subset (by simp)))
  have leaves := (Grown.nothing (N := N).leaf rfl (fun _ h => h.elim) memx pathx).leaf
    (p := p ++ [y]) (Function.update_of_ne nexy _ _) (fun z h ext => ?_) memy pathy
  · refine leaves.onBitmap ?_ (setChildBit_ne_zero _ _) small
      ⟨kvx, memx, (List.prefix_append _ _).trans pathx⟩ ?_ ?_
    · rw [Function.update_of_ne ney, Function.update_of_ne nex]
    · rintro z ((h | rfl) | rfl)
      · exact h.elim
      · exact ⟨x, by simp, rfl⟩
      · exact ⟨y, by simp, rfl⟩
    · intro c bit
      simp only [testBit_setChildBit, Nat.zero_testBit, Bool.false_or, Bool.or_eq_true,
        decide_eq_true_eq] at bit
      rcases bit with rfl | rfl
      · exact Or.inl (by rw [Function.update_self]; exact Option.some_ne_none _)
      · exact Or.inl (by
          rw [Function.update_of_ne nexy.symm, Function.update_self]
          exact Option.some_ne_none _)
  · rcases h with h | rfl
    · exact h
    · exact nexy (ext.eq_of_length (by simp)).symm

/-- **A leaf becomes a path**, at the end of which its object has a new leaf. -/
theorem Shape.splitLeaf (shape : L.Shape M) (hp : L.node p = some (.leaf kv₀))
    (new : ∀ kv' ∈ M, kv'.key ≠ kv.key)
    (grown : Grown L.node (Function.update L.draft p (some n)) (M.insert kv) fun r => r = p)
    (below : ∀ r, L.draft r ≠ none → p <+: r ∧ r ≠ p)
    (oldLeaf : ∃ r, L.draft r = some (.leaf kv₀)) (newLeaf : ∃ r, L.draft r = some (.leaf kv)) :
    (L.publish p n lnk).Shape (M.insert kv) := by
  have still : ∀ {kv'}, (∃ r, L.draft r = some (.leaf kv')) →
      ∃ r, Function.update L.draft p (some n) r = some (.leaf kv') := by
    rintro kv' ⟨r, hr⟩
    have ne := (below r (by rw [hr]; exact Option.some_ne_none _)).2
    exact ⟨r, by rw [Function.update_of_ne ne, hr]⟩
  refine shape.publish hp grown ?_ (fun _ => KeyMap.mem_insert_of_mem new) nofun ?_ ?_
  · intro r hr
    obtain ⟨ext, ne⟩ := below r hr
    exact shape.none_below_leaf hp ext ne
  · intro c child
    obtain ⟨m, hm, inner⟩ := child.inner
    rw [hp] at hm
    cases hm
    cases inner
  · intro kv' mem
    rcases KeyMap.mem_insert.mp mem with rfl | ⟨mem, -⟩
    · exact Or.inr (still newLeaf)
    · obtain ⟨r, hr⟩ := shape.key kv' mem
      by_cases same : r = p
      · subst same
        rw [hp] at hr
        cases hr
        exact Or.inr (still oldLeaf)
      · exact Or.inl ⟨r, same, hr⟩

/-! ## A symbol of a jump node becomes a bitmap -/

/-- The jump node drafted below a new bitmap, if symbols remain for it. -/
def tailDraft (r b : List ℕ) : List ℕ → Option Node :=
  if b = [] then fun _ => none else Function.update (fun _ => none) r (some (.jump b))

theorem tailDraft_of_ne {b : List ℕ} (ne : p ≠ r) : tailDraft r b p = none := by
  rw [tailDraft]
  split
  · rfl
  · exact Function.update_of_ne ne _ _

/-- The bitmap with the tail below it. -/
theorem Grown.cut {a b : List ℕ} (shape : L.Shape M) (hq : L.node q = some (.jump (a ++ s :: b))) :
    Grown L.node (Function.update (tailDraft (q ++ a ++ [s]) b) (q ++ a)
      (some (.bitmap (setChildBit 0 s)))) M fun r => r = q ++ a := by
  obtain ⟨-, short, range⟩ := shape.jump q _ hq
  obtain ⟨kv, mem, below⟩ := shape.exists_below hq
  have below' := shape.jump_below hq mem below
  have child := shape.child _ _ (.jump hq)
  have whole : q ++ (a ++ s :: b) = q ++ a ++ [s] ++ b := by simp
  rw [whole] at below' child
  have pre : q ++ a ++ [s] <+: q ++ a ++ [s] ++ b := List.prefix_append _ _
  -- the tail, or the old child
  have tail : Grown L.node (tailDraft (q ++ a ++ [s]) b) M
      (fun r => b ≠ [] ∧ r = q ++ a ++ [s]) := by
    by_cases hb : b = []
    · have same : (fun r => b ≠ [] ∧ r = q ++ a ++ [s]) = fun _ => False := by simp [hb]
      rw [tailDraft, if_pos hb, same]
      exact .nothing
    · have same : (fun r => b ≠ [] ∧ r = q ++ a ++ [s]) = fun r => r = q ++ a ++ [s] := by
        simp [hb]
      rw [tailDraft, if_neg hb, same]
      refine Grown.nothing.onJump rfl hb ?_ (fun c mem => range c (by simp [mem]))
        ⟨kv, mem, pre.trans below'⟩ (fun _ h => h.elim) (Or.inr child) fun y hy => ?_
      · simp only [List.length_append, List.length_cons] at short
        omega
      · rw [Option.none_or, ← whole] at hy
        exact shape.jump_child _ _ y hq hy
  refine tail.onBitmap (tailDraft_of_ne (by simp)) (setChildBit_ne_zero _ _)
    (setChildBit_lt (by decide) (range s (by simp)).2)
    ⟨kv, mem, (List.prefix_append _ _).trans (pre.trans below')⟩ ?_ ?_
  · rintro x ⟨-, rfl⟩
    exact ⟨s, by simp, rfl⟩
  · intro c bit
    simp only [testBit_setChildBit, Nat.zero_testBit, Bool.false_or, decide_eq_true_eq] at bit
    subst bit
    by_cases hb : b = []
    · rw [hb, List.append_nil] at child
      exact Or.inr child
    · rw [tailDraft, if_neg hb, Function.update_self]
      exact Or.inl (Option.some_ne_none _)

/-- **A jump node becomes a bitmap**, or a shorter jump node with the bitmap behind
it; `N` are the nodes drafted between it and its child. -/
theorem Shape.splitJump {symbols : List ℕ} (shape : L.Shape M)
    (hq : L.node q = some (.jump symbols)) (inner : n.isInner = true)
    (grown : Grown L.node (Function.update L.draft q (some n)) M fun r => r = q)
    (between : ∀ r, L.draft r ≠ none →
      ∃ a b, symbols = a ++ b ∧ a ≠ [] ∧ b ≠ [] ∧ r = q ++ a)
    (leads : ∃ z, Leads (Function.update L.draft q (some n)) z (q ++ symbols)) :
    (L.publish q n lnk).Shape M := by
  refine shape.publish hq grown ?_ (fun _ mem => mem) (fun _ => inner) ?_ ?_
  · intro r hr
    obtain ⟨a, b, rfl, ha, hb, rfl⟩ := between r hr
    exact shape.none_in_jump hq ha hb
  · intro c child
    cases child with
    | bitmap hq' =>
      rw [hq] at hq'
      cases hq'
    | jump hq' =>
      rw [hq] at hq'
      cases hq'
      exact leads
  · intro kv' mem
    obtain ⟨r, hr⟩ := shape.key kv' mem
    refine Or.inl ⟨r, ?_, hr⟩
    rintro rfl
    rw [hq] at hr
    cases hr

end Layout

end CuckooTrie
