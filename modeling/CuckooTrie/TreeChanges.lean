import CuckooTrie.Drafts

/-!
# New trees

The trees an insert publishes: a bitmap with one more leaf, a leaf replaced by a
path to a bitmap with two leaves, a jump node that became a bitmap with a shorter
jump before and behind it.  Each grows below the node that is replaced (`Grown`),
and replacing it gives a trie for the new map (`Shape.publish`).
-/

namespace CuckooTrie

namespace Layout

variable {L : Layout} {M M' : KeyMap} {T : List ℕ → Option Node} {p q : List ℕ} {n m : Node}
  {lnk : Locator} {kv : CtKv}

/-- In a tree, one node leads to a position. -/
inductive Leads (T : List ℕ → Option Node) : List ℕ → List ℕ → Prop
  | bitmap {q children s} : T q = some (.bitmap children) → children.testBit s = true →
      Leads T q (q ++ [s])
  | jump {q symbols} : T q = some (.jump symbols) → Leads T q (q ++ symbols)

theorem Leads.congr {T' : List ℕ → Option Node} (leads : Leads T q p) (same : T' q = T q) :
    Leads T' q p := by
  cases leads with
  | bitmap hq bit => exact .bitmap (same.trans hq) bit
  | jump hq => exact .jump (same.trans hq)

theorem Leads.isPrefix (leads : Leads T q p) : q <+: p := by
  cases leads with
  | bitmap => exact List.prefix_append _ _
  | jump => exact List.prefix_append _ _

/-- What a node of a trie for a map is like. -/
structure Node.Fits (n : Node) (M : KeyMap) (p : List ℕ) : Prop where
  bitmap : ∀ children, n = .bitmap children → children ≠ 0 ∧ children < 2 ^ 33
  jump : ∀ symbols, n = .jump symbols →
    symbols ≠ [] ∧ symbols.length ≤ maxJumpSymbols ∧ ∀ s ∈ symbols, 1 ≤ s ∧ s ≤ fanout
  leaf : ∀ kv, n = .leaf kv → kv ∈ M ∧ p <+: keySymbols kv.key
  live : n.isInner = true → ∃ kv ∈ M, KeyMap.Below p kv

/-- New nodes hang together below the positions `X`, and end in leaves or in nodes of
the old tree `N`. -/
structure Grown (N T : List ℕ → Option Node) (M : KeyMap) (X : List ℕ → Prop) : Prop where
  below : ∀ r, T r ≠ none → ∃ x, X x ∧ x <+: r
  parents : ∀ r, T r ≠ none → X r ∨ ∃ z, Leads T z r
  fits : ∀ r y, T r = some y → Node.Fits y M r
  kids : ∀ r c, Leads T r c → T c ≠ none ∨ N c ≠ none
  jump_kids : ∀ r symbols, T r = some (.jump symbols) →
    ∀ y, (T (r ++ symbols)).or (N (r ++ symbols)) = some y → y.isInner = true

namespace Grown

variable {N : List ℕ → Option Node} {X : List ℕ → Prop} {children : ℕ} {symbols : List ℕ}

theorem nothing : Grown N (fun _ => none) M fun _ => False where
  below _ h := absurd rfl h
  parents _ h := absurd rfl h
  fits _ _ h := by cases h
  kids _ _ h := by cases h <;> contradiction
  jump_kids _ _ h := by cases h

theorem leaf (grown : Grown N T M X) (free : T p = none) (apart : ∀ x, X x → ¬ x <+: p)
    (mem : kv ∈ M) (onPath : p <+: keySymbols kv.key) :
    Grown N (Function.update T p (some (.leaf kv))) M fun x => X x ∨ x = p := by
  have off : ∀ {r}, r ≠ p → Function.update T p (some (.leaf kv)) r = T r := fun ne =>
    Function.update_of_ne ne _ _
  have at_ : Function.update T p (some (.leaf kv)) p = some (.leaf kv) := Function.update_self _ _ _
  have keep : ∀ {z c}, Leads T z c → Leads (Function.update T p (some (.leaf kv))) z c := by
    intro z c leads
    refine leads.congr (off ?_)
    rintro rfl
    cases leads <;> rename_i h <;> simp [free] at *
  have back : ∀ {z c}, Leads (Function.update T p (some (.leaf kv))) z c → z ≠ p ∧ Leads T z c := by
    intro z c leads
    have ne : z ≠ p := by
      rintro rfl
      cases leads <;> simp at *
    exact ⟨ne, leads.congr (off ne).symm⟩
  constructor
  · intro r hr
    by_cases same : r = p
    · exact ⟨p, Or.inr rfl, same ▸ List.prefix_rfl⟩
    · rw [off same] at hr
      obtain ⟨x, hx, below⟩ := grown.below r hr
      exact ⟨x, Or.inl hx, below⟩
  · intro r hr
    by_cases same : r = p
    · exact Or.inl (Or.inr same)
    · rw [off same] at hr
      exact (grown.parents r hr).imp Or.inl fun ⟨z, leads⟩ => ⟨z, keep leads⟩
  · intro r y hr
    by_cases same : r = p
    · subst same
      rw [at_] at hr
      cases hr
      exact ⟨nofun, nofun, fun kv' h => by cases h; exact ⟨mem, onPath⟩, nofun⟩
    · rw [off same] at hr
      exact grown.fits r y hr
  · intro r c leads
    obtain ⟨-, leads⟩ := back leads
    by_cases same : c = p
    · exact Or.inl (by rw [same, at_]; exact Option.some_ne_none _)
    · rw [off same]
      exact grown.kids r c leads
  · intro r symbols hr y hy
    have ne : r ≠ p := by
      rintro rfl
      rw [at_] at hr
      cases hr
    rw [off ne] at hr
    have away : r ++ symbols ≠ p := by
      intro same
      obtain ⟨x, hx, below⟩ := grown.below r (by rw [hr]; exact Option.some_ne_none _)
      exact apart x hx (below.trans (same ▸ List.prefix_append _ _))
    rw [off away] at hy
    exact grown.jump_kids r symbols hr y hy

/-- Put an inner node on top of all grown trees. -/
theorem inner (grown : Grown N T M X) (free : T p = none)
    (strict : ∀ x, X x → Leads (Function.update T p (some n)) p x ∧ p.length < x.length)
    (fits : Node.Fits n M p)
    (kids : ∀ c, Leads (Function.update T p (some n)) p c → c ≠ p ∧ (T c ≠ none ∨ N c ≠ none))
    (jump_kids : ∀ symbols, n = .jump symbols →
      ∀ y, (T (p ++ symbols)).or (N (p ++ symbols)) = some y → y.isInner = true) :
    Grown N (Function.update T p (some n)) M fun x => x = p := by
  have off : ∀ {r}, r ≠ p → Function.update T p (some n) r = T r := fun ne =>
    Function.update_of_ne ne _ _
  have at_ : Function.update T p (some n) p = some n := Function.update_self _ _ _
  have longer : ∀ {r}, T r ≠ none → p.length < r.length := by
    intro r hr
    obtain ⟨x, hx, below⟩ := grown.below r hr
    exact lt_of_lt_of_le (strict x hx).2 below.length_le
  have keep : ∀ {z c}, Leads T z c → Leads (Function.update T p (some n)) z c := by
    intro z c leads
    refine leads.congr (off ?_)
    rintro rfl
    cases leads <;> rename_i h <;> simp [free] at *
  constructor
  · intro r hr
    by_cases same : r = p
    · exact ⟨p, rfl, same ▸ List.prefix_rfl⟩
    · rw [off same] at hr
      obtain ⟨x, hx, below⟩ := grown.below r hr
      exact ⟨p, rfl, (strict x hx).1.isPrefix.trans below⟩
  · intro r hr
    by_cases same : r = p
    · exact Or.inl same
    · rw [off same] at hr
      rcases grown.parents r hr with top | ⟨z, leads⟩
      · exact Or.inr ⟨p, (strict r top).1⟩
      · exact Or.inr ⟨z, keep leads⟩
  · intro r y hr
    by_cases same : r = p
    · subst same
      rw [at_] at hr
      cases hr
      exact fits
    · rw [off same] at hr
      exact grown.fits r y hr
  · intro r c leads
    by_cases same : r = p
    · subst same
      obtain ⟨ne, some_⟩ := kids c leads
      rw [off ne]
      exact some_
    · have leads' : Leads T r c := leads.congr (off same).symm
      by_cases here : c = p
      · exact Or.inl (by rw [here, at_]; exact Option.some_ne_none n)
      · rw [off here]
        exact grown.kids r c leads'
  · intro r symbols hr y hy
    by_cases same : r = p
    · subst same
      rw [at_] at hr
      cases hr
      have ne := (kids _ (.jump at_)).1
      rw [off ne] at hy
      exact jump_kids symbols rfl y hy
    · rw [off same] at hr
      have far := longer (r := r) (by rw [hr]; exact Option.some_ne_none _)
      have away : r ++ symbols ≠ p := by
        rintro rfl
        rw [List.length_append] at far
        omega
      rw [off away] at hy
      exact grown.jump_kids r symbols hr y hy

/-- Put a bitmap on top. -/
theorem onBitmap (grown : Grown N T M X) (free : T p = none) (hne : children ≠ 0)
    (small : children < 2 ^ 33) (live : ∃ kv ∈ M, KeyMap.Below p kv)
    (tops : ∀ x, X x → ∃ s, children.testBit s = true ∧ x = p ++ [s])
    (kids : ∀ s, children.testBit s = true → T (p ++ [s]) ≠ none ∨ N (p ++ [s]) ≠ none) :
    Grown N (Function.update T p (some (.bitmap children))) M fun x => x = p := by
  have at_ : Function.update T p (some (.bitmap children)) p = some (.bitmap children) :=
    Function.update_self _ _ _
  refine grown.inner free ?_ ⟨?_, nofun, nofun, fun _ => live⟩ ?_ nofun
  · intro x hx
    obtain ⟨s, bit, rfl⟩ := tops x hx
    exact ⟨.bitmap at_ bit, by simp⟩
  · rintro _ ⟨⟩
    exact ⟨hne, small⟩
  · intro c leads
    cases leads with
    | bitmap h bit =>
      rw [at_] at h
      cases h
      exact ⟨by simp, kids _ bit⟩
    | jump h =>
      rw [at_] at h
      cases h

/-- Put a jump node on top. -/
theorem onJump (grown : Grown N T M X) (free : T p = none) (hne : symbols ≠ [])
    (short : symbols.length ≤ maxJumpSymbols) (range : ∀ s ∈ symbols, 1 ≤ s ∧ s ≤ fanout)
    (live : ∃ kv ∈ M, KeyMap.Below p kv) (tops : ∀ x, X x → x = p ++ symbols)
    (kid : T (p ++ symbols) ≠ none ∨ N (p ++ symbols) ≠ none)
    (inner : ∀ y, (T (p ++ symbols)).or (N (p ++ symbols)) = some y → y.isInner = true) :
    Grown N (Function.update T p (some (.jump symbols))) M fun x => x = p := by
  have at_ : Function.update T p (some (.jump symbols)) p = some (.jump symbols) :=
    Function.update_self _ _ _
  have positive := List.length_pos_iff.mpr hne
  refine grown.inner free ?_ ⟨nofun, ?_, nofun, fun _ => live⟩ ?_ ?_
  · intro x hx
    rw [tops x hx]
    exact ⟨.jump at_, by simpa using positive⟩
  · rintro _ ⟨⟩
    exact ⟨hne, short, range⟩
  · intro c leads
    cases leads with
    | bitmap h bit =>
      rw [at_] at h
      cases h
    | jump h =>
      rw [at_] at h
      cases h
      exact ⟨by simpa using hne, kid⟩
  · rintro _ ⟨⟩
    exact inner

end Grown

/-- **Replacing a node by a grown tree.** -/
theorem Shape.publish (shape : L.Shape M) (hp : L.node p = some m)
    (grown : Grown L.node (Function.update L.draft p (some n)) M' fun x => x = p)
    (disjoint : ∀ r, L.draft r ≠ none → L.node r = none) (mono : ∀ kv ∈ M, kv ∈ M')
    (inner : m.isInner = true → n.isInner = true)
    (orphans : ∀ c, L.Child p c → ∃ z, Leads (Function.update L.draft p (some n)) z c)
    (key : ∀ kv ∈ M', (∃ r, r ≠ p ∧ L.node r = some (.leaf kv)) ∨
      ∃ r, Function.update L.draft p (some n) r = some (.leaf kv)) :
    (L.publish p n lnk).Shape M' := by
  generalize hT : Function.update L.draft p (some n) = T at *
  have atP : T p = some n := by rw [← hT]; exact Function.update_self _ _ _
  have offP : ∀ {r}, r ≠ p → T r = L.draft r := fun ne => by
    rw [← hT]
    exact Function.update_of_ne ne _ _
  -- the new nodes, and the old ones but `p`
  have new : ∀ {r y}, T r = some y → (L.publish p n lnk).node r = some y := by
    intro r y hr
    by_cases same : r = p
    · subst same
      rw [atP] at hr
      simp only [Layout.publish, if_true]
      exact hr
    · rw [offP same] at hr
      simp only [Layout.publish, if_neg same, all]
      rw [disjoint r (by rw [hr]; exact Option.some_ne_none y), hr]
      rfl
  have old : ∀ {r y}, r ≠ p → L.node r = some y → (L.publish p n lnk).node r = some y := by
    intro r y ne hr
    simp only [Layout.publish, if_neg ne, all_of_node hr]
  have split : ∀ {r y}, (L.publish p n lnk).node r = some y →
      T r = some y ∨ r ≠ p ∧ L.node r = some y := by
    intro r y hr
    by_cases same : r = p
    · subst same
      simp only [Layout.publish, if_true] at hr
      exact Or.inl (atP.trans hr)
    · simp only [Layout.publish, if_neg same, all] at hr
      cases hr' : L.node r with
      | none =>
        rw [hr', Option.none_or] at hr
        exact Or.inl ((offP same).trans hr)
      | some y' =>
        rw [hr', Option.some_or] at hr
        exact Or.inr ⟨same, hr⟩
  have leadsNew : ∀ {z c}, Leads T z c → (L.publish p n lnk).Child z c := by
    intro z c leads
    cases leads with
    | bitmap hz bit => exact .bitmap (new hz) bit
    | jump hz => exact .jump (new hz)
  have childOld : ∀ {z c}, z ≠ p → L.Child z c → (L.publish p n lnk).Child z c := by
    intro z c ne child
    cases child with
    | bitmap hz bit => exact .bitmap (old ne hz) bit
    | jump hz => exact .jump (old ne hz)
  have childSplit : ∀ {z c}, (L.publish p n lnk).Child z c → Leads T z c ∨ z ≠ p ∧ L.Child z c := by
    intro z c child
    cases child with
    | bitmap hz bit =>
      exact (split hz).imp (fun h => .bitmap h bit) fun h => ⟨h.1, .bitmap h.2 bit⟩
    | jump hz => exact (split hz).imp (fun h => .jump h) fun h => ⟨h.1, .jump h.2⟩
  -- the parent of an old node still leads to it, or a new one does
  have parentOld : ∀ {r y}, L.node r = some y →
      r = [] ∨ ∃ z, (L.publish p n lnk).Child z r := by
    intro r y hr
    refine (shape.parent r y hr).imp_right ?_
    rintro ⟨z, child⟩
    by_cases same : z = p
    · subst same
      obtain ⟨z', leads⟩ := orphans r child
      exact ⟨z', leadsNew leads⟩
    · exact ⟨z, childOld same child⟩
  have exists_ : ∀ {r}, L.node r ≠ none → (L.publish p n lnk).node r ≠ none := by
    intro r some_
    obtain ⟨y, hr⟩ := Option.ne_none_iff_exists'.mp some_
    by_cases same : r = p
    · rw [same, new atP]
      exact Option.some_ne_none n
    · rw [old same hr]
      exact Option.some_ne_none y
  constructor
  · intro r y hr
    rcases split hr with hr | ⟨-, hr⟩
    · rcases grown.parents r (by rw [hr]; exact Option.some_ne_none y) with rfl | ⟨z, leads⟩
      · exact parentOld hp
      · exact Or.inr ⟨z, leadsNew leads⟩
    · exact parentOld hr
  · intro z c child
    rcases childSplit child with leads | ⟨-, child⟩
    · rcases grown.kids z c leads with some_ | some_
      · obtain ⟨y, hc⟩ := Option.ne_none_iff_exists'.mp some_
        rw [new hc]
        exact Option.some_ne_none y
      · exact exists_ some_
    · exact exists_ (shape.child z c child)
  · intro r children hr
    rcases split hr with hr | ⟨-, hr⟩
    · exact (grown.fits r _ hr).bitmap children rfl
    · exact shape.bitmap r children hr
  · intro r symbols hr
    rcases split hr with hr | ⟨-, hr⟩
    · exact (grown.fits r _ hr).jump symbols rfl
    · exact shape.jump r symbols hr
  · intro r symbols y hr hy
    rcases split hr with hr | ⟨-, hr⟩
    · refine grown.jump_kids r symbols hr y ?_
      rcases split hy with hy | ⟨ne, hy⟩
      · rw [hy]
        rfl
      · rw [offP ne]
        cases hd : L.draft (r ++ symbols) with
        | none => exact hy
        | some y' =>
          rw [disjoint _ (by rw [hd]; exact Option.some_ne_none y')] at hy
          cases hy
    · rcases split hy with hy | ⟨-, hy⟩
      · by_cases same : r ++ symbols = p
        · rw [same, atP] at hy
          cases hy
          exact inner (shape.jump_child r symbols m hr (by rw [same]; exact hp))
        · -- an old jump node does not lead to a new node
          rw [offP same] at hy
          have gone := disjoint _ (by rw [hy]; exact Option.some_ne_none y)
          exact absurd gone (shape.child _ _ (.jump hr))
      · exact shape.jump_child r symbols y hr hy
  · intro r kv hr
    rcases split hr with hr | ⟨ne, hr⟩
    · exact (grown.fits r _ hr).leaf kv rfl
    · obtain ⟨mem, below⟩ := shape.leaf r kv hr
      exact ⟨mono kv mem, below⟩
  · intro kv mem
    rcases key kv mem with ⟨r, ne, hr⟩ | ⟨r, hr⟩
    · exact ⟨r, old ne hr⟩
    · exact ⟨r, new hr⟩
  · intro r y hr isInner
    rcases split hr with hr | ⟨ne, hr⟩
    · exact (grown.fits r y hr).live isInner
    · obtain ⟨kv, mem, below⟩ := shape.live r y hr isInner
      exact ⟨kv, mono kv mem, below⟩

end Layout

end CuckooTrie
