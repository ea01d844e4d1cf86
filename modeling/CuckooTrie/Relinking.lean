import CuckooTrie.CarriedSteps

/-!
# The links of a changed trie

An insert changes the list of leaves at one place, the leaf before the new one or the list head
(`Layout.relink`), and the greatest leaves on the path upward from the node it replaced.  The
loop `propagate_max_leaf` stops at the first bitmap in which the path does not lead to the
greatest child; then all greatest leaves are right (`Sys.Carries.propagateMaxLeaf`).
-/

namespace CuckooTrie

open Sys

variable {g : Geometry} {maps : Set KeyMap} {base : ℕ → ℕ} {s s' : Sys g} {t : Trie g}
  {L L' K : Layout} {M M' : KeyMap} {S : Store} {p q r x : List ℕ} {n m : Node} {lc : LocalCopy}
  {lnk : Locator} {d : Bool} {kv : CtKv}

/-! ## Places in the list of leaves -/

/-- A place in the list of leaves: a leaf with its object, or the list head. -/
abbrev ListPlace := Option (List ℕ × CtKv)

namespace Layout

theorem slot_ne_head : L.slot g p ≠ .head := by simp [slot]

/-- The slot of a place in the list. -/
def listSlot (L : Layout) (g : Geometry) : ListPlace → Slot
  | none => .head
  | some (p, _) => L.slot g p

/-- The entry at a place in the list. -/
def listEntry (L : Layout) (g : Geometry) : ListPlace → Entry
  | none => headEntry L.first L.firstDirty
  | some (p, kv) => L.entry g p (.leaf kv)

/-- The link at a place in the list. -/
def listLink (L : Layout) : ListPlace → Locator
  | none => L.first
  | some (p, _) => L.link p

/-- Change the link and the dirty flag at a place in the list. -/
def relink (L : Layout) (lnk : Locator) (d : Bool) : ListPlace → Layout
  | none => L.setFirst lnk d
  | some (p, _) => L.amend p (L.parent p) lnk d

/-- A place in the list with its object in the trie. -/
def Lists (L : Layout) (place : ListPlace) : Prop :=
  ∀ p kv, place = some (p, kv) → L.node p = some (.leaf kv)

variable {place : ListPlace}

theorem listEntry_relink :
    (L.relink lnk d place).listEntry g place =
      { L.listEntry g place with
        dirty := d, body := (L.listEntry g place).body.setNextLeaf lnk } := by
  cases place with
  | none => rfl
  | some x => exact entry_amend

theorem Becomes.relink (lists : L.Lists place) :
    L.Becomes g M (L.listSlot g place) ((L.relink lnk d place).listEntry g place)
      (L.relink lnk d place) M := by
  cases place with
  | none => exact .setFirst
  | some x => exact .amend_same _ _ (all_of_node (lists x.1 x.2 rfl))

@[simp] theorem node_relink : (L.relink lnk d place).node = L.node := by cases place <;> rfl

@[simp] theorem draft_relink : (L.relink lnk d place).draft = L.draft := by cases place <;> rfl

@[simp] theorem color_relink : (L.relink lnk d place).color = L.color := by cases place <;> rfl

@[simp] theorem parent_relink : (L.relink lnk d place).parent = L.parent := by
  cases place with
  | none => rfl
  | some x => exact amend_parent_self

theorem all_relink : (L.relink lnk d place).all = L.all := by
  funext r
  rw [all, all, node_relink, draft_relink]

theorem listSlot_relink : (L.relink lnk d place).listSlot g place = L.listSlot g place := by
  cases place <;> rfl

/-- Only a leaf is changed, so the nodes above any position stay. -/
theorem Keeps.relink (lists : L.Lists place) : Keeps q L (L.relink lnk d place) := by
  cases place with
  | none => exact .setFirst
  | some x =>
    refine .amend fun n hn inner => ?_
    rw [lists x.1 x.2 rfl] at hn
    cases hn
    cases inner

/-- The links of the nodes but the one at the place. -/
theorem link_relink_of_ne (ne : ∀ kv, place ≠ some (r, kv)) :
    (L.relink lnk d place).link r = L.link r := by
  cases place with
  | none => rfl
  | some x => exact Function.update_of_ne (fun same => ne x.2 (by rw [same])) _ _

theorem dirty_relink_of_ne (ne : ∀ kv, place ≠ some (r, kv)) :
    (L.relink lnk d place).dirty r = L.dirty r := by
  cases place with
  | none => rfl
  | some x => exact Function.update_of_ne (fun same => ne x.2 (by rw [same])) _ _

theorem Lists.relink (lists : L.Lists place) : (L.relink lnk d place).Lists place := by
  unfold Lists
  rw [node_relink]
  exact lists

end Layout

/-- A copy of the entry at a place in the list. -/
structure LocalCopy.InList (lc : LocalCopy) (base : ℕ → ℕ) (t : Trie g) (L : Layout)
    (place : ListPlace) : Prop where
  tracked : lc.Tracked base t (L.listSlot g place)
  shows : lc.value.content = L.listEntry g place

theorem LocalCopy.InList.body {place : ListPlace} (copy : lc.InList base t L place) :
    lc.value.body = (L.listEntry g place).body := by
  rw [← copy.shows]
  rfl

/-- **Changing a place in the list** through a copy of it. -/
theorem Sys.Carries.relink {place : ListPlace} {v : Entry} (carries : s.Carries maps base L M)
    (window : s.Windowed base) (copy : lc.InList base s.trie L place) (lists : L.Lists place)
    (value : v = { lc.value with dirty := d, body := lc.value.body.setNextLeaf lnk }) :
    (CuckooTrie.updateEntry lc v).Returns s fun lc' s' =>
      s'.Carries maps base (L.relink lnk d place) M ∧ Tracks base {.head} s s' ∧
        lc'.InList base s'.trie (L.relink lnk d place) place := by
  have content : v.content = (L.relink lnk d place).listEntry g place := by
    rw [Layout.listEntry_relink, ← copy.shows, value]
    rfl
  have used : v.body.used = true := by
    rw [value, copy.body]
    cases place with
    | none => rfl
    | some x => rfl
  have becomes : L.Becomes g M (L.listSlot g place) ((L.relink lnk d place).listEntry g place)
      (L.relink lnk d place) M := .relink lists
  rw [← content] at becomes
  refine (carries.updateEntry window copy.tracked (fun S rep => ?_) (by rw [value]) (by rw [value])
    (by rw [value]) used becomes carries.mem).weaken
    fun lc' s' _ post => ?_
  · cases place with
    | none => exact Option.some_ne_none _
    | some x => exact rep.get_slot (Layout.all_of_node (lists x.1 x.2 rfl))
  obtain ⟨carries', tracks, tracked, content'⟩ := post
  refine ⟨carries', ?_, ?_, ?_⟩
  · exact tracks.mono fun sl mem => mem.1
  · rw [Layout.listSlot_relink]
    exact tracked
  · exact content'.trans content

/-- **`mark_entry_dirty`** and **`mark_entry_clean`** at a place in the list. -/
theorem Sys.Carries.mark {place : ListPlace} (carries : s.Carries maps base L M)
    (window : s.Windowed base) (copy : lc.InList base s.trie L place) (lists : L.Lists place)
    (d : Bool) :
    (CuckooTrie.updateEntry lc { lc.value with dirty := d }).Returns s fun lc' s' =>
      s'.Carries maps base (L.relink (L.listLink place) d place) M ∧ Tracks base {.head} s s' ∧
        lc'.InList base s'.trie (L.relink (L.listLink place) d place) place := by
  refine carries.relink window copy lists ?_
  have same : lc.value.body.setNextLeaf (L.listLink place) = lc.value.body := by
    rw [copy.body]
    cases place with
    | none => rfl
    | some x => rfl
  rw [same]

/-! ## Right links -/

namespace Layout

/-- The list of leaves is right. -/
structure Listed (L : Layout) (g : Geometry) (M : KeyMap) : Prop where
  next : ∀ p kv, L.node p = some (.leaf kv) → L.PointsTo g (L.link p) (M.after kv.key)
  first : L.PointsTo g L.first (M.first fun _ => True)

/-- All greatest leaves are right. -/
def Topped (L : Layout) (g : Geometry) (M : KeyMap) : Prop :=
  ∀ q n, L.node q = some n → n.isInner = true →
    L.PointsTo g (L.link q) (M.last (KeyMap.Below q))

/-- The greatest leaves are right but for some nodes strictly above a position: those whose
greatest leaf is below the position. -/
structure ToppedUpTo (L : Layout) (g : Geometry) (M : KeyMap) (x : List ℕ) : Prop where
  here : ∀ q n, L.node q = some n → n.isInner = true → (q <+: x → q = x) →
    L.PointsTo g (L.link q) (M.last (KeyMap.Below q))
  above : ∀ q n kv, L.node q = some n → n.isInner = true → q <+: x → q ≠ x →
    M.last (KeyMap.Below q) = some kv → ¬ KeyMap.Below x kv → L.PointsTo g (L.link q) (some kv)

/-- The same layout, but for the greatest leaves of inner nodes. -/
structure Retopped (L L' : Layout) : Prop where
  node : L'.node = L.node
  draft : L'.draft = L.draft
  color : L'.color = L.color
  parent : L'.parent = L.parent
  dirty : L'.dirty = L.dirty
  first : L'.first = L.first
  firstDirty : L'.firstDirty = L.firstDirty
  link : ∀ p kv, L.node p = some (.leaf kv) → L'.link p = L.link p

theorem Retopped.refl (L : Layout) : Retopped L L :=
  ⟨rfl, rfl, rfl, rfl, rfl, rfl, rfl, fun _ _ _ => rfl⟩

theorem Retopped.trans (h : Retopped L L') (h' : Retopped L' K) : Retopped L K where
  node := h'.node.trans h.node
  draft := h'.draft.trans h.draft
  color := h'.color.trans h.color
  parent := h'.parent.trans h.parent
  dirty := h'.dirty.trans h.dirty
  first := h'.first.trans h.first
  firstDirty := h'.firstDirty.trans h.firstDirty
  link p kv hp := (h'.link p kv (by rw [h.node]; exact hp)).trans (h.link p kv hp)

theorem PointsTo.congr {loc : Locator} {okv : Option CtKv} (points : L.PointsTo g loc okv)
    (node : L'.node = L.node) (color : L'.color = L.color) : L'.PointsTo g loc okv := by
  cases okv with
  | none => exact points
  | some kv =>
    obtain ⟨p, hp, same⟩ := points
    exact ⟨p, by rw [node]; exact hp, by rw [same, locator, locator, color]⟩

theorem Retopped.listed (h : Retopped L L') (listed : L.Listed g M) : L'.Listed g M where
  next p kv hp := by
    rw [h.node] at hp
    rw [h.link p kv hp]
    exact (listed.next p kv hp).congr h.node h.color
  first := by
    rw [h.first]
    exact listed.first.congr h.node h.color

/-- A new greatest leaf of an inner node. -/
theorem Retopped.amend (hq : L.node q = some n) (inner : n.isInner = true) :
    Retopped L (L.amend q (L.parent q) lnk (L.dirty q)) where
  node := rfl
  draft := rfl
  color := rfl
  parent := amend_parent_self
  dirty := Function.update_eq_self _ _
  first := rfl
  firstDirty := rfl
  link p kv hp := by
    refine Function.update_of_ne ?_ _ _
    rintro rfl
    rw [hq] at hp
    cases hp
    cases inner

/-! ### Going up -/

/-- **Where the climb stops**: below a bitmap with a greater child there is no greatest leaf
of a node above it. -/
theorem ToppedUpTo.stop {children symbol c : ℕ} (upTo : L.ToppedUpTo g M (q ++ [symbol]))
    (shape : L.Shape M) (hq : L.node q = some (.bitmap children)) (bit : children.testBit c = true)
    (greater : symbol < c) : L.Topped g M := by
  intro r m hr inner
  by_cases above : r <+: q ++ [symbol] ∧ r ≠ q ++ [symbol]
  · obtain ⟨kv, last⟩ := shape.exists_last hr
    rw [last]
    refine upTo.above r m kv hr inner above.1 above.2 last fun below => ?_
    -- an object below the greater child comes after it
    obtain ⟨y, hy⟩ := Option.ne_none_iff_exists'.mp (shape.child _ _ (.bitmap hq bit))
    obtain ⟨kv', mem', below'⟩ := shape.exists_below hy
    have toQ : r <+: q := (List.prefix_concat_iff.mp above.1).resolve_left above.2
    have le := (KeyMap.last_eq_some_iff.mp last).2.2 kv' mem'
      (toQ.trans ((List.prefix_append _ _).trans below'))
    exact absurd le (not_le.mpr (keySymbols_lt_iff.mp (PrefixOrder.lt_of_concat greater below below')))
  · exact upTo.here r m hr inner fun ext => not_not.mp fun ne => above ⟨ext, ne⟩

/-- The greatest object below a node is the greatest one below the child that leads to it. -/
theorem Shape.last_child (shape : L.Shape M) (child : L.Child q x)
    (max : ∀ children symbol, L.node q = some (.bitmap children) → x = q ++ [symbol] →
      Nat.log2 children ≤ symbol) :
    M.last (KeyMap.Below q) = M.last (KeyMap.Below x) := by
  obtain ⟨y, hy⟩ := Option.ne_none_iff_exists'.mp (shape.child _ _ child)
  obtain ⟨kv, last⟩ := shape.exists_last hy
  obtain ⟨mem, below, greatest⟩ := KeyMap.last_eq_some_iff.mp last
  rw [last]
  refine KeyMap.last_eq_some_iff.mpr ⟨mem, child.isPrefix.trans below, fun kv' mem' below' => ?_⟩
  cases child with
  | jump hq => exact greatest kv' mem' (shape.jump_below hq mem' below')
  | @bitmap children symbol hq bit =>
    obtain ⟨c, bit', below'⟩ := shape.bitmap_below hq mem' below'
    have le : c ≤ symbol := (le_log2_of_testBit bit').trans (max children symbol hq rfl)
    rcases le.lt_or_eq with lt | rfl
    · exact (keySymbols_lt_iff.mp (PrefixOrder.lt_of_concat lt below' below)).le
    · exact greatest kv' mem' below'

/-- **One step of the climb**: the greatest leaf of a child becomes that of its parent. -/
theorem ToppedUpTo.step (upTo : L.ToppedUpTo g M x) (shape : L.Shape M) (child : L.Child q x)
    (hq : L.node q = some n) (hx : L.node x = some m) (inner : m.isInner = true)
    (same : M.last (KeyMap.Below q) = M.last (KeyMap.Below x)) :
    (L.amend q (L.parent q) (L.link x) (L.dirty q)).ToppedUpTo g M q where
  here r y hr isInner strict := by
    refine PointsTo.congr (L := L) ?_ rfl rfl
    by_cases here : r = q
    · subst here
      rw [same, show (L.amend r (L.parent r) (L.link x) (L.dirty r)).link r = L.link x from
        Function.update_self _ _ _]
      exact upTo.here x m hx inner fun _ => rfl
    · rw [show (L.amend q (L.parent q) (L.link x) (L.dirty q)).link r = L.link r from
        Function.update_of_ne here _ _]
      refine upTo.here r y hr isInner fun ext => ?_
      -- no node lies between the parent and the child
      rcases PrefixOrder.comparable ext child.isPrefix with up | down
      · exact absurd (strict up) here
      · obtain ⟨z, child', below⟩ := shape.exists_child hq hr down (Ne.symm here)
        have whole := Shape.child_unique child' child (below.trans ext)
        exact ext.eq_of_length (le_antisymm ext.length_le (whole ▸ below.length_le))
  above r y kv hr isInner up ne last notBelow := by
    rw [show (L.amend q (L.parent q) (L.link x) (L.dirty q)).link r = L.link r from
      Function.update_of_ne ne _ _]
    refine PointsTo.congr (L := L) ?_ rfl rfl
    refine upTo.above r y kv hr isInner (up.trans child.isPrefix) ?_ last fun below =>
      notBelow (child.isPrefix.trans below)
    rintro rfl
    exact absurd up.length_le (not_le.mpr (shape.child_length child))

/-- Above the root there is nothing to be wrong. -/
theorem ToppedUpTo.root (upTo : L.ToppedUpTo g M []) : L.Topped g M := fun r m hr inner =>
  upTo.here r m hr inner fun ext => List.prefix_nil.mp ext

end Layout

/-- Copies of the nodes above a node. -/
def TrailAbove (base : ℕ → ℕ) (t : Trie g) (L : Layout) (x : List ℕ) (above : List PathEntry) :
    Prop :=
  x = [] ∧ above = [] ∨ ∃ q, L.Child q x ∧ Trail base t L q above

theorem Trail.tail {e : PathEntry} {above : List PathEntry}
    (trail : Trail base t L x (e :: above)) : TrailAbove base t L x above := by
  cases trail with
  | root => exact Or.inl ⟨rfl, rfl⟩
  | child trail child => exact Or.inr ⟨_, child, trail⟩

/-- With a copy of the node itself it is a path again. -/
theorem TrailAbove.trail {e : PathEntry} {above : List PathEntry}
    (trail : TrailAbove base t L x above) (hx : L.node x = some n) (inner : n.isInner = true)
    (mirrors : e.entry.Mirrors base t L x n) (hash : e.prefixHash = g.prefixHash x) :
    Trail base t L x (e :: above) := by
  rcases trail with ⟨rfl, rfl⟩ | ⟨q, child, trail⟩
  · exact .root hx inner mirrors hash
  · exact .child trail child hx inner mirrors hash

/-- The copies above a node stay good as long as the nodes there stay. -/
theorem TrailAbove.keeps {above : List PathEntry} (trail : TrailAbove base s.trie L x above)
    (shape : L.Shape M) (stays : ∀ q, L.Child q x → L.Keeps q L')
    (tracks : Tracks base {.head} s s') : TrailAbove base s'.trie L' x above := by
  rcases trail with root | ⟨q, child, trail⟩
  · exact Or.inl root
  · have keeps := stays q child
    refine Or.inr ⟨q, ?_, trail.keeps shape keeps tracks⟩
    cases child with
    | bitmap hq bit => exact .bitmap (keeps.inner _ _ List.prefix_rfl hq rfl).1 bit
    | jump hq => exact .jump (keeps.inner _ _ List.prefix_rfl hq rfl).1

/-- Replacing the node itself. -/
theorem TrailAbove.publish {above : List PathEntry} (trail : TrailAbove base s.trie L x above)
    (shape : L.Shape M) (tracks : Tracks base ∅ s s') :
    TrailAbove base s'.trie (L.publish x n lnk) x above :=
  trail.keeps shape (fun _ child => .publish fun ext =>
    absurd ext.length_le (not_le.mpr (shape.child_length child))) (tracks.mono (Set.empty_subset _))

/-- The entry of a node with another link is that of the amended node. -/
theorem Layout.content_setNextLeaf {e : Entry} (shown : e.content = L.entry g p n)
    (lnk : Locator) : ({ e with body := e.body.setNextLeaf lnk } : Entry).content =
      (L.amend p (L.parent p) lnk (L.dirty p)).entry g p n := by
  rw [Layout.entry_amend]
  exact congrArg (fun e : Entry => { e with body := e.body.setNextLeaf lnk }) shown

/-- **`propagate_max_leaf`** sets all greatest leaves right, if they are right but for some on
the way up. -/
theorem Sys.Carries.propagateMaxLeaf {child : LocalCopy} {above : List PathEntry}
    (carries : s.Carries maps base L M) (trail : TrailAbove base s.trie L x above)
    (hx : L.node x = some m) (inner : m.isInner = true)
    (symbol : child.value.lastSymbol = x.getLastD 0) (link : child.value.body.maxLeaf = L.link x)
    (upTo : L.ToppedUpTo g M x) :
    Regularly base (CuckooTrie.propagateMaxLeaf child above) s fun _ s' =>
      ∃ K, L.Retopped K ∧ K.Topped g M ∧ s'.Carries maps base K M ∧ Tracks base ∅ s s' := by
  induction above generalizing s L x m child with
  | nil =>
    rcases trail with ⟨rfl, -⟩ | ⟨q, -, trail⟩
    · exact .pure ⟨L, .refl L, upTo.root, carries, .refl s⟩
    · cases trail
  | cons parent above ih =>
    obtain ⟨-, empty⟩ | ⟨q, leads, trail⟩ := trail
    · cases empty
    obtain ⟨e, rest, n, same, hq, isInner, mirrors, -⟩ := trail.head
    cases same
    have shape := carries.shape
    have body : parent.entry.value.body = L.body q n := mirrors.shows.body
    rw [CuckooTrie.propagateMaxLeaf]
    refine .ite (fun stops => ?_) fun goes => ?_
    · -- coming from a child that is not the greatest one
      rw [Bool.and_eq_true, decide_eq_true_eq, body, symbol] at stops
      obtain ⟨isBitmap, less⟩ := stops
      cases leads with
      | jump hq' =>
        rw [hq] at hq'
        cases hq'
        cases isBitmap
      | bitmap hq' bit =>
        rw [hq] at hq'
        cases hq'
        rw [List.getLastD_concat] at less
        refine .pure ⟨L, .refl L, upTo.stop shape hq ?_ less, carries, .refl s⟩
        exact Nat.testBit_log2 (shape.bitmap q _ hq).1
    · have last : M.last (KeyMap.Below q) = M.last (KeyMap.Below x) := by
        refine shape.last_child leads fun children c hq' here => ?_
        rw [hq] at hq'
        cases hq'
        rw [Bool.and_eq_true, not_and, decide_eq_true_eq, body, symbol, here,
          List.getLastD_concat] at goes
        exact not_lt.mp (goes rfl)
      refine Regularly.of_orderly fun orderly => ?_
      refine Regularly.bind (Q := fun newParent s' =>
        s'.Carries maps base (L.amend q (L.parent q) (L.link x) (L.dirty q)) M ∧
          Tracks base ∅ s s' ∧ newParent.value.lastSymbol = q.getLastD 0 ∧
          newParent.value.body.maxLeaf = L.link x)
        (Prog.Returns.ensures ?_) fun newParent s₁ _ _ post => ?_
      · have content := Layout.content_setNextLeaf mirrors.shows (L.link x)
        rw [← link] at content
        have becomes := Layout.Becomes.amend_same (g := g) (M := M) (L.link x) (L.dirty q)
          (Layout.all_of_node hq)
        rw [← link, ← content] at becomes
        refine (carries.updateEntry (v := { parent.entry.value with
            body := parent.entry.value.body.setMaxLeaf child.value.body.maxLeaf }) orderly.1
          mirrors.tracked (fun S rep => rep.get_slot (Layout.all_of_node hq)) rfl rfl rfl ?_ becomes
          carries.mem).weaken fun newParent s₁ _ post => ?_
        · rw [body, Body.setMaxLeaf]
          cases n with
          | leaf kv => cases isInner
          | bitmap children => rfl
          | jump symbols => rfl
        · obtain ⟨carries₁, tracks, _, content₁⟩ := post
          rw [link] at carries₁ content content₁
          have shown := content₁.trans content
          refine ⟨carries₁, tracks.mono fun sl mem => absurd mem.2 Layout.slot_ne_head, ?_, ?_⟩
          · exact congrArg Entry.lastSymbol shown
          · refine (congrArg (fun e => e.body.maxLeaf) shown).trans ?_
            simp only [Layout.entry_amend]
            cases n <;> rfl
      · obtain ⟨carries₁, tracks, symbol₁, link₁⟩ := post
        have keeps : ∀ r, L.Child r q →
            L.Keeps r (L.amend q (L.parent q) (L.link x) (L.dirty q)) := fun r up =>
          .amend fun _ _ _ ext => absurd ext.length_le (not_le.mpr (shape.child_length up))
        have trail₁ : TrailAbove base s₁.trie
            (L.amend q (L.parent q) (L.link x) (L.dirty q)) q above := by
          rcases trail.tail with root | ⟨r, up, trail⟩
          · exact Or.inl root
          · refine Or.inr ⟨r, ?_, trail.keeps shape (keeps r up) (tracks.mono (by simp))⟩
            cases up with
            | bitmap hr bit => exact .bitmap hr bit
            | jump hr => exact .jump hr
        refine (ih carries₁ trail₁ hq isInner symbol₁
          (link₁.trans (by simp [Layout.amend]))
          (upTo.step shape leads hq hx inner last)).mono fun _ s₂ post => ?_
        obtain ⟨K, retopped, topped, carries₂, tracks₂⟩ := post
        exact ⟨K, (Layout.Retopped.amend hq isInner).trans retopped, topped, carries₂,
          tracks.trans tracks₂⟩

end CuckooTrie
