import CuckooTrie.Frame

/-!
# The predecessor of a position

The objects before a key are those left of the path of the key.  Going up from a
node below which no object is before the key, the lowest bitmap with a child left
of the path has the greatest of them as the greatest leaf under that child; this
is what `find_left_descend` looks for (`findLeftDescend_spec`), and what
`get_predecessor_atomic` then fetches (`getPredecessorAtomic_spec`).

The second is stated for memories in the middle of an insert as well, in which
links may still be stale: `Navigable` asks that a stale link leads to a leaf that
is marked dirty or to an inner node, where the code gives up.
-/

namespace CuckooTrie

open Sys

variable {g : Geometry} {t : Trie g} {L : Layout} {M : KeyMap} {p q : List ℕ} {n : Node}

/-! ## Objects before a key -/

/-- Below the node at `q`, the objects before the key are those below a child
smaller than `s`. -/
def CutsAt (M : KeyMap) (key : List UInt8) (q : List ℕ) (s : ℕ) : Prop :=
  ∀ kv ∈ M, ∀ c, KeyMap.Below (q ++ [c]) kv → (kv.key < key ↔ c < s)

/-- No object below the node at `q` is before the key. -/
def NoneBefore (M : KeyMap) (key : List UInt8) (q : List ℕ) : Prop :=
  ∀ kv ∈ M, KeyMap.Below q kv → ¬ kv.key < key

/-- Below every node there is a greatest object. -/
theorem Layout.Shape.exists_last (shape : L.Shape M) (hq : L.node q = some n) :
    ∃ kv, M.last (KeyMap.Below q) = some kv := by
  obtain ⟨kv, mem, below⟩ := shape.exists_below hq
  apply Option.ne_none_iff_exists'.mp
  exact fun none => KeyMap.last_eq_none_iff.mp none kv mem below

/-- The lowest bitmap with a child left of the path: the greatest object before
the key is the greatest below that child. -/
theorem before_eq_last (shape : L.Shape M) {key : List UInt8} {children s c : ℕ}
    (hq : L.node q = some (.bitmap children)) (onPath : q <+: keySymbols key)
    (cuts : CutsAt M key q s) (bit : children.testBit c = true) (left : c < s)
    (max : ∀ c' < s, children.testBit c' = true → c' ≤ c) :
    M.before key = M.last (KeyMap.Below (q ++ [c])) := by
  obtain ⟨m, hm⟩ := Option.ne_none_iff_exists'.mp (shape.child _ _ (.bitmap hq bit))
  obtain ⟨kv, last⟩ := shape.exists_last hm
  obtain ⟨mem, below, greatest⟩ := KeyMap.last_eq_some_iff.mp last
  rw [last]
  refine KeyMap.last_eq_some_iff.mpr ⟨mem, (cuts kv mem c below).mpr left, fun kv' mem' before => ?_⟩
  by_cases inside : KeyMap.Below q kv'
  · obtain ⟨c', bit', below'⟩ := shape.bitmap_below hq mem' inside
    rcases (max c' ((cuts kv' mem' c' below').mp before) bit').lt_or_eq with less | rfl
    · exact (keySymbols_lt_iff.mp (PrefixOrder.lt_of_concat less below' below)).le
    · exact greatest kv' mem' below'
  · have whole : q <+: keySymbols kv.key := (List.prefix_append _ _).trans below
    exact (keySymbols_lt_iff.mp
      ((PrefixOrder.lt_iff_outside inside onPath whole).mp (keySymbols_lt_iff.mpr before))).le

/-- A bitmap without a child left of the path has no object before the key. -/
theorem noneBefore_of_cutsAt (shape : L.Shape M) {key : List UInt8} {children s : ℕ}
    (hq : L.node q = some (.bitmap children)) (cuts : CutsAt M key q s)
    (clear : ∀ c < s, children.testBit c = false) : NoneBefore M key q := by
  intro kv mem below before
  obtain ⟨c, bit, below'⟩ := shape.bitmap_below hq mem below
  rw [clear c ((cuts kv mem c below').mp before)] at bit
  cases bit

/-- Above a child without objects before the key, the bitmap is cut at that child. -/
theorem cutsAt_of_noneBefore {key : List UInt8} {s : ℕ} (onPath : q ++ [s] <+: keySymbols key)
    (none : NoneBefore M key (q ++ [s])) : CutsAt M key q s := by
  intro kv mem c below
  by_cases same : c = s
  · subst same
    exact iff_of_false (none kv mem below) (lt_irrefl c)
  · rw [← keySymbols_lt_iff]
    exact PrefixOrder.lt_iff_of_concat same below onPath

/-- A bitmap without a child on the next symbol of the key is cut there. -/
theorem cutsAt_of_absent (shape : L.Shape M) {key : List UInt8} {children s : ℕ}
    (hq : L.node q = some (.bitmap children)) (onPath : q ++ [s] <+: keySymbols key)
    (clear : children.testBit s = false) : CutsAt M key q s := by
  refine cutsAt_of_noneBefore onPath fun kv mem below => ?_
  obtain ⟨s', bit, below'⟩ := shape.bitmap_below hq mem ((List.prefix_append _ _).trans below)
  rw [PrefixOrder.concat_prefix_unique below' below, clear] at bit
  cases bit

/-- Behind a child all of whose objects are before the key, the bitmap is cut
just after that child. -/
theorem cutsAt_succ {key : List UInt8} {s : ℕ} (onPath : q ++ [s] <+: keySymbols key)
    (all : ∀ kv ∈ M, KeyMap.Below (q ++ [s]) kv → kv.key < key) : CutsAt M key q (s + 1) := by
  intro kv mem c below
  by_cases same : c = s
  · subst same
    exact iff_of_true (all kv mem below) (Nat.lt_succ_self c)
  · rw [← keySymbols_lt_iff, PrefixOrder.lt_iff_of_concat same below onPath]
    omega

/-- The child of a jump node decides for the jump node. -/
theorem noneBefore_jump (shape : L.Shape M) {key : List UInt8} {symbols : List ℕ}
    (hq : L.node q = some (.jump symbols)) (none : NoneBefore M key (q ++ symbols)) :
    NoneBefore M key q :=
  fun kv mem below => none kv mem (shape.jump_below hq mem below)

/-! ## Looking for a left neighbour -/

/-- What a path entry of a spine shows of its node. -/
theorem Spine.head {path : List PathEntry} (spine : Spine t L p path) :
    ∃ e above n, path = e :: above ∧ L.node p = some n ∧ e.entry.Describes t L p n ∧
      e.prefixHash = g.prefixHash p := by
  cases spine with
  | root hn d hash => exact ⟨_, _, _, rfl, hn, d, hash⟩
  | child _ _ hn d hash => exact ⟨_, _, _, rfl, hn, d, hash⟩

/-- Above the root there is nothing. -/
theorem Spine.tail_root (shape : L.Shape M) {path : List PathEntry} (spine : Spine t L p path)
    (root : p = []) : path.tail = [] := by
  cases spine with
  | root => rfl
  | child _ child =>
    have := shape.child_length child
    rw [root] at this
    exact absurd this (Nat.not_lt_zero _)

/-- A predecessor locator selects a subtree, or says that there is none: the
greatest object of the subtree is the given one. -/
def Layout.Selects (L : Layout) (g : Geometry) (M : KeyMap) (locator : PredLocator) :
    Option CtKv → Prop :=
  match locator with
  | none => fun okv => okv = none
  | some subtree => fun okv =>
    ∃ q children c, L.node q = some (.bitmap children) ∧ children.testBit c = true ∧
      subtree.primaryBucket = hashToBucket (g.prefixHash (q ++ [c])) ∧
      subtree.tag = hashToTag (g.prefixHash (q ++ [c])) ∧
      subtree.parentColor = L.color q ∧ subtree.lastSymbol = c ∧
      okv = M.last (KeyMap.Below (q ++ [c]))

/-- What `find_left_descend` ends with selects the greatest object before a key. -/
def LeftNeighbour (g : Geometry) (L : Layout) (M : KeyMap) (key : List UInt8) :
    Option (List PathEntry × ℕ) → Prop
  | none => M.before key = none
  | some (path, c) => ∃ q children, Ancestry g L q path ∧ L.node q = some (.bitmap children) ∧
      children.testBit c = true ∧ M.before key = M.last (KeyMap.Below (q ++ [c]))

/-- **`find_left_descend`.**  From a bitmap that is cut at the symbol searched
from, and from above a node without objects before the key. -/
theorem findLeftDescend_spec (shape : L.Shape M) {key : List UInt8} {path : List PathEntry}
    (spine : Ancestry g L p path) (onPath : p <+: keySymbols key) :
    (∀ children s, L.node p = some (.bitmap children) → CutsAt M key p s →
      LeftNeighbour g L M key (findLeftDescend path s)) ∧
    (NoneBefore M key p →
      LeftNeighbour g L M key (findLeftDescend path.tail (p.getLastD 0))) := by
  -- the first claim for a node follows from the second, the second from the parent's
  have atBitmap : ∀ {p : List ℕ} {e above}, Ancestry g L p (e :: above) → p <+: keySymbols key →
      (NoneBefore M key p → LeftNeighbour g L M key (findLeftDescend above (p.getLastD 0))) →
      ∀ children s, L.node p = some (.bitmap children) → CutsAt M key p s →
        LeftNeighbour g L M key (findLeftDescend (e :: above) s) := by
    intro p e above spine onPath up children s hp cuts
    obtain ⟨e', above', n, eq, hn, d, hash⟩ := spine.head
    cases eq
    rw [hp] at hn
    cases hn
    have body := d.body
    have isBitmap : e.entry.value.body.isBitmap = true := by rw [body]; rfl
    have bits : bitmapChildBefore e.entry.value s = lastBitBefore children s := by
      rw [bitmapChildBefore, body]
      rfl
    rw [findLeftDescend]
    simp only [isBitmap, if_true, bits]
    cases found : lastBitBefore children s with
    | some c =>
      obtain ⟨bit, left, max⟩ := lastBitBefore_eq_some found
      exact ⟨p, children, spine, hp, bit, before_eq_last shape hp onPath cuts bit left max⟩
    | none =>
      have none := noneBefore_of_cutsAt shape hp cuts (lastBitBefore_eq_none found)
      rw [d.lastSymbol]
      exact up none
  induction spine with
  | root hn d hash =>
    have up : NoneBefore M key [] →
        LeftNeighbour g L M key (findLeftDescend [] (([] : List ℕ).getLastD 0)) := by
      intro none
      exact KeyMap.last_eq_none_iff.mpr fun kv mem => none kv mem List.nil_prefix
    exact ⟨fun children s hp cuts => atBitmap (.root hn d hash) onPath up children s hp cuts, up⟩
  | @child q p e above n spine child hn d hash ih =>
    have up : NoneBefore M key p →
        LeftNeighbour g L M key (findLeftDescend above (p.getLastD 0)) := by
      intro none
      obtain ⟨cut, skip⟩ := ih (child.isPrefix.trans onPath)
      cases child with
      | bitmap hq bit =>
        rw [List.getLastD_concat]
        exact cut _ _ hq (cutsAt_of_noneBefore onPath none)
      | jump hq =>
        -- a jump node has no child to the left and is skipped
        obtain ⟨e', above', n', rfl, hn', d', -⟩ := spine.head
        rw [hq] at hn'
        cases hn'
        have body := d'.body
        have isBitmap : e'.entry.value.body.isBitmap = false := by rw [body]; rfl
        rw [findLeftDescend]
        simp only [isBitmap, Bool.false_eq_true, if_false, d'.lastSymbol]
        exact skip (noneBefore_jump shape hq none)
    exact ⟨fun children s hp cuts =>
      atBitmap (.child spine child hn d hash) onPath up children s hp cuts, up⟩

/-- The predecessor locator made of a left neighbour selects it. -/
theorem selects_of_leftNeighbour {key : List UInt8} {path : List PathEntry} {s : ℕ}
    (left : LeftNeighbour g L M key (findLeftDescend path s)) :
    L.Selects g M (prefetchPathChildPredecessor g path s) (M.before key) := by
  rw [prefetchPathChildPredecessor]
  cases found : findLeftDescend path s with
  | none =>
    rw [found] at left
    exact left
  | some result =>
    obtain ⟨path', c⟩ := result
    rw [found] at left
    obtain ⟨q, children, spine, hq, bit, before⟩ := left
    obtain ⟨e, above, n, rfl, hn, d, hash⟩ := spine.head
    have same : g.accumulateHash e.prefixHash c = g.prefixHash (q ++ [c]) := by
      rw [hash, g.prefixHash_concat]
    exact ⟨q, children, c, hq, bit, by rw [same], by rw [same], d.color, rfl, before⟩

/-! ## Fetching the predecessor -/

/-- A locator that leads where a reader expects it to, or to an inner node. -/
def Layout.Follows (L : Layout) (g : Geometry) (loc : Locator) (okv : Option CtKv) : Prop :=
  L.PointsTo g loc okv ∨
    ∃ p n, L.node p = some n ∧ n.isInner = true ∧ loc = L.locator g p

/-- Links a reader can rely on although an insert may be under way: what is stale
leads to a dirty leaf or to an inner node. -/
structure Layout.Navigable (L : Layout) (g : Geometry) (M : KeyMap) : Prop where
  next : ∀ p kv, L.node p = some (.leaf kv) → L.dirty p = false →
    L.Follows g (L.link p) (M.after kv.key)
  max : ∀ q n, L.node q = some n → n.isInner = true →
    ∃ p m, L.node p = some m ∧ L.link q = L.locator g p ∧
      ∀ kv, m = .leaf kv → L.dirty p = true ∨ M.last (KeyMap.Below q) = some kv
  first : M.kvs ≠ [] → L.Follows g L.first (M.first fun _ => True)

theorem Layout.Linked.navigable (linked : L.Linked g M) (shape : L.Shape M) :
    L.Navigable g M where
  next p kv hp _ := Or.inl (linked.next p kv hp)
  max q n hq inner := by
    have points := linked.max q n hq inner
    obtain ⟨kv, last⟩ := shape.exists_last hq
    rw [last] at points
    obtain ⟨p, hp, link⟩ := points
    refine ⟨p, _, hp, link, ?_⟩
    rintro kv' ⟨⟩
    exact Or.inr last
  first _ := Or.inl linked.first

theorem validateEntry_spec (lc : LocalCopy) (s : Sys g) :
    (validateEntry lc).Returns s fun ok s' =>
      Quiet s s' ∧ s'.trie = s.trie ∧
        (ok = false → Denied s s' ∨ s.trie.entryUnchanged lc = false) := by
  refine Prog.Returns.bind (Q := fun b s' =>
    Quiet s s' ∧ s'.trie = s.trie ∧ (b = false → Denied s s')) (.update ?_) ?_
  · exact ⟨⟨rfl, rfl, rfl, rfl, rfl, rfl, rfl, id⟩, rfl,
      fun denied => ⟨s.checks, le_rfl, Nat.lt_succ_self _, denied⟩⟩
  · rintro b s' - ⟨quiet, same, denied⟩
    refine Prog.Returns.bind (Q := fun t' s'' => t' = s.trie ∧ s'' = s') (.read ⟨same, rfl⟩) ?_
    rintro t' s'' - ⟨rfl, rfl⟩
    refine .pure ⟨quiet, same, fun no => ?_⟩
    cases b with
    | false => exact Or.inl (denied rfl)
    | true => exact Or.inr no

theorem validateAll_spec (path : List PathEntry) (s : Sys g) :
    (validatePathFrom.validateAll path).Returns s fun ok s' =>
      Quiet s s' ∧ s'.trie = s.trie ∧
        (ok = false → Denied s s' ∨ ∃ e ∈ path, s.trie.entryUnchanged e.entry = false) := by
  induction path generalizing s with
  | nil => exact .pure ⟨Quiet.refl s, rfl, fun h => by cases h⟩
  | cons e below ih =>
    rw [validatePathFrom.validateAll]
    refine (validateEntry_spec e.entry s).bind fun ok s' le h => ?_
    obtain ⟨quiet, same, failed⟩ := h
    cases ok with
    | false =>
      simp only [Bool.false_eq_true, if_false]
      refine .pure ⟨quiet, same, fun _ => ?_⟩
      exact (failed rfl).imp_right fun changed => ⟨e, List.mem_cons_self, changed⟩
    | true =>
      simp only [if_true]
      refine (ih s').weaken fun ok' s'' le' h' => ?_
      obtain ⟨quiet', same', failed'⟩ := h'
      refine ⟨quiet.trans quiet', same'.trans same, fun no => ?_⟩
      rcases failed' no with denied | ⟨e', mem, changed⟩
      · exact Or.inl (denied.mono_left le)
      · exact Or.inr ⟨e', List.mem_cons_of_mem _ mem, same ▸ changed⟩

theorem Spine.unchanged {path : List PathEntry} (spine : Spine t L p path) :
    ∀ e ∈ path, t.entryUnchanged e.entry = true := by
  induction spine with
  | root _ d _ =>
    intro e mem
    rw [List.mem_singleton] at mem
    exact mem ▸ d.unchanged
  | child _ _ _ d _ ih =>
    intro e mem
    rcases List.mem_cons.mp mem with rfl | mem
    · exact d.unchanged
    · exact ih e mem

theorem validatePathFrom_spec (path : List PathEntry) (pathPos : ℕ) (s : Sys g) :
    (validatePathFrom path pathPos).Returns s fun ok s' =>
      Quiet s s' ∧ s'.trie = s.trie ∧
        (ok = false → Denied s s' ∨ ∃ e ∈ path, s.trie.entryUnchanged e.entry = false) := by
  refine (validateAll_spec _ s).weaken fun ok s' _ h => ⟨h.1, h.2.1, fun no => ?_⟩
  rcases h.2.2 no with denied | ⟨e, mem, changed⟩
  · exact Or.inl denied
  · exact Or.inr ⟨e, List.mem_of_mem_take (List.mem_reverse.mp mem), changed⟩

/-- The copy of the predecessor: the list head, or a clean leaf. -/
def IsPredecessor (t : Trie g) (L : Layout) (lc : LocalCopy) : Option CtKv → Prop
  | none => lc = readMinLeaf t
  | some kv => ∃ p, L.node p = some (.leaf kv) ∧ lc.Describes t L p (.leaf kv) ∧ L.dirty p = false

/-- Reading the table in a program. -/
theorem search_spec {α : Type} {f : Trie g → Option α} {a : α} {s : Sys g}
    (found : f s.trie = some a) : (search f).Returns s fun b s' => b = a ∧ s' = s :=
  .find found ⟨rfl, rfl⟩

/-- **`get_predecessor_atomic`** fetches the selected leaf, or gives up: because
a check was not let pass, or because an insert is under way. -/
theorem getPredecessorAtomic_spec {path : List PathEntry} {locator : PredLocator}
    {okv : Option CtKv} {s : Sys g} (readable : L.Readable s.trie M) (nav : L.Navigable g M)
    (selects : L.Selects g M locator okv) :
    (getPredecessorAtomic path locator).Returns s fun r s' =>
      Quiet s s' ∧ s'.trie = s.trie ∧
        match r with
        | none => Denied s s' ∨ ¬ L.Linked g M ∨
            ∃ e ∈ path, s.trie.entryUnchanged e.entry = false
        | some lc => IsPredecessor s.trie L lc okv := by
  have shape := readable.shape
  cases locator with
  | none =>
    have last : okv = none := selects
    subst last
    rw [getPredecessorAtomic]
    refine Prog.Returns.bind (Q := fun t' s' => t' = s.trie ∧ s' = s) (.read ⟨rfl, rfl⟩) ?_
    rintro t' s' - ⟨rfl, rfl⟩
    refine (validatePathFrom_spec path 1 _).bind fun ok s' _ h => ?_
    obtain ⟨quiet, same, failed⟩ := h
    cases ok with
    | false => exact .pure ⟨quiet, same, (failed rfl).imp_right Or.inr⟩
    | true => exact .pure ⟨quiet, same, rfl⟩
  | some subtree =>
    obtain ⟨q, children, c, hq, bit, bucket, tag, parent, symbol, last⟩ := selects
    have child := Layout.Child.bitmap hq bit
    obtain ⟨m, hm⟩ := Option.ne_none_iff_exists'.mp (shape.child _ _ child)
    obtain ⟨root, found, d⟩ := readable.byParent hq bit hm
    rw [getPredecessorAtomic]
    refine (search_spec (a := root) (by rw [bucket, tag, parent, symbol]; exact found)).bind ?_
    rintro b s' - ⟨rfl, rfl⟩
    by_cases isLeaf : b.value.body.isLeaf = true
    · -- the subtree is a single leaf
      rw [if_pos isLeaf]
      obtain ⟨kv, rfl⟩ := (isLeaf_iff d).mp isLeaf
      have only : M.last (KeyMap.Below (q ++ [c])) = some kv :=
        KeyMap.last_eq_some_iff.mpr ⟨(shape.leaf _ kv hm).1, (shape.leaf _ kv hm).2,
          fun kv' mem below => (congrArg CtKv.key (shape.eq_of_below_leaf hm mem below)).le⟩
      refine (validatePathFrom_spec path _ _).bind fun ok s' _ h => ?_
      obtain ⟨quiet, same, failed⟩ := h
      cases ok with
      | false => exact .pure ⟨quiet, same, (failed rfl).imp_right Or.inr⟩
      | true =>
        simp only [Bool.not_true, Bool.false_eq_true, if_false]
        cases dirty : b.value.dirty with
        | true =>
          refine .pure ⟨quiet, same, Or.inr (Or.inl fun linked => ?_)⟩
          rw [d.dirty, linked.clean _ _ hm] at dirty
          cases dirty
        | false =>
          refine .pure ⟨quiet, same, ?_⟩
          rw [last, only]
          exact ⟨_, hm, d, d.dirty.symm.trans dirty⟩
    · rw [if_neg isLeaf]
      have inner : m.isInner = true := by
        cases m with
        | leaf kv => exact absurd ((isLeaf_iff d).mpr ⟨kv, rfl⟩) isLeaf
        | bitmap _ => rfl
        | jump _ => rfl
      obtain ⟨r, m', hr, link, greatest⟩ := nav.max _ m hm inner
      have maxLeaf : b.value.body.maxLeaf = L.locator g r := by
        rw [d.body, ← link]
        cases m with
        | leaf kv => cases inner
        | bitmap _ => rfl
        | jump _ => rfl
      obtain ⟨result, found', d'⟩ := locatorToEntry_spec readable hr
      refine (search_spec (a := result) (by rw [maxLeaf]; exact found')).bind ?_
      rintro b' s' - ⟨rfl, rfl⟩
      cases isLeaf' : b'.value.body.isLeaf with
      | false =>
        refine .pure ⟨Quiet.refl _, rfl, Or.inr (Or.inl fun linked => ?_)⟩
        have points := linked.max _ m hm inner
        obtain ⟨kv, lastKv⟩ := shape.exists_last hm
        rw [lastKv] at points
        obtain ⟨r', hr', link'⟩ := points
        -- the link names the leaf, so the copy is one
        obtain ⟨result', found'', d''⟩ := locatorToEntry_spec readable hr'
        rw [← link', link, found'] at found''
        cases found''
        rw [(isLeaf_iff d'').mpr ⟨kv, rfl⟩] at isLeaf'
        cases isLeaf'
      | true =>
        obtain ⟨kv, rfl⟩ := (isLeaf_iff d').mp isLeaf'
        simp only [Bool.not_true, Bool.false_eq_true, if_false]
        refine (validatePathFrom_spec path _ _).bind fun ok s' le h => ?_
        obtain ⟨quiet, same, failed⟩ := h
        cases ok with
        | false => exact .pure ⟨quiet, same, (failed rfl).imp_right Or.inr⟩
        | true =>
          simp only [Bool.not_true, Bool.false_eq_true, if_false]
          refine (validateEntry_spec b s').bind fun ok s'' le' h => ?_
          obtain ⟨quiet', same', failed'⟩ := h
          have quiet'' := quiet.trans quiet'
          have same'' := same'.trans same
          cases ok with
          | false =>
            have fresh := d.unchanged
            rcases failed' rfl with denied | changed
            · exact .pure ⟨quiet'', same'', Or.inl (denied.mono_left le)⟩
            · rw [same, fresh] at changed
              cases changed
          | true =>
            simp only [Bool.not_true, Bool.false_eq_true, if_false]
            cases dirty : b'.value.dirty with
            | true =>
              refine .pure ⟨quiet'', same'', Or.inr (Or.inl fun linked => ?_)⟩
              rw [d'.dirty, linked.clean _ _ hr] at dirty
              cases dirty
            | false =>
              have clean := d'.dirty.symm.trans dirty
              refine .pure ⟨quiet'', same'', ?_⟩
              rcases greatest kv rfl with isDirty | lastKv
              · rw [clean] at isDirty
                cases isDirty
              · rw [last, lastKv]
                exact ⟨r, hr, d', clean⟩

end CuckooTrie
