import CuckooTrie.Relinking

/-!
# The states between the phases of an insert

Before and after each phase of an insert the table carries a layout without drafts whose links
are right (`Sys.Whole`).  A phase ends in one of the ways of `Phase`: the new object is in the
map, or it is not and the phase gives up for a reason, or the table is full and some drafts may
be left over.  All write locks of a phase are taken before its first write; they fail only on
copies that are stale, or if the others deny them.
-/

namespace CuckooTrie

open Sys

variable {g : Geometry} {maps : Set KeyMap} {base : ℕ → ℕ} {s s' s'' : Sys g} {t : Trie g}
  {L L' K : Layout} {M M' : KeyMap} {S : Store} {p q x : List ℕ} {n : Node} {lc : LocalCopy}
  {kv : CtKv} {place : ListPlace}

/-! ## Finished layouts -/

namespace Layout

/-- The root and the children of jump nodes have no parent color. -/
structure Unclaimed (L : Layout) : Prop where
  root : L.node [] ≠ none → L.parent [] = invalidColor
  jump : ∀ q symbols, L.node q = some (.jump symbols) → L.parent (q ++ symbols) = invalidColor

theorem Finished.unclaimed (finished : L.Finished) (shape : L.Shape M) : L.Unclaimed where
  root hroot := by
    obtain ⟨n, hn⟩ := Option.ne_none_iff_exists'.mp hroot
    exact (finished.parent [] n hn).trans Shape.parentColor_root
  jump q symbols hq := by
    obtain ⟨n, hn⟩ := Option.ne_none_iff_exists'.mp (shape.child _ _ (.jump hq))
    exact (finished.parent _ n hn).trans (shape.parentColor_jump hq)

/-- The children of bitmaps have the right parent colors in any case. -/
theorem Represents.finished (rep : L.Represents g S M) (noDraft : ∀ p, L.draft p = none)
    (unclaimed : L.Unclaimed) : L.Finished := by
  refine ⟨noDraft, fun p n hp => ?_⟩
  rcases rep.shape.parent p n hp with rfl | ⟨q, child⟩
  · rw [Shape.parentColor_root]
    exact unclaimed.root (by rw [hp]; exact Option.some_ne_none n)
  · cases child with
    | bitmap hq bit =>
      rw [Shape.parentColor_bitmap hq]
      exact rep.parent q _ _ hq bit
    | jump hq =>
      rw [rep.shape.parentColor_jump hq]
      exact unclaimed.jump q _ hq

/-- Without drafts no jump node leads to a position without a node. -/
theorem Finished.noJumpTo (finished : L.Finished) (shape : L.Shape M) (hp : L.node p = none) :
    L.NoJumpTo p := by
  rintro r symbols hr rfl
  exact shape.child _ _ (.jump (finished.node_of_all hr)) hp

theorem Finished.all_none (finished : L.Finished) (hp : L.node p = none) : L.all p = none := by
  rw [all, hp, finished.no_draft]
  rfl

theorem Linked.listed (linked : L.Linked g M) : L.Listed g M := ⟨linked.next, linked.first⟩

/-- Drafts do not matter for the parent colors. -/
theorem Unclaimed.sameNodes (unclaimed : L.Unclaimed) (shape : L.Shape M)
    (same : L.SameNodes K) : K.Unclaimed where
  root hroot := by
    rw [same.node] at hroot
    obtain ⟨n, hn⟩ := Option.ne_none_iff_exists'.mp hroot
    rw [same.parent [] n hn]
    exact unclaimed.root hroot
  jump q symbols hq := by
    rw [same.node] at hq
    obtain ⟨n, hn⟩ := Option.ne_none_iff_exists'.mp (shape.child _ _ (.jump hq))
    rw [same.parent _ n hn]
    exact unclaimed.jump q symbols hq

/-- A locator of a leaf that stays. -/
theorem PointsTo.stays {loc : Locator} {okv : Option CtKv} (points : L.PointsTo g loc okv)
    (stays : ∀ p kv', okv = some kv' → L.node p = some (.leaf kv') →
      K.node p = some (.leaf kv') ∧ K.color p = L.color p) : K.PointsTo g loc okv := by
  cases okv with
  | none => exact points
  | some kv' =>
    obtain ⟨p, hp, same⟩ := points
    obtain ⟨hp', color⟩ := stays p kv' rfl hp
    exact ⟨p, hp', by rw [same, locator, locator, color]⟩

/-- **After a new object was put below a position**, the greatest leaves are right but for
some nodes above it, if they are right at and below it. -/
theorem Linked.toppedUpTo (linked : L.Linked g M) (shape : L.Shape M)
    (new : ∀ kv' ∈ M, kv'.key ≠ kv.key) (below : KeyMap.Below x kv)
    (inside : ∀ r n, K.node r = some n → n.isInner = true → x <+: r →
      K.PointsTo g (K.link r) ((M.insert kv).last (KeyMap.Below r)))
    (outside : ∀ r n, K.node r = some n → n.isInner = true → ¬ x <+: r →
      L.node r = some n ∧ K.link r = L.link r)
    (stays : ∀ r kv', L.node r = some (.leaf kv') → ¬ x <+: r →
      K.node r = some (.leaf kv') ∧ K.color r = L.color r) : K.ToppedUpTo g (M.insert kv) x where
  here r n hr inner strict := by
    by_cases inX : x <+: r
    · exact inside r n hr inner inX
    · obtain ⟨hr', link⟩ := outside r n hr inner inX
      -- nothing is both below this node and below the position
      have apart : ∀ kv', KeyMap.Below r kv' → ¬ KeyMap.Below x kv' := by
        intro kv' here there
        rcases PrefixOrder.comparable here there with up | down
        · exact inX (strict up ▸ List.prefix_rfl)
        · exact inX down
      rw [KeyMap.last_insert_of_not new fun here => apart kv here below, link]
      refine (linked.max r n hr' inner).stays fun p kv' last hp => stays p kv' hp fun ext => ?_
      exact apart kv' (KeyMap.last_eq_some_iff.mp last).2.1 (ext.trans (shape.leaf p kv' hp).2)
  above r n kv' hr inner up ne last notBelow := by
    have notIn : ¬ x <+: r := fun down =>
      ne (up.eq_of_length (le_antisymm up.length_le down.length_le))
    obtain ⟨hr', link⟩ := outside r n hr inner notIn
    have old : M.last (KeyMap.Below r) = some kv' := by
      rcases KeyMap.last_insert (P := KeyMap.Below r) new with same | ⟨self, -⟩
      · exact same.symm.trans last
      · rw [last] at self
        cases self
        exact absurd below notBelow
    rw [link]
    have points := linked.max r n hr' inner
    rw [old] at points
    refine points.stays fun p kv'' same hp => stays p kv'' hp fun ext => notBelow ?_
    cases same
    exact ext.trans (shape.leaf p kv' hp).2

end Layout

/-! ## Whole tables -/

/-- The table carries a layout without drafts, with right links. -/
structure Sys.Whole (s : Sys g) (maps : Set KeyMap) (base : ℕ → ℕ) (L : Layout) (M : KeyMap) :
    Prop extends s.Carries maps base L M where
  linked : L.Linked g M
  finished : L.Finished

namespace Sys.Whole

theorem quiet (whole : s.Whole maps base L M) (quiet : Quiet s s') : s'.Whole maps base L M :=
  ⟨whole.toCarries.quiet quiet, whole.linked, whole.finished⟩

/-- The window of the sequences may begin anew. -/
theorem rebase (whole : s.Whole maps base L M) : s.Whole maps s.trie.seq L M :=
  ⟨⟨whole.represents, whole.mem, fun _ => le_rfl⟩, whole.linked, whole.finished⟩

theorem wellFormed (whole : s.Whole maps base L M) (unlocked : s.Unlocked) :
    WellFormed s.trie M := by
  obtain ⟨S, sound, rep⟩ := whole.represents
  exact ⟨S, L, sound.stores, rep, whole.linked, whole.finished, unlocked⟩

theorem readable (whole : s.Whole maps base L M) : L.Readable s.trie M := by
  obtain ⟨S, sound, rep⟩ := whole.represents
  exact ⟨S, none, sound.stores, rep, rep.identifies whole.finished⟩

end Sys.Whole

/-- Without the drafts the table is whole again. -/
theorem Sys.Carries.whole (carries : s.Carries maps base K M) (linked : L.Linked g M)
    (finished : L.Finished) (same : L.SameNodes K) (noDraft : ∀ p, K.draft p = none) :
    s.Whole maps base K M := by
  obtain ⟨S, sound, rep⟩ := carries.represents
  have shape : L.Shape M := carries.shape.congr same.node.symm
  exact ⟨carries, same.linked linked,
    rep.finished noDraft ((finished.unclaimed shape).sameNodes shape same)⟩

/-- The state of a well-formed trie. -/
theorem WellFormed.whole (wf : WellFormed s.trie M) (past : s.Past (Stands g maps))
    (mem : M ∈ maps) : s.Unlocked ∧ ∃ L, s.Whole maps s.trie.seq L M := by
  obtain ⟨S, L, stores, rep, linked, finished, unlocked⟩ := wf
  refine ⟨unlocked, L, ⟨⟨S, ⟨stores, ⟨M, mem, L, rep⟩, past, ?_⟩, rep⟩, mem, fun _ => le_rfl⟩,
    linked, finished⟩
  exact Sys.Unlocked.listed unlocked

/-- The table carries a layout with right links, but drafts may be left over in it. -/
structure Sys.Littered (s : Sys g) (maps : Set KeyMap) (base : ℕ → ℕ) (L : Layout)
    (M : KeyMap) : Prop extends s.Carries maps base L M where
  linked : L.Linked g M

theorem Sys.Whole.littered (whole : s.Whole maps base L M) : s.Littered maps base L M :=
  ⟨whole.toCarries, whole.linked⟩

theorem Sys.Littered.quiet (littered : s.Littered maps base L M) (quiet : Quiet s s') :
    s'.Littered maps base L M :=
  ⟨littered.toCarries.quiet quiet, littered.linked⟩

/-! ## How a phase ends -/

/-- How a phase of an insert that began with a layout ends: with the object in the map, or, for a
reason, without any change of the map, or on a full table. -/
inductive Phase (maps : Set KeyMap) (base : ℕ → ℕ) (L : Layout) (M : KeyMap) (kv : CtKv)
    (reason : Prop) (s' : Sys g) : InternalStatus → Prop
  | ok {K : Layout} : s'.Whole maps base K (M.insert kv) → L.Stays K → s'.Unlocked →
      Phase maps base L M kv reason s' .ok
  | retry {K : Layout} : s'.Whole maps base K M → L.Stays K → s'.Unlocked → reason →
      Phase maps base L M kv reason s' .retry
  | fail {K : Layout} : s'.Littered maps base K M → s'.Unlocked →
      Phase maps base L M kv reason s' .fail

theorem Phase.mono {reason reason' : Prop} {ret : InternalStatus}
    (phase : Phase maps base L M kv reason s' ret) (h : reason → reason') :
    Phase maps base L M kv reason' s' ret := by
  cases phase with
  | ok whole stays unlocked => exact .ok whole stays unlocked
  | retry whole stays unlocked because => exact .retry whole stays unlocked (h because)
  | fail littered unlocked => exact .fail littered unlocked

/-- Giving up a phase: all locks are released. -/
theorem Sys.Whole.giveUp (whole : s.Whole maps base L M) {reason : Sys g → Prop}
    (because : ∀ s', s ≤ s' → Quiet s s' → reason s') :
    (do releaseAllLocks; pure .retry : CuckooTrie.M g InternalStatus).Returns s fun ret s' =>
      Phase maps base L M kv (reason s') s' ret :=
  (releaseAllLocks_spec whole.listed).bind fun _ s' le post =>
    .pure (.retry (whole.quiet post.1) (.refl L) post.2 (because s' le post.1))

/-- Giving up on a full table. -/
theorem Sys.Littered.giveUp (littered : s.Littered maps base K M) {reason : Sys g → Prop} :
    (do releaseAllLocks; pure .fail : CuckooTrie.M g InternalStatus).Returns s fun ret s' =>
      Phase maps base L M kv (reason s') s' ret :=
  (releaseAllLocks_spec littered.listed).bind fun _ _ _ post =>
    .pure (.fail (littered.quiet post.1) post.2)

/-! ## Nodes that were written -/

/-- A list of nodes, in any order, is the list of all drafts. -/
def Layout.Covers (K : Layout) (g : Geometry) (nodes : List (Entry × ℕ)) : Prop :=
  ∃ (rs : List (List ℕ)) (e : List ℕ → Entry), rs.Nodup ∧ (∀ r, r ∈ rs ↔ K.draft r ≠ none) ∧
    (∀ r ∈ rs, (e r).color = K.color r) ∧ nodes.Perm (rs.map fun r => (e r, g.prefixHash r))

namespace Layout.Covers

variable {nodes l l' : List (Entry × ℕ)} {r : List ℕ} {c par : ℕ} {lnk : Locator} {e : Entry}

theorem nil (noDraft : ∀ p, K.draft p = none) : K.Covers g [] :=
  ⟨[], fun _ => default, List.nodup_nil, fun r => by simp [noDraft], by simp, by simp⟩

theorem no_draft (covers : K.Covers g []) : ∀ p, K.draft p = none := by
  obtain ⟨rs, e, -, drafts, -, perm⟩ := covers
  have empty : rs = [] := by simpa using perm.symm.eq_nil
  intro p
  by_contra some_
  have mem := (drafts p).mpr some_
  rw [empty] at mem
  cases mem

theorem congr (covers : K.Covers g l) (draft : L.draft = K.draft) (color : L.color = K.color) :
    L.Covers g l := by
  obtain ⟨rs, e, nodup, drafts, colors, perm⟩ := covers
  exact ⟨rs, e, nodup, by rw [draft]; exact drafts, by rw [color]; exact colors, perm⟩

theorem perm (covers : K.Covers g l) (same : l.Perm l') : K.Covers g l' := by
  obtain ⟨rs, e, nodup, drafts, colors, perm⟩ := covers
  exact ⟨rs, e, nodup, drafts, colors, same.symm.trans perm⟩

/-- One more draft. -/
theorem draftAt (covers : K.Covers g (l ++ l')) (free : K.draft r = none) (color : e.color = c) :
    (K.draftAt r n c par lnk).Covers g (l ++ (e, g.prefixHash r) :: l') := by
  obtain ⟨rs, f, nodup, drafts, colors, perm⟩ := covers
  have fresh : r ∉ rs := fun mem => (drafts r).mp mem free
  have others : ∀ z ∈ rs, z ≠ r := fun z mem same => fresh (same ▸ mem)
  refine ⟨r :: rs, Function.update f r e, List.nodup_cons.mpr ⟨fresh, nodup⟩, fun z => ?_,
    fun z mem => ?_, ?_⟩
  · by_cases here : z = r
    · subst here
      simp [Layout.draftAt]
    · rw [List.mem_cons, or_iff_right here, drafts]
      exact not_congr (by rw [show (K.draftAt r n c par lnk).draft z = K.draft z from
        Function.update_of_ne here _ _])
  · by_cases here : z = r
    · rw [here, Function.update_self, color]
      exact (Function.update_self r c K.color).symm
    · rw [Function.update_of_ne here, colors z ((List.mem_cons.mp mem).resolve_left here)]
      exact (Function.update_of_ne here c K.color).symm
  · have same : rs.map (fun z => (Function.update f r e z, g.prefixHash z)) =
        rs.map fun z => (f z, g.prefixHash z) :=
      List.map_congr_left fun z mem => by rw [Function.update_of_ne (others z mem)]
    rw [List.map_cons, Function.update_self, same]
    exact List.perm_middle.trans (perm.cons _)

/-- The first node of the list is a draft; without it the rest covers the others. -/
theorem cons {h : ℕ} (covers : K.Covers g ((e, h) :: l)) :
    ∃ p n, h = g.prefixHash p ∧ e.color = K.color p ∧ K.draft p = some n ∧
      (K.drop p).Covers g l := by
  obtain ⟨rs, f, nodup, drafts, colors, perm⟩ := covers
  obtain ⟨p, mem, same⟩ := List.mem_map.mp (perm.mem_iff.mp List.mem_cons_self)
  obtain ⟨rfl, rfl⟩ := Prod.ext_iff.mp same
  obtain ⟨n, hn⟩ := Option.ne_none_iff_exists'.mp ((drafts p).mp mem)
  refine ⟨p, n, rfl, colors p mem, hn, rs.erase p, f, nodup.erase p, fun r => ?_,
    fun r mem' => colors r (List.mem_of_mem_erase mem'), ?_⟩
  · rw [nodup.mem_erase_iff, drafts]
    by_cases here : r = p
    · subst here
      simp [Layout.drop]
    · rw [and_iff_right here]
      exact not_congr (by rw [show (K.drop p).draft r = K.draft r from
        Function.update_of_ne here _ _])
  · have rest := perm.trans ((List.perm_cons_erase mem).map fun r => (f r, g.prefixHash r))
    exact List.Perm.cons_inv rest

end Layout.Covers

theorem Layout.SameNodes.drop (same : L.SameNodes K) (p : List ℕ) : L.SameNodes (K.drop p) :=
  ⟨same.node, same.color, same.parent, same.link, same.dirty, same.first, same.firstDirty⟩

/-- **Removing the nodes that were written** drops all drafts. -/
theorem Sys.Carries.removeNodes {nodes : List (Entry × ℕ)} (carries : s.Carries maps base K M)
    (same : L.SameNodes K) (fresh : ∀ r, K.draft r ≠ none → L.node r = none)
    (covers : K.Covers g nodes) :
    (CuckooTrie.removeNodes nodes : CuckooTrie.M g Unit).Returns s fun _ s' =>
      ∃ K', s'.Carries maps base K' M ∧ L.SameNodes K' ∧ ∀ r, K'.draft r = none := by
  induction nodes generalizing s K with
  | nil => exact .pure ⟨K, carries, same, covers.no_draft⟩
  | cons node rest ih =>
    obtain ⟨p, n, hash, color, hn, covers'⟩ := covers.cons
    have notNode : K.node p = none := by
      rw [same.node]
      exact fresh p (by rw [hn]; exact Option.some_ne_none n)
    rw [CuckooTrie.removeNodes, hash]
    refine (carries.removeEntryByValue hn notNode color).bind fun _ s₁ _ post =>
      ih post.2.2 (same.drop p) (fun r hr => fresh r fun noDraft => hr ?_) covers'
    by_cases here : r = p
    · rw [here]
      exact Function.update_self p none K.draft
    · exact (Function.update_of_ne here none K.draft).trans noDraft

/-- A copy on a path is not up to date any more. -/
def Sys.Stale (s : Sys g) (path : List PathEntry) : Prop :=
  ∃ e ∈ path, s.trie.entryUnchanged e.entry = false

theorem Sys.Stale.quiet {path : List PathEntry} (stale : s'.Stale path) (quiet : Quiet s s') :
    s.Stale path := by
  obtain ⟨e, mem, changed⟩ := stale
  refine ⟨e, mem, ?_⟩
  rw [Trie.entryUnchanged, quiet.seq] at changed
  exact changed

/-! ## Locking the ancestors -/

/-- **`upgrade_locks_on_left_parents_above`** fails only on stale copies, or if it is denied. -/
theorem lockLeftParents_spec (locked : List Loc) (path : List PathEntry) (listed : LocksListed s) :
    (lockLeftParents locked path : CuckooTrie.M g InternalStatus).Returns s fun ret s' =>
      Quiet s s' ∧ (ret = .ok ∨ ret = .retry ∧ (Denied s s' ∨ s.Stale path)) := by
  induction path generalizing s locked with
  | nil => exact .pure ⟨Quiet.refl s, Or.inl rfl⟩
  | cons child path ih =>
    cases path with
    | nil => exact .pure ⟨Quiet.refl s, Or.inl rfl⟩
    | cons parent above =>
      rw [lockLeftParents]
      refine .ite (fun _ => .pure ⟨Quiet.refl s, Or.inl rfl⟩) fun _ => ?_
      refine (Quietly.upgradeLock_spec parent.entry s).bind fun ret s₁ le₁ post => ?_
      obtain ⟨quiet₁, outcome⟩ := post
      obtain ⟨rfl, -⟩ | ⟨rfl, failed⟩ := outcome
      · refine (ih _ (quiet₁.locks listed)).weaken fun ret s₂ le₂ post =>
          ⟨quiet₁.trans post.1, post.2.imp_right fun failed => ⟨failed.1, ?_⟩⟩
        refine failed.2.imp (fun denied => denied.mono_left le₁) fun stale => ?_
        obtain ⟨e, mem, changed⟩ := stale.quiet quiet₁
        exact ⟨e, List.mem_cons_of_mem _ mem, changed⟩
      · refine (Quietly.forM locked s₁).bind fun _ s₂ le₂ quiet₂ => ?_
        refine .pure ⟨quiet₁.trans quiet₂, Or.inr ⟨rfl, ?_⟩⟩
        by_cases same : s.trie.entryUnchanged parent.entry = true
        · exact Or.inl ((failed listed same).mono_right le₂)
        · exact Or.inr ⟨parent, by simp, by simpa using same⟩

/-! ## The place before a key -/

/-- The place in the list after which a key belongs. -/
structure Layout.Precedes (L : Layout) (M : KeyMap) (key : List UInt8) (place : ListPlace) :
    Prop where
  lists : L.Lists place
  before : M.before key = place.map Prod.snd

/-- A copy of the predecessor is one of a place in the list. -/
theorem IsPredecessor.inList {key : List UInt8} (pred : IsPredecessor s.trie L lc (M.before key))
    (carries : s.Carries maps base L M) :
    s.trie.entryUnchanged lc = true ∧
      ∃ place, L.Precedes M key place ∧ lc.InList base s.trie L place := by
  obtain ⟨S, sound, rep⟩ := carries.represents
  cases before : M.before key with
  | none =>
    rw [before] at pred
    have same : lc = readMinLeaf s.trie := pred
    subst same
    have head : s.trie.cells (trieMinLeaf g) = headEntry L.first L.firstDirty :=
      sound.stores.head.trans rep.head
    refine ⟨by simp [readMinLeaf, Trie.entryUnchanged, Trie.localCopy, sameSeq], none,
      ⟨by simp [Layout.Lists], before⟩,
      .of_minLeaf carries.base_le (by rw [head]; rfl), ?_⟩
    exact congrArg Entry.content head
  | some kv' =>
    rw [before] at pred
    obtain ⟨p, hp, describes, -⟩ := pred
    refine ⟨describes.unchanged, some (p, kv'), ⟨fun p' kv'' same => ?_, before⟩,
      .of_reads describes.reads sound.stores carries.base_le, describes.content⟩
    cases same
    exact hp

theorem LocalCopy.InList.quiet (copy : lc.InList base s.trie L place) (quiet : Quiet s s') :
    lc.InList base s'.trie L place :=
  ⟨Tracks.of_quiet (X := ∅) quiet _ _ (Set.notMem_empty _) copy.tracked, copy.shows⟩

/-- A place in the list among the same nodes. -/
theorem LocalCopy.InList.sameNodes (copy : lc.InList base s.trie L place) (lists : L.Lists place)
    (same : L.SameNodes L') (tracks : Tracks base ∅ s s') : lc.InList base s'.trie L' place := by
  obtain ⟨tracked, shows⟩ := copy
  have tracked' := tracks _ _ (Set.notMem_empty _) tracked
  cases place with
  | none =>
    refine ⟨tracked', shows.trans ?_⟩
    rw [Layout.listEntry, Layout.listEntry, same.first, same.firstDirty]
  | some x =>
    have hx := lists x.1 x.2 rfl
    have color := same.color _ _ hx
    refine ⟨?_, shows.trans ?_⟩
    · rw [Layout.listSlot, Layout.slot, color]
      exact tracked'
    · simp [Layout.listEntry, Layout.entry, Layout.body, color, same.parent _ _ hx,
        same.link _ _ hx, same.dirty _ _ hx]

theorem LocalCopy.InList.congr (copy : lc.InList base s.trie L place)
    (slot : L'.listSlot g place = L.listSlot g place)
    (entry : L'.listEntry g place = L.listEntry g place) (tracks : Tracks base ∅ s s') :
    lc.InList base s'.trie L' place := by
  refine ⟨?_, copy.shows.trans entry.symm⟩
  rw [slot]
  exact tracks _ _ (Set.notMem_empty _) copy.tracked

/-- **The predecessor is fetched and locked**, or there is a reason to give up. -/
theorem lockPredecessor_spec {path : List PathEntry} {locator : PredLocator} {key : List UInt8}
    (whole : s.Whole maps base L M) (selects : L.Selects g M locator (M.before key)) :
    (do match ← getPredecessorAtomic path locator with
        | none => pure none
        | some predecessor =>
          if (← upgradeLock predecessor) ≠ .ok then pure none else pure (some predecessor) :
      CuckooTrie.M g (Option LocalCopy)).Returns s fun r s' => Quiet s s' ∧
        match r with
        | none => Denied s s' ∨ s.Stale path
        | some lc => ∃ place, L.Precedes M key place ∧ lc.InList base s'.trie L place := by
  refine (getPredecessorAtomic_spec whole.readable (whole.linked.navigable whole.shape)
    selects).bind fun r s₁ le₁ post => ?_
  obtain ⟨quiet₁, -, outcome⟩ := post
  cases r with
  | none =>
    refine .pure ⟨quiet₁, ?_⟩
    rcases outcome with denied | unlinked | stale
    · exact Or.inl denied
    · exact absurd whole.linked unlinked
    · exact Or.inr stale
  | some lc =>
    obtain ⟨current, place, precedes, copy⟩ := IsPredecessor.inList outcome whole.toCarries
    refine (Quietly.upgradeLock_spec lc s₁).bind fun ret s₂ le₂ post => ?_
    obtain ⟨quiet₂, locked⟩ := post
    obtain ⟨rfl, -⟩ | ⟨rfl, failed⟩ := locked
    · exact .pure ⟨quiet₁.trans quiet₂, place, precedes, copy.quiet (quiet₁.trans quiet₂)⟩
    · refine .pure ⟨quiet₁.trans quiet₂, Or.inl ?_⟩
      refine (failed (quiet₁.locks whole.listed) ?_).mono_left le₁
      rw [Trie.entryUnchanged, quiet₁.seq]
      exact current

/-! ## The end of an insert -/

/-- All links are right, and nothing is marked dirty but a place in the list. -/
structure Layout.Settled (L : Layout) (g : Geometry) (M : KeyMap) (place : ListPlace) : Prop where
  listed : L.Listed g M
  topped : L.Topped g M
  clean : ∀ p n, L.node p = some n → (∀ kv, place ≠ some (p, kv)) → L.dirty p = false
  first_clean : place ≠ none → L.firstDirty = false
  noDraft : ∀ p, L.draft p = none
  unclaimed : L.Unclaimed

/-- Marking the place clean changes no link. -/
theorem Layout.Settled.linked {d : Bool} (settled : L.Settled g M place) (clean : d = false) :
    (L.relink (L.listLink place) d place).Linked g M := by
  subst clean
  have link : (L.relink (L.listLink place) false place).link = L.link := by
    cases place with
    | none => rfl
    | some x => exact Function.update_eq_self _ _
  have first : (L.relink (L.listLink place) false place).first = L.first := by
    cases place <;> rfl
  have points : ∀ {lnk okv}, L.PointsTo g lnk okv →
      (L.relink (L.listLink place) false place).PointsTo g lnk okv := fun h =>
    h.congr Layout.node_relink Layout.color_relink
  constructor
  · intro p n hp
    rw [Layout.node_relink] at hp
    by_cases here : ∃ kv, place = some (p, kv)
    · obtain ⟨kv, rfl⟩ := here
      exact Function.update_self _ _ _
    · rw [Layout.dirty_relink_of_ne fun kv same => here ⟨kv, same⟩]
      exact settled.clean p n hp fun kv same => here ⟨kv, same⟩
  · cases place with
    | none => rfl
    | some x => exact settled.first_clean (by simp)
  · intro p kv hp
    rw [Layout.node_relink] at hp
    rw [link]
    exact points (settled.listed.next p kv hp)
  · intro q n hq inner
    rw [Layout.node_relink] at hq
    rw [link]
    exact points (settled.topped q n hq inner)
  · rw [first]
    exact points settled.listed.first

/-- **The end of an insert**: the place in the list is marked clean, and all locks are
released. -/
theorem Sys.Carries.settle (carries : s.Carries maps base L M) (orderly : s.Orderly base)
    (settled : L.Settled g M place) (copy : lc.InList base s.trie L place)
    (lists : L.Lists place) :
    (do let _ ← markEntryClean lc
        releaseAllLocks : CuckooTrie.M g Unit).Returns s fun _ s' =>
      s'.Unlocked ∧ ∃ K, s'.Whole maps base K M ∧ L.Stays K := by
  refine (carries.mark orderly.1 copy lists false).bind fun _ s₁ _ post => ?_
  obtain ⟨carries₁, -, -⟩ := post
  refine (releaseAllLocks_spec carries₁.listed).weaken fun _ s₂ _ post => ?_
  obtain ⟨quiet, unlocked⟩ := post
  have carries₂ := carries₁.quiet quiet
  obtain ⟨S, sound, rep⟩ := carries₂.represents
  refine ⟨unlocked, _, ⟨carries₂, settled.linked rfl, rep.finished (fun p => ?_) ⟨?_, ?_⟩⟩,
    .of_node Layout.node_relink Layout.color_relink⟩
  · rw [Layout.draft_relink]
    exact settled.noDraft p
  · rw [Layout.node_relink, Layout.parent_relink]
    exact settled.unclaimed.root
  · rw [Layout.node_relink, Layout.parent_relink]
    exact settled.unclaimed.jump

/-- All links are right but for greatest leaves on the way up from a node. -/
structure Layout.Unsettled (L : Layout) (g : Geometry) (M : KeyMap) (place : ListPlace)
    (x : List ℕ) : Prop where
  listed : L.Listed g M
  upTo : L.ToppedUpTo g M x
  clean : ∀ p n, L.node p = some n → (∀ kv, place ≠ some (p, kv)) → L.dirty p = false
  first_clean : place ≠ none → L.firstDirty = false
  noDraft : ∀ p, L.draft p = none
  unclaimed : L.Unclaimed

theorem Layout.Unsettled.settled (unsettled : L.Unsettled g M place x) (retopped : L.Retopped K)
    (topped : K.Topped g M) : K.Settled g M place where
  listed := retopped.listed unsettled.listed
  topped := topped
  clean p n hp away := by
    rw [retopped.node] at hp
    rw [retopped.dirty]
    exact unsettled.clean p n hp away
  first_clean some_ := by
    rw [retopped.firstDirty]
    exact unsettled.first_clean some_
  noDraft p := by
    rw [retopped.draft]
    exact unsettled.noDraft p
  unclaimed := ⟨by rw [retopped.node, retopped.parent]; exact unsettled.unclaimed.root,
    by rw [retopped.node, retopped.parent]; exact unsettled.unclaimed.jump⟩

/-- The copy of a place in the list is not one of an inner node. -/
theorem LocalCopy.InList.retopped (copy : lc.InList base s.trie L place) (lists : L.Lists place)
    (retopped : L.Retopped K) (tracks : Tracks base ∅ s s') : lc.InList base s'.trie K place := by
  refine copy.congr ?_ ?_ tracks
  · cases place with
    | none => rfl
    | some x => rw [Layout.listSlot, Layout.listSlot, Layout.slot, Layout.slot, retopped.color]
  · cases place with
    | none => rw [Layout.listEntry, Layout.listEntry, retopped.first, retopped.firstDirty]
    | some x =>
      have hx := lists x.1 x.2 rfl
      simp [Layout.listEntry, Layout.entry, Layout.body, retopped.color, retopped.parent,
        retopped.dirty, retopped.link _ _ hx]

/-- **After the new nodes are linked into the tree** and into the list, the greatest leaves are
set right, the place in the list is marked clean, and all locks are released. -/
theorem Sys.Carries.finish {child predecessor : LocalCopy} {above : List PathEntry}
    (carries : s.Carries maps base L M) (unsettled : L.Unsettled g M place x)
    (trail : TrailAbove base s.trie L x above) (hx : L.node x = some n) (inner : n.isInner = true)
    (symbol : child.value.lastSymbol = x.getLastD 0) (link : child.value.body.maxLeaf = L.link x)
    (copy : predecessor.InList base s.trie L place) (lists : L.Lists place) :
    Regularly base (do
      CuckooTrie.propagateMaxLeaf child above
      let _ ← markEntryClean predecessor
      releaseAllLocks : CuckooTrie.M g Unit) s fun _ s' =>
        s'.Unlocked ∧ ∃ K, s'.Whole maps base K M ∧ L.Stays K := by
  refine Regularly.bind (carries.propagateMaxLeaf trail hx inner symbol link unsettled.upTo)
    fun _ s₁ _ orderly₁ post => ?_
  obtain ⟨K, retopped, topped, carries₁, tracks₁⟩ := post
  have lists₁ : K.Lists place := fun p kv here => by
    rw [retopped.node]
    exact lists p kv here
  refine Prog.Returns.ensures ((carries₁.settle orderly₁ (unsettled.settled retopped topped)
    (copy.retopped lists retopped tracks₁) lists₁).weaken fun _ s₂ _ post => ?_)
  obtain ⟨unlocked, K', whole, stays⟩ := post
  exact ⟨unlocked, K', whole, .trans (.of_node retopped.node retopped.color) stays⟩

end CuckooTrie
