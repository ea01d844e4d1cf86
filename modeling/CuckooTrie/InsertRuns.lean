import CuckooTrie.FingerPath
import CuckooTrie.LeafSplitting
import CuckooTrie.JumpSplitting
import CuckooTrie.Rebinding
import CuckooTrie.RootCreation

/-!
# Runs of an insert

What an attempt to insert an object does to the map (`Attempt`): it puts the object in, finds its
key, or changes nothing and asks to be repeated.  It is repeated because it was obstructed, or
because a jump node was split on the way; then the next attempt finds a bitmap there
(`ctInsertInternal_spec`).  An update replaces the object in the leaf of its key, or changes
nothing (`ctUpdateInternal_spec`).
-/

namespace CuckooTrie

open Sys

variable {g : Geometry} {maps : Set KeyMap} {base : ℕ → ℕ} {s s' s'' : Sys g} {t : Trie g}
  {L K : Layout} {M : KeyMap} {S : Store} {p q x : List ℕ} {n : Node} {lc : LocalCopy}
  {kv old : CtKv} {children symbol : ℕ} {isUpsert : Bool}

/-! ## How an attempt ends -/

/-- How an attempt to insert an object into the trie of a layout ends.  Without an obstruction it
is repeated only if it split a jump node, so that now the key leaves the layout in a bitmap. -/
inductive Attempt (maps : Set KeyMap) (base : ℕ → ℕ) (L : Layout) (M : KeyMap) (kv : CtKv)
    (isUpsert : Bool) (s s' : Sys g) : InternalStatus → Prop
  | ok {K : Layout} : M.find kv.key = none → s'.Whole maps base K (M.insert kv) → L.Stays K →
      Attempt maps base L M kv isUpsert s s' .ok
  | exist {K : Layout} {old : CtKv} : M.find kv.key = some old →
      s'.Whole maps base K (if isUpsert then M.insert kv else M) → L.Stays K →
      Attempt maps base L M kv isUpsert s s' .exist
  | obstructed {K : Layout} : s'.Whole maps base K M → L.Stays K → Obstructed s s' →
      Attempt maps base L M kv isUpsert s s' .retry
  | split {K : Layout} {q : List ℕ} {children symbol : ℕ} : s'.Whole maps base K M → L.Stays K →
      (∀ q children symbol, ¬ L.Misses q children symbol kv) → K.Misses q children symbol kv →
      Attempt maps base L M kv isUpsert s s' .retry
  | fail {K : Layout} : M.find kv.key = none → s'.Littered maps base K M →
      Attempt maps base L M kv isUpsert s s' .fail

/-- A phase that gives up only if it is obstructed ends the attempt. -/
theorem Phase.attempt {ret : InternalStatus}
    (phase : Phase maps base L M kv (Obstructed s s') s' ret) (new : M.find kv.key = none) :
    Attempt maps base L M kv isUpsert s s' ret := by
  cases phase with
  | ok whole stays _ => exact .ok new whole stays
  | retry whole stays _ reason => exact .obstructed whole stays reason
  | fail littered _ => exact .fail new littered

theorem Attempt.mono_left {ret : InternalStatus} (attempt : Attempt maps base L M kv isUpsert s s' ret)
    (le : s'' ≤ s) (le' : s ≤ s') : Attempt maps base L M kv isUpsert s'' s' ret := by
  cases attempt with
  | ok new whole stays => exact .ok new whole stays
  | exist found whole stays => exact .exist found whole stays
  | obstructed whole stays reason => exact .obstructed whole stays (reason.mono_left le le')
  | split whole stays before misses => exact .split whole stays before misses
  | fail new littered => exact .fail new littered

/-- What is left to do after an attempt is quiet. -/
theorem Phase.quiet {reason : Prop} {ret : InternalStatus}
    (phase : Phase maps base L M kv reason s ret) (quiet : Quiet s s') (unlocked : s'.Unlocked) :
    Phase maps base L M kv reason s' ret := by
  cases phase with
  | ok whole stays _ => exact .ok (whole.quiet quiet) stays unlocked
  | retry whole stays _ because => exact .retry (whole.quiet quiet) stays unlocked because
  | fail littered _ => exact .fail (littered.quiet quiet) unlocked

theorem Phase.listed {reason : Prop} {ret : InternalStatus}
    (phase : Phase maps base L M kv reason s ret) : LocksListed s := by
  cases phase with
  | ok whole _ _ => exact whole.listed
  | retry whole _ _ _ => exact whole.listed
  | fail littered _ => exact littered.listed

/-! ## Where a walk leaves the layout -/

/-- The path of a walk that was just made is up to date. -/
theorem Spine.not_stale {path : List PathEntry} (spine : Spine s.trie L p path) :
    ¬ s.Stale path := by
  rintro ⟨e, mem, changed⟩
  induction spine with
  | root _ describes =>
    rw [List.mem_singleton.mp mem, describes.unchanged] at changed
    cases changed
  | child _ _ _ describes _ ih =>
    rcases List.mem_cons.mp mem with rfl | mem
    · rw [describes.unchanged] at changed
      cases changed
    · exact ih mem

/-- A key that leaves the layout in a bitmap leaves it nowhere else. -/
theorem Layout.Misses.position {depth : ℕ} {c : ℕ} (misses : L.Misses q children symbol kv)
    (shape : L.Shape M) (pos : L.Position p n depth x) (onKey : x ++ [c] <+: keySymbols kv.key)
    (ends : ¬ n.Continues depth c) : p = q ∧ n = .bitmap children := by
  have up := pos.isPrefix.trans ((List.prefix_append _ _).trans onKey)
  have above : q <+: p := pos.deepest shape ((List.prefix_append _ _).trans onKey)
    (Or.inr ⟨c, onKey, ends⟩) misses.bitmap ((List.prefix_append _ _).trans misses.onPath)
  by_cases same : q = p
  · subst same
    exact ⟨rfl, Option.some.inj (pos.node.symm.trans misses.bitmap)⟩
  · -- below the bitmap, on the path of the key, there is no node
    have longer : q.length < p.length :=
      lt_of_le_of_ne above.length_le fun equal => same (above.eq_of_length equal)
    have below : q ++ [symbol] <+: p :=
      List.prefix_of_prefix_length_le misses.onPath up (by simpa using longer)
    exact absurd pos.node (by simp [shape.none_of_clear misses.bitmap misses.clear below])

/-! ## The leaf of a new key -/

/-- A finger at the start of an inner node. -/
theorem Finger.AtPosition.atNode {f : Finger} (at_ : f.AtPosition s.trie L p n p true)
    (inner : n.isInner = true) (carries : s.Carries maps base L M) :
    f.AtNode base s.trie L p n := by
  obtain ⟨S, sound, -⟩ := carries.represents
  have hp := at_.position.node
  have spine := at_.spine rfl
  obtain ⟨e, above, m, path, hm, describes, hash⟩ := spine.head
  cases hm.symm.trans hp
  refine ⟨hp, ⟨above, ?_⟩, .of_spine spine hp inner sound.stores carries.base_le, at_.prefixHash⟩
  rw [path, at_.prefixHash, ← hash, ← describes.unique at_.entry sound.stores]

/-- **`create_leaf`** for a key that is not in the map. -/
theorem createLeaf_spec {f : Finger} (isUpsert : Bool) (whole : s.Whole maps base L M)
    (at_ : f.AtPosition s.trie L p n x true) (onKey : x ++ [symbol] <+: keySymbols kv.key)
    (ends : ¬ n.Continues f.depthInJump symbol) (new : M.find kv.key = none)
    (mem : M.insert kv ∈ maps) :
    Regularly base (createLeaf f kv symbol) s fun ret s' =>
      Attempt maps base L M kv isUpsert s s' ret := by
  have shape := whole.shape
  have body := at_.entry.body
  obtain ⟨hp, place⟩ := at_.position
  rw [createLeaf, body]
  cases n with
  | leaf kv₀ =>
    obtain ⟨-, rfl⟩ := place
    have ne : kv₀.key ≠ kv.key := KeyMap.find_eq_none_iff.mp new kv₀ (shape.leaf _ _ hp).1
    refine Prog.Ensures.ite (fun same => absurd (kvKeyCompareTo_eq_zero_iff.mp same) ne) fun _ => ?_
    refine (splitLeaf_spec whole at_ ((List.prefix_append _ _).trans onKey) ne
      (decide_eq_true_iff.trans kvKeyCompareTo_lt_zero_iff) mem).weaken fun ret s' _ _ phase => ?_
    exact (phase.mono fun reason => reason.resolve_right (at_.spine rfl).not_stale).attempt new
  | bitmap children =>
    obtain ⟨-, rfl⟩ := place
    have clear : children.testBit symbol = false := by simpa [Node.Continues] using ends
    have misses : L.Misses x children symbol kv := ⟨hp, clear, onKey⟩
    refine (createLeafAtBitmap_spec whole (at_.atNode rfl whole.toCarries) misses mem).weaken
      fun ret s' _ _ phase => ?_
    refine Phase.attempt (phase.mono fun reason => ?_) new
    exact reason.resolve_right fun stale => (at_.spine rfl).not_stale stale.1
  | jump symbols =>
    obtain ⟨inside, rfl⟩ := place
    obtain ⟨a, c, b, rfl, depth⟩ : ∃ a c b, symbols = a ++ c :: b ∧ f.depthInJump = a.length := by
      refine ⟨symbols.take f.depthInJump, symbols[f.depthInJump], symbols.drop (f.depthInJump + 1),
        ?_, ?_⟩
      · rw [List.cons_getElem_drop_succ, List.take_append_drop]
      · rw [List.length_take, min_eq_left inside.le]
    rw [depth, List.take_left] at at_ onKey
    have elsewhere : ∀ q children symbol, ¬ L.Misses q children symbol kv :=
      fun q children symbol misses => by
        cases (misses.position shape at_.position onKey ends).2
    have ne : c ≠ symbol := by
      rintro rfl
      exact ends (by simp [Node.Continues, depth])
    change Regularly base (splitJumpNode f >>= _) s _
    refine Regularly.bind (splitJumpNode_spec kv whole at_ depth) fun r s₁ le₁ _ split => ?_
    cases split with
    | @split K f' whole₁ stays₁ unlocked₁ at₁ =>
      have misses : K.Misses (p ++ a) (setChildBit 0 c) symbol kv := ⟨at₁.node, by simp [ne.symm], onKey⟩
      refine (createLeafAtBitmap_spec whole₁ at₁ misses mem).weaken fun ret s' le₂ _ phase => ?_
      cases phase with
      | ok whole' stays _ => exact .ok new whole' (stays₁.trans stays)
      | fail littered _ => exact .fail new littered
      | retry whole' stays _ reason =>
        obtain obstructed | ⟨-, quiet⟩ := reason
        · exact .obstructed whole' (stays₁.trans stays) (obstructed.mono_left le₁ le₂)
        · exact .split (whole₁.quiet quiet) stays₁ elsewhere misses
    | @gaveUp ret f' notOk phase =>
      have done : Regularly base (do releaseAllLocks; pure ret : CuckooTrie.M g InternalStatus) s₁
          fun ret s' => Attempt maps base L M kv isUpsert s s' ret := by
        refine Prog.Returns.ensures ((releaseAllLocks_spec phase.listed).bind
          fun _ s₂ le₂ post => .pure ?_)
        refine Phase.attempt (phase.quiet post.1 post.2 |>.mono fun reason => ?_) new
        exact reason.mono_right le₁ le₂
      cases ret with
      | ok => exact absurd rfl notOk
      | retry => exact done
      | fail => exact done
      | exist => exact done

/-! ## A key that is found -/

/-- Replacing an object keeps all nodes. -/
theorem Layout.Stays.rebind (L : Layout) (kv : CtKv) : L.Stays (L.rebind kv) := fun r n hr => by
  refine ⟨?_, rfl⟩
  rw [node_rebind, hr]
  exact Option.some_ne_none _

/-- **The end of an update or of an upsert**: the object in the leaf of the key is replaced, unless
the lock of the leaf is denied. -/
theorem rebindLeaf_spec (result : InternalStatus) (whole : s.Whole maps base L M)
    (describes : lc.Describes s.trie L p (.leaf old)) (hp : L.node p = some (.leaf old))
    (found : M.find kv.key = some old) (mem : M.insert kv ∈ maps) :
    Regularly base (do
      match ← upgradeLock lc with
      | .ok =>
        let _ ← updateEntry lc { lc.value with body := lc.value.body.setKv kv }
        releaseAllLocks
        pure result
      | _ => pure .retry : CuckooTrie.M g InternalStatus) s fun ret s' =>
        ret = result ∧ s'.Whole maps base (L.rebind kv) (M.insert kv) ∨
          ret = .retry ∧ s'.Whole maps base L M ∧ Denied s s' := by
  obtain ⟨mem₀, same⟩ := KeyMap.find_eq_some_iff.mp found
  refine Regularly.bind (Prog.Returns.ensures (Quietly.upgradeLock_spec lc s))
    fun ret s₁ _ orderly₁ post => ?_
  obtain ⟨quiet, outcome⟩ := post
  have whole₁ := whole.quiet quiet
  obtain ⟨rfl, -⟩ | ⟨rfl, denied⟩ := outcome
  · obtain ⟨S, sound, -⟩ := whole₁.represents
    have mirrors := (describes.congr quiet.cells quiet.seq).mirrors sound.stores whole₁.base_le
    have shown : (L.rebind kv).entry g p (.leaf kv) =
        { L.entry g p (.leaf old) with body := (L.entry g p (.leaf old)).body.setKv kv } := rfl
    have content : ({ lc.value with body := lc.value.body.setKv kv } : Entry).content =
        (L.rebind kv).entry g p (.leaf kv) := by
      rw [shown, ← mirrors.shows]
      rfl
    have becomes : L.Becomes g M (L.slot g p)
        ({ lc.value with body := lc.value.body.setKv kv } : Entry).content (L.rebind kv)
        (M.insert kv) := by
      rw [content]
      exact fun S rep => rep.rebind hp mem₀ same
    refine Regularly.bind (Prog.Returns.ensures (whole₁.toCarries.updateEntry orderly₁.1 mirrors.tracked
      (fun S rep => rep.get_slot (Layout.all_of_node hp)) rfl rfl rfl
      (congrArg (fun e : Entry => e.body.used) content) becomes mem))
      fun _ s₂ _ _ post => ?_
    obtain ⟨carries₂, -⟩ := post
    have whole₂ : s₂.Whole maps base (L.rebind kv) (M.insert kv) :=
      ⟨carries₂, whole.linked.rebind mem₀ same, whole.finished.rebind⟩
    exact Prog.Returns.ensures ((releaseAllLocks_spec whole₂.listed).bind
      fun _ s₃ _ post => .pure (Or.inl ⟨rfl, whole₂.quiet post.1⟩))
  · exact .pure (Or.inr ⟨rfl, whole₁, denied whole.listed describes.unchanged⟩)

/-! ## One attempt -/

/-- **`ct_insert_internal` below the root**. -/
theorem insertBelowRoot_spec {f : Finger} (whole : s.Whole maps base L M)
    (at_ : f.AtPosition s.trie L [] n [] true) (mem : M.insert kv ∈ maps) :
    Regularly base (insertBelowRoot f kv isUpsert) s fun ret s' =>
      Attempt maps base L M kv isUpsert s s' ret := by
  have readable := whole.readable
  obtain ⟨f', symbol, walk, exits⟩ := descend_spec readable at_ kv.key
  rw [insertBelowRoot]
  refine Regularly.bind (Q := fun r s' => r = (f', symbol) ∧ s' = s)
    (Prog.Returns.ensures (.find walk ⟨rfl, rfl⟩)) ?_
  rintro _ s - - ⟨rfl, rfl⟩
  cases found : M.find kv.key with
  | some old =>
    obtain ⟨mem₀, same⟩ := KeyMap.find_eq_some_iff.mp found
    obtain ⟨p, hp, describes⟩ := (same ▸ exits).leaf readable.shape mem₀
    refine Regularly.bind (Prog.Returns.ensures (createLeaf_exist describes same _)) ?_
    rintro _ s - - ⟨rfl, rfl⟩
    cases isUpsert with
    | true =>
      refine (rebindLeaf_spec .exist whole describes hp found mem).mono fun ret s' post => ?_
      obtain ⟨rfl, whole'⟩ | ⟨rfl, whole', denied⟩ := post
      · exact .exist found whole' (.rebind L kv)
      · exact .obstructed whole' (.refl L) (Or.inl denied)
    | false => exact .pure (.exist found whole (.refl L))
  | none =>
    cases symbol with
    | none =>
      obtain ⟨kv', mem', same, -⟩ := exits_end readable.shape exits
      exact absurd same (KeyMap.find_eq_none_iff.mp found kv' mem')
    | some symbol =>
      obtain ⟨p, n, x, at', onKey, ends⟩ := exits
      refine Regularly.bind (createLeaf_spec isUpsert whole at' onKey ends found mem)
        fun ret s' _ _ attempt => ?_
      -- the key was not found, so the result stays
      have other : ret ≠ .exist := by
        rintro rfl
        cases attempt with
        | exist found' =>
          rw [found] at found'
          cases found'
      rw [if_neg (by simp [other])]
      exact .pure attempt

/-- A table at rest between two attempts: it carries a layout without drafts, and no lock is
held. -/
structure Sys.Rests (s : Sys g) (maps : Set KeyMap) (base : ℕ → ℕ) (L : Layout) (M : KeyMap) :
    Prop extends s.Whole maps base L M where
  counted : Counted (fun _ => false) ⊤ 0 0 s

namespace Sys.Rests

theorem unlocked (rests : s.Rests maps base L M) : s.Unlocked := fun b =>
  congrFun rests.counted.held.kept_none.idle.bytes b

theorem rebase (rests : s.Rests maps base L M) : s.Rests maps s.trie.seq L M :=
  ⟨rests.toWhole.rebase, rests.counted⟩

theorem wellFormed (rests : s.Rests maps base L M) : WellFormed s.trie M :=
  rests.toWhole.wellFormed rests.unlocked

end Sys.Rests

/-- **`ct_insert_internal`**, with the locks of an empty trie allowed. -/
theorem ctInsertInternal_spec (rests : s.Rests maps base L M)
    (allowed : M.kvs = [] → s.env s.checks = true) (mem : M.insert kv ∈ maps) :
    Regularly base (ctInsertInternal kv isUpsert) s fun ret s' =>
      Attempt maps base L M kv isUpsert s s' ret ∧ Counted (fun _ => false) ⊤ 0 0 s' := by
  refine (rests.counted.ctInsertInternal (Trie.slotsFit_top _ kv) le_top isUpsert).and_ensures ?_
  have checks : (initLockMgr : CuckooTrie.M g Unit).Returns s fun _ s' => s'.checks = s.checks :=
    ⟨(), rfl, rfl⟩
  rw [ctInsertInternal]
  refine Regularly.bind (Prog.Returns.ensures ((initLockMgr_spec rests.unlocked).and checks))
    fun _ s₁ le₁ _ post => ?_
  obtain ⟨⟨quiet, unlocked⟩, same⟩ := post
  have whole := rests.toWhole.quiet quiet
  refine Regularly.bind (Q := fun t s' => t = s₁.trie ∧ s' = s₁)
    (Prog.Returns.ensures (.read ⟨rfl, rfl⟩)) ?_
  rintro _ s₁ - - ⟨rfl, rfl⟩
  by_cases empty : M.kvs = []
  · rw [initFinger_empty whole.readable empty]
    refine Regularly.bind (Prog.Returns.ensures (createRoot_spec kv whole unlocked empty ?_ mem)) ?_
    · rw [same, le₁.env]
      exact allowed empty
    · rintro _ s₂ - - ⟨rfl, -, K, whole₂, stays⟩
      refine .pure (.ok ?_ whole₂ stays)
      rw [KeyMap.find, empty]
      rfl
  · obtain ⟨f, n, init, at_⟩ := initFinger_spec whole.readable empty true
    rw [init]
    exact (insertBelowRoot_spec whole at_ mem).weaken fun ret s' le₂ _ attempt =>
      attempt.mono_left le₁ le₂

/-! ## One attempt to update -/

/-- How an attempt to replace the object of a key ends. -/
inductive UpdateAttempt (maps : Set KeyMap) (base : ℕ → ℕ) (L : Layout) (M : KeyMap) (kv : CtKv)
    (s s' : Sys g) : InternalStatus → Prop
  | ok {old : CtKv} : M.find kv.key = some old →
      s'.Whole maps base (L.rebind kv) (M.insert kv) → UpdateAttempt maps base L M kv s s' .ok
  | obstructed : s'.Whole maps base L M → Denied s s' →
      UpdateAttempt maps base L M kv s s' .retry
  | fail : M.find kv.key = none → s'.Whole maps base L M →
      UpdateAttempt maps base L M kv s s' .fail

/-- **`ct_update_internal`**. -/
theorem ctUpdateInternal_spec (rests : s.Rests maps base L M) (mem : M.insert kv ∈ maps) :
    Regularly base (ctUpdateInternal kv) s fun ret s' =>
      UpdateAttempt maps base L M kv s s' ret ∧ Counted (fun _ => false) ⊤ 0 0 s' := by
  refine (rests.counted.ctUpdateInternal kv le_top).and_ensures ?_
  cases found : M.find kv.key with
  | none =>
    refine Prog.Returns.ensures ((ctUpdateInternal_absent rests.unlocked rests.readable
      (KeyMap.find_eq_none_iff.mp found)).weaken ?_)
    rintro _ s' - ⟨rfl, quiet⟩
    exact .fail found (rests.toWhole.quiet quiet)
  | some old =>
    obtain ⟨mem₀, same⟩ := KeyMap.find_eq_some_iff.mp found
    rw [ctUpdateInternal]
    refine Regularly.bind (Prog.Returns.ensures (initLockMgr_spec rests.unlocked))
      fun _ s₁ le₁ _ post => ?_
    have whole := rests.toWhole.quiet post.1
    obtain ⟨f, f', symbol, p, init, walk, hp, describes⟩ :=
      walk_to_leaf whole.readable mem₀ same false
    refine Regularly.bind (Q := fun t s' => t = s₁.trie ∧ s' = s₁)
      (Prog.Returns.ensures (.read ⟨rfl, rfl⟩)) ?_
    rintro _ s₁ - - ⟨rfl, rfl⟩
    rw [init]
    refine Regularly.bind (Q := fun r s' => r = (f', symbol) ∧ s' = s₁)
      (Prog.Returns.ensures (.find walk ⟨rfl, rfl⟩)) ?_
    rintro _ s₁ - - ⟨rfl, rfl⟩
    have body := describes.body
    refine Prog.Ensures.ite (fun inner => ?_) fun _ => ?_
    · rw [body] at inner
      cases inner
    refine Prog.Ensures.ite (fun differ => ?_) fun _ => ?_
    · rw [body] at differ
      exact absurd (kvKeyCompareTo_eq_zero_iff.mpr same) differ
    refine (rebindLeaf_spec .ok whole describes hp found mem).weaken fun ret s' _ _ post => ?_
    obtain ⟨rfl, whole'⟩ | ⟨rfl, whole', denied⟩ := post
    · exact .ok found whole'
    · exact .obstructed whole' (denied.mono_left le₁)

end CuckooTrie
