import CuckooTrie.InsertStates

/-!
# The first object

`create_root` puts the first object into an empty trie (`createRoot_spec`).  The root is written
into the first cell of the table while the flag `is_empty` is still set, so all memories on the
way stand for the empty map: the root is a draft in them.  The list head is set field by field,
and clearing the flag publishes the object.
-/

namespace CuckooTrie

open Sys

variable {g : Geometry} {maps : Set KeyMap} {base : ℕ → ℕ} {s s' : Sys g} {t : Trie g}
  {L K : Layout} {M : KeyMap} {S : Store} {p : List ℕ} {n : Node} {kv : CtKv} {lnk : Locator}

/-! ## Empty layouts -/

namespace Layout

/-- A trie for the empty map has no nodes. -/
theorem Shape.none_of_empty (shape : L.Shape M) (empty : M.kvs = []) (p : List ℕ) :
    L.node p = none := by
  have noObject : ∀ kv, kv ∉ M := fun kv mem => List.ne_nil_of_mem mem empty
  rw [Option.eq_none_iff_forall_not_mem]
  intro n hp
  cases n with
  | leaf kv => exact noObject kv (shape.leaf p kv hp).1
  | bitmap children =>
    obtain ⟨kv, mem, -⟩ := shape.live p _ hp rfl
    exact noObject kv mem
  | jump symbols =>
    obtain ⟨kv, mem, -⟩ := shape.live p _ hp rfl
    exact noObject kv mem

/-- The link of the last leaf. -/
def lastLink : Locator := ⟨endOfList, 0, 0⟩

/-- The layout of an empty trie with the root written. -/
def draftRoot (L : Layout) (kv : CtKv) : Layout :=
  L.draftAt [] (.leaf kv) rootColor invalidColor lastLink

/-- The layout of a trie with one object. -/
def rootOnly (L : Layout) (g : Geometry) (kv : CtKv) : Layout :=
  ((L.draftRoot kv).setFirst ((L.draftRoot kv).locator g []) false).publish [] (.leaf kv) lastLink

@[simp] theorem link_rootOnly : (L.rootOnly g kv).link [] = lastLink := by
  simp [rootOnly, publish]

@[simp] theorem color_rootOnly : (L.rootOnly g kv).color [] = rootColor := by
  simp [rootOnly, publish, setFirst, draftRoot, draftAt]

@[simp] theorem parent_rootOnly : (L.rootOnly g kv).parent [] = invalidColor := by
  simp [rootOnly, publish, setFirst, draftRoot, draftAt]

@[simp] theorem dirty_rootOnly : (L.rootOnly g kv).dirty [] = false := by
  simp [rootOnly, publish, setFirst, draftRoot, draftAt]

variable (bare : ∀ p, L.all p = none)

include bare in
theorem all_draftRoot (p : List ℕ) :
    (L.draftRoot kv).all p = if p = [] then some (.leaf kv) else L.all p :=
  all_draftAt (none_of_all (bare [])) p

include bare in
theorem node_rootOnly (p : List ℕ) :
    (L.rootOnly g kv).node p = if p = [] then some (.leaf kv) else none := by
  have none_ : L.node p = none := none_of_all (bare p)
  have draft : L.draft p = none := (Option.or_eq_none_iff.mp (bare p)).2
  by_cases root : p = []
  · simp [rootOnly, publish, root]
  · simp [rootOnly, publish, setFirst, draftRoot, draftAt, all, root, none_, draft]

include bare in
/-- The only node is the leaf. -/
theorem eq_of_node_rootOnly (hp : (L.rootOnly g kv).node p = some n) : p = [] ∧ n = .leaf kv := by
  rw [node_rootOnly bare] at hp
  split at hp
  · next root => exact ⟨root, (Option.some.inj hp).symm⟩
  · cases hp

include bare in
/-- **One leaf is a trie** for one object. -/
theorem shape_rootOnly (empty : M.kvs = []) : (L.rootOnly g kv).Shape (M.insert kv) where
  parent p n hp := Or.inl (eq_of_node_rootOnly bare hp).1
  child q p child := by
    obtain ⟨n, hq, inner⟩ := child.inner
    obtain ⟨-, rfl⟩ := eq_of_node_rootOnly bare hq
    cases inner
  bitmap q children hq := by cases (eq_of_node_rootOnly bare hq).2
  jump q symbols hq := by cases (eq_of_node_rootOnly bare hq).2
  jump_child q symbols n hq := by cases (eq_of_node_rootOnly bare hq).2
  leaf p kv' hp := by
    obtain ⟨rfl, same⟩ := eq_of_node_rootOnly bare hp
    cases same
    exact ⟨KeyMap.self_mem_insert, List.nil_prefix⟩
  key kv' mem := by
    rcases KeyMap.mem_insert.mp mem with rfl | ⟨old, -⟩
    · exact ⟨[], (node_rootOnly bare _).trans (if_pos rfl)⟩
    · exact absurd empty (List.ne_nil_of_mem old)
  live q n hq inner := by
    obtain ⟨-, rfl⟩ := eq_of_node_rootOnly bare hq
    cases inner

include bare in
/-- **Its links** end the list. -/
theorem linked_rootOnly (empty : M.kvs = []) : (L.rootOnly g kv).Linked g (M.insert kv) where
  clean p n hp := by
    obtain ⟨rfl, -⟩ := eq_of_node_rootOnly bare hp
    exact dirty_rootOnly
  first_clean := rfl
  next p kv' hp := by
    obtain ⟨rfl, same⟩ := eq_of_node_rootOnly bare hp
    cases same
    have last : (M.insert kv).after kv.key = none := by
      refine KeyMap.first_eq_none_iff.mpr fun kv' mem => ?_
      rcases KeyMap.mem_insert.mp mem with rfl | ⟨old, -⟩
      · exact lt_irrefl _
      · exact absurd empty (List.ne_nil_of_mem old)
    rw [last, link_rootOnly]
    rfl
  max q n hq inner := by
    obtain ⟨-, rfl⟩ := eq_of_node_rootOnly bare hq
    cases inner
  first := by
    have first : ((M.insert kv).first fun _ => True) = some kv := by
      refine KeyMap.first_eq_some_iff.mpr ⟨KeyMap.self_mem_insert, trivial, fun kv' mem _ => ?_⟩
      rcases KeyMap.mem_insert.mp mem with rfl | ⟨old, -⟩
      · exact le_rfl
      · exact absurd empty (List.ne_nil_of_mem old)
    rw [first]
    exact ⟨[], (node_rootOnly bare _).trans (if_pos rfl), rfl⟩

include bare in
theorem finished_rootOnly : (L.rootOnly g kv).Finished where
  no_draft _ := rfl
  parent p n hp := by
    obtain ⟨rfl, -⟩ := eq_of_node_rootOnly bare hp
    rw [parent_rootOnly, Shape.parentColor_root]

include bare in
/-- **Clearing the flag** publishes the root. -/
theorem Represents.rootOnly (empty : M.kvs = [])
    (rep : ((L.draftRoot kv).setFirst ((L.draftRoot kv).locator g []) false).Represents g S M) :
    (L.rootOnly g kv).Represents g { S with isEmpty := false } (M.insert kv) := by
  have root : ((L.draftRoot kv).setFirst ((L.draftRoot kv).locator g []) false).all [] =
      some (.leaf kv) := (all_draftRoot bare []).trans (if_pos rfl)
  have all : (L.rootOnly g kv).all =
      ((L.draftRoot kv).setFirst ((L.draftRoot kv).locator g []) false).all := by
    funext p
    rw [Layout.rootOnly, all_publish]
    split
    · next here => rw [here, root]
    · rfl
  have entry : ∀ p n, (L.rootOnly g kv).entry g p n =
      ((L.draftRoot kv).setFirst ((L.draftRoot kv).locator g []) false).entry g p n := by
    intro p n
    have link : (L.rootOnly g kv).link =
        ((L.draftRoot kv).setFirst ((L.draftRoot kv).locator g []) false).link :=
      Function.update_idem ..
    cases n <;> simp only [Layout.entry, body, link] <;> rfl
  constructor
  · refine ⟨fun p n hp => ?_, fun h c e stored => ?_, fun p p' n n' hp hp' => ?_, fun p n hp => ?_,
      fun p n hp => ?_, rep.head⟩
    · rw [all] at hp
      rw [entry]
      exact rep.stored p n hp
    · rw [all]
      exact rep.only h c e stored
    · rw [all] at hp hp'
      exact rep.distinct p p' n n' hp hp'
    · rw [all] at hp
      exact rep.symbols p n hp
    · rw [all] at hp
      exact rep.valid p n hp
  · exact shape_rootOnly bare empty
  · intro q children s hq
    cases (eq_of_node_rootOnly bare hq).2
  · exact fun _ => color_rootOnly
  · exact iff_of_false (by simp) KeyMap.insert_nonempty

end Layout

/-! ## The stores -/

/-- The entry of the root as `create_root` writes it. -/
def rootEntry (kv : CtKv) : Entry :=
  ⟨invalidColor, false, false, rootColor, hashToTag hashStartValue, 0, .leaf kv ⟨endOfList, 0, 0⟩⟩

/-- **The root is written** while the trie still counts as empty. -/
theorem Sys.Carries.writeRoot (carries : s.Carries maps base L M) (bare : ∀ p, L.all p = none) :
    (CuckooTrie.writeEntry rootLoc (rootEntry kv) : CuckooTrie.M g Unit).Returns s fun _ s' =>
      s'.Carries maps base (L.draftRoot kv) M := by
  obtain ⟨S, sound, rep⟩ := carries.represents
  have free : ∀ h c, S.entry h c = none := fun h c => by
    rw [Option.eq_none_iff_forall_not_mem]
    intro e stored
    obtain ⟨p, n, hp, -⟩ := rep.only h c e stored
    rw [bare p] at hp
    cases hp
  have inTable : rootLoc.bucket < g.numBuckets := g.numBuckets_pos
  have unused : (s.trie.cells rootLoc).body.used = false := by
    by_contra used
    have stored := sound.stores.content _ _ _ ⟨inTable, by simpa using used, rfl, rfl⟩
    rw [free] at stored
    cases stored
  have content : (rootEntry kv).content = (L.draftRoot kv).entry g [] (.leaf kv) := by
    rw [Layout.draftRoot, Layout.entry_draftAt (by simp)]
    rfl
  have rep' : (L.draftRoot kv).Represents g (S.set 0 0 (rootEntry kv).content) M := by
    rw [content]
    exact rep.draftAt (bare []) (fun q symbols hq => absurd ((bare q).symm.trans hq) (by simp))
      (by simp) (free _ _) (Nat.zero_le _)
  have stores' := sound.stores.add (s.trie.puts_write rootLoc (rootEntry kv)) inTable unused
    rfl (hashToTag_lt _) (Nat.zero_le _) (h := 0) (c := 0) rfl rfl (free 0 0) fun _ _ => rfl
  refine .update ?_
  exact carries.later (Sys.le_stored fun _ => Trie.seq_write _ _ _ _)
    ⟨_, sound.stored stores' ⟨M, carries.mem, _, rep'⟩ rfl, rep'⟩ carries.mem

/-- **A store into the link of the list head**. -/
theorem Sys.Carries.storeFirst (carries : s.Carries maps base K M) (f : Locator → Locator) :
    (storeMinLeafNext f : CuckooTrie.M g Unit).Returns s fun _ s' =>
      s'.Carries maps base (K.setFirst (f K.first) K.firstDirty) M := by
  obtain ⟨S, sound, rep⟩ := carries.represents
  have head : s.trie.cells (trieMinLeaf g) = headEntry K.first K.firstDirty :=
    sound.stores.head.trans rep.head
  have rep' : (K.setFirst (f K.first) K.firstDirty).Represents g
      (S.setHead (headEntry (f K.first) K.firstDirty)) M := Layout.Becomes.setFirst S rep
  have stores' := sound.stores.setHead
    (s.trie.puts_store (trieMinLeaf g) (headEntry (f K.first) K.firstDirty))
  rw [storeMinLeafNext, CuckooTrie.storeField]
  refine .update ?_
  rw [head]
  exact carries.later (Sys.le_stored fun _ => ⟨le_rfl, Nat.le_succ _⟩)
    ⟨_, sound.stored stores' ⟨M, carries.mem, _, rep'⟩ rfl, rep'⟩ carries.mem

theorem Trie.Stores.clearEmpty {hole : Option Loc} (stores : t.Stores S hole) :
    ({ t with isEmpty := false } : Trie g).Stores { S with isEmpty := false } hole where
  unused_invalid := stores.unused_invalid
  tag_color := stores.tag_color
  content _ _ _ at_ := stores.content _ _ _ (at_.congr rfl)
  stored h c e stored := by
    obtain ⟨loc, at_, off⟩ := stores.stored h c e stored
    exact ⟨loc, at_.congr rfl, off⟩
  unique _ _ _ _ at_ at' := stores.unique _ _ _ _ (at_.congr rfl) (at'.congr rfl)
  root e stored := by
    obtain ⟨at_, off⟩ := stores.root e stored
    exact ⟨at_.congr rfl, off⟩
  head := stores.head
  isEmpty := rfl

/-- **The flag is cleared**, which publishes the root. -/
theorem Sys.Carries.storeNotEmpty (bare : ∀ p, L.all p = none) (empty : M.kvs = [])
    (carries : s.Carries maps base
      ((L.draftRoot kv).setFirst ((L.draftRoot kv).locator g []) false) M)
    (mem : M.insert kv ∈ maps) :
    (CuckooTrie.storeNotEmpty : CuckooTrie.M g Unit).Returns s fun _ s' =>
      s'.Whole maps base (L.rootOnly g kv) (M.insert kv) := by
  obtain ⟨S, sound, rep⟩ := carries.represents
  have rep' := Layout.Represents.rootOnly bare empty rep
  have stores' := sound.stores.clearEmpty
  refine .update ⟨?_, Layout.linked_rootOnly bare empty, Layout.finished_rootOnly bare⟩
  exact carries.later (Sys.le_stored fun _ => ⟨le_rfl, Nat.le_succ _⟩)
    ⟨_, sound.stored stores' ⟨_, mem, _, rep'⟩ rfl, rep'⟩ mem

/-! ## The run -/

/-- The lock of a bucket of an unlocked table is taken if the others allow it. -/
theorem writeLockBucket_free {b : ℕ} (unlocked : s.Unlocked) (allowed : s.env s.checks = true) :
    (writeLockBucket b : CuckooTrie.M g Bool).Returns s fun locked _ => locked = true := by
  rw [writeLockBucket, tryTakeLock]
  refine Prog.Returns.bind (Q := fun taken _ => taken = true) ?_ ?_
  · refine Prog.Returns.bind (Q := fun ok s' => ok = true ∧ s'.trie = s.trie)
      (.update ⟨allowed, rfl⟩) ?_
    rintro _ s₁ - ⟨rfl, trie⟩
    refine .update ?_
    change (!s₁.trie.writeLock b) = true
    rw [trie, unlocked b]
    rfl
  · rintro _ s₁ - rfl
    refine Prog.Returns.bind (Q := fun _ _ => True) ?_ fun _ _ _ _ => .pure rfl
    exact Prog.Returns.bind (Q := fun _ _ => True) (.update trivial) fun _ _ _ _ =>
      Prog.Returns.bind (Q := fun _ _ => True) (.update trivial) fun _ _ _ _ => .update trivial

/-- **`create_root`** puts the first object into an empty trie. -/
theorem createRoot_spec (kv : CtKv) (whole : s.Whole maps base L M) (unlocked : s.Unlocked)
    (empty : M.kvs = []) (allowed : s.env s.checks = true) (mem : M.insert kv ∈ maps) :
    (createRoot kv : CuckooTrie.M g InternalStatus).Returns s fun ret s' =>
      ret = .ok ∧ s'.Unlocked ∧ ∃ K, s'.Whole maps base K (M.insert kv) ∧ L.Stays K := by
  have none_ := whole.shape.none_of_empty empty
  have bare : ∀ p, L.all p = none := fun p => whole.finished.all_none (none_ p)
  rw [createRoot]
  refine Prog.Returns.bind ((writeLockBucket_free unlocked allowed).and
    (Quietly.writeLockBucket _ s)) fun locked s₁ _ post => ?_
  obtain ⟨taken, quiet⟩ := post
  subst taken
  have whole₁ := whole.quiet quiet
  refine Prog.Returns.bind (Q := fun t s' => t = s₁.trie ∧ s' = s₁) (.read ⟨rfl, rfl⟩) ?_
  rintro _ s₁ - ⟨rfl, rfl⟩
  have isEmpty : s₁.trie.isEmpty = true := whole₁.readable.isEmpty_iff.mpr empty
  rw [if_neg (by simp [isEmpty])]
  refine (whole₁.toCarries.writeRoot bare).bind fun _ s₂ _ carries₂ => ?_
  refine (carries₂.storeFirst _).bind fun _ s₃ _ carries₃ => ?_
  refine (carries₃.storeFirst _).bind fun _ s₄ _ carries₄ => ?_
  refine (carries₄.storeFirst _).bind fun _ s₅ _ carries₅ => ?_
  -- the head now has all fields of the locator of the root
  have locator : (L.draftRoot kv).locator g [] =
      ⟨hashToBucket hashStartValue, hashToTag hashStartValue, rootColor⟩ :=
    congrArg (Locator.mk _ _) (by simp [Layout.draftRoot, Layout.draftAt])
  have clean : (L.draftRoot kv).firstDirty = false := whole.linked.first_clean
  have carries₅ : s₅.Carries maps base ((L.draftRoot kv).setFirst
      ⟨hashToBucket hashStartValue, hashToTag hashStartValue, rootColor⟩
      (L.draftRoot kv).firstDirty) M := carries₅
  rw [← locator, clean] at carries₅
  refine (carries₅.storeNotEmpty bare empty mem).bind fun _ s₆ _ whole₆ => ?_
  refine (releaseAllLocks_spec whole₆.listed).bind fun _ s₇ _ post => ?_
  obtain ⟨quiet₇, unlocked₇⟩ := post
  exact .pure ⟨rfl, unlocked₇, _, whole₆.quiet quiet₇, .of_none none_⟩

end CuckooTrie
