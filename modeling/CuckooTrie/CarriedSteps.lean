import CuckooTrie.Carried

/-!
# The steps of building nodes

How the operations that an insert is made of change the layout the table carries: a new entry
is a draft (`Sys.Carries.addEntry`), a store into a cell and an update through a copy change the
entry of one node (`Sys.Carries.storeField`, `Sys.Carries.writeEntry`,
`Sys.Carries.updateEntry`), and removing an entry drops its draft
(`Sys.Carries.removeEntryByValue`).
-/

namespace CuckooTrie

open Sys

variable {g : Geometry} {maps : Set KeyMap} {base : ℕ → ℕ} {s s' s'' : Sys g} {L L' K : Layout}
  {M M' : KeyMap} {S : Store} {p q : List ℕ} {n m : Node} {lc : LocalCopy} {lnk : Locator}
  {slot : Slot} {loc : Loc}

/-! ## Giving up -/

/-- Why an attempt is given up although nobody changed anything: the others did not let a check
pass, or `add_entry` defeated itself. -/
def Sys.Obstructed (s s' : Sys g) : Prop :=
  Denied s s' ∨ SelfDefeated g (s'.relocationsSince s.relocations.length)

theorem SelfDefeated.mono {l l' : List Relocation} (h : SelfDefeated g l) (sub : l ⊆ l') :
    SelfDefeated g l' :=
  h.imp_right fun crossed => crossed.imp fun _ c => ⟨sub c.1, c.2⟩

theorem Sys.Obstructed.mono_left (h : Obstructed s' s'') (le : s ≤ s') (le' : s' ≤ s'') :
    Obstructed s s'' := by
  refine h.imp (fun denied => denied.mono_left le) fun defeated => defeated.mono ?_
  rw [relocationsSince_trans le' le.relocations.length_le]
  exact List.subset_append_left _ _

theorem Sys.Obstructed.mono_right (h : Obstructed s s') (le : s ≤ s') (le' : s' ≤ s'') :
    Obstructed s s'' := by
  refine h.imp (fun denied => denied.mono_right le') fun defeated => defeated.mono ?_
  rw [relocationsSince_trans le' le.relocations.length_le]
  exact List.subset_append_right _ _

/-! ## Adding an entry -/

/-- What a successful `add_entry` leaves behind: the table carries one more draft. -/
structure Drafted (maps : Set KeyMap) (base : ℕ → ℕ) (L : Layout) (M : KeyMap) (p : List ℕ)
    (n : Node) (par : ℕ) (lnk : Locator) (s s' : Sys g) (entry' : Entry) (loc : Loc) : Prop where
  carries : s'.Carries maps base (L.draftAt p n entry'.color par lnk) M
  at_ : s'.trie.At loc (g.prefixHash p) entry'.color
  cell : s'.trie.cells loc = entry'
  content : entry'.content = (L.draftAt p n entry'.color par lnk).entry g p n
  advanced : s.trie.seq loc.bucket < s'.trie.seq loc.bucket

/-- The copy a caller makes of the entry it added is current. -/
theorem Drafted.tracked {par : ℕ} {entry' : Entry}
    (drafted : Drafted maps base L M p n par lnk s s' entry' loc) :
    LocalCopy.Tracked ⟨entry', loc, hashToBucket (g.prefixHash p), s'.trie.seq loc.bucket⟩ base
      s'.trie (.entry (g.prefixHash p) entry'.color) := by
  obtain ⟨_, sound, -⟩ := drafted.carries.represents
  exact .of_reads ⟨drafted.at_, by rw [Trie.localCopy, drafted.cell]⟩ sound.stores
    drafted.carries.base_le

/-- The outcomes of `add_entry`. -/
inductive Drafts (maps : Set KeyMap) (base : ℕ → ℕ) (L : Layout) (M : KeyMap) (p : List ℕ)
    (n : Node) (par : ℕ) (lnk : Locator) (s s' : Sys g) : InternalStatus × Entry × Loc → Prop
  | ok {entry' loc} : Drafted maps base L M p n par lnk s s' entry' loc →
      Drafts maps base L M p n par lnk s s' (.ok, entry', loc)
  | retry {entry' loc} : s'.Carries maps base L M → Obstructed s s' →
      Drafts maps base L M p n par lnk s s' (.retry, entry', loc)
  | fail {entry' loc} : s'.Carries maps base L M →
      Drafts maps base L M p n par lnk s s' (.fail, entry', loc)

/-- **Adding an entry** drafts its node, or changes nothing. -/
theorem Sys.Carries.addEntry {entry : Entry} (n : Node) (par : ℕ) (lnk : Locator)
    (carries : s.Carries maps base L M) (root : L.node [] ≠ none) (immovable : Option Loc)
    (lock : Bool) (free : L.all p = none) (noJump : L.NoJumpTo p) (symbols : ∀ x ∈ p, x ≤ fanout)
    (value : ∀ c, newEntry entry (g.prefixHash p) c = (L.draftAt p n c par lnk).entry g p n)
    (primary : entry.secondary = false) (used : entry.body.used = true) :
    (CuckooTrie.addEntry (g.prefixHash p) entry immovable lock).Returns s fun r s' =>
      s.Evolves s' ∧ s.Unmoved s' ∧ Drafts maps base L M p n par lnk s s' r := by
  obtain ⟨S, sound, rep⟩ := carries.represents
  obtain ⟨top, htop⟩ := Option.ne_none_iff_exists'.mp root
  have stored := rep.stored [] top (Layout.all_of_node htop)
  rw [rep.root_color root] at stored
  refine (addEntry_spec immovable lock sound stored (g.prefixHash_lt symbols) used primary
    fun c valid fresh => ?_).weaken fun r s' before post => ?_
  · rw [value]
    exact ⟨M, carries.mem, _, rep.draftAt free noJump symbols fresh valid⟩
  · obtain ⟨evolves, unmoved, _, added⟩ := post
    refine ⟨evolves, unmoved, ?_⟩
    cases added with
    | retry sound' reason => exact .retry (carries.later before ⟨S, sound', rep⟩ carries.mem) reason
    | fail sound' => exact .fail (carries.later before ⟨S, sound', rep⟩ carries.mem)
    | @ok c entry' loc fresh valid sound' at_ cell content =>
      have color : entry'.color = c := by rw [← cell, at_.color]
      subst color
      rw [value] at sound' content
      refine .ok ⟨carries.later before
        ⟨_, sound', rep.draftAt free noJump symbols fresh valid⟩ carries.mem, at_, cell, content, ?_⟩
      -- the cell would have held the entry before
      refine lt_of_le_of_ne (before.seq _).1 fun same => ?_
      have unchanged := (evolves.memory loc.bucket).2 same.symm loc.cell
      have old := sound.stores.content loc _ _ (at_.congr unchanged.symm)
      rw [fresh] at old
      cases old

/-! ## Changing an entry -/

/-- What the cell of a node or a draft holds. -/
theorem Sys.Carries.content_at (carries : s.Carries maps base L M) (hp : L.all p = some n)
    (at_ : s.trie.At loc (g.prefixHash p) (L.color p)) :
    (s.trie.cells loc).content = L.entry g p n := by
  obtain ⟨S, sound, rep⟩ := carries.represents
  have stored := sound.stores.content loc _ _ at_
  rw [rep.stored p n hp] at stored
  exact (Option.some.inj stored).symm

/-- The entry of a node with another parent color is that of the amended node. -/
theorem Layout.content_setParentColor {e : Entry} (shown : e.content = L.entry g p n) (par : ℕ) :
    ({ e with parentColor := par } : Entry).content =
      (L.amend p par (L.link p) (L.dirty p)).entry g p n := by
  have amended : (L.amend p par (L.link p) (L.dirty p)).entry g p n =
      { L.entry g p n with parentColor := par } := by
    cases n <;> simp [Layout.entry, Layout.body, Layout.amend]
  rw [amended]
  exact congrArg (fun e : Entry => { e with parentColor := par }) shown

/-- **A store into a field** of the entry of a node or a draft. -/
theorem Sys.Carries.storeField {f : Entry → Entry} (carries : s.Carries maps base L M)
    (at_ : s.trie.At loc (g.prefixHash p) (L.color p)) (tag : ∀ e, (f e).tag = e.tag)
    (color : ∀ e, (f e).color = e.color) (secondary : ∀ e, (f e).secondary = e.secondary)
    (used : (f (s.trie.cells loc)).body.used = true)
    (becomes : L.Becomes g M (L.slot g p) (f (s.trie.cells loc)).content K M') (mem : M' ∈ maps) :
    (CuckooTrie.storeField loc f).Returns s fun _ s' =>
      s' = s.stored (s.trie.store loc (f (s.trie.cells loc))) ∧ s'.Carries maps base K M' ∧
        s'.trie.At loc (g.prefixHash p) (L.color p) ∧
        s'.trie.cells loc = f (s.trie.cells loc) := by
  obtain ⟨S, sound, rep⟩ := carries.represents
  have rep' := becomes S rep
  refine (storeField_spec sound at_ tag color secondary used ⟨M', mem, K, rep'⟩).weaken
    fun _ s' le post => ⟨post.1, carries.later le ⟨_, post.2.2.2, rep'⟩ mem, post.2.1, post.2.2.1⟩

/-- **A write into the cell** of the entry of a node or a draft. -/
theorem Sys.Carries.writeEntry {e : Entry} (carries : s.Carries maps base L M)
    (at_ : s.trie.At loc (g.prefixHash p) (L.color p)) (tag : e.tag = (s.trie.cells loc).tag)
    (color : e.color = (s.trie.cells loc).color)
    (secondary : e.secondary = (s.trie.cells loc).secondary) (used : e.body.used = true)
    (becomes : L.Becomes g M (L.slot g p) e.content K M') (mem : M' ∈ maps) :
    (CuckooTrie.writeEntry loc e).Returns s fun _ s' =>
      s.Evolves s' ∧ s'.Carries maps base K M' := by
  obtain ⟨S, sound, rep⟩ := carries.represents
  have rep' := becomes S rep
  have stores := sound.stores.set (s.trie.puts_write loc e) at_ tag color secondary used
  exact .update ⟨.write s at_.inTable e, carries.later (Sys.le_stored fun _ => Trie.seq_write _ _ _ _)
    ⟨_, sound.stored stores ⟨M', mem, K, rep'⟩ rfl, rep'⟩ mem⟩

/-- **An update through a copy** changes the entry of its slot. -/
theorem Sys.Carries.updateEntry {v : Entry} (carries : s.Carries maps base L M)
    (window : s.Windowed base) (tracked : lc.Tracked base s.trie slot)
    (stored : ∀ S, L.Represents g S M → S.get slot ≠ none) (tag : v.tag = lc.value.tag)
    (color : v.color = lc.value.color) (secondary : v.secondary = lc.value.secondary)
    (used : v.body.used = true) (becomes : L.Becomes g M slot v.content K M') (mem : M' ∈ maps) :
    (CuckooTrie.updateEntry lc v).Returns s fun lc' s' =>
      s'.Carries maps base K M' ∧ Tracks base {sl | sl = .head ∧ slot = .head} s s' ∧
        lc'.Tracked base s'.trie slot ∧ lc'.value.content = v.content := by
  obtain ⟨S, sound, rep⟩ := carries.represents
  obtain ⟨e, he⟩ := Option.ne_none_iff_exists'.mp (stored S rep)
  have rep' := becomes S rep
  refine (updateEntry_spec sound tracked he window carries.base_le tag color secondary used
    ⟨M', mem, K, rep'⟩).weaken
    fun lc' s' le post => ?_
  obtain ⟨memory, -, -, head, -, sound', tracked', content⟩ := post
  refine ⟨carries.later le ⟨_, sound', rep'⟩ mem, ?_, tracked', content⟩
  intro lc sl off h
  exact h.evolves memory fun isHead => head fun here => off ⟨isHead, here⟩

/-- The entry of a node or a draft is in its slot. -/
theorem Layout.Represents.get_slot (rep : L.Represents g S M) (hp : L.all p = some n) :
    S.get (L.slot g p) ≠ none := by
  rw [Layout.slot, Store.get, rep.stored p n hp]
  exact Option.some_ne_none _

/-- **Removing an entry** drops its draft. -/
theorem Sys.Carries.removeEntryByValue {e : Entry} (carries : s.Carries maps base L M)
    (hp : L.draft p = some n) (notNode : L.node p = none) (color : e.color = L.color p) :
    (CuckooTrie.removeEntryByValue e (g.prefixHash p)).Returns s fun _ s' =>
      s.Evolves s' ∧ s'.relocations = s.relocations ∧ s'.Carries maps base (L.drop p) M := by
  obtain ⟨S, sound, rep⟩ := carries.represents
  have whole : L.all p = some n := by rw [Layout.all, notNode, hp]; rfl
  have stored := rep.stored p n whole
  have rep' := rep.drop hp notNode
  rw [← color] at stored rep'
  exact (removeEntryByValue_spec sound stored ⟨M, carries.mem, _, rep'⟩).weaken
    fun _ s' le post => ⟨post.1, post.2.1, carries.later le ⟨_, post.2.2, rep'⟩ carries.mem⟩

/-! ## Writing through a saved address -/

/-- The same memory and the same locks. -/
theorem Sys.Carries.of_trie (carries : s.Carries maps base L M) (trie : s'.trie = s.trie)
    (history : s'.history = s.history) (locks : s'.locks = s.locks) :
    s'.Carries maps base L M := by
  obtain ⟨⟨S, sound, rep⟩, mem, le⟩ := carries
  refine ⟨⟨S, ⟨by rw [trie]; exact sound.stores, sound.now, ?_, ?_⟩, rep⟩, mem, by rw [trie]; exact le⟩
  · rw [Sys.Past, history]
    exact sound.past
  · rw [LocksListed, trie, locks]
    exact sound.listed

/-- **A saved address** still holds the entry it held when it was saved, in an orderly run. -/
theorem recordSavedWrite_spec {sm : Sys g} {loc : Loc} {saved : Entry}
    (unmoved : sm.Unmoved s) (used : (sm.trie.cells loc).body.used = true) :
    Regularly base (recordSavedWrite loc saved sm.relocations.length : CuckooTrie.M g Unit) s
      fun _ s' => s'.trie = s.trie ∧ s'.history = s.history ∧ s'.locks = s.locks ∧
        s'.relocations = s.relocations ∧ s'.checks = s.checks ∧
        s.trie.cells loc = sm.trie.cells loc :=
  .update fun orderly => ⟨rfl, rfl, rfl, rfl, rfl,
    unmoved loc used fun r mem => orderly.2 _ List.mem_cons_self r mem⟩

end CuckooTrie
