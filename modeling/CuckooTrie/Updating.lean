import CuckooTrie.Relocation

/-!
# Updating and removing entries

A local copy is `Tracked` when it shows the entry of a slot of the store, and is
up to date as long as the sequence of its bucket did not advance.  Such a copy
stays tracked whatever `add_entry` does, and `update_entry` through it changes
exactly its slot (`updateEntry_spec`), as the window of the sequence numbers is
wider than the number of writes of one attempt.
-/

namespace CuckooTrie

open Sys

variable {g : Geometry} {Q : Store → Prop} {S : Store}

/-- What can be updated in a store: the entry under a name, or the list head. -/
inductive Slot where
  | entry (h c : ℕ)
  | head
deriving DecidableEq

namespace Store

/-- The entry in a slot. -/
def get (S : Store) : Slot → Option Entry
  | .entry h c => S.entry h c
  | .head => some S.head

/-- Replace the entry in a slot. -/
def put (S : Store) (e : Entry) : Slot → Store
  | .entry h c => S.set h c e
  | .head => S.setHead e

end Store

/-- The sequence numbers did not run through their whole range. -/
def Sys.Windowed (base : ℕ → ℕ) (s : Sys g) : Prop := ∀ b, s.trie.seq b < base b + 2 ^ 23

/-- The number of writes since an earlier state bounds the advance of every
sequence. -/
theorem Sys.Windowed.of_history {s₀ s : Sys g} (le : s₀ ≤ s)
    (few : s.history.length < s₀.history.length + 2 ^ 23) : s.Windowed s₀.trie.seq := fun b => by
  have := (le.seq b).2
  omega

/-- A copy of the entry of a slot, taken since the sequences had the values
`base`, and up to date if its bucket was not written since. -/
structure LocalCopy.Tracked (lc : LocalCopy) (base : ℕ → ℕ) (t : Trie g) (slot : Slot) :
    Prop where
  place : match slot with
    | .entry h c => lc.primaryBucket = hashToBucket h ∧ lc.value.tag = hashToTag h ∧
        lc.value.color = c ∧ lc.lastPos.bucket < g.numBuckets
    | .head => lc.lastPos = trieMinLeaf g ∧ lc.lastSeq = t.seq lc.lastPos.bucket ∧
        lc.value.secondary = false
  base_le : base lc.lastPos.bucket ≤ lc.lastSeq
  seq_le : lc.lastSeq ≤ t.seq lc.lastPos.bucket
  current : t.seq lc.lastPos.bucket = lc.lastSeq → t.cells lc.lastPos = lc.value ∧
    match slot with
    | .entry h c => t.At lc.lastPos h c
    | .head => True

namespace LocalCopy.Tracked

variable {lc : LocalCopy} {base : ℕ → ℕ} {t t' : Trie g} {slot : Slot}

theorem of_reads {h c : ℕ} (reads : lc.Reads t h c) (hole : t.Stores S none)
    (le : ∀ b, base b ≤ t.seq b) : lc.Tracked base t (.entry h c) where
  place := by
    refine ⟨reads.primaryBucket, ?_, ?_, reads.at_.inTable⟩
    · rw [reads.value]
      exact (hole.place reads.at_).1
    · rw [reads.value]
      exact reads.at_.color
  base_le := by
    rw [reads.lastSeq]
    exact le _
  seq_le := reads.lastSeq.le
  current _ := ⟨reads.value.symm, reads.at_⟩

theorem of_minLeaf (le : ∀ b, base b ≤ t.seq b)
    (primary : (t.cells (trieMinLeaf g)).secondary = false) :
    (readMinLeaf t).Tracked base t .head where
  place := ⟨rfl, rfl, primary⟩
  base_le := le _
  seq_le := le_rfl
  current _ := ⟨rfl, trivial⟩

/-- A tracked copy stays tracked while cells change only with their sequences. -/
theorem evolves (tracked : lc.Tracked base t slot) (memory : t.Evolves t')
    (head : slot = .head → t'.seq g.numBuckets = t.seq g.numBuckets) :
    lc.Tracked base t' slot := by
  obtain ⟨place, base_le, seq_le, current⟩ := tracked
  obtain ⟨le, same⟩ := memory lc.lastPos.bucket
  refine ⟨?_, base_le, seq_le.trans le, fun equal => ?_⟩
  · cases slot with
    | entry h c => exact place
    | head =>
      obtain ⟨pos, seq, primary⟩ := place
      refine ⟨pos, ?_, primary⟩
      rw [seq, pos]
      exact (head rfl).symm
  · have cells : t'.cells lc.lastPos = t.cells lc.lastPos := same (by omega) lc.lastPos.cell
    obtain ⟨value, at_⟩ := current (by omega)
    refine ⟨cells.trans value, ?_⟩
    cases slot with
    | entry h c => exact Trie.At.congr at_ cells
    | head => trivial

/-- A tracked copy survives a store into the cell of another name. -/
theorem store {h c : ℕ} {loc : Loc} {e : Entry} (tracked : lc.Tracked base t slot)
    (at_ : t.At loc h c) (other : slot ≠ .entry h c) : lc.Tracked base (t.store loc e) slot := by
  obtain ⟨place, base_le, seq_le, current⟩ := tracked
  refine ⟨place, base_le, seq_le, fun equal => ?_⟩
  obtain ⟨value, here⟩ := current equal
  have ne : lc.lastPos ≠ loc := by
    rintro rfl
    cases slot with
    | entry h' c' =>
      obtain ⟨rfl, rfl⟩ := Trie.At.name_eq here at_
      exact other rfl
    | head => exact at_.ne_minLeaf place.1
  have cells := (t.puts_store loc e).of_ne ne
  refine ⟨cells.trans value, ?_⟩
  cases slot with
  | entry h' c' => exact Trie.At.congr here cells
  | head => trivial

end LocalCopy.Tracked

/-- Equal sequence fields stand for equal sequences inside the window. -/
theorem Sys.Windowed.eq_of_sameSeq {base : ℕ → ℕ} {s : Sys g} {lc : LocalCopy} {slot : Slot}
    (window : s.Windowed base) (tracked : lc.Tracked base s.trie slot)
    (same : s.trie.entryUnchanged lc = true) : s.trie.seq lc.lastPos.bucket = lc.lastSeq := by
  have lower := tracked.base_le
  have upper := tracked.seq_le
  have inside := window lc.lastPos.bucket
  simp only [Trie.entryUnchanged, sameSeq, decide_eq_true_eq] at same
  omega

/-- `update_entry` through a copy of an entry that has not changed since. -/
theorem updateEntry_fast {s : Sys g} {lc : LocalCopy} (newValue : Entry)
    (same : s.trie.entryUnchanged lc = true) :
    (updateEntry lc newValue).Returns s fun lc' s' =>
      s' = s.stored (s.trie.write lc.lastPos newValue) ∧
        lc' = { lc with value := newValue, lastSeq := s'.trie.seq lc.lastPos.bucket } := by
  rw [updateEntry]
  refine Prog.Returns.bind (Q := fun t s' => t = s.trie ∧ s' = s) (.read ⟨rfl, rfl⟩) ?_
  rintro t s - ⟨rfl, rfl⟩
  rw [if_pos same]
  refine Prog.Returns.bind (Q := fun _ s' =>
    s' = s.stored (s.trie.write lc.lastPos newValue)) (.update rfl) ?_
  rintro - s₁ - rfl
  refine Prog.Returns.bind (Q := fun t s' => t = s'.trie ∧
    s' = s.stored (s.trie.write lc.lastPos newValue)) (.read ⟨rfl, rfl⟩) ?_
  rintro t s₁ - ⟨rfl, rfl⟩
  exact .pure ⟨rfl, rfl⟩

/-- `update_entry` through a copy whose bucket was written since: the search by color
says where the entry is. -/
theorem updateEntry_slow {s : Sys g} {lc cur : LocalCopy} (newValue : Entry)
    (differ : ¬ s.trie.entryUnchanged lc = true)
    (found : findEntryInPairByColor s.trie lc.primaryBucket lc.value.tag lc.value.color =
      some cur) :
    (updateEntry lc newValue).Returns s fun lc' s' =>
      s' = (s.slowed lc).stored (s.trie.write cur.lastPos
          { newValue with secondary := cur.value.secondary }) ∧
        lc' = { lc with
          value := { newValue with secondary := cur.value.secondary }, lastPos := cur.lastPos,
          lastSeq := s'.trie.seq cur.lastPos.bucket } := by
  rw [updateEntry]
  refine Prog.Returns.bind (Q := fun t s' => t = s.trie ∧ s' = s) (.read ⟨rfl, rfl⟩) ?_
  rintro t s - ⟨rfl, rfl⟩
  rw [if_neg differ]
  refine Prog.Returns.bind (Q := fun _ s' => s' = s.slowed lc) (.update rfl) ?_
  rintro - s₁ - rfl
  refine Prog.Returns.bind (Q := fun cur' s' => cur' = cur ∧ s' = s.slowed lc)
    (.find found ⟨rfl, rfl⟩) ?_
  rintro cur' s₁ - ⟨rfl, rfl⟩
  refine Prog.Returns.bind (Q := fun _ s' => s' = (s.slowed lc).stored (s.trie.write cur'.lastPos
    { newValue with secondary := cur'.value.secondary })) (.update rfl) ?_
  rintro - s₁ - rfl
  refine Prog.Returns.bind (Q := fun t s' => t = s'.trie ∧ s' = (s.slowed lc).stored
    (s.trie.write cur'.lastPos { newValue with secondary := cur'.value.secondary }))
    (.read ⟨rfl, rfl⟩) ?_
  rintro t s₁ - ⟨rfl, rfl⟩
  exact .pure ⟨rfl, rfl⟩

/-- **`update_entry`** changes the slot of a tracked copy, wherever its entry has
been relocated to. -/
theorem updateEntry_spec {s : Sys g} {base : ℕ → ℕ} {lc : LocalCopy} {slot : Slot}
    {newValue e : Entry} (sound : Sound Q s S) (tracked : lc.Tracked base s.trie slot)
    (stored : S.get slot = some e) (window : s.Windowed base) (le : ∀ b, base b ≤ s.trie.seq b)
    (tag : newValue.tag = lc.value.tag) (color : newValue.color = lc.value.color)
    (secondary : newValue.secondary = lc.value.secondary) (used : newValue.body.used = true)
    (now : Q (S.put newValue.content slot)) :
    (updateEntry lc newValue).Returns s fun lc' s' =>
      s.trie.Evolves s'.trie ∧ s'.relocations = s.relocations ∧ s'.savedWrites = s.savedWrites ∧
        (slot ≠ .head → s'.trie.seq g.numBuckets = s.trie.seq g.numBuckets) ∧
        (∀ l h c, s.trie.At l h c → slot ≠ .entry h c → s'.trie.cells l = s.trie.cells l) ∧
        Sound Q s' (S.put newValue.content slot) ∧ lc'.Tracked base s'.trie slot ∧
        lc'.value.content = newValue.content := by
  by_cases same : s.trie.entryUnchanged lc = true
  · -- the copy is up to date
    have equal := window.eq_of_sameSeq tracked same
    obtain ⟨value, here⟩ := tracked.current equal
    have written := s.trie.puts_write lc.lastPos newValue
    have stores' : (s.trie.write lc.lastPos newValue).Stores (S.put newValue.content slot) none := by
      cases slot with
      | entry h c =>
        exact sound.stores.set written here (tag.trans (congrArg Entry.tag value.symm))
          (color.trans (congrArg Entry.color value.symm))
          (secondary.trans (congrArg Entry.secondary value.symm)) used
      | head =>
        obtain ⟨pos, -, primary⟩ := tracked.place
        have whole : newValue.content = newValue := by
          rw [Entry.content, ← primary, ← secondary]
        rw [whole]
        rw [pos] at written ⊢
        exact sound.stores.setHead written
    refine (updateEntry_fast newValue same).weaken ?_
    rintro lc' s' - ⟨rfl, rfl⟩
    refine ⟨.write _ _ _, rfl, rfl, ?_, ?_, sound.stored stores' now rfl, ?_, rfl⟩
    · intro notHead
      cases slot with
      | entry h c => exact if_neg tracked.place.2.2.2.ne'
      | head => exact absurd rfl notHead
    · intro l h' c' at_ other
      refine written.of_ne ?_
      rintro rfl
      cases slot with
      | entry h c =>
        obtain ⟨rfl, rfl⟩ := Trie.At.name_eq here at_
        exact other rfl
      | head => exact at_.ne_minLeaf tracked.place.1
    · have seq : (s.trie.write lc.lastPos newValue).seq lc.lastPos.bucket = lc.lastSeq + 1 := by
        rw [← equal]
        exact if_pos rfl
      refine ⟨?_, ?_, le_rfl, fun _ => ⟨written.self, ?_⟩⟩
      · cases slot with
        | entry h c =>
          obtain ⟨primaryBucket, htag, hcolor, inTable⟩ := tracked.place
          exact ⟨primaryBucket, tag.trans htag, color.trans hcolor, inTable⟩
        | head =>
          obtain ⟨pos, -, primary⟩ := tracked.place
          exact ⟨pos, rfl, secondary.trans primary⟩
      · have := tracked.base_le
        change base lc.lastPos.bucket ≤ (s.trie.write lc.lastPos newValue).seq lc.lastPos.bucket
        omega
      · cases slot with
        | entry h c =>
          have at_ := written.at_self tracked.place.2.2.2 used
          rw [Trie.Stores.cellHash_eq here (tag.trans (congrArg Entry.tag value.symm))
            (secondary.trans (congrArg Entry.secondary value.symm)), color,
            tracked.place.2.2.1] at at_
          exact at_
        | head => trivial
  · -- the entry was relocated, or written through another copy
    cases slot with
    | head =>
      obtain ⟨-, seq, -⟩ := tracked.place
      refine absurd ?_ same
      simp [Trie.entryUnchanged, sameSeq, seq]
    | entry h c =>
      obtain ⟨primaryBucket, htag, hcolor, -⟩ := tracked.place
      obtain ⟨cur, found, reads, content⟩ := sound.stores.byColor stored
      have search_ : findEntryInPairByColor s.trie lc.primaryBucket lc.value.tag lc.value.color =
          some cur := by
        rw [primaryBucket, htag, hcolor]
        exact found
      have update := updateEntry_slow newValue same search_
      revert update
      generalize hadjusted : ({ newValue with secondary := cur.value.secondary } : Entry) = adjusted
      intro update
      have content' : adjusted.content = newValue.content := by rw [← hadjusted]; rfl
      have tag' : adjusted.tag = hashToTag h := by rw [← hadjusted]; exact tag.trans htag
      have color' : adjusted.color = c := by rw [← hadjusted]; exact color.trans hcolor
      have used' : adjusted.body.used = true := by rw [← hadjusted]; exact used
      have sameTag : adjusted.tag = (s.trie.cells cur.lastPos).tag :=
        tag'.trans (sound.stores.place reads.at_).1.symm
      have sameSecondary : adjusted.secondary = (s.trie.cells cur.lastPos).secondary := by
        rw [← hadjusted, reads.value]
      have written := s.trie.puts_write cur.lastPos adjusted
      have stores' := sound.stores.set written reads.at_ sameTag
        (color'.trans reads.at_.color.symm) sameSecondary used'
      rw [content'] at stores'
      refine update.weaken ?_
      rintro lc' s' - ⟨rfl, rfl⟩
      have slowed : Sound Q (s.slowed lc) S := ⟨sound.stores, sound.now, sound.past, sound.listed⟩
      refine ⟨.write _ _ _, rfl, rfl, fun _ => if_neg reads.at_.inTable.ne', ?_,
        slowed.stored stores' now rfl, ?_, content'⟩
      · intro l h' c' at_ other
        refine written.of_ne ?_
        rintro rfl
        obtain ⟨rfl, rfl⟩ := reads.at_.name_eq at_
        exact other rfl
      · refine ⟨⟨primaryBucket, tag', color', reads.at_.inTable⟩, ?_, le_rfl,
          fun _ => ⟨written.self, ?_⟩⟩
        · exact (le _).trans (s.trie.seq_write cur.lastPos adjusted _).1
        · have at_ := written.at_self reads.at_.inTable used'
          rw [Trie.Stores.cellHash_eq reads.at_ sameTag sameSecondary, color'] at at_
          exact at_

/-- **`remove_entry_by_value`** takes the entry of a name out of the store. -/
theorem removeEntryByValue_spec {s : Sys g} {h : ℕ} {e e' : Entry} (sound : Sound Q s S)
    (stored : S.entry h e.color = some e') (now : Q (S.erase h e.color)) :
    (removeEntryByValue e h).Returns s fun _ s' =>
      s.Evolves s' ∧ s'.relocations = s.relocations ∧ Sound Q s' (S.erase h e.color) := by
  obtain ⟨cur, found, reads, -⟩ := sound.stores.byColor stored
  rw [removeEntryByValue]
  refine Prog.Returns.bind (Q := fun cur' s' => cur' = cur ∧ s' = s) (.find found ⟨rfl, rfl⟩) ?_
  rintro cur' s' - ⟨rfl, rfl⟩
  have stores' := sound.stores.erase (s'.trie.puts_write cur'.lastPos unusedEntry) reads.at_ rfl rfl
    rfl
  exact .update ⟨.write _ reads.at_.inTable _, rfl, sound.stored stores' now rfl⟩

/-- **A direct store into a field** of the entry in a cell. -/
theorem storeField_spec {s : Sys g} {loc : Loc} {h c : ℕ} {f : Entry → Entry} (sound : Sound Q s S)
    (at_ : s.trie.At loc h c) (tag : ∀ e, (f e).tag = e.tag) (color : ∀ e, (f e).color = e.color)
    (secondary : ∀ e, (f e).secondary = e.secondary)
    (used : (f (s.trie.cells loc)).body.used = true)
    (now : Q (S.set h c (f (s.trie.cells loc)).content)) :
    (storeField loc f).Returns s fun _ s' =>
      s' = s.stored (s.trie.store loc (f (s.trie.cells loc))) ∧ s'.trie.At loc h c ∧
        s'.trie.cells loc = f (s.trie.cells loc) ∧
        Sound Q s' (S.set h c (f (s.trie.cells loc)).content) := by
  have stored := s.trie.puts_store loc (f (s.trie.cells loc))
  have stores' := sound.stores.set stored at_ (tag _) (color _) (secondary _) used
  refine .update ⟨rfl, ?_, stored.self, sound.stored stores' now rfl⟩
  have here := stored.at_self at_.inTable used
  rw [Trie.Stores.cellHash_eq at_ (tag _) (secondary _), color, at_.color] at here
  exact here

/-! ## Saved addresses -/

/-- No cell whose address was saved was moved by a relocation before it was used. -/
def Sys.Kept (s : Sys g) : Prop := ∀ w ∈ s.savedWrites, ∀ r ∈ w.relocations, w.loc ∉ r.sources

theorem Sys.Kept.down {s s' : Sys g} (le : s ≤ s') (kept : s'.Kept) : s.Kept :=
  fun w mem => kept w (le.savedWrites.subset mem)

theorem Sys.relocationsSince_trans {s s' : Sys g} {mark : ℕ} (le : s ≤ s')
    (earlier : mark ≤ s.relocations.length) :
    s'.relocationsSince mark = s'.relocationsSince s.relocations.length ++
      s.relocationsSince mark := by
  obtain ⟨new, hnew⟩ := le.relocations
  have length : s'.relocations.length = new.length + s.relocations.length := by
    rw [← hnew, List.length_append]
  rw [relocationsSince, relocationsSince, relocationsSince, ← hnew, List.length_append,
    Nat.add_sub_cancel, List.take_left, Nat.add_sub_assoc earlier, List.take_length_add_append]

namespace Sys.Unmoved

variable {s s' s'' : Sys g}

theorem of_cells (same : s'.trie.cells = s.trie.cells) : s.Unmoved s' :=
  fun l _ _ => congrFun same l

theorem trans (le : s ≤ s') (le' : s' ≤ s'') (h : s.Unmoved s') (h' : s'.Unmoved s'') :
    s.Unmoved s'' := by
  intro l used notMoved
  have earlier := le.relocations.length_le
  rw [relocationsSince_trans le' earlier] at notMoved
  have same := h l used fun r mem => notMoved r (List.mem_append_right _ mem)
  exact (h' l (same ▸ used) fun r mem => notMoved r (List.mem_append_left _ mem)).trans same

end Sys.Unmoved

end CuckooTrie
