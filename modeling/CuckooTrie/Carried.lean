import CuckooTrie.Growing
import CuckooTrie.Updating

/-!
# The table while nodes are built

What holds at each point of an insert: the table holds exactly the entries of a layout, whose
nodes are a trie for a map (`Sys.Carries`), and every memory since the start of the run was the
trie of one of a few given maps (`Stands`).  A change of one entry of the store is matched with
the change of the layout (`Layout.Becomes`).  The copies of the nodes on a path stay good for
updates meanwhile (`Trail`), wherever their entries are relocated to.

The runs are those in which no sequence ran through its whole range and no cell was moved
between the saving of its address and its use (`Sys.Orderly`).
-/

namespace CuckooTrie

open Sys

variable {g : Geometry} {maps : Set KeyMap} {base : ℕ → ℕ} {s s' s'' : Sys g} {t t' : Trie g}
  {L L' K : Layout} {M M' : KeyMap} {S : Store} {p q r : List ℕ} {n m : Node} {X : Set Slot}
  {lc : LocalCopy} {par c : ℕ} {lnk : Locator} {d : Bool}

/-! ## Orderly runs -/

/-- **An orderly run**: no sequence ran through its whole range, and no cell whose address was
saved was moved by a relocation before the address was used. -/
def Sys.Orderly (base : ℕ → ℕ) (s : Sys g) : Prop := s.Windowed base ∧ s.Kept

theorem Sys.Orderly.down (s s' : Sys g) (le : s ≤ s') (orderly : s'.Orderly base) :
    s.Orderly base :=
  ⟨fun b => lt_of_le_of_lt (le.seq b).1 (orderly.1 b), orderly.2.down le⟩

/-- What a program does in an orderly run. -/
abbrev Regularly {α : Type} (base : ℕ → ℕ) (f : CuckooTrie.M g α) (s : Sys g)
    (Q : α → Sys g → Prop) : Prop :=
  f.Ensures (Sys.Orderly base) s Q

theorem Regularly.bind {α β : Type} {f : CuckooTrie.M g α} {k : α → CuckooTrie.M g β}
    {Q : α → Sys g → Prop} {R : β → Sys g → Prop} (first : Regularly base f s Q)
    (rest : ∀ a s', s ≤ s' → s'.Orderly base → Q a s' → Regularly base (k a) s' R) :
    Regularly base (f >>= k) s R := Prog.Ensures.bind Sys.Orderly.down first rest

/-- A run may use that it has been orderly so far. -/
theorem Regularly.of_orderly {α : Type} {f : CuckooTrie.M g α} {Q : α → Sys g → Prop}
    (h : s.Orderly base → Regularly base f s Q) : Regularly base f s Q :=
  Prog.Ensures.of_good Sys.Orderly.down h

/-! ## Changes of a layout -/

namespace Layout

/-- The slot of a node. -/
def slot (L : Layout) (g : Geometry) (p : List ℕ) : Slot := .entry (g.prefixHash p) (L.color p)

/-- When the entry in a slot becomes another one, the store of a layout becomes that of another
layout, for another map. -/
def Becomes (g : Geometry) (L : Layout) (M : KeyMap) (slot : Slot) (e : Entry) (K : Layout)
    (M' : KeyMap) : Prop :=
  ∀ S, L.Represents g S M → K.Represents g (S.put e slot) M'

theorem Becomes.amend (hp : L.all p = some n)
    (parent : ∀ q children s, L.node q = some (.bitmap children) → children.testBit s = true →
      p = q ++ [s] → par = L.color q) :
    L.Becomes g M (L.slot g p) ((L.amend p par lnk d).entry g p n) (L.amend p par lnk d) M :=
  fun _ rep => rep.amend hp parent

/-- The parent color a child of a bitmap has already may stay. -/
theorem Becomes.amend_same (lnk : Locator) (d : Bool) (hp : L.all p = some n) :
    L.Becomes g M (L.slot g p) ((L.amend p (L.parent p) lnk d).entry g p n)
      (L.amend p (L.parent p) lnk d) M := by
  intro S rep
  refine rep.amend hp fun q children s hq bit same => ?_
  rw [same]
  exact rep.parent q children s hq bit

theorem Becomes.redraft (notNode : L.node p = none) (hp : L.draft p = some m) :
    L.Becomes g M (L.slot g p) ((L.redraft p n).entry g p n) (L.redraft p n) M := by
  intro S rep
  have same : SameNodes L (L.redraft p n) :=
    ⟨rfl, fun _ _ _ => rfl, fun _ _ _ => rfl, fun _ _ _ => rfl, fun _ _ _ => rfl, rfl, rfl⟩
  exact rep.sameNodes same (rep.toEncodes.redraft notNode hp) rfl

theorem Becomes.setFirst :
    L.Becomes g M .head (headEntry lnk d) (L.setFirst lnk d) M := fun _ rep =>
  ⟨rep.toEncodes.setFirst lnk d, rep.shape.congr rfl, rep.parent, rep.root_color, rep.isEmpty⟩

theorem Becomes.publish (hp : L.node p = some m) (shape : (L.publish p n lnk).Shape M')
    (parent : ∀ q children s, (L.publish p n lnk).node q = some (.bitmap children) →
      children.testBit s = true → L.parent (q ++ [s]) = L.color q)
    (same : M'.kvs = [] ↔ M.kvs = []) :
    L.Becomes g M (L.slot g p) ((L.publish p n lnk).entry g p n) (L.publish p n lnk) M' :=
  fun _ rep => rep.publish hp shape parent same

theorem Represents.drop (rep : L.Represents g S M) (hp : L.draft p = some n)
    (notNode : L.node p = none) :
    (L.drop p).Represents g (S.erase (g.prefixHash p) (L.color p)) M := by
  have same : SameNodes L (L.drop p) :=
    ⟨rfl, fun _ _ _ => rfl, fun _ _ _ => rfl, fun _ _ _ => rfl, fun _ _ _ => rfl, rfl, rfl⟩
  exact rep.sameNodes same (rep.toEncodes.drop hp notNode) rfl

/-- From one layout to a later one, nodes stay where they are and keep their colors. -/
def Stays (L L' : Layout) : Prop :=
  ∀ r n, L.node r = some n → L'.node r ≠ none ∧ L'.color r = L.color r

namespace Stays

theorem refl (L : Layout) : Stays L L := fun _ n hr => ⟨by rw [hr]; exact Option.some_ne_none n, rfl⟩

theorem trans (h : Stays L L') (h' : Stays L' K) : Stays L K := fun r n hr => by
  obtain ⟨some_, color⟩ := h r n hr
  obtain ⟨n', hr'⟩ := Option.ne_none_iff_exists'.mp some_
  exact ⟨(h' r n' hr').1, (h' r n' hr').2.trans color⟩

/-- Drafts may change in any way. -/
theorem of_sameNodes (same : SameNodes L L') : Stays L L' := fun r n hr =>
  ⟨by rw [same.node, hr]; exact Option.some_ne_none n, same.color r n hr⟩

theorem of_node (node : L'.node = L.node) (color : L'.color = L.color) : Stays L L' :=
  fun r n hr => ⟨by rw [node, hr]; exact Option.some_ne_none n, by rw [color]⟩

/-- A layout without nodes. -/
theorem of_none (none_ : ∀ p, L.node p = none) : Stays L L' := fun r n hr => by
  rw [none_] at hr
  cases hr

/-- A node that is replaced is still a node. -/
theorem publish (L : Layout) : Stays L (L.publish p n lnk) := fun r m hr => by
  refine ⟨?_, rfl⟩
  simp only [Layout.publish]
  split
  · exact Option.some_ne_none n
  · rw [all_of_node hr]
    exact Option.some_ne_none m

end Stays

/-- From one layout to a later one, nodes keep their colors, and the inner nodes at and above
a position are as before. -/
structure Keeps (q : List ℕ) (L L' : Layout) : Prop where
  stays : L.Stays L'
  inner : ∀ r n, r <+: q → L.node r = some n → n.isInner = true → L'.node r = some n ∧
    L'.link r = L.link r ∧ L'.parent r = L.parent r ∧ L'.dirty r = L.dirty r

namespace Keeps

theorem refl (q : List ℕ) (L : Layout) : Keeps q L L :=
  ⟨.refl L, fun _ _ _ hr _ => ⟨hr, rfl, rfl, rfl⟩⟩

theorem trans (h : Keeps q L L') (h' : Keeps q L' K) : Keeps q L K where
  stays := h.stays.trans h'.stays
  inner r n above hr isInner := by
    obtain ⟨hr', link, parent, dirty⟩ := h.inner r n above hr isInner
    obtain ⟨hr'', link', parent', dirty'⟩ := h'.inner r n above hr' isInner
    exact ⟨hr'', link'.trans link, parent'.trans parent, dirty'.trans dirty⟩

theorem above (h : Keeps q L L') (ext : r <+: q) : Keeps r L L' :=
  ⟨h.stays, fun r' n above => h.inner r' n (above.trans ext)⟩

/-- Drafts may change in any way. -/
theorem of_sameNodes (same : SameNodes L L') : Keeps q L L' where
  stays := .of_sameNodes same
  inner r n _ hr _ :=
    ⟨by rw [same.node]; exact hr, same.link r n hr, same.parent r n hr, same.dirty r n hr⟩

/-- Replacing a node that is not above the position. -/
theorem publish (off : ¬ p <+: q) : Keeps q L (L.publish p n lnk) where
  stays := .publish L
  inner r m above hr _ := by
    have ne : r ≠ p := fun same => off (same ▸ above)
    refine ⟨?_, Function.update_of_ne ne _ _, rfl, rfl⟩
    simp only [Layout.publish, if_neg ne]
    exact all_of_node hr

/-- Amending a leaf, or an entry that is not above the position. -/
theorem amend (off : ∀ n, L.node p = some n → n.isInner = true → ¬ p <+: q) :
    Keeps q L (L.amend p par lnk d) where
  stays := .of_node rfl rfl
  inner r m above hr inner := by
    have ne : r ≠ p := by
      rintro rfl
      exact off m hr inner above
    exact ⟨hr, Function.update_of_ne ne _ _, Function.update_of_ne ne _ _,
      Function.update_of_ne ne _ _⟩

theorem setFirst : Keeps q L (L.setFirst lnk d) :=
  ⟨.of_node rfl rfl, fun _ _ _ hr _ => ⟨hr, rfl, rfl, rfl⟩⟩

/-- The entry of an inner node at or above the position is the same. -/
theorem entry (keeps : Keeps q L L') (shape : L.Shape M) (above : p <+: q)
    (hp : L.node p = some n) (inner : n.isInner = true) : L'.entry g p n = L.entry g p n := by
  obtain ⟨-, link, parent, dirty⟩ := keeps.inner p n above hp inner
  have color := (keeps.stays p n hp).2
  have body : L'.body p n = L.body p n := by
    cases n with
    | leaf kv => cases inner
    | bitmap children => simp [Layout.body, link]
    | jump symbols =>
      obtain ⟨m, hm⟩ := Option.ne_none_iff_exists'.mp (shape.child _ _ (.jump hp))
      simp [Layout.body, link, (keeps.stays _ m hm).2]
  simp [Layout.entry, parent, dirty, color, body]

end Keeps

end Layout

/-! ## The invariant -/

/-- A store that stands for one of some maps. -/
def Stands (g : Geometry) (maps : Set KeyMap) (S : Store) : Prop :=
  ∃ M ∈ maps, ∃ L : Layout, L.Represents g S M

/-- The table holds exactly the entries of a layout, whose nodes are a trie for one of some
maps, and did so ever since the run began.  The sequences have advanced since they had the
values `base`. -/
structure Sys.Carries (s : Sys g) (maps : Set KeyMap) (base : ℕ → ℕ) (L : Layout) (M : KeyMap) :
    Prop where
  represents : ∃ S, Sound (Stands g maps) s S ∧ L.Represents g S M
  mem : M ∈ maps
  base_le : ∀ b, base b ≤ s.trie.seq b

namespace Sys.Carries

theorem shape (carries : s.Carries maps base L M) : L.Shape M := by
  obtain ⟨S, -, rep⟩ := carries.represents
  exact rep.shape

theorem listed (carries : s.Carries maps base L M) : LocksListed s := by
  obtain ⟨S, sound, -⟩ := carries.represents
  exact sound.listed

theorem quiet (carries : s.Carries maps base L M) (quiet : Quiet s s') :
    s'.Carries maps base L M := by
  obtain ⟨⟨S, sound, rep⟩, mem, le⟩ := carries
  exact ⟨⟨S, sound.quiet quiet, rep⟩, mem, by rw [quiet.seq]; exact le⟩

theorem later (carries : s.Carries maps base L M) (le : s ≤ s')
    (represents : ∃ S, Sound (Stands g maps) s' S ∧ K.Represents g S M') (mem : M' ∈ maps) :
    s'.Carries maps base K M' :=
  ⟨represents, mem, fun b => (carries.base_le b).trans (le.seq b).1⟩

end Sys.Carries

/-! ## Copies that can be updated -/

/-- The copies that were tracked in one state are tracked in a later one, but for those of
some slots. -/
def Sys.Tracks (base : ℕ → ℕ) (X : Set Slot) (s s' : Sys g) : Prop :=
  ∀ lc slot, slot ∉ X → LocalCopy.Tracked lc base s.trie slot →
    LocalCopy.Tracked lc base s'.trie slot

namespace Sys.Tracks

theorem refl (s : Sys g) : Tracks base X s s := fun _ _ _ tracked => tracked

theorem trans (h : Tracks base X s s') (h' : Tracks base X s' s'') : Tracks base X s s'' :=
  fun lc slot off tracked => h' lc slot off (h lc slot off tracked)

theorem mono {Y : Set Slot} (h : Tracks base X s s') (sub : X ⊆ Y) : Tracks base Y s s' :=
  fun lc slot off => h lc slot fun mem => off (sub mem)

theorem of_evolves (evolves : s.Evolves s') : Tracks base X s s' :=
  fun _ _ _ tracked => tracked.evolves evolves.memory fun _ => evolves.head

theorem of_trie (trie : s'.trie = s.trie) : Tracks base X s s' := by
  intro _ _ _ tracked
  rw [trie]
  exact tracked

theorem of_quiet (quiet : Quiet s s') : Tracks base X s s' := of_evolves (.of_quiet quiet)

/-- **A store into a field** leaves the copies alone that were made before the last write to
the bucket. -/
theorem storeField {loc : Loc} {e : Entry} (h : Tracks base X s s')
    (advanced : s.trie.seq loc.bucket < s'.trie.seq loc.bucket) :
    Tracks base X s (s'.stored (s'.trie.store loc e)) := by
  intro lc slot off tracked
  obtain ⟨place, base_le, seq_le, current⟩ := h lc slot off tracked
  refine ⟨place, base_le, seq_le, fun equal => ?_⟩
  have equal : s'.trie.seq lc.lastPos.bucket = lc.lastSeq := equal
  have ne : lc.lastPos ≠ loc := by
    rintro same
    have := tracked.seq_le
    rw [same] at this equal
    omega
  have cells := (s'.trie.puts_store loc e).of_ne ne
  obtain ⟨value, here⟩ := current equal
  refine ⟨cells.trans value, ?_⟩
  cases slot with
  | entry h c => exact Trie.At.congr here cells
  | head => trivial

end Sys.Tracks

/-- A copy that shows a node and can be updated. -/
structure LocalCopy.Mirrors (lc : LocalCopy) (base : ℕ → ℕ) (t : Trie g) (L : Layout)
    (p : List ℕ) (n : Node) : Prop where
  tracked : lc.Tracked base t (L.slot g p)
  shows : lc.Shows g L p n

theorem LocalCopy.Describes.mirrors (describes : lc.Describes t L p n) (stores : t.Stores S none)
    (le : ∀ b, base b ≤ t.seq b) : lc.Mirrors base t L p n :=
  ⟨.of_reads describes.reads stores le, describes.content⟩

/-- Only one copy describes a node. -/
theorem LocalCopy.Describes.unique {lc' : LocalCopy} (describes : lc.Describes t L p n)
    (describes' : lc'.Describes t L p n) (stores : t.Stores S none) : lc = lc' := by
  have same := stores.unique _ _ _ _ describes.reads.at_ describes'.reads.at_ (by simp) (by simp)
  rw [describes.reads.eq, describes'.reads.eq, same]

/-- The copy of an inner node that stays. -/
theorem LocalCopy.Mirrors.keeps (mirrors : lc.Mirrors base s.trie L p n) (shape : L.Shape M)
    (keeps : L.Keeps q L') (above : p <+: q) (hp : L.node p = some n) (inner : n.isInner = true)
    (tracks : Sys.Tracks base {.head} s s') : lc.Mirrors base s'.trie L' p n := by
  refine ⟨?_, mirrors.shows.trans (keeps.entry shape above hp inner).symm⟩
  rw [Layout.slot, (keeps.stays p n hp).2]
  exact tracks _ _ nofun mirrors.tracked

/-- A path whose entries are copies of the inner nodes from a node up to the root. -/
inductive Trail (base : ℕ → ℕ) (t : Trie g) (L : Layout) : List ℕ → List PathEntry → Prop
  | root {e n} : L.node [] = some n → n.isInner = true → e.entry.Mirrors base t L [] n →
      e.prefixHash = g.prefixHash [] → Trail base t L [] [e]
  | child {q p e above n} : Trail base t L q above → L.Child q p → L.node p = some n →
      n.isInner = true → e.entry.Mirrors base t L p n → e.prefixHash = g.prefixHash p →
      Trail base t L p (e :: above)

namespace Trail

variable {path : List PathEntry}

/-- What the first entry of a path shows. -/
theorem head (trail : Trail base t L p path) :
    ∃ e above n, path = e :: above ∧ L.node p = some n ∧ n.isInner = true ∧
      e.entry.Mirrors base t L p n ∧ e.prefixHash = g.prefixHash p := by
  cases trail with
  | root hp inner mirrors hash => exact ⟨_, _, _, rfl, hp, inner, mirrors, hash⟩
  | child _ _ hp inner mirrors hash => exact ⟨_, _, _, rfl, hp, inner, mirrors, hash⟩

theorem ancestry (trail : Trail base t L p path) : Ancestry g L p path := by
  induction trail with
  | root hp _ mirrors hash => exact .root hp mirrors.shows hash
  | child _ child hp _ mirrors hash ih => exact .child ih child hp mirrors.shows hash

/-- **A path stays good** as long as its nodes stay. -/
theorem keeps (trail : Trail base s.trie L q path) (shape : L.Shape M) (keeps : L.Keeps q L')
    (tracks : Sys.Tracks base {.head} s s') : Trail base s'.trie L' q path := by
  induction trail with
  | root hp inner mirrors hash =>
    exact .root (keeps.inner _ _ List.prefix_rfl hp inner).1 inner
      (mirrors.keeps shape keeps List.prefix_rfl hp inner tracks) hash
  | @child q p e above n _ child hp inner mirrors hash ih =>
    have up := child.isPrefix
    refine .child (ih (keeps.above up)) ?_ (keeps.inner _ _ List.prefix_rfl hp inner).1 inner
      (mirrors.keeps shape keeps List.prefix_rfl hp inner tracks) hash
    cases child with
    | bitmap hq bit => exact .bitmap (keeps.inner _ _ up hq rfl).1 bit
    | jump hq => exact .jump (keeps.inner _ _ up hq rfl).1

theorem quiet (trail : Trail base s.trie L q path) (shape : L.Shape M) (quiet : Quiet s s') :
    Trail base s'.trie L q path := trail.keeps shape (.refl q L) (.of_quiet quiet)

/-- The path of a finger that is in an inner node. -/
theorem of_spine (spine : Spine t L p path) (hp : L.node p = some n) (inner : n.isInner = true)
    (stores : t.Stores S none) (le : ∀ b, base b ≤ t.seq b) : Trail base t L p path := by
  induction spine generalizing n with
  | root hp' describes hash =>
    rw [hp] at hp'
    cases hp'
    exact .root hp inner (describes.mirrors stores le) hash
  | child _ child hp' describes hash ih =>
    rw [hp] at hp'
    cases hp'
    obtain ⟨m, hm, isInner⟩ := child.inner
    exact .child (ih hm isInner) child hp inner (describes.mirrors stores le) hash

end Trail

end CuckooTrie
