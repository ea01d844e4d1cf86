import CuckooTrie.Combs
import CuckooTrie.HeaderMatch
import CuckooTrie.Placing
import CuckooTrie.Updating

/-!
# Updating an entry that has been moved

A local copy remains good for `update_entry` while other entries are written and entries
are relocated.  The search by color tests the hash and the color of a header (`Names`); if
one cell passes the test, then one does after every such change (`Trie.Rewrites`), and as
long as the sequence of its bucket has not advanced, it is the cell the copy was read from
(`LocalCopy.Follows`).
-/

namespace CuckooTrie

open Sys Trie

variable {g : Geometry} {t t' : Trie g} {loc loc' : Loc} {e : Entry} {h c : ℕ}

/-! ## The cell of an entry -/

/-- A header in a cell that the search for a hash and a color accepts. -/
structure Names (g : Geometry) (loc : Loc) (e : Entry) (h c : ℕ) : Prop where
  inTable : loc.bucket < g.numBuckets
  tag : e.tag < 2 ^ tagBits
  hash : cellHash g loc e = h
  color : e.color = c

/-- The one cell that the search for a hash and a color accepts. -/
structure Trie.Sole (t : Trie g) (loc : Loc) (h c : ℕ) : Prop where
  here : Names g loc (t.cells loc) h c
  only : ∀ loc', Names g loc' (t.cells loc') h c → loc' = loc

/-- A table the search by color is made for: entries of one hash have distinct colors,
entries in use have a valid one, and cells that are not in use have none. -/
structure Trie.Searchable (t : Trie g) : Prop where
  distinct : t.DistinctColors
  fields : ∀ loc, loc.bucket < g.numBuckets → (t.cells loc).body.used = true →
    (t.cells loc).tag < 2 ^ tagBits ∧ (t.cells loc).color ≤ maxValidColor
  unused : t.UnusedInvalid

/-- A well-formed trie is such a table. -/
theorem WellFormed.searchable {M : KeyMap} (wf : WellFormed t M) : t.Searchable := by
  obtain ⟨S, L, stores, -⟩ := wf
  refine ⟨fun l l' inside inside' used used' hash _ color => ?_, stores.tag_color,
    stores.unused_invalid⟩
  exact stores.unique l l' _ _ ⟨inside, used, rfl, rfl⟩ ⟨inside', used', hash.symm, color.symm⟩
    (by simp) (by simp)

namespace Names

theorem hash_lt (names : Names g loc e h c) : h < g.numPairs := by
  rw [← names.hash]
  exact Trie.cellHash_lt names.inTable names.tag

/-- The flag says which bucket of the pair the cell is in. -/
theorem bucket (names : Names g loc e h c) :
    loc.bucket = if e.secondary then g.mixBucket (hashToBucket h) (hashToTag h)
      else hashToBucket h := by
  obtain ⟨tag, -, place⟩ := (cellHash_eq_iff names.tag names.inTable).mp names.hash
  rwa [tag] at place

/-- The name depends on the tag, the color and the flag. -/
theorem congr {e' : Entry} (names : Names g loc e h c) (tag : e'.tag = e.tag)
    (color : e'.color = e.color) (secondary : e'.secondary = e.secondary) :
    Names g loc e' h c where
  inTable := names.inTable
  tag := tag ▸ names.tag
  hash := by
    rw [cellHash, tag, secondary]
    exact names.hash
  color := color.trans names.color

/-- A moved entry keeps its name. -/
theorem flip {dst : Loc} (names : Names g loc e h c)
    (place : dst.bucket = alternateBucket g e loc.bucket) : Names g dst e.flip h c where
  inTable := place ▸ alternateBucket_lt names.inTable
  tag := names.tag
  hash := (cellHash_alternate names.inTable place).trans names.hash
  color := names.color

end Names

/-- Two entries of one name are one entry. -/
theorem Trie.Searchable.sole (table : t.Searchable) (at_ : t.At loc h c) : t.Sole loc h c := by
  have fields := table.fields loc at_.inTable at_.used
  refine ⟨⟨at_.inTable, fields.1, at_.hash, at_.color⟩, fun loc' names => ?_⟩
  have color : (t.cells loc').color = (t.cells loc).color := names.color.trans at_.color.symm
  have used := table.unused.used names.inTable (Or.inl (color ▸ fields.2))
  have hash : cellHash g loc' (t.cells loc') = cellHash g loc (t.cells loc) :=
    names.hash.trans at_.hash.symm
  obtain ⟨tag', -⟩ := (cellHash_eq_iff names.tag names.inTable).mp names.hash
  obtain ⟨tag, -⟩ := (cellHash_eq_iff fields.1 at_.inTable).mp at_.hash
  exact table.distinct loc' loc names.inTable at_.inTable used at_.used hash
    (tag'.trans tag.symm) color

/-- The search by color finds the cell. -/
theorem Trie.Sole.found (sole : t.Sole loc h c) :
    findEntryInPairByColor t (hashToBucket h) (hashToTag h) c =
      some (t.localCopy loc (hashToBucket h)) := by
  have passes_iff : ∀ loc', t.PassesColor h c loc' ↔ Names g loc' (t.cells loc') h c := by
    intro loc'
    rw [passesColor_iff sole.here.hash_lt]
    exact ⟨fun ⟨inTable, tag, hash, color⟩ => ⟨inTable, tag, hash, color⟩,
      fun names => ⟨names.inTable, names.tag, names.hash, names.color⟩⟩
  have scanned := scan_of_only ((passes_iff loc).mpr sole.here) fun loc' passes =>
    sole.only loc' ((passes_iff loc').mp passes)
  exact congrArg (Option.map fun loc => t.localCopy loc (hashToBucket h)) scanned

/-! ## Writes to other entries and relocations -/

/-- What may happen to a table while a copy of the entry with the hash `h` and the color `c`
is kept: stores and writes that neither hit this entry nor add another one with its name,
and its relocations, which write it to the other bucket of its pair and then overwrite the
cell it was in. -/
inductive Trie.Rewrites (h c : ℕ) : Trie g → Trie g → Prop
  | write {t : Trie g} {loc : Loc} {e : Entry} : ¬ Names g loc (t.cells loc) h c →
      ¬ Names g loc e h c → Rewrites h c t (t.write loc e)
  | store {t : Trie g} {loc : Loc} {e : Entry} : ¬ Names g loc (t.cells loc) h c →
      ¬ Names g loc e h c → Rewrites h c t (t.store loc e)
  | relocate {t : Trie g} {src dst : Loc} {e : Entry} : Names g src (t.cells src) h c →
      ¬ Names g dst (t.cells dst) h c →
      dst.bucket = alternateBucket g (t.cells src) src.bucket → ¬ Names g src e h c →
      Rewrites h c t ((t.write dst (t.cells src).flip).write src e)
  | quiet {t t' : Trie g} : t'.cells = t.cells → t'.seq = t.seq → Rewrites h c t t'

/-- A change of a cell that does not have the name leaves the cell that has it alone. -/
theorem Trie.Sole.other {l : Loc} (sole : t.Sole loc h c) (puts : t.Puts l e t')
    (before : ¬ Names g l (t.cells l) h c) (after : ¬ Names g l e h c) :
    loc ≠ l ∧ t'.Sole loc h c := by
  have ne : loc ≠ l := by
    rintro rfl
    exact before sole.here
  refine ⟨ne, by rw [puts.of_ne ne]; exact sole.here, fun loc' names => ?_⟩
  have differ : loc' ≠ l := by
    rintro rfl
    rw [puts.self] at names
    exact after names
  rw [puts.of_ne differ] at names
  exact sole.only loc' names

theorem Trie.Sole.congr (sole : t.Sole loc h c) (cells : t'.cells = t.cells) :
    t'.Sole loc h c := by
  refine ⟨by rw [cells]; exact sole.here, fun loc' names => sole.only loc' ?_⟩
  rwa [cells] at names

/-- A relocated entry has its name in the new cell only. -/
theorem Trie.Sole.relocate {src dst : Loc} (sole : t.Sole src h c)
    (vacant : ¬ Names g dst (t.cells dst) h c)
    (place : dst.bucket = alternateBucket g (t.cells src) src.bucket)
    (after : ¬ Names g src e h c) :
    ((t.write dst (t.cells src).flip).write src e).Sole dst h c := by
  have ne : dst ≠ src := by
    rintro rfl
    exact vacant sole.here
  have first := t.puts_write dst (t.cells src).flip
  have second := (t.write dst (t.cells src).flip).puts_write src e
  refine ⟨by rw [second.of_ne ne, first.self]; exact sole.here.flip place, fun loc' names => ?_⟩
  by_contra other
  have differ : loc' ≠ src := by
    rintro rfl
    rw [second.self] at names
    exact after names
  rw [second.of_ne differ, first.of_ne other] at names
  exact differ (sole.only loc' names)

/-! ## Relocations of the code -/

namespace Trie.Rewrites

open Relation

variable {t₀ : Trie g} {free : Loc} {immovable : Option Loc} {start : ℕ}

/-- What the loop of `relocate_entry` reached before it writes the cell `free`: the entry
is elsewhere, or it was just copied from this cell into an earlier one of the path. -/
inductive Reached (h c : ℕ) (t₀ t : Trie g) (free : Loc) (sources : List Loc) : Prop
  | elsewhere {loc : Loc} : ReflTransGen (Rewrites h c) t₀ t → t.Sole loc h c → loc ≠ free →
      Reached h c t₀ t free sources
  | copied {t₁ : Trie g} {dst : Loc} : ReflTransGen (Rewrites h c) t₀ t₁ → t₁.Sole free h c →
      ¬ Names g dst (t₁.cells dst) h c → dst.bucket = alternateBucket g (t₁.cells free) free.bucket →
      dst ∉ sources → dst ≠ free → t.cells = (t₁.write dst (t₁.cells free).flip).cells →
      t.seq = (t₁.write dst (t₁.cells free).flip).seq → Reached h c t₀ t free sources

/-- Putting another entry into the cell. -/
theorem Reached.put {sources : List Loc} (reached : Reached h c t₀ t free sources)
    (other : ¬ Names g free e h c) :
    ReflTransGen (Rewrites h c) t₀ (t.write free e) ∧
      ∃ loc, (t.write free e).Sole loc h c ∧ loc ≠ free := by
  cases reached with
  | elsewhere moves sole ne =>
    have before : ¬ Names g free (t.cells free) h c := fun names => ne (sole.only free names).symm
    obtain ⟨-, sole'⟩ := sole.other (t.puts_write free e) before other
    exact ⟨moves.tail (.write before other), _, sole', ne⟩
  | @copied t₁ dst moves sole vacant place _ ne cells seq =>
    -- the copy and this write together are a relocation
    have same : (t.write free e).cells =
        ((t₁.write dst (t₁.cells free).flip).write free e).cells := by
      funext l
      exact congrArg (fun cells => if l = free then e else cells l) cells
    refine ⟨(moves.tail (.relocate sole.here vacant place other)).tail (.quiet same ?_), dst,
      (sole.relocate vacant place other).congr same, ne⟩
    funext b
    exact congrArg (fun seq => if b = free.bucket then seq b + 1 else seq b) seq

/-- An entry has a name in a cell if it has it in the other bucket of its pair. -/
theorem names_of_flip {src : Loc} (inTable : src.bucket < g.numBuckets)
    (place : free.bucket = alternateBucket g e src.bucket) (names : Names g free e.flip h c) :
    Names g src e h c :=
  ⟨inTable, names.tag, (cellHash_alternate inTable place).symm.trans names.hash, names.color⟩

/-- Moving the next entry of the path into the cell. -/
theorem Reached.move {src : Loc} {rest : List Loc} (reached : Reached h c t₀ t free (src :: rest))
    (inTable : src.bucket < g.numBuckets) (off : free ∉ src :: rest)
    (place : free.bucket = alternateBucket g (t.cells src) src.bucket)
    (cells : t'.cells = (t.write free (t.cells src).flip).cells)
    (seq : t'.seq = (t.write free (t.cells src).flip).seq) : Reached h c t₀ t' src rest := by
  have ne : src ≠ free := fun same => off (same ▸ List.mem_cons_self)
  by_cases here : Names g src (t.cells src) h c
  · -- the entry is moved itself
    cases reached with
    | elsewhere moves sole neFree =>
      obtain rfl := sole.only src here
      exact .copied moves sole (fun names => neFree (sole.only free names).symm) place
        (fun mem => off (List.mem_cons_of_mem _ mem)) ne.symm cells seq
    | @copied t₁ dst moves sole vacant place' dstOff _ cells' _ =>
      have same : t.cells src = t₁.cells src := by
        rw [cells']
        exact (t₁.puts_write dst _).of_ne fun same => dstOff (same ▸ List.mem_cons_self)
      exact absurd (sole.only src (same ▸ here)) ne
  · obtain ⟨moves, loc, sole, -⟩ := reached.put fun names =>
      here (names_of_flip inTable place names)
    refine .elsewhere (moves.tail (.quiet cells seq)) (sole.congr cells) ?_
    rintro rfl
    have names := sole.here
    rw [(t.puts_write free _).of_ne ne] at names
    exact here names

/-- **Moving entries along a chain** relocates them one after the other. -/
theorem Reached.moveEntries {s : Sys g} {sources : List Loc} (valid : c ≤ maxValidColor)
    (reached : Reached h c t₀ s.trie free sources)
    (chain : Chain s.trie immovable start free.bucket sources)
    (distinct : (free.bucket :: sources.map (·.bucket)).Nodup) (nonempty : sources ≠ []) :
    (moveEntries free sources).Returns s fun _ s' =>
      ReflTransGen (Rewrites h c) t₀ s'.trie := by
  induction sources generalizing s free with
  | nil => exact absurd rfl nonempty
  | cons src rest ih =>
    obtain ⟨movable, bucket, chain⟩ := chain
    rw [List.map_cons, List.nodup_cons] at distinct
    obtain ⟨freeNot, nodup⟩ := distinct
    have off : free ∉ src :: rest := fun mem => freeNot (List.mem_map_of_mem mem)
    have ne : ∀ l ∈ src :: rest, l ≠ free := fun l mem same => off (same ▸ mem)
    rw [CuckooTrie.moveEntries]
    refine Prog.Returns.bind (Q := fun t s' => t = s.trie ∧ s' = s) (.read ⟨rfl, rfl⟩) ?_
    rintro t s₀ - ⟨rfl, rfl⟩
    refine Prog.Returns.bind (Q := fun _ s' => s' = s₀.stored
      (s₀.trie.write free (s₀.trie.cells src).flip)) (.update rfl) ?_
    rintro - s₀' - rfl
    refine (Quietly.moveEntryLock free src _).bind ?_
    rintro - s₁ - quiet
    have reached₁ := reached.move movable.inTable off bucket.symm quiet.cells quiet.seq
    have keeps : ∀ l ∈ rest, s₁.trie.cells l = s₀.trie.cells l := fun l mem => by
      rw [quiet.cells]
      exact (s₀.trie.puts_write free _).of_ne (ne l (List.mem_cons_of_mem _ mem))
    cases rest with
    | nil =>
      have other : ¬ Names g src (freedEntry (s₀.trie.cells src)) h c := fun names => by
        have color : invalidColor = c := names.color
        rw [← color] at valid
        exact absurd valid (by decide)
      exact .update (reached₁.put other).1
    | cons next rest =>
      exact ih reached₁ (chain.congr keeps) nodup (List.cons_ne_nil _ _)

/-- **A relocation of the code** is a sequence of such changes, whichever entry it moves. -/
theorem of_relocateEntry {s : Sys g} {bucketNum : ℕ} (immovable : Option Loc)
    (full : BucketFull s.trie bucketNum) (inTable : bucketNum < g.numBuckets)
    (sole : s.trie.Sole loc h c) (valid : c ≤ maxValidColor) (unused : s.trie.UnusedInvalid) :
    (relocateEntry bucketNum immovable).Returns s fun _ s' =>
      ReflTransGen (Rewrites h c) s.trie s'.trie := by
  have still : ∀ {s₁ : Sys g}, Quiet s s₁ → ReflTransGen (Rewrites h c) s.trie s₁.trie :=
    fun quiet => .single (.quiet quiet.cells quiet.seq)
  refine (relocateEntry_rule (P := fun _ _ s' => ReflTransGen (Rewrites h c) s.trie s'.trie)
    full inTable ?_).weaken ?_
  · intro free sources s₁ quiet movement
    have movement₁ := movement.congr quiet.cells
    have ne : loc ≠ free := by
      rintro rfl
      have used := unused.used movement.inTable (Or.inl (sole.here.color ▸ valid))
      rw [movement.unused] at used
      cases used
    refine (Reached.moveEntries valid (.elsewhere (still quiet) (sole.congr quiet.cells) ne)
      movement₁.chain movement₁.distinct movement₁.nonempty).weaken fun _ s₂ _ moves s' after => ?_
    exact moves.tail (.quiet after.cells after.seq)
  · rintro r s' - (⟨-, free, moves⟩ | ⟨-, quiet⟩ | ⟨-, quiet, -⟩)
    · exact moves
    · exact still quiet
    · exact still quiet

end Trie.Rewrites

/-- A local copy of an entry: it and one cell have the name of the entry, and the cell it
was read from is as it was, as long as the sequence of the bucket has not advanced. -/
structure LocalCopy.Follows (lc : LocalCopy) (t : Trie g) (h c : ℕ) : Prop where
  named : Names g lc.lastPos lc.value h c
  primary : lc.primaryBucket = hashToBucket h
  sole : ∃ loc, t.Sole loc h c
  seq_le : lc.lastSeq ≤ t.seq lc.lastPos.bucket
  current : t.seq lc.lastPos.bucket = lc.lastSeq → t.cells lc.lastPos = lc.value

namespace LocalCopy.Follows

variable {lc : LocalCopy}

theorem start (sole : t.Sole loc h c) : (t.localCopy loc (hashToBucket h)).Follows t h c :=
  ⟨sole.here, rfl, ⟨loc, sole⟩, le_rfl, fun _ => rfl⟩

/-- The cell of a copy is not one that is written without its sequence. -/
theorem store {l : Loc} (follows : lc.Follows t h c) (before : ¬ Names g l (t.cells l) h c)
    (after : ¬ Names g l e h c) : lc.Follows (t.store l e) h c := by
  obtain ⟨named, primary, ⟨loc, sole⟩, le, current⟩ := follows
  have puts := t.puts_store l e
  refine ⟨named, primary, ⟨loc, (sole.other puts before after).2⟩, le, fun same => ?_⟩
  have here := current same
  have ne : lc.lastPos ≠ l := by
    rintro rfl
    exact before (here ▸ named)
  rw [puts.of_ne ne]
  exact here

/-- A copy need not be current in a bucket whose sequence advanced. -/
theorem evolves (follows : lc.Follows t h c) (memory : t.Evolves t')
    (sole : ∃ loc, t'.Sole loc h c) : lc.Follows t' h c := by
  obtain ⟨named, primary, -, le, current⟩ := follows
  obtain ⟨advance, same⟩ := memory lc.lastPos.bucket
  refine ⟨named, primary, sole, le.trans advance, fun still => ?_⟩
  have cells : t'.cells lc.lastPos = t.cells lc.lastPos := same (by omega) lc.lastPos.cell
  rw [cells]
  exact current (by omega)

/-- **A copy is followed** through relocations and writes to other entries. -/
theorem rewrites (step : Trie.Rewrites h c t t') (follows : lc.Follows t h c) :
    lc.Follows t' h c := by
  obtain ⟨loc, sole⟩ := follows.sole
  cases step with
  | @write l e before after =>
    exact follows.evolves (.write t l e) ⟨loc, (sole.other (t.puts_write l e) before after).2⟩
  | store before after => exact follows.store before after
  | @relocate src dst e here vacant place after =>
    obtain rfl := sole.only src here
    exact follows.evolves ((Evolves.write t dst _).trans (.write _ src e))
      ⟨dst, sole.relocate vacant place after⟩
  | quiet cells seq =>
    exact follows.evolves (fun b => ⟨(congrFun seq b).ge, fun _ i => congrFun cells _⟩)
      ⟨loc, sole.congr cells⟩

theorem run (moves : Relation.ReflTransGen (Trie.Rewrites h c) t t') (follows : lc.Follows t h c) :
    lc.Follows t' h c := by
  induction moves with
  | refl => exact follows
  | tail _ step ih => exact ih.rewrites step

/-- A copy whose bucket seems not to have been written is of the one cell of its entry, as
long as the sequence fields have not wrapped around. -/
theorem here_of_unchanged (follows : lc.Follows t h c) (sole : t.Sole loc h c)
    (window : t.seq lc.lastPos.bucket < lc.lastSeq + 2 ^ 23)
    (same : t.entryUnchanged lc = true) : lc.lastPos = loc ∧ t.cells loc = lc.value := by
  have le := follows.seq_le
  simp only [Trie.entryUnchanged, sameSeq, decide_eq_true_eq] at same
  have here := follows.current (by omega)
  obtain rfl := sole.only lc.lastPos (here ▸ follows.named)
  exact ⟨rfl, here⟩

end LocalCopy.Follows

/-! ## The update -/

/-- A write of the entry itself leaves its name in this cell only. -/
theorem Trie.Sole.write (sole : t.Sole loc h c) (names : Names g loc e h c) :
    (t.write loc e).Sole loc h c := by
  have puts := t.puts_write loc e
  refine ⟨by rw [puts.self]; exact names, fun loc' names' => ?_⟩
  by_contra ne
  rw [puts.of_ne ne] at names'
  exact ne (sole.only loc' names')

/-- A cell that was written is read as written. -/
theorem localCopy_write (t : Trie g) (loc : Loc) (e : Entry) (primaryBucket : ℕ) :
    (t.write loc e).localCopy loc primaryBucket =
      ⟨e, loc, primaryBucket, (t.write loc e).seq loc.bucket⟩ := by
  rw [Trie.localCopy, (t.puts_write loc e).self]

/-- **`update_entry`** through a copy that is followed writes the one cell of its entry. -/
theorem LocalCopy.Follows.updateEntry {s : Sys g} {lc : LocalCopy}
    (follows : lc.Follows s.trie h c) (sole : s.trie.Sole loc h c)
    (window : s.trie.seq lc.lastPos.bucket < lc.lastSeq + 2 ^ 23) {v : Entry}
    (secondary : v.secondary = lc.value.secondary) :
    (updateEntry lc v).Returns s fun lc' s' =>
      s'.trie = s.trie.write loc { v with secondary := (s.trie.cells loc).secondary } ∧
        lc' = s'.trie.localCopy loc (hashToBucket h) := by
  have named := follows.named
  have primary := follows.primary
  by_cases same : s.trie.entryUnchanged lc = true
  · -- the bucket was not written since the copy was read
    obtain ⟨rfl, here⟩ := follows.here_of_unchanged sole window same
    have flag : ({ v with secondary := (s.trie.cells lc.lastPos).secondary } : Entry) = v := by
      rw [here, ← secondary]
    rw [flag]
    refine (updateEntry_fast v same).weaken ?_
    rintro lc' s' - ⟨rfl, rfl⟩
    refine ⟨rfl, ?_⟩
    rw [← primary]
    exact (localCopy_write s.trie lc.lastPos v lc.primaryBucket).symm
  · -- the entry is searched for by its color
    have header := (cellHash_eq_iff named.tag named.inTable).mp named.hash
    have found := sole.found
    rw [← primary, ← header.1, ← named.color] at found
    refine (updateEntry_slow v same found).weaken ?_
    rintro lc' s' - ⟨rfl, rfl⟩
    refine ⟨rfl, ?_⟩
    rw [← primary]
    exact (localCopy_write s.trie loc _ lc.primaryBucket).symm

/-- A cell did not change since it was just read. -/
theorem entryUnchanged_localCopy (t : Trie g) (loc : Loc) (primaryBucket : ℕ) :
    t.entryUnchanged (t.localCopy loc primaryBucket) = true := by
  simp [Trie.entryUnchanged, Trie.localCopy, sameSeq]

/-- A copy of a cell that was just written is not searched for again. -/
theorem updateEntry_localCopy (s : Sys g) (loc : Loc) (primaryBucket : ℕ) (v : Entry) :
    (updateEntry (s.trie.localCopy loc primaryBucket) v).Returns s fun lc s' =>
      s'.trie = s.trie.write loc v ∧ lc = s'.trie.localCopy loc primaryBucket := by
  refine (updateEntry_fast v (entryUnchanged_localCopy s.trie loc primaryBucket)).weaken ?_
  rintro lc' s' - ⟨rfl, rfl⟩
  exact ⟨rfl, (localCopy_write s.trie loc v primaryBucket).symm⟩

end CuckooTrie
