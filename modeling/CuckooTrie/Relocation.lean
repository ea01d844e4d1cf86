import CuckooTrie.Frame
import CuckooTrie.SearchFree

/-!
# Adding an entry is an operation of the store

While it looks for a free cell, moves entries around and writes the new entry,
`add_entry` leaves every other entry where its name says it is: each memory on
the way holds the old store or the one with the new entry (`addEntry_spec`).

`Sound` is the invariant of a run: the memory now, and each one since the start,
holds a store with a given property.  `Trie.Evolves` says that cells change only
together with the sequence of their bucket; from it follows which local copies
are still up to date.
-/

namespace CuckooTrie

open Sys

variable {g : Geometry} {Q : Store → Prop} {S : Store}

/-- A bucket whose sequence did not advance has the same cells. -/
def Trie.Evolves (t t' : Trie g) : Prop :=
  ∀ b, t.seq b ≤ t'.seq b ∧ (t'.seq b = t.seq b → ∀ i, t'.cells ⟨b, i⟩ = t.cells ⟨b, i⟩)

namespace Trie.Evolves

variable {t t' t'' : Trie g}

theorem refl (t : Trie g) : t.Evolves t := fun _ => ⟨le_rfl, fun _ _ => rfl⟩

theorem trans (h : t.Evolves t') (h' : t'.Evolves t'') : t.Evolves t'' := fun b => by
  obtain ⟨le, same⟩ := h b
  obtain ⟨le', same'⟩ := h' b
  refine ⟨le.trans le', fun equal i => ?_⟩
  rw [same' (by omega), same (by omega)]

theorem of_quiet {s s' : Sys g} (quiet : Quiet s s') : s.trie.Evolves s'.trie := fun b => by
  rw [quiet.cells, quiet.seq]
  exact ⟨le_rfl, fun _ _ => rfl⟩

theorem write (t : Trie g) (loc : Loc) (e : Entry) : t.Evolves (t.write loc e) := fun b => by
  refine ⟨(t.seq_write loc e b).1, fun same i => ?_⟩
  simp only [Trie.write] at same
  split at same
  · omega
  · next other =>
    exact (t.puts_write loc e).of_ne fun equal => other (congrArg Loc.bucket equal)

end Trie.Evolves

/-! ## Sound runs -/

/-- Every memory since the start of the run held a store with the property `Q`. -/
def Sys.Past (Q : Store → Prop) (s : Sys g) : Prop :=
  ∀ t ∈ s.history, ∃ S hole, t.Stores S hole ∧ Q S

/-- The memory holds a store with the property `Q`, as did every memory before. -/
structure Sound (Q : Store → Prop) (s : Sys g) (S : Store) : Prop where
  stores : s.trie.Stores S none
  now : Q S
  past : s.Past Q
  listed : LocksListed s

theorem Sys.Past.quiet {s s' : Sys g} (past : s.Past Q) (quiet : Quiet s s') : s'.Past Q := by
  rw [Sys.Past, quiet.history]
  exact past

theorem Sys.Past.stored {s : Sys g} {t : Trie g} {hole : Option Loc} (past : s.Past Q)
    (stores : t.Stores S hole) (now : Q S) : (s.stored t).Past Q := by
  intro t' mem
  rcases List.mem_cons.mp mem with rfl | mem
  · exact ⟨S, hole, stores, now⟩
  · exact past t' mem

theorem Sound.quiet {s s' : Sys g} (sound : Sound Q s S) (quiet : Quiet s s') : Sound Q s' S :=
  ⟨sound.stores.congr quiet.cells quiet.isEmpty, sound.now, sound.past.quiet quiet,
    quiet.locks sound.listed⟩

/-- A store of an entry that changes the store to one with the property again. -/
theorem Sound.stored {s : Sys g} {S' : Store} {t : Trie g} (sound : Sound Q s S)
    (stores : t.Stores S' none) (now : Q S') (lock : t.writeLock = s.trie.writeLock) :
    Sound Q (s.stored t) S' :=
  ⟨stores, now, sound.past.stored stores now, fun b set =>
    sound.listed b (by rw [← lock]; exact set)⟩

/-- Whole entries were written between two states, and nothing else was recorded
than relocations. -/
structure Sys.Evolves (s s' : Sys g) : Prop where
  memory : s.trie.Evolves s'.trie
  savedWrites : s'.savedWrites = s.savedWrites
  head : s'.trie.seq g.numBuckets = s.trie.seq g.numBuckets

namespace Sys.Evolves

variable {s s' s'' : Sys g}

theorem of_quiet (quiet : Quiet s s') : s.Evolves s' := 
  ⟨.of_quiet quiet, quiet.savedWrites, congrFun quiet.seq _⟩

theorem trans (h : s.Evolves s') (h' : s'.Evolves s'') : s.Evolves s'' :=
  ⟨h.memory.trans h'.memory, h'.savedWrites.trans h.savedWrites, h'.head.trans h.head⟩

theorem write (s : Sys g) {loc : Loc} (inTable : loc.bucket < g.numBuckets) (e : Entry) :
    s.Evolves (s.stored (s.trie.write loc e)) :=
  ⟨.write _ _ _, rfl, if_neg inTable.ne'⟩

end Sys.Evolves

/-! ## Moving entries -/

theorem Movable.congr {t t' : Trie g} {immovable : Option Loc} {loc : Loc}
    (movable : Movable t immovable loc) (same : t'.cells loc = t.cells loc) :
    Movable t' immovable loc :=
  ⟨movable.inTable, same ▸ movable.used, movable.ne_root, movable.ne_immovable⟩

theorem otherBucket_congr {t t' : Trie g} {loc : Loc} (same : t'.cells loc = t.cells loc) :
    otherBucket t' loc = otherBucket t loc := by
  rw [otherBucket, otherBucket, same]

theorem Chain.congr {t t' : Trie g} {immovable : Option Loc} {start target : ℕ}
    {sources : List Loc} (chain : Chain t immovable start target sources)
    (same : ∀ l ∈ sources, t'.cells l = t.cells l) :
    Chain t' immovable start target sources := by
  induction sources generalizing target with
  | nil => exact chain
  | cons src rest ih =>
    obtain ⟨movable, other, chain⟩ := chain
    have here := same src List.mem_cons_self
    exact ⟨movable.congr here, (otherBucket_congr here).trans other,
      ih chain fun l mem => same l (List.mem_cons_of_mem _ mem)⟩

/-- What moving entries along a chain leaves behind. -/
structure MovedAlong (s s' : Sys g) (start : ℕ) (free : Loc) (sources : List Loc) : Prop where
  evolves : s.Evolves s'
  relocations : s'.relocations = s.relocations
  others : ∀ l, l ≠ free → l ∉ sources → s'.trie.cells l = s.trie.cells l
  seq : ∀ b, b ≠ free.bucket → b ∉ sources.map (·.bucket) → s'.trie.seq b = s.trie.seq b
  freed : ∃ last, sources.getLast? = some last ∧ last ∈ sources ∧ last.bucket = start ∧
    (s'.trie.cells last).body.used = false
  used : ∀ l, (s.trie.cells l).body.used = true → sources.getLast? ≠ some l →
    (s'.trie.cells l).body.used = true

/-- **Moving entries along a chain** leaves the store alone at every step, and the
last cell free. -/
theorem moveEntries_spec {s : Sys g} {hole immovable : Option Loc} {start : ℕ} {free : Loc}
    {sources : List Loc} (stores : s.trie.Stores S hole) (now : Q S) (past : s.Past Q)
    (listed : LocksListed s) (vacant : s.trie.Vacant hole free)
    (chain : Chain s.trie immovable start free.bucket sources)
    (distinct : (free.bucket :: sources.map (·.bucket)).Nodup) (root : free ≠ rootLoc)
    (nonempty : sources ≠ []) :
    (moveEntries free sources).Returns s fun _ s' =>
      Sound Q s' S ∧ MovedAlong s s' start free sources := by
  induction sources generalizing s hole free with
  | nil => exact absurd rfl nonempty
  | cons src rest ih =>
    obtain ⟨movable, bucket, chain⟩ := chain
    rw [List.map_cons, List.nodup_cons, List.mem_cons, not_or, List.nodup_cons] at distinct
    obtain ⟨⟨neSrc, freeNotRest⟩, srcNotRest, nodup⟩ := distinct
    have at_ : s.trie.At src (cellHash g src (s.trie.cells src)) (s.trie.cells src).color :=
      ⟨movable.inTable, movable.used, rfl, rfl⟩
    have moves : hole ≠ some src := by
      rintro rfl
      rcases vacant.2 with ⟨same, -⟩ | same
      · cases same
      · exact neSrc (congrArg Loc.bucket (Option.some.inj same)).symm
    have copied := s.trie.puts_write free (s.trie.cells src).flip
    obtain ⟨stores', -⟩ := stores.move copied vacant at_ moves bucket.symm movable.ne_root root
    have ne : ∀ l ∈ src :: rest, l ≠ free := by
      rintro l mem rfl
      rcases List.mem_cons.mp mem with rfl | mem
      · exact neSrc rfl
      · exact freeNotRest (List.mem_map_of_mem mem)
    rw [moveEntries]
    refine Prog.Returns.bind (Q := fun t s' => t = s.trie ∧ s' = s) (.read ⟨rfl, rfl⟩) ?_
    rintro t s₀ - ⟨rfl, rfl⟩
    refine Prog.Returns.bind (Q := fun _ s' => s' = s₀.stored
      (s₀.trie.write free (s₀.trie.cells src).flip)) (.update rfl) ?_
    rintro - s₀' - rfl
    refine (Quietly.moveEntryLock free src _).bind ?_
    rintro - s₁ - quiet
    have cells : s₁.trie.cells = (s₀.trie.write free (s₀.trie.cells src).flip).cells := quiet.cells
    have stores₁ := stores'.congr quiet.cells quiet.isEmpty
    have past₁ : s₁.Past Q := Past.quiet (past.stored stores' now) quiet
    have listed₁ : LocksListed s₁ := quiet.locks listed
    have keeps : ∀ l ∈ src :: rest, s₁.trie.cells l = s₀.trie.cells l := fun l mem => by
      rw [cells]
      exact copied.of_ne (ne l mem)
    have evolves₁ : s₀.Evolves s₁ := (Evolves.write _ vacant.1 _).trans (.of_quiet quiet)
    have seq₁ : ∀ b, b ≠ free.bucket → s₁.trie.seq b = s₀.trie.seq b := fun b other => by
      rw [quiet.seq]
      exact if_neg other
    have used₁ : ∀ l, (s₀.trie.cells l).body.used = true → (s₁.trie.cells l).body.used = true := by
      intro l used
      rw [cells]
      by_cases same : l = free
      · rw [same, copied.self]
        exact movable.used
      · rw [copied.of_ne same]
        exact used
    cases rest with
    | nil =>
      -- the last one: free the cell
      have unused := s₁.trie.puts_write src (freedEntry (s₀.trie.cells src))
      have stores₂ := stores₁.fill unused movable.inTable rfl rfl rfl
      refine .update ⟨⟨stores₂, now, past₁.stored stores₂ now, listed₁⟩, ?_⟩
      refine ⟨evolves₁.trans (Evolves.write _ movable.inTable _), quiet.relocations, ?_, ?_, ?_, ?_⟩
      · intro l neFree notSource
        have neSource : l ≠ src := fun same => notSource (same ▸ List.mem_singleton_self _)
        exact (unused.of_ne neSource).trans ((congrFun cells l).trans (copied.of_ne neFree))
      · intro b neFree notSource
        have neSource : b ≠ src.bucket := fun same => notSource (same ▸ List.mem_singleton_self _)
        exact (if_neg neSource).trans (seq₁ b neFree)
      · exact ⟨src, rfl, List.mem_singleton_self _, chain, congrArg (·.body.used) unused.self⟩
      · intro l used notLast
        have neSource : l ≠ src := fun same => notLast (congrArg some same.symm)
        exact (congrArg (·.body.used) (unused.of_ne neSource)).trans (used₁ l used)
    | cons next rest =>
      have chain₁ : Chain s₁.trie immovable start src.bucket (next :: rest) :=
        chain.congr fun l mem => keeps l (List.mem_cons_of_mem _ mem)
      have vacant₁ : s₁.trie.Vacant (some src) src := ⟨movable.inTable, Or.inr rfl⟩
      refine (ih stores₁ past₁ listed₁ vacant₁ chain₁ (List.nodup_cons.mpr ⟨srcNotRest, nodup⟩)
        movable.ne_root (List.cons_ne_nil _ _)).weaken ?_
      rintro - s₂ - ⟨sound, moved⟩
      refine ⟨sound, evolves₁.trans moved.evolves, moved.relocations.trans quiet.relocations, ?_, ?_,
        ?_, fun l used notLast => moved.used l (used₁ l used) ?_⟩
      · intro l neFree notSource
        rw [List.mem_cons, not_or] at notSource
        exact (moved.others l notSource.1 notSource.2).trans
          ((congrFun cells l).trans (copied.of_ne neFree))
      · intro b neFree notSource
        rw [List.map_cons, List.mem_cons, not_or] at notSource
        exact (moved.seq b notSource.1 notSource.2).trans (seq₁ b neFree)
      · obtain ⟨last, isLast, mem, rest⟩ := moved.freed
        exact ⟨last, by rw [List.getLast?_cons_cons]; exact isLast, List.mem_cons_of_mem _ mem, rest⟩
      · rwa [List.getLast?_cons_cons] at notLast

/-! ## Relocating -/

/-- The relocations run since there were `mark` of them. -/
def Sys.relocationsSince (s : Sys g) (mark : ℕ) : List Relocation :=
  s.relocations.take (s.relocations.length - mark)

theorem upgradePath_spec {t : Trie g} {path : List QueueEntry}
    (readLocks : ∀ q ∈ path, q.readLock = readLockBucket t q.bucket) {s : Sys g}
    (same : s.trie.seq = t.seq) :
    (upgradePath path).Returns s fun upgraded s' =>
      Quiet s s' ∧ (upgraded.length = path.length ∨ (LocksListed s → Denied s s')) := by
  induction path generalizing s with
  | nil => exact .pure ⟨Quiet.refl s, Or.inl rfl⟩
  | cons q path ih =>
    rw [upgradePath]
    refine (Quietly.upgradeBucketLock_spec q.readLock s).bind fun ret s' le h => ?_
    obtain ⟨quiet, rfl | ⟨rfl, failed⟩⟩ := h
    · refine (ih (fun q' mem => readLocks q' (List.mem_cons_of_mem _ mem))
        (quiet.seq.trans same)).bind fun upgraded s'' le' h => ?_
      obtain ⟨quiet', outcome⟩ := h
      refine .pure ⟨quiet.trans quiet', ?_⟩
      rcases outcome with whole | denied
      · exact Or.inl (congrArg (· + 1) whole)
      · exact Or.inr fun listed => (denied (quiet.locks listed)).mono_left le
    · refine .pure ⟨quiet, Or.inr fun listed => failed listed ?_⟩
      rw [readLocks q List.mem_cons_self, same]
      rfl

/-- What a successful relocation leaves behind. -/
structure Relocated (s s' : Sys g) (start : ℕ) (sources : List Loc) : Prop where
  evolves : s.Evolves s'
  relocations : s'.relocations = s.relocations
  others : ∀ l, (s.trie.cells l).body.used = true → l ∉ sources →
    s'.trie.cells l = s.trie.cells l
  seq : ∀ b, BucketFull s.trie b → b ∉ sources.map (·.bucket) → s'.trie.seq b = s.trie.seq b
  freed : (sources.getLastD default).bucket = start ∧ sources.getLastD default ∈ sources ∧
    (s'.trie.cells (sources.getLastD default)).body.used = false
  used : ∀ l, (s.trie.cells l).body.used = true → l ≠ sources.getLastD default →
    (s'.trie.cells l).body.used = true

theorem Relocated.of_quiet {s s₀ s' : Sys g} {start : ℕ} {sources : List Loc}
    (relocated : Relocated s₀ s' start sources) (quiet : Quiet s s₀) :
    Relocated s s' start sources where
  evolves := (Evolves.of_quiet quiet).trans relocated.evolves
  relocations := relocated.relocations.trans quiet.relocations
  others l used notSource := by
    rw [relocated.others l (by rw [quiet.cells]; exact used) notSource, quiet.cells]
  seq b full notSource := by
    rw [relocated.seq b (fun i => by rw [quiet.cells]; exact full i) notSource, quiet.seq]
  freed := relocated.freed
  used l used := relocated.used l (by rw [quiet.cells]; exact used)

/-- **Relocating along the path that was found**: if one of its buckets was written
since the search or is denied, nothing is moved. -/
theorem relocateAlong_spec {s : Sys g} {bucketNum : ℕ} {immovable : Option Loc}
    {queue : List QueueEntry} {found : FreeCell} (sound : Sound Q s S)
    (right : found.Right s.trie immovable bucketNum queue) {root : Entry}
    (hroot : S.entry 0 0 = some root) :
    (relocateAlong queue found).Returns s fun r s' =>
      r.1 = .ok ∧ Sound Q s' S ∧ Relocated s s' bucketNum r.2 ∨
        r.1 = .retry ∧ Quiet s s' ∧ Denied s s' := by
  obtain ⟨q, hq, -⟩ := right.source
  obtain ⟨chain, distinct⟩ := right.chain
  have nonempty : sourceCells queue queue.length found.queuePos found.childIdx ≠ [] := by
    have inside := (List.getElem?_eq_some_iff.mp hq).1
    cases hlen : queue.length with
    | zero => omega
    | succ n => cases found.queuePos <;> exact List.cons_ne_nil _ _
  rw [relocateAlong]
  simp only
  generalize hsources : sourceCells queue queue.length found.queuePos found.childIdx = sources at *
  refine (Quietly.upgradeBucketLock_spec found.readLock s).bind fun ret s₁ le₁ h => ?_
  obtain ⟨quiet₁, rfl | ⟨rfl, failed⟩⟩ := h
  · simp only
    refine (upgradePath_spec (right.inv.path_readLock hq) quiet₁.seq).bind
      fun upgraded s₂ le₂ h => ?_
    obtain ⟨quiet₂, outcome⟩ := h
    have quiet := quiet₁.trans quiet₂
    refine .ite (fun whole => ?_) fun partly => ?_
    · -- every bucket on the path is locked
      have sound₂ := sound.quiet quiet
      have vacant : s₂.trie.Vacant none found.freeCell := by
        refine ⟨?_, Or.inl ⟨rfl, by rw [quiet.cells]; exact right.free⟩⟩
        cases sources with
        | nil => exact absurd rfl nonempty
        | cons src rest =>
          rw [← chain.2.1]
          exact alternateBucket_lt chain.1.inTable
      have notRoot : found.freeCell ≠ rootLoc := by
        intro same
        have used := (sound.stores.root root hroot).1.used
        rw [← same, right.free] at used
        cases used
      refine (moveEntries_spec sound₂.stores sound₂.now sound₂.past sound₂.listed vacant
        (chain.congr fun l _ => congrFun quiet.cells l) distinct notRoot nonempty).bind ?_
      rintro - s₃ - ⟨sound₃, moved⟩
      refine (Quietly.releasePath _ _ _ s₃).bind fun _ s₄ _ after => ?_
      refine .pure (Or.inl ⟨rfl, sound₃.quiet after, ?_⟩)
      have getLastD : ∀ {last}, sources.getLast? = some last → sources.getLastD default = last := by
        intro last isLast
        rw [List.getLastD_eq_getLast?, isLast]
        rfl
      refine ⟨((Evolves.of_quiet quiet).trans moved.evolves).trans (.of_quiet after),
        after.relocations.trans (moved.relocations.trans quiet.relocations), ?_, ?_, ?_, ?_⟩
      · intro l used notSource
        have neFree : l ≠ found.freeCell := by
          rintro rfl
          rw [right.free] at used
          cases used
        rw [after.cells, moved.others l neFree notSource, quiet.cells]
      · intro b isFull notSource
        have neFree : b ≠ found.freeCell.bucket := by
          rintro rfl
          have := isFull found.freeCell.cell
          rw [right.free] at this
          cases this
        rw [after.seq, moved.seq b neFree notSource, quiet.seq]
      · obtain ⟨last, isLast, mem, bucket, unused⟩ := moved.freed
        rw [getLastD isLast, after.cells]
        exact ⟨bucket, mem, unused⟩
      · intro l used notLast
        rw [after.cells]
        exact moved.used l (by rw [quiet.cells]; exact used) fun isLast =>
          notLast (getLastD isLast).symm
    · refine (Quietly.releasePath _ _ _ s₂).bind fun _ s₃ le₃ quiet₃ => ?_
      refine .pure (Or.inr ⟨rfl, quiet.trans quiet₃, ?_⟩)
      have denied := outcome.resolve_left partly (quiet₁.locks sound.listed)
      exact (denied.mono_left le₁).mono_right le₃
  · refine .pure (Or.inr ⟨rfl, quiet₁, failed sound.listed ?_⟩)
    rw [right.readLock]
    rfl

/-- **`relocate_entry`** frees a cell of a full bucket without touching the store, or
gives up without any write. -/
theorem relocateEntry_spec {s : Sys g} {bucketNum : ℕ} (immovable : Option Loc)
    (sound : Sound Q s S) (full : BucketFull s.trie bucketNum) (inTable : bucketNum < g.numBuckets)
    {root : Entry} (hroot : S.entry 0 0 = some root) :
    (relocateEntry bucketNum immovable).Returns s fun r s' =>
      r.1 = .ok ∧ Sound Q s' S ∧ Relocated s s' bucketNum r.2 ∨
        r.1 = .retry ∧ Quiet s s' ∧ Denied s s' ∨ r.1 = .fail ∧ Quiet s s' := by
  rw [relocateEntry]
  refine (Quietly.read _ s).bind fun locked s₁ le₁ quiet₁ => ?_
  refine (Quietly.assertThat _ _ s₁).bind fun _ s₀ le₀ quiet₀ => ?_
  have asserted := quiet₁.trans quiet₀
  refine Prog.Returns.bind (Q := fun t s' => t = s₀.trie ∧ s' = s₀) (.read ⟨rfl, rfl⟩) ?_
  rintro t s₀ - ⟨rfl, rfl⟩
  cases hsearch : searchFreeCell s₀.trie immovable relocateQueueSize 0
      [⟨bucketNum, readLockBucket s₀.trie bucketNum, 0, 0⟩] with
  | none => exact .pure (Or.inr (Or.inr ⟨rfl, asserted⟩))
  | some result =>
    have full₀ : BucketFull s₀.trie bucketNum := fun i => by
      rw [asserted.cells]
      exact full i
    obtain ⟨queue, found⟩ := result
    have right := searchFreeCell_spec (.initial full₀ inTable) hsearch
    refine Prog.Returns.bind (Q := fun _ s' => Quiet s₀ s' ∧ s'.trie = s₀.trie)
      (.update ⟨⟨rfl, rfl, rfl, rfl, rfl, rfl, rfl, id⟩, rfl⟩) ?_
    rintro - s₂ le₂ ⟨quiet₂, same⟩
    have recorded := asserted.trans quiet₂
    rw [← same] at right
    refine (relocateAlong_spec (sound.quiet recorded) right hroot).weaken fun r s' _ h => ?_
    rcases h with ⟨ok, sound', relocated⟩ | ⟨retry, quiet, denied⟩
    · exact Or.inl ⟨ok, sound', relocated.of_quiet recorded⟩
    · exact Or.inr (Or.inl ⟨retry, recorded.trans quiet,
        denied.mono_left ((le₁.trans le₀).trans le₂)⟩)

/-! ## Adding an entry -/

/-- The entry `add_entry` stores under a hash and a color. -/
def newEntry (entry : Entry) (h c : ℕ) : Entry :=
  { entry with secondary := false, color := c, tag := hashToTag h }

/-- No mixing value maps a bucket to itself. -/
def Geometry.Mixes (g : Geometry) : Prop := ∀ tag < 16, g.bucketMixTable tag ≠ 0

theorem Geometry.Mixes.ne (mixes : g.Mixes) {b tag : ℕ} (h : tag < 16) :
    g.mixBucket b tag ≠ b := by
  have mix := g.mix_lt tag
  have ne := mixes tag h
  rw [g.mixBucket_eq]
  split <;> omega

/-- A relocation went through the other bucket of the pair it was to make room in. -/
def Relocation.Crosses (r : Relocation) : Prop := r.secondaryBucket ∈ r.sources.map (·.bucket)

/-- The reasons for which the only thread may have to repeat an `add_entry`: the
bucket it checks in the end is one it wrote itself. -/
def SelfDefeated (g : Geometry) (relocations : List Relocation) : Prop :=
  ¬ g.Mixes ∨ ∃ r ∈ relocations, r.Crosses

/-- The cells that held an entry are as before, but those a relocation moved. -/
def Sys.Unmoved (s s' : Sys g) : Prop :=
  ∀ l, (s.trie.cells l).body.used = true →
    (∀ r ∈ s'.relocationsSince s.relocations.length, l ∉ r.sources) →
    s'.trie.cells l = s.trie.cells l

/-- The cells that held an entry still hold one. -/
def Sys.StaysUsed (s s' : Sys g) : Prop :=
  ∀ l, (s.trie.cells l).body.used = true → (s'.trie.cells l).body.used = true

/-- A name in use has its entry in one of the two buckets of the pair, so a color
that no cell of the pair has is not in use. -/
theorem fresh_of_unusedColor {t : Trie g} {h : ℕ} (stores : t.Stores S none) :
    S.entry h (unusedColorInPair t (hashToBucket h)
      (g.mixBucket (hashToBucket h) (hashToTag h))) = none := by
  have free := (unusedColorInPair_spec t (hashToBucket h)
    (g.mixBucket (hashToBucket h) (hashToTag h))).2
  generalize unusedColorInPair t (hashToBucket h)
    (g.mixBucket (hashToBucket h) (hashToTag h)) = c at free ⊢
  cases stored : S.entry h c with
  | none => rfl
  | some e =>
    obtain ⟨⟨b, i⟩, at_, -⟩ := stores.stored h c e stored
    obtain ⟨-, -, place⟩ := stores.place at_
    have color := at_.color
    cases sec : (t.cells ⟨b, i⟩).secondary
    · simp only [sec, Bool.false_eq_true, if_false] at place
      rw [place] at color
      exact absurd color (free i).1
    · simp only [sec, if_true] at place
      rw [place] at color
      exact absurd color (free i).2

/-- What `add_entry` ends with. -/
inductive Added (Q : Store → Prop) (S : Store) (h : ℕ) (entry : Entry) (s' : Sys g)
    (selfDefeated : Prop) : InternalStatus × Entry × Loc → Prop
  | ok {c entry' loc} : S.entry h c = none → c ≤ maxValidColor →
      Sound Q s' (S.set h c (newEntry entry h c)) → s'.trie.At loc h c →
      s'.trie.cells loc = entry' → entry'.content = newEntry entry h c →
      Added Q S h entry s' selfDefeated (.ok, entry', loc)
  | retry {entry' loc} : Sound Q s' S → selfDefeated →
      Added Q S h entry s' selfDefeated (.retry, entry', loc)
  | fail {entry' loc} : Sound Q s' S → Added Q S h entry s' selfDefeated (.fail, entry', loc)

/-- Writing the new entry into a free cell of a locked bucket. -/
theorem addEntryAt_spec {s : Sys g} {h : ℕ} {entry : Entry} {lock : Bool} {result : Loc}
    {alternateBucketLock : BucketReadLock} {flagSecondary : Bool} (sound : Sound Q s S)
    {root : Entry} (hroot : S.entry 0 0 = some root) (hh : h < g.numPairs)
    (used : entry.body.used = true) (primary : entry.secondary = false)
    (free : (s.trie.cells result).body.used = false)
    (place : result.bucket = if flagSecondary then
      g.mixBucket (hashToBucket h) (hashToTag h) else hashToBucket h)
    (now : ∀ c ≤ maxValidColor, S.entry h c = none → Q (S.set h c (newEntry entry h c))) :
    (addEntryAt h entry lock result alternateBucketLock flagSecondary).Returns s fun r s' =>
      s.Evolves s' ∧ s'.relocations = s.relocations ∧
      (∀ l, l ≠ result → s'.trie.cells l = s.trie.cells l) ∧
      (r.1 = .ok → (s'.trie.cells result).body.used = true) ∧
      Added Q S h entry s' (Denied s s' ∨ alternateBucketLock.bucket = result.bucket ∨
        s.trie.seq alternateBucketLock.bucket ≠ alternateBucketLock.seq) r := by
  have bucketLt := g.hashToBucket_lt hh
  have inTable : result.bucket < g.numBuckets := by
    rw [place]
    split
    · exact g.mixBucket_lt _ bucketLt
    · exact bucketLt
  rw [addEntryAt]
  have enter : ∀ {α : Type} {k : Unit → M g α} {R : α → Sys g → Prop},
      (∀ s₁, s ≤ s₁ → Quiet s s₁ → (k ()).Returns s₁ R) →
      (if lock = true then writeLockEntryInLockedBucket result >>= k else k ()).Returns s R := by
    intro α k R rest
    cases lock with
    | false => exact rest s le_rfl (Quiet.refl s)
    | true => exact (Quietly.writeLockEntryInLockedBucket result s).bind fun _ => rest
  refine enter fun s₁ le₁ quiet₁ => ?_
  have sound₁ := sound.quiet quiet₁
  refine Prog.Returns.bind (Q := fun t s' => t = s₁.trie ∧ s' = s₁) (.read ⟨rfl, rfl⟩) ?_
  rintro t s₁' - ⟨rfl, rfl⟩
  have fresh := fresh_of_unusedColor (h := h) sound₁.stores
  have valid := (unusedColorInPair_spec s₁'.trie (hashToBucket h)
    (g.mixBucket (hashToBucket h) (hashToTag h))).1
  simp only
  generalize unusedColorInPair s₁'.trie (hashToBucket h)
    (g.mixBucket (hashToBucket h) (hashToTag h)) = c at fresh valid ⊢
  rw [primary, Bool.false_or]
  generalize hentry : ({ entry with secondary := flagSecondary, color := c, tag := hashToTag h } :
    Entry) = entry'
  have content : entry'.content = newEntry entry h c := by rw [← hentry]; rfl
  have used' : entry'.body.used = true := by rw [← hentry]; exact used
  have tag : entry'.tag = hashToTag h := by rw [← hentry]
  have color : entry'.color = c := by rw [← hentry]
  have hash : cellHash g result entry' = h := by
    refine (cellHash_eq_iff (tag ▸ hashToTag_lt h) inTable).mpr ⟨tag, bucketLt, ?_⟩
    rw [tag, ← hentry]
    exact place
  have free₁ : (s₁'.trie.cells result).body.used = false := by
    rw [quiet₁.cells]
    exact free
  have written := s₁'.trie.puts_write result entry'
  have stores₂ : (s₁'.trie.write result entry').Stores (S.set h c (newEntry entry h c)) none := by
    rw [← content]
    refine sound₁.stores.add written inTable free₁ used' (tag ▸ hashToTag_lt h) (color ▸ valid) hash
      color fresh ?_
    rintro rfl rfl
    rw [hroot] at fresh
    cases fresh
  have sound₂ := sound₁.stored stores₂ (now c valid fresh) rfl
  have at₂ : (s₁'.trie.write result entry').At result h c := by
    have := written.at_self inTable used'
    rwa [hash, color] at this
  refine Prog.Returns.bind (Q := fun _ s' => s' = s₁'.stored (s₁'.trie.write result entry'))
    (.update rfl) ?_
  rintro - s₂ le₂ rfl
  have others : ∀ l, l ≠ result → (s₁'.trie.write result entry').cells l = s.trie.cells l :=
    fun l ne => (written.of_ne ne).trans (congrFun quiet₁.cells l)
  refine (Quietly.readUnlockBucket_spec alternateBucketLock _).bind fun ok s₃ le₃ h₃ => ?_
  obtain ⟨quiet₃, rfl | ⟨rfl, failed⟩⟩ := h₃
  · simp only [if_true]
    refine (Quietly.releaseBucketLock _ s₃).bind fun _ s₄ _ quiet₄ => ?_
    have after := quiet₃.trans quiet₄
    refine .pure ⟨?_, ?_, ?_, fun _ => ?_, ?_⟩
    · exact ((Evolves.of_quiet quiet₁).trans (Evolves.write _ inTable _)).trans (.of_quiet after)
    · exact after.relocations.trans quiet₁.relocations
    · exact fun l ne => (congrFun after.cells l).trans (others l ne)
    · rw [after.cells]
      exact at₂.used
    · exact .ok fresh valid (sound₂.quiet after) (at₂.congr (congrFun after.cells result))
        ((congrFun after.cells result).trans written.self) content
  · simp only [Bool.false_eq_true, if_false]
    have sound₃ := sound₂.quiet quiet₃
    have at₃ : s₃.trie.At result h c := at₂.congr (congrFun quiet₃.cells result)
    have removed := s₃.trie.puts_write result unusedEntry
    have stores₄ := sound₃.stores.erase removed at₃ rfl rfl rfl
    rw [Store.erase_set _ _ fresh] at stores₄
    refine Prog.Returns.bind (Q := fun _ s' => s' = s₃.stored (s₃.trie.write result unusedEntry))
      (.update rfl) ?_
    rintro - s₄ le₄ rfl
    refine (Quietly.releaseBucketLock _ _).bind fun _ s₅ le₅ quiet₅ => ?_
    refine .pure ⟨?_, ?_, ?_, nofun, ?_⟩
    · exact ((((Evolves.of_quiet quiet₁).trans (Evolves.write _ inTable _)).trans
        (.of_quiet quiet₃)).trans (Evolves.write _ inTable _)).trans (.of_quiet quiet₅)
    · exact quiet₅.relocations.trans (quiet₃.relocations.trans quiet₁.relocations)
    · intro l ne
      rw [quiet₅.cells]
      exact (removed.of_ne ne).trans ((congrFun quiet₃.cells l).trans (others l ne))
    · refine .retry ((sound₃.stored stores₄ sound.now rfl).quiet quiet₅) ?_
      by_cases here : alternateBucketLock.bucket = result.bucket
      · exact Or.inr (Or.inl here)
      by_cases unwritten : s.trie.seq alternateBucketLock.bucket = alternateBucketLock.seq
      · refine Or.inl ?_
        have denied := failed (by
          rw [← unwritten, ← quiet₁.seq]
          exact if_neg here)
        exact (((denied.mono_left le₂).mono_left le₁).mono_right le₄).mono_right le₅
      · exact Or.inr (Or.inr unwritten)

/-- **`add_entry`**: with `SI_OK` the entry is stored under the hash and a color of
its own, otherwise nothing is; in between no other entry is lost.  The only
thread has to repeat it only if it defeated itself. -/
theorem addEntry_spec {s : Sys g} {h : ℕ} {entry : Entry} (immovable : Option Loc) (lock : Bool)
    (sound : Sound Q s S) {root : Entry} (hroot : S.entry 0 0 = some root) (hh : h < g.numPairs)
    (used : entry.body.used = true) (primary : entry.secondary = false)
    (now : ∀ c ≤ maxValidColor, S.entry h c = none → Q (S.set h c (newEntry entry h c))) :
    (addEntry h entry immovable lock).Returns s fun r s' =>
      s.Evolves s' ∧ s.Unmoved s' ∧ (r.1 = .ok → s.StaysUsed s') ∧
      Added Q S h entry s' (Denied s s' ∨
        SelfDefeated g (s'.relocationsSince s.relocations.length)) r := by
  have bucketLt := g.hashToBucket_lt hh
  have noneSince : ∀ {s' : Sys g}, s'.relocations = s.relocations →
      s'.relocationsSince s.relocations.length = [] := by
    intro s' same
    rw [relocationsSince, same, Nat.sub_self, List.take_zero]
  have quietCase : ∀ {s' : Sys g} {r}, Quiet s s' →
      Added Q S h entry s' (Denied s s' ∨
        SelfDefeated g (s'.relocationsSince s.relocations.length)) r →
      s.Evolves s' ∧ s.Unmoved s' ∧ (r.1 = .ok → s.StaysUsed s') ∧ Added Q S h entry s' (Denied s s' ∨
        SelfDefeated g (s'.relocationsSince s.relocations.length)) r := fun quiet added =>
    ⟨.of_quiet quiet, fun l _ _ => congrFun quiet.cells l,
      fun _ l used => by rw [quiet.cells]; exact used, added⟩
  -- the same cell for the new entry and the check afterwards: a bucket maps to itself
  have selfMapped : g.mixBucket (hashToBucket h) (hashToTag h) = hashToBucket h → ¬ g.Mixes :=
    fun same mixes => mixes.ne (hashToTag_lt h) same
  rw [addEntry]
  refine Prog.Returns.bind (Q := fun t s' => t = s.trie ∧ s' = s) (.read ⟨rfl, rfl⟩) ?_
  rintro t s - ⟨rfl, rfl⟩
  simp only
  cases primaryFree : findFreeCellInBucket s.trie (hashToBucket h) with
  | some result =>
    obtain ⟨bucket, free⟩ := findFreeCellInBucket_eq_some primaryFree
    simp only
    refine (Quietly.upgradeBucketLock_spec _ s).bind fun ret s₁ le₁ h₁ => ?_
    obtain ⟨quiet, rfl | ⟨rfl, failed⟩⟩ := h₁
    · simp only
      refine (addEntryAt_spec (sound.quiet quiet) hroot hh used primary
        (by rw [quiet.cells]; exact free) bucket now).weaken fun r s₂ le₂ h₂ => ?_
      obtain ⟨evolves, relocations, others, -, added⟩ := h₂
      have since := noneSince (relocations.trans quiet.relocations)
      have same : ∀ l, (s.trie.cells l).body.used = true → s₂.trie.cells l = s.trie.cells l := by
        intro l used
        rw [others l (by rintro rfl; rw [free] at used; cases used), quiet.cells]
      refine ⟨(Evolves.of_quiet quiet).trans evolves, fun l used _ => same l used,
        fun _ l used => by rw [same l used]; exact used, ?_⟩
      · cases added with
        | ok fresh valid sound' at_ cell content => exact .ok fresh valid sound' at_ cell content
        | retry sound' reason =>
          refine .retry sound' ?_
          rcases reason with denied | same | written
          · exact Or.inl (denied.mono_left le₁)
          · exact Or.inr (Or.inl (selfMapped (same.trans bucket)))
          · exact absurd (congrFun quiet.seq _) written
        | fail sound' => exact .fail sound'
    · exact .pure (quietCase quiet (.retry (sound.quiet quiet)
        (Or.inl (failed sound.listed rfl))))
  | none =>
    simp only
    cases secondaryFree : findFreeCellInBucket s.trie
        (g.mixBucket (hashToBucket h) (hashToTag h)) with
    | some result =>
      obtain ⟨bucket, free⟩ := findFreeCellInBucket_eq_some secondaryFree
      simp only
      refine (Quietly.upgradeBucketLock_spec _ s).bind fun ret s₁ le₁ h₁ => ?_
      obtain ⟨quiet, rfl | ⟨rfl, failed⟩⟩ := h₁
      · simp only
        refine (addEntryAt_spec (sound.quiet quiet) hroot hh used primary
          (by rw [quiet.cells]; exact free) bucket now).weaken fun r s₂ le₂ h₂ => ?_
        obtain ⟨evolves, relocations, others, -, added⟩ := h₂
        have since := noneSince (relocations.trans quiet.relocations)
        have same : ∀ l, (s.trie.cells l).body.used = true → s₂.trie.cells l = s.trie.cells l := by
          intro l used
          rw [others l (by rintro rfl; rw [free] at used; cases used), quiet.cells]
        refine ⟨(Evolves.of_quiet quiet).trans evolves, fun l used _ => same l used,
          fun _ l used => by rw [same l used]; exact used, ?_⟩
        · cases added with
          | ok fresh valid sound' at_ cell content => exact .ok fresh valid sound' at_ cell content
          | retry sound' reason =>
            refine .retry sound' ?_
            rcases reason with denied | same | written
            · exact Or.inl (denied.mono_left le₁)
            · exact Or.inr (Or.inl (selfMapped (same.trans bucket).symm))
            · exact absurd (congrFun quiet.seq _) written
          | fail sound' => exact .fail sound'
      · exact .pure (quietCase quiet (.retry (sound.quiet quiet)
          (Or.inl (failed sound.listed rfl))))
    | none =>
      simp only
      refine (Quietly.upgradeBucketLock_spec _ s).bind fun ret s₁ le₁ h₁ => ?_
      obtain ⟨quiet, rfl | ⟨rfl, failed⟩⟩ := h₁
      swap
      · exact .pure (quietCase quiet (.retry (sound.quiet quiet)
          (Or.inl (failed sound.listed rfl))))
      simp only
      have full : BucketFull s₁.trie (hashToBucket h) := by
        intro i
        rw [quiet.cells]
        exact findFreeCellInBucket_eq_none primaryFree i
      have secondaryFull : BucketFull s₁.trie (g.mixBucket (hashToBucket h) (hashToTag h)) := by
        intro i
        rw [quiet.cells]
        exact findFreeCellInBucket_eq_none secondaryFree i
      refine (relocateEntry_spec immovable (sound.quiet quiet) full bucketLt hroot).bind
        fun r s₂ le₂ h₂ => ?_
      obtain ⟨ret, sources⟩ := r
      obtain ⟨rfl, sound₂, moved⟩ | ⟨rfl, quiet₂, denied⟩ | ⟨rfl, quiet₂⟩ := h₂
      · -- room was made in the primary bucket
        simp only [if_true]
        obtain ⟨bucket, mem, free⟩ := moved.freed
        refine Prog.Returns.bind (Q := fun _ s' => s' = { s₂ with relocations :=
          ⟨hashToBucket h, g.mixBucket (hashToBucket h) (hashToTag h), sources⟩ ::
            s₂.relocations }) (.update rfl) ?_
        rintro - s₃ le₃ rfl
        have sound₃ : Sound Q { s₂ with relocations :=
            ⟨hashToBucket h, g.mixBucket (hashToBucket h) (hashToTag h), sources⟩ ::
              s₂.relocations } S := ⟨sound₂.stores, sound₂.now, sound₂.past, sound₂.listed⟩
        refine (addEntryAt_spec sound₃ hroot hh used primary free
          (show _ = if false = true then _ else _ from bucket) now).weaken
          fun r s₄ le₄ h₄ => ?_
        obtain ⟨evolves, relocations, others, filled, added⟩ := h₄
        have since : s₄.relocationsSince s.relocations.length =
            [⟨hashToBucket h, g.mixBucket (hashToBucket h) (hashToTag h), sources⟩] := by
          rw [relocationsSince, relocations, moved.relocations, quiet.relocations,
            List.length_cons, Nat.add_sub_cancel_left]
          rfl
        refine ⟨?_, ?_, fun ok l used => ?_, ?_⟩
        · refine ((Evolves.of_quiet quiet).trans moved.evolves).trans ?_
          exact ⟨evolves.memory, evolves.savedWrites, evolves.head⟩
        · intro l used unmoved
          rw [since] at unmoved
          have notSource := unmoved _ (List.mem_singleton_self _)
          have neResult : l ≠ sources.getLastD default := fun same => notSource (same ▸ mem)
          rw [others l neResult]
          change s₂.trie.cells l = _
          rw [moved.others l (by rw [quiet.cells]; exact used) notSource, quiet.cells]
        · by_cases result : l = sources.getLastD default
          · rw [result]
            exact filled ok
          · rw [others l result]
            exact moved.used l (by rw [quiet.cells]; exact used) result
        · rw [since]
          cases added with
          | ok fresh valid sound' at_ cell content => exact .ok fresh valid sound' at_ cell content
          | retry sound' reason =>
            refine .retry sound' ?_
            rcases reason with denied | same | written
            · exact Or.inl (((denied.mono_left le₃).mono_left le₂).mono_left le₁)
            · exact Or.inr (Or.inl (selfMapped (same.trans bucket)))
            · refine Or.inr (Or.inr ⟨_, List.mem_singleton_self _, ?_⟩)
              by_contra elsewhere
              refine written ?_
              change s₂.trie.seq _ = _
              rw [readLockBucket, moved.seq _ secondaryFull elsewhere, quiet.seq]
          | fail sound' => exact .fail sound'
      · simp only [reduceCtorEq, if_false]
        refine (Quietly.releaseBucketLock _ s₂).bind fun _ s₃ le₃ quiet₃ => ?_
        have all := (quiet.trans quiet₂).trans quiet₃
        exact .pure (quietCase all (.retry (sound.quiet all)
          (Or.inl ((denied.mono_left le₁).mono_right le₃))))
      · simp only [reduceCtorEq, if_false]
        refine (Quietly.releaseBucketLock _ s₂).bind fun _ s₃ le₃ quiet₃ => ?_
        have all := (quiet.trans quiet₂).trans quiet₃
        exact .pure (quietCase all (.fail (sound.quiet all)))

end CuckooTrie
