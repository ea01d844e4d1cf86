import CuckooTrie.Frame
import CuckooTrie.Insert
import CuckooTrie.PipelinedHashes

/-!
# Where updates search

`update_entry` searches for an entry again if its bucket was written since the copy was
read.  The copy `read_min_leaf` makes of the list head has no primary bucket to search in.
For all other copies the invariant is that they are of cells of the table
(`LocalCopy.InTable`); the copy of the list head is only used while its bucket is not
written by anybody else (`LocalCopy.Ready`).  This holds on any memory and whatever the
other threads do, so it needs no well-formed trie.
-/

namespace CuckooTrie

open Sys

variable {g : Geometry} {α β : Type} {B : Set ℕ} {t : Trie g} {s s' s'' : Sys g}

/-! ## What is written where -/

/-- Between two states nothing was searched for again, and only some buckets were written. -/
structure WritesIn (B : Set ℕ) (s s' : Sys g) : Prop where
  slowUpdates : s'.slowUpdates = s.slowUpdates
  seq : ∀ b ∉ B, s'.trie.seq b = s.trie.seq b

namespace WritesIn

theorem refl (s : Sys g) : WritesIn B s s := ⟨rfl, fun _ _ => rfl⟩

theorem trans (h : WritesIn B s s') (h' : WritesIn B s' s'') : WritesIn B s s'' :=
  ⟨h'.slowUpdates.trans h.slowUpdates, fun b out => (h'.seq b out).trans (h.seq b out)⟩

theorem of_quiet (quiet : Quiet s s') : WritesIn B s s' :=
  ⟨quiet.slowUpdates, fun b _ => congrFun quiet.seq b⟩

end WritesIn

/-- A program that updates nothing, writes some buckets only and returns results with a
property. -/
def Stays (B : Set ℕ) (f : M g α) (Q : α → Prop) : Prop := f.FramesWith (WritesIn B) Q

namespace Stays

variable {f f' : M g α} {k : α → M g β} {Q : α → Prop} {R : β → Prop}

theorem quietly (quietly : Quietly f) : Stays B f fun _ => True :=
  Prog.FramesWith.of_frames (fun s => by
    obtain ⟨a, ret, quiet⟩ := quietly s
    exact .of_quiet quiet) fun _ => trivial

theorem pure {a : α} (h : Q a) : Stays B (pure a : M g α) Q :=
  Prog.FramesWith.pure .refl h

theorem find {f : Sys g → Option α} (h : ∀ s a, f s = some a → Q a) :
    Stays B (Prog.find f : M g α) Q := fun s => .find (.refl s) fun a => h s a

theorem read {f : Sys g → α} (h : ∀ s, Q (f s)) : Stays B (Prog.read f : M g α) Q :=
  fun s => .read (.refl s) (h s)

theorem getTrie : Stays B (CuckooTrie.getTrie : M g (Trie g)) fun _ => True :=
  read fun _ => trivial

theorem bind (first : Stays B f Q) (rest : ∀ a, Q a → Stays B (k a) R) : Stays B (f >>= k) R :=
  Prog.FramesWith.bind (fun _ _ _ => .trans) first rest

theorem ite {c : Prop} [Decidable c] (pos : c → Stays B f Q) (neg : ¬c → Stays B f' Q) :
    Stays B (if c then f else f') Q := Prog.FramesWith.ite pos neg

theorem weaken {Q' : α → Prop} (h : Stays B f Q) (imp : ∀ a, Q a → Q' a) : Stays B f Q' :=
  Prog.FramesWith.weaken h imp

theorem writeEntry {loc : Loc} (mem : loc.bucket ∈ B) (e : Entry) :
    Stays B (CuckooTrie.writeEntry loc e : M g Unit) fun _ => True := by
  refine fun s => .update ⟨rfl, fun b out => if_neg ?_⟩ trivial
  rintro rfl
  exact out mem

theorem storeField (loc : Loc) (f : Entry → Entry) :
    Stays B (CuckooTrie.storeField loc f : M g Unit) fun _ => True :=
  fun _ => .update ⟨rfl, fun _ _ => rfl⟩ trivial

theorem recordSavedWrite (loc : Loc) (saved : Entry) (mark : ℕ) :
    Stays B (CuckooTrie.recordSavedWrite loc saved mark : M g Unit) fun _ => True :=
  fun _ => .update ⟨rfl, fun _ _ => rfl⟩ trivial

theorem recordRelocation (r : Relocation) :
    Stays B (CuckooTrie.recordRelocation r : M g Unit) fun _ => True :=
  fun _ => .update ⟨rfl, fun _ _ => rfl⟩ trivial

end Stays

/-! ## Adding an entry -/

/-- A set of buckets that relocations do not lead out of. -/
structure ClosedBuckets (g : Geometry) (B : Set ℕ) : Prop where
  zero : 0 ∈ B
  alternate : ∀ (e : Entry) (b : ℕ), b ∈ B → alternateBucket g e b ∈ B

theorem ClosedBuckets.univ (g : Geometry) : ClosedBuckets g Set.univ :=
  ⟨trivial, fun _ _ _ => trivial⟩

theorem ClosedBuckets.table (g : Geometry) : ClosedBuckets g (Set.Iio g.numBuckets) :=
  ⟨g.numBuckets_pos, fun _ _ h => alternateBucket_lt h⟩

namespace ClosedBuckets

variable {queue queue' : List QueueEntry} {immovable : Option Loc}

theorem mix (closed : ClosedBuckets g B) {b : ℕ} (mem : b ∈ B) (tag : ℕ) : g.mixBucket b tag ∈ B :=
  closed.alternate { unusedEntry with tag := tag } b mem

theorem getD (closed : ClosedBuckets g B) (inside : ∀ q ∈ queue, q.bucket ∈ B) (pos : ℕ) :
    (queue.getD pos default).bucket ∈ B := by
  by_cases lt : pos < queue.length
  · rw [List.getD_eq_getElem _ _ lt]
    exact inside _ (List.getElem_mem lt)
  · rw [List.getD_eq_default _ _ (not_lt.mp lt)]
    exact closed.zero

/-- The scan of a bucket puts alternate buckets into the queue. -/
theorem scanBucket (closed : ClosedBuckets g B) {pos : ℕ} {cells : List (Fin 4)}
    {found : Option FreeCell} (inside : ∀ q ∈ queue, q.bucket ∈ B)
    (scan : CuckooTrie.scanBucket t immovable pos cells queue = (queue', found)) :
    (∀ q ∈ queue', q.bucket ∈ B) ∧ ∀ cell ∈ found, cell.freeCell.bucket ∈ B := by
  induction cells generalizing queue with
  | nil =>
    cases scan
    exact ⟨inside, nofun⟩
  | cons i is ih =>
    rw [CuckooTrie.scanBucket] at scan
    have child := closed.alternate (t.cells ⟨(queue.getD pos default).bucket, i⟩) _
      (closed.getD inside pos)
    simp only at scan
    split at scan
    · exact ih inside scan
    split at scan
    · exact ih inside scan
    split at scan
    · exact ih inside scan
    split at scan
    · refine ih ?_ scan
      split
      · intro q mem
        rcases List.mem_append.mp mem with mem | mem
        · exact inside q mem
        · rw [List.mem_singleton.mp mem]
          exact child
      · exact inside
    · next freeCell free =>
      cases scan
      refine ⟨inside, fun cell mem => ?_⟩
      cases mem
      rw [(findInBucket_eq_some free).1]
      exact child

theorem searchFreeCell (closed : ClosedBuckets g B) {fuel pos : ℕ} {found : FreeCell}
    (inside : ∀ q ∈ queue, q.bucket ∈ B)
    (search : CuckooTrie.searchFreeCell t immovable fuel pos queue = some (queue', found)) :
    (∀ q ∈ queue', q.bucket ∈ B) ∧ found.freeCell.bucket ∈ B := by
  induction fuel generalizing pos queue with
  | zero => cases search
  | succ fuel ih =>
    rw [CuckooTrie.searchFreeCell] at search
    split at search
    · split at search
      · next scan =>
        cases search
        obtain ⟨queue, cell⟩ := closed.scanBucket inside scan
        exact ⟨queue, cell _ rfl⟩
      · next scan => exact ih (closed.scanBucket inside scan).1 search
    · cases search

theorem sourceCells (closed : ClosedBuckets g B) (inside : ∀ q ∈ queue, q.bucket ∈ B)
    (fuel pos : ℕ) (i : Fin 4) : ∀ l ∈ sourceCells queue fuel pos i, l.bucket ∈ B := by
  induction fuel generalizing pos i with
  | zero => exact nofun
  | succ fuel ih =>
    cases pos with
    | zero =>
      intro l mem
      rw [List.mem_singleton.mp mem]
      exact closed.getD inside 0
    | succ pos =>
      intro l mem
      rcases List.mem_cons.mp mem with rfl | mem
      · exact closed.getD inside (pos + 1)
      · exact ih _ _ l mem

end ClosedBuckets

namespace Stays

theorem moveEntries {free : Loc} {sources : List Loc} (freeIn : free.bucket ∈ B)
    (sourcesIn : ∀ l ∈ sources, l.bucket ∈ B) :
    Stays B (moveEntries free sources : M g Unit) fun _ => True := by
  induction sources generalizing free with
  | nil => exact pure trivial
  | cons src rest ih =>
    have srcIn := sourcesIn src List.mem_cons_self
    refine getTrie.bind fun t _ => (writeEntry freeIn _).bind fun _ _ =>
      (quietly (Quietly.moveEntryLock _ _)).bind fun _ _ => ?_
    exact ite (fun _ => writeEntry srcIn _) fun _ =>
      ih srcIn fun l mem => sourcesIn l (List.mem_cons_of_mem _ mem)

theorem releaseBucketLocks (bs : List ℕ) :
    Stays B (releaseBucketLocks bs : M g Unit) fun _ => True := by
  induction bs with
  | nil => exact pure trivial
  | cons b bs ih =>
    exact (quietly (Quietly.releaseBucketLock b)).bind fun _ _ => ih

theorem releasePath (queue : List QueueEntry) (found : FreeCell) (upgraded : List ℕ) :
    Stays B (releasePath queue found upgraded : M g Unit) fun _ => True :=
  (quietly (Quietly.releaseBucketLock _)).bind fun _ _ =>
    (releaseBucketLocks upgraded).bind fun _ _ =>
      quietly (Quietly.assertThat _ _)

theorem upgradePath (path : List QueueEntry) :
    Stays B (upgradePath path : M g (List ℕ)) fun _ => True := by
  induction path with
  | nil => exact pure trivial
  | cons q path ih =>
    refine (quietly (Quietly.upgradeBucketLock q.readLock)).bind fun ret _ => ?_
    cases ret with
    | ok => exact ih.bind fun _ _ => pure trivial
    | _ => exact pure trivial

/-- A relocation moves entries between the buckets it was searched in. -/
theorem relocateAlong (closed : ClosedBuckets g B) {queue : List QueueEntry} {found : FreeCell}
    (inside : ∀ q ∈ queue, q.bucket ∈ B) (freeIn : found.freeCell.bucket ∈ B) :
    Stays B (relocateAlong queue found : M g (InternalStatus × List Loc)) fun r =>
      ∀ l ∈ r.2, l.bucket ∈ B := by
  refine (quietly (Quietly.upgradeBucketLock found.readLock)).bind
    fun ret _ => ?_
  cases ret with
  | ok =>
    have sources := closed.sourceCells inside queue.length found.queuePos found.childIdx
    refine (upgradePath _).bind fun upgraded _ => ite (fun _ => ?_) fun _ => ?_
    · exact (moveEntries freeIn sources).bind fun _ _ =>
        (releasePath queue found upgraded).bind fun _ _ => pure sources
    · exact (releasePath queue found upgraded).bind fun _ _ => pure nofun
  | _ => exact pure nofun

theorem relocateEntry (closed : ClosedBuckets g B) {b : ℕ} (mem : b ∈ B)
    (immovable : Option Loc) :
    Stays B (relocateEntry b immovable : M g (InternalStatus × List Loc)) fun r =>
      ∀ l ∈ r.2, l.bucket ∈ B := by
  refine (read (Q := fun _ => True) fun _ => trivial).bind fun locked _ =>
    (quietly (Quietly.assertThat _ _)).bind fun _ _ =>
      getTrie.bind fun t _ => ?_
  have inside : ∀ q ∈ [(⟨b, readLockBucket t b, 0, 0⟩ : QueueEntry)], q.bucket ∈ B := by
    intro q h
    rw [List.mem_singleton.mp h]
    exact mem
  split
  · exact pure nofun
  · next queue found search =>
    obtain ⟨queueIn, freeIn⟩ := closed.searchFreeCell inside search
    exact (quietly (Quietly.recordLocks _)).bind fun _ _ =>
      relocateAlong closed queueIn freeIn

/-- The result of adding an entry: its address, if there is one, is in the set. -/
def AddsIn (B : Set ℕ) (r : InternalStatus × Entry × Loc) : Prop := r.1 = .ok → r.2.2.bucket ∈ B

theorem addEntryAt {result : Loc} (mem : result.bucket ∈ B) (h : ℕ) (entry : Entry) (lock : Bool)
    (alternateBucketLock : BucketReadLock) (flagSecondary : Bool) :
    Stays B (addEntryAt h entry lock result alternateBucketLock flagSecondary :
      M g (InternalStatus × Entry × Loc)) (AddsIn B) := by
  have rest : ∀ (entry : Entry), Stays B (do
      CuckooTrie.writeEntry result entry
      if ← readUnlockBucket alternateBucketLock then
        releaseBucketLock result.bucket
        Pure.pure (.ok, entry, result)
      else
        removeEntryByAddress result
        releaseBucketLock result.bucket
        Pure.pure (.retry, entry, result) : M g (InternalStatus × Entry × Loc)) (AddsIn B) := by
    intro entry
    refine (writeEntry mem entry).bind fun _ _ =>
      (quietly (Quietly.readUnlockBucket _)).bind fun ok _ =>
        ite (fun _ => ?_) fun _ => ?_
    · exact (quietly (Quietly.releaseBucketLock _)).bind fun _ _ =>
        pure fun _ => mem
    · exact (writeEntry mem unusedEntry).bind fun _ _ =>
        (quietly (Quietly.releaseBucketLock _)).bind fun _ _ => pure nofun
  refine ite (fun _ => ?_) fun _ => getTrie.bind fun t _ => rest _
  exact (quietly (Quietly.writeLockEntryInLockedBucket _)).bind
    fun _ _ => getTrie.bind fun t _ => rest _

/-- **Adding an entry** writes the buckets of its pair and those of a relocation. -/
theorem addEntry (closed : ClosedBuckets g B) {h : ℕ} (mem : hashToBucket h ∈ B) (entry : Entry)
    (immovable : Option Loc) (lock : Bool) :
    Stays B (addEntry h entry immovable lock : M g (InternalStatus × Entry × Loc))
      (AddsIn B) := by
  have second := closed.mix mem (hashToTag h)
  refine getTrie.bind fun t _ => ?_
  split
  · next result free =>
    refine (quietly (Quietly.upgradeBucketLock _)).bind fun ret _ => ?_
    cases ret with
    | ok => exact addEntryAt ((findInBucket_eq_some free).1 ▸ mem) h entry lock _ _
    | _ => exact pure nofun
  · split
    · next result free =>
      refine (quietly (Quietly.upgradeBucketLock _)).bind fun ret _ => ?_
      cases ret with
      | ok => exact addEntryAt ((findInBucket_eq_some free).1 ▸ second) h entry lock _ _
      | _ => exact pure nofun
    · refine (quietly (Quietly.upgradeBucketLock _)).bind fun ret _ => ?_
      cases ret with
      | ok =>
        refine (relocateEntry closed mem immovable).bind fun r sourcesIn => ite (fun _ => ?_)
          fun failed => ?_
        · have freed : (r.2.getLastD default).bucket ∈ B := by
            rcases List.eq_nil_or_concat r.2 with empty | ⟨above, last, eq⟩
            · rw [empty]
              exact closed.zero
            · rw [eq, List.concat_eq_append, List.getLastD_concat]
              exact sourcesIn last (by simp [eq])
          exact (recordRelocation _).bind fun _ _ => addEntryAt freed h entry lock _ _
        · exact (quietly (Quietly.releaseBucketLock _)).bind fun _ _ =>
            pure fun ok => absurd ok failed
      | _ => exact pure nofun

end Stays

/-! ## Copies of cells of the table -/

/-- A copy of a cell of the table, with a primary bucket there. -/
structure LocalCopy.InTable (lc : LocalCopy) (g : Geometry) : Prop where
  lastPos : lc.lastPos.bucket < g.numBuckets
  primaryBucket : lc.primaryBucket < g.numBuckets

/-- What a search of a pair returns is a copy of a cell of the pair. -/
theorem copy_of_pairSearch {b tag : ℕ} {accepts : Bool → Entry → Bool} {lc : LocalCopy}
    (found : (match findInBucket t b (accepts false) with
      | some loc => some loc
      | none => findInBucket t (g.mixBucket b tag) (accepts true)).map
        (fun loc => t.localCopy loc b) = some lc) :
    lc.lastSeq = t.seq lc.lastPos.bucket ∧ (b < g.numBuckets → lc.InTable g) := by
  obtain ⟨loc, first, rfl⟩ := Option.map_eq_some_iff.mp found
  refine ⟨rfl, fun inside => ⟨?_, inside⟩⟩
  change loc.bucket < g.numBuckets
  split at first
  · next loc' h =>
    cases first
    rw [(findInBucket_eq_some h).1]
    exact inside
  · rw [(findInBucket_eq_some first).1]
    exact g.mixBucket_lt tag inside

theorem copy_of_byColor {b tag color : ℕ} {lc : LocalCopy}
    (found : findEntryInPairByColor t b tag color = some lc) :
    lc.lastSeq = t.seq lc.lastPos.bucket ∧ (b < g.numBuckets → lc.InTable g) :=
  @copy_of_pairSearch g t b tag (fun isSecondary => matchesColor isSecondary tag color) lc found

theorem copy_of_byParent {b tag symbol color : ℕ} {lc : LocalCopy}
    (found : findEntryInPairByParent t b tag symbol color = some lc) :
    lc.lastSeq = t.seq lc.lastPos.bucket ∧ (b < g.numBuckets → lc.InTable g) :=
  @copy_of_pairSearch g t b tag (fun isSecondary => matchesParent isSecondary tag symbol color) lc
    found

/-- A finger all of whose copies are of cells of the table. -/
structure Finger.InTable (f : Finger) (g : Geometry) : Prop where
  containingEntry : f.containingEntry.InTable g
  path : ∀ e ∈ f.path, e.entry.InTable g
  prefixHash : f.prefixHash < g.numPairs

namespace Finger.InTable

variable {f f' : Finger}

theorem init (init : initFinger t = some f) : f.InTable g := by
  rw [initFinger] at init
  split at init
  · cases init
  · cases init
    have root : (findRoot t).InTable g := ⟨g.numBuckets_pos, g.numBuckets_pos⟩
    refine ⟨root, fun e mem => ?_, g.numPairs_pos⟩
    rw [List.mem_singleton.mp mem]
    exact root

theorem moveTo {symbol hash : ℕ} {child : LocalCopy} {extendPath : Bool} (inTable : f.InTable g)
    (hash_lt : hash < g.numPairs) (childIn : child.InTable g) :
    (Finger.nodeChanged { f.extendPrefixKnownHash symbol hash with containingEntry := child }
      extendPath).InTable g := by
  cases extendPath with
  | false => exact ⟨childIn, inTable.path, hash_lt⟩
  | true =>
    refine ⟨childIn, fun e mem => ?_, hash_lt⟩
    rcases List.mem_cons.mp mem with rfl | mem
    · exact childIn
    · exact inTable.path e mem

theorem tryDescend {symbol hash : ℕ} {savePath : Bool} (inTable : f.InTable g)
    (hash_lt : hash < g.numPairs)
    (descends : tryDescend t f symbol savePath hash = some (some f')) : f'.InTable g := by
  have inside := g.hashToBucket_lt hash_lt
  rcases tryDescend_cases descends with ⟨-, -, -, rfl⟩ | ⟨child, rfl, found⟩
  · exact ⟨inTable.containingEntry, inTable.path, hash_lt⟩
  · refine inTable.moveTo hash_lt ?_
    rcases found with ⟨-, -, -, byColor⟩ | ⟨-, -, byParent⟩
    · exact (copy_of_byColor byColor).2 inside
    · exact (copy_of_byParent byParent).2 inside

/-- **The descent** for a key makes copies of cells of the table, on any memory. -/
theorem descendLoop {fuel depth : ℕ} {p : KeyPrefetcher} {key : List UInt8} {track : Bool}
    {symbol : Option ℕ} (inTable : f.InTable g) (inStep : f.InStep p g key depth)
    (left : fuel + depth = numKeySymbols key)
    (ends : descendLoop t track fuel f p = some (f', symbol)) :
    f'.InTable g ∧ symbol.getD 0 ≤ fanout := by
  induction fuel generalizing depth f p with
  | zero => cases ends
  | succ fuel ih =>
    have within : depth < numKeySymbols key := by omega
    have onTime := inStep.onTime within
    have symbol_le : (p.step g).symbolAt depth ≤ fanout := by
      rw [KeyPrefetcher.symbolAt, List.getD_eq_getElem?_getD, onTime.symbol,
        ← List.getD_eq_getElem?_getD]
      rcases Nat.lt_or_ge depth (keySymbols key).length with lt | ge
      · rw [List.getD_eq_getElem _ _ lt]
        exact le_fanout_of_mem_keySymbols (List.getElem_mem lt)
      · rw [List.getD_eq_default _ _ ge]
        decide
    have hash_lt : (p.step g).hashAt depth < g.numPairs := by
      rw [onTime.hashAt]
      exact g.accumulateHash_lt inTable.prefixHash symbol_le
    rw [descendLoop_succ, inStep.prefixLen] at ends
    split at ends
    · cases ends
    · cases ends
      exact ⟨inTable, symbol_le⟩
    · next f₁ descended =>
      have inTable₁ := inTable.tryDescend hash_lt descended
      split at ends
      · cases ends
        exact ⟨inTable₁, Nat.zero_le _⟩
      · exact ih inTable₁ (inStep.step within descended) (by omega) ends

theorem descend {t₀ : Trie g} {f₀ : Finger} {key : List UInt8} {track : Bool}
    {symbol : Option ℕ} (init : initFinger t₀ = some f₀)
    (walk : descend t f₀ key track = some (f', symbol)) :
    f'.InTable g ∧ symbol.getD 0 ≤ fanout :=
  (Finger.InTable.init init).descendLoop (initFinger_inStep init key) (Nat.add_zero _) walk

end Finger.InTable

/-! ## Updates -/

/-- Only copies of cells of the table were searched for again. -/
def Sys.SlowInTable (s : Sys g) : Prop :=
  ∀ lc ∈ s.slowUpdates, lc.lastPos.bucket < g.numBuckets

/-- A copy that is of a cell of the table, or whose bucket was not written since. -/
def LocalCopy.Ready (lc : LocalCopy) (s : Sys g) : Prop :=
  lc.lastPos.bucket < g.numBuckets ∨ s.trie.seq lc.lastPos.bucket = lc.lastSeq

/-- The buckets outside the table were not written between two states. -/
def KeepsOutside (s s' : Sys g) : Prop :=
  ∀ b, g.numBuckets ≤ b → s'.trie.seq b = s.trie.seq b

theorem LocalCopy.Ready.keeps {lc : LocalCopy} (ready : lc.Ready s) (keeps : KeepsOutside s s') :
    lc.Ready s' := by
  rcases ready with inside | fresh
  · exact Or.inl inside
  · rcases Nat.lt_or_ge lc.lastPos.bucket g.numBuckets with inside | outside
    · exact Or.inl inside
    · exact Or.inr ((keeps _ outside).trans fresh)

theorem KeepsOutside.of_quiet (quiet : Quiet s s') : KeepsOutside s s' :=
  fun b _ => congrFun quiet.seq b

theorem KeepsOutside.trans (h : KeepsOutside s s') (h' : KeepsOutside s' s'') :
    KeepsOutside s s'' := fun b outside => (h' b outside).trans (h b outside)

/-- What stays in some buckets searches for nothing again. -/
theorem Stays.keeps {f : M g α} {Q : α → Prop} (stays : Stays B f Q) (inv : s.SlowInTable) :
    f.Keeps SlowInTable s fun a s' => Q a ∧ s'.SlowInTable ∧ WritesIn B s s' := by
  obtain ⟨writes, post⟩ := stays s
  have inv' : (f.run s).2.SlowInTable := by
    rw [SlowInTable, writes.slowUpdates]
    exact inv
  exact ⟨inv', fun a ret => ⟨post a ret, inv', writes⟩⟩

/-- What stays in the table leaves the buckets outside alone. -/
theorem Stays.keepsOutside {f : M g α} {Q : α → Prop} (stays : Stays (Set.Iio g.numBuckets) f Q)
    (inv : s.SlowInTable) :
    f.Keeps SlowInTable s fun a s' => Q a ∧ s'.SlowInTable ∧ KeepsOutside s s' :=
  (stays.keeps inv).weaken fun _ _ ⟨post, inv', writes⟩ =>
    ⟨post, inv', fun b outside => writes.seq b (not_lt.mpr outside)⟩

/-- A quiet program, as one that keeps the invariant. -/
theorem Quietly.keeps {f : M g α} (quietly : Quietly f) (inv : s.SlowInTable) :
    f.Keeps SlowInTable s fun _ s' => s'.SlowInTable ∧ KeepsOutside s s' := by
  obtain ⟨a, ret, quiet⟩ := quietly s
  have inv' : (f.run s).2.SlowInTable := by
    rw [SlowInTable, quiet.slowUpdates]
    exact inv
  exact ⟨inv', fun _ _ => ⟨inv', .of_quiet quiet⟩⟩

/-- **What an update writes**: the cell of the copy, or the one the search by color finds,
if there is one. -/
theorem updateEntry_keeps {lc : LocalCopy} {Q : LocalCopy → Sys g → Prop} (inv : s.SlowInTable)
    (v : Entry) (slow : s.trie.entryUnchanged lc ≠ true → lc.lastPos.bucket < g.numBuckets)
    (post : ∀ loc v s', s'.trie = s.trie.write loc v →
      (loc = lc.lastPos ∨ (lc.primaryBucket < g.numBuckets → loc.bucket < g.numBuckets)) →
      Q ⟨v, loc, lc.primaryBucket, s'.trie.seq loc.bucket⟩ s') :
    (updateEntry lc v).Keeps SlowInTable s fun lc' s' => s'.SlowInTable ∧ Q lc' s' := by
  -- both branches end with a write and a look at the sequence
  have written : ∀ (s₁ : Sys g) (loc : Loc) (v : Entry), s₁.SlowInTable → s₁.trie = s.trie →
      (loc = lc.lastPos ∨ (lc.primaryBucket < g.numBuckets → loc.bucket < g.numBuckets)) →
      (do
        writeEntry loc v
        let t ← getTrie
        pure ⟨v, loc, lc.primaryBucket, t.seq loc.bucket⟩ : M g LocalCopy).Keeps SlowInTable s₁
          fun lc' s' => s'.SlowInTable ∧ Q lc' s' := by
    intro s₁ loc v inv₁ trie place
    have inv₂ : (s₁.stored (s₁.trie.write loc v)).SlowInTable := inv₁
    refine Prog.Keeps.bind (Q := fun _ s' => s' = s₁.stored (s₁.trie.write loc v))
      (.update inv₂ rfl) ?_
    rintro _ s₂ rfl
    refine Prog.Keeps.bind (Q := fun t s' => t = s'.trie ∧ s' = s₁.stored (s₁.trie.write loc v))
      (.read inv₂ ⟨rfl, rfl⟩) ?_
    rintro t s₂ ⟨rfl, rfl⟩
    refine .pure inv₂ ⟨inv₂, post loc v _ ?_ place⟩
    rw [← trie]
    rfl
  rw [updateEntry]
  refine Prog.Keeps.bind (Q := fun t s' => t = s.trie ∧ s' = s) (.read inv ⟨rfl, rfl⟩) ?_
  rintro t s' ⟨rfl, rfl⟩
  refine .ite (fun _ => written s' lc.lastPos v inv rfl (Or.inl rfl)) fun differ => ?_
  have inv₁ : (s'.slowed lc).SlowInTable := by
    intro l mem
    rcases List.mem_cons.mp mem with rfl | mem
    · exact slow differ
    · exact inv l mem
  refine Prog.Keeps.bind (Q := fun _ s₁ => s₁ = s'.slowed lc) (.update inv₁ rfl) ?_
  rintro _ s₁ rfl
  refine Prog.Keeps.bind (Q := fun cur s₁ => s₁ = s'.slowed lc ∧
    findEntryInPairByColor s'.trie lc.primaryBucket lc.value.tag lc.value.color = some cur)
    (.find inv₁ fun cur found => ⟨rfl, found⟩) ?_
  rintro cur s₁ ⟨rfl, found⟩
  exact written _ cur.lastPos _ inv₁ rfl
    (Or.inr fun inside => ((copy_of_byColor found).2 inside).lastPos)

/-- **Updating a cell of the table** leaves the other buckets alone. -/
theorem updateEntry_inTable {lc : LocalCopy} (inv : s.SlowInTable) (inTable : lc.InTable g)
    (v : Entry) :
    (updateEntry lc v).Keeps SlowInTable s fun lc' s' =>
      s'.SlowInTable ∧ lc'.InTable g ∧ KeepsOutside s s' := by
  refine updateEntry_keeps inv v (fun _ => inTable.lastPos) fun loc v s' trie place => ?_
  have inside : loc.bucket < g.numBuckets := by
    rcases place with rfl | found
    · exact inTable.lastPos
    · exact found inTable.primaryBucket
  refine ⟨⟨inside, inTable.primaryBucket⟩, fun b outside => ?_⟩
  rw [trie]
  exact if_neg (by omega)

/-- **Updating a predecessor** through a copy that is ready leaves one that is ready. -/
theorem updateEntry_ready {lc : LocalCopy} (inv : s.SlowInTable) (ready : lc.Ready s)
    (v : Entry) :
    (updateEntry lc v).Keeps SlowInTable s fun lc' s' => s'.SlowInTable ∧ lc'.Ready s' := by
  refine updateEntry_keeps inv v (fun differ => ?_) fun loc v s' _ _ => Or.inr rfl
  refine ready.resolve_right fun fresh => differ ?_
  simp [Trie.entryUnchanged, sameSeq, fresh]

end CuckooTrie
