import CuckooTrie.Contention
import Mathlib.Algebra.BigOperators.Group.Finset.Basic
import Mathlib.Algebra.Order.Group.Multiset
import Mathlib.Tactic.Abel

/-!
# Relocating permutes the entries

The entries of a table as a multiset: each used cell contributes its entry with the
hash it is stored under.  On any table whatsoever, `relocate_entry` leaves this
multiset alone and moves entries only along its path, or changes no cell
(`relocate_entry_permutes`).
-/

namespace CuckooTrie

open Sys

variable {g : Geometry} {t t' : Trie g} {immovable : Option Loc} {start : ℕ} {loc : Loc}
  {e : Entry}

/-! ## The entries of a table -/

/-- The cells of the buckets of a table. -/
def tableCells (g : Geometry) : Finset Loc :=
  (Finset.range g.numBuckets ×ˢ (Finset.univ : Finset (Fin 4))).image fun p => ⟨p.1, p.2⟩

@[simp] theorem mem_tableCells : loc ∈ tableCells g ↔ loc.bucket < g.numBuckets := by
  obtain ⟨b, i⟩ := loc
  simp [tableCells]

/-- The entries in use, each with the hash it is stored under and without the flag that
says in which bucket of its pair it is. -/
def Trie.usedEntries (t : Trie g) : Multiset (ℕ × Entry) :=
  ((tableCells g).filter fun loc => (t.cells loc).body.used).val.map fun loc =>
    (cellHash g loc (t.cells loc), (t.cells loc).content)

/-- What a cell contributes to the entries in use. -/
def contribution (g : Geometry) (loc : Loc) (e : Entry) : Multiset (ℕ × Entry) :=
  if e.body.used then {(cellHash g loc e, e.content)} else 0

theorem contribution_of_unused (unused : e.body.used = false) : contribution g loc e = 0 := by
  simp [contribution, unused]

theorem Trie.usedEntries_eq_sum (t : Trie g) :
    t.usedEntries = ∑ loc ∈ tableCells g, contribution g loc (t.cells loc) := by
  simp only [contribution, ← Finset.sum_filter]
  have single := Multiset.sum_map_singleton t.usedEntries
  rw [usedEntries, Multiset.map_map] at single
  exact single.symm

theorem Trie.usedEntries_congr (same : t'.cells = t.cells) : t'.usedEntries = t.usedEntries := by
  rw [usedEntries, usedEntries, same]

/-- **A store into a cell** exchanges its contribution. -/
theorem Trie.Puts.usedEntries (puts : t.Puts loc e t') (inTable : loc.bucket < g.numBuckets) :
    t'.usedEntries + contribution g loc (t.cells loc) = t.usedEntries + contribution g loc e := by
  have mem : loc ∈ tableCells g := mem_tableCells.mpr inTable
  have others : ∑ l ∈ (tableCells g).erase loc, contribution g l (t'.cells l) =
      ∑ l ∈ (tableCells g).erase loc, contribution g l (t.cells l) :=
    Finset.sum_congr rfl fun l hl => by rw [puts.of_ne (Finset.ne_of_mem_erase hl)]
  rw [usedEntries_eq_sum, usedEntries_eq_sum, ← Finset.add_sum_erase _ _ mem,
    ← Finset.add_sum_erase _ _ mem, others, puts.self]
  abel

/-- An entry contributes the same from both buckets of its pair. -/
theorem contribution_flip {dst : Loc} (inTable : loc.bucket < g.numBuckets)
    (bucket : dst.bucket = alternateBucket g e loc.bucket) :
    contribution g dst e.flip = contribution g loc e := by
  rw [contribution, contribution, cellHash_alternate inTable bucket, Entry.content_flip]
  rfl

/-! ## Moving entries -/

/-- The entries of some cells were moved one position along a path, into the other
buckets of their pairs, and the last of these cells was freed. -/
structure Shifted (t t' : Trie g) (free : Loc) (sources : List Loc) : Prop where
  entries : t'.usedEntries + contribution g free (t.cells free) = t.usedEntries
  moved : ∀ (i : ℕ) src, sources[i]? = some src → ∃ dst, (free :: sources)[i]? = some dst ∧
    dst.bucket = otherBucket t src ∧ t'.cells dst = (t.cells src).flip
  freed : ∀ last ∈ sources.getLast?, t'.cells last = freedEntry (t.cells last)
  others : ∀ l, l ∉ free :: sources → t'.cells l = t.cells l

theorem Shifted.congr {t'' : Trie g} {free : Loc} {sources : List Loc}
    (shifted : Shifted t t' free sources) (same : t''.cells = t'.cells) :
    Shifted t t'' free sources where
  entries := by rw [Trie.usedEntries_congr same, shifted.entries]
  moved i src hi := by
    rw [same]
    exact shifted.moved i src hi
  freed last isLast := by rw [same, shifted.freed last isLast]
  others l off := by rw [same, shifted.others l off]

theorem Shifted.of_cells {t₀ : Trie g} {free : Loc} {sources : List Loc}
    (shifted : Shifted t t' free sources) (same : t.cells = t₀.cells) :
    Shifted t₀ t' free sources where
  entries := by rw [← same, ← Trie.usedEntries_congr same, shifted.entries]
  moved i src hi := by
    obtain ⟨dst, at_, bucket, moved⟩ := shifted.moved i src hi
    exact ⟨dst, at_, bucket.trans (otherBucket_congr (congrFun same src)), by rw [moved, same]⟩
  freed last isLast := by rw [shifted.freed last isLast, same]
  others l off := by rw [shifted.others l off, same]

/-- **Moving entries along a chain** permutes them. -/
theorem moveEntries_shifts {s : Sys g} {free : Loc} {sources : List Loc}
    (inTable : free.bucket < g.numBuckets) (chain : Chain s.trie immovable start free.bucket sources)
    (distinct : (free.bucket :: sources.map (·.bucket)).Nodup) (nonempty : sources ≠ []) :
    (moveEntries free sources).Returns s fun _ s' => Shifted s.trie s'.trie free sources := by
  induction sources generalizing s free with
  | nil => exact absurd rfl nonempty
  | cons src rest ih =>
    obtain ⟨movable, bucket, chain⟩ := chain
    rw [List.map_cons, List.nodup_cons, List.mem_cons, not_or, List.nodup_cons] at distinct
    obtain ⟨⟨neSrc, freeNotRest⟩, srcNotRest, nodup⟩ := distinct
    have ne : ∀ l ∈ src :: rest, l ≠ free := by
      rintro l mem rfl
      rcases List.mem_cons.mp mem with rfl | mem
      · exact neSrc rfl
      · exact freeNotRest (List.mem_map_of_mem mem)
    have srcOff : src ∉ rest := fun mem => srcNotRest (List.mem_map_of_mem mem)
    rw [moveEntries]
    refine Prog.Returns.bind (Q := fun t s' => t = s.trie ∧ s' = s) (.read ⟨rfl, rfl⟩) ?_
    rintro t s₀ - ⟨rfl, rfl⟩
    refine Prog.Returns.bind (Q := fun _ s' => s' = s₀.stored
      (s₀.trie.write free (s₀.trie.cells src).flip)) (.update rfl) ?_
    rintro - s₀' - rfl
    refine (Quietly.moveEntryLock free src _).bind ?_
    rintro - s₁ - quiet
    have copied : s₀.trie.Puts free (s₀.trie.cells src).flip s₁.trie :=
      ⟨fun l => by rw [quiet.cells]; rfl, quiet.isEmpty⟩
    have keeps : ∀ l ∈ src :: rest, s₁.trie.cells l = s₀.trie.cells l := fun l mem =>
      copied.of_ne (ne l mem)
    have balance := copied.usedEntries inTable
    rw [contribution_flip movable.inTable bucket.symm] at balance
    cases rest with
    | nil =>
      have freed := s₁.trie.puts_write src (freedEntry (s₀.trie.cells src))
      refine .update ⟨?_, ?_, ?_, ?_⟩
      · have balance' := freed.usedEntries movable.inTable
        rw [contribution_of_unused (e := freedEntry _) rfl, keeps src List.mem_cons_self,
          add_zero] at balance'
        rw [← balance', add_right_comm] at balance
        exact add_right_cancel balance
      · intro i l hi
        cases i with
        | zero =>
          cases hi
          refine ⟨free, rfl, bucket.symm, ?_⟩
          exact (freed.of_ne (ne src List.mem_cons_self).symm).trans copied.self
        | succ i => cases hi
      · rintro last isLast
        cases isLast
        exact freed.self
      · intro l off
        rw [List.mem_cons, List.mem_singleton, not_or] at off
        exact (freed.of_ne off.2).trans (copied.of_ne off.1)
    | cons next rest =>
      have chain₁ : Chain s₁.trie immovable start src.bucket (next :: rest) :=
        chain.congr fun l mem => keeps l (List.mem_cons_of_mem _ mem)
      refine (ih movable.inTable chain₁ (List.nodup_cons.mpr ⟨srcNotRest, nodup⟩)
        (List.cons_ne_nil _ _)).weaken ?_
      rintro - s₂ - shifted
      refine ⟨?_, ?_, ?_, ?_⟩
      · have balance' := shifted.entries
        rw [keeps src List.mem_cons_self] at balance'
        rw [← balance', add_right_comm] at balance
        exact add_right_cancel balance
      · intro i l hi
        cases i with
        | zero =>
          cases hi
          refine ⟨free, rfl, bucket.symm, (shifted.others free ?_).trans copied.self⟩
          exact fun mem => ne free mem rfl
        | succ i =>
          obtain ⟨dst, at_, target, moved⟩ := shifted.moved i l hi
          have same := keeps l (List.mem_cons_of_mem _ (List.mem_of_getElem? hi))
          exact ⟨dst, at_, target.trans (otherBucket_congr same), by rw [moved, same]⟩
      · intro last isLast
        rw [List.getLast?_cons_cons] at isLast
        rw [shifted.freed last isLast,
          keeps last (List.mem_cons_of_mem _ (List.mem_of_getLast? isLast))]
      · intro l off
        rw [List.mem_cons, not_or] at off
        exact (shifted.others l off.2).trans (copied.of_ne off.1)

/-! ## Relocating on any table -/

/-- What a relocation does to a table: along a path of cells that ends in the bucket to
make room in, each entry is moved one position on, into the other bucket of its pair
and with its flag flipped, the first one into a free cell; the last of the cells is free
then, and no other cell changes. -/
structure Permuted (t t' : Trie g) (immovable : Option Loc) (bucketNum : ℕ) (free : Loc)
    (sources : List Loc) : Prop where
  vacant : (t.cells free).body.used = false
  moved : ∀ (i : ℕ) src, sources[i]? = some src → ∃ dst, (free :: sources)[i]? = some dst ∧
    dst.bucket = alternateBucket g (t.cells src) src.bucket ∧ t'.cells dst = (t.cells src).flip
  output : ∃ output, sources.getLast? = some output ∧ output.bucket = bucketNum ∧
    (t'.cells output).body.used = false ∧ (t'.cells output).color = invalidColor ∧
    (t'.cells output).parentColor = invalidColor
  entries : t'.usedEntries = t.usedEntries
  others : ∀ l, l ∉ free :: sources → t'.cells l = t.cells l
  fixed : ∀ l, l = rootLoc ∨ some l = immovable →
    l ∉ sources ∧ ((t.cells l).body.used = true → t'.cells l = t.cells l)

theorem Permuted.congr {t'' : Trie g} {bucketNum : ℕ} {free : Loc} {sources : List Loc}
    (permuted : Permuted t t' immovable bucketNum free sources) (same : t''.cells = t'.cells) :
    Permuted t t'' immovable bucketNum free sources where
  vacant := permuted.vacant
  moved i src hi := by
    rw [same]
    exact permuted.moved i src hi
  output := by
    rw [same]
    exact permuted.output
  entries := by rw [Trie.usedEntries_congr same, permuted.entries]
  others l off := by rw [same, permuted.others l off]
  fixed l isFixed := by
    rw [same]
    exact permuted.fixed l isFixed

theorem Chain.last_bucket {target : ℕ} {sources : List Loc}
    (chain : Chain t immovable start target sources) {last : Loc}
    (isLast : sources.getLast? = some last) : last.bucket = start := by
  induction sources generalizing target with
  | nil => cases isLast
  | cons src rest ih =>
    cases rest with
    | nil =>
      cases isLast
      exact chain.2.2
    | cons next rest =>
      rw [List.getLast?_cons_cons] at isLast
      exact ih chain.2.2 isLast

/-- Cells to move the entries of, one position along a path into a free cell. -/
structure Movement (t : Trie g) (immovable : Option Loc) (start : ℕ) (free : Loc)
    (sources : List Loc) : Prop where
  unused : (t.cells free).body.used = false
  chain : Chain t immovable start free.bucket sources
  distinct : (free.bucket :: sources.map (·.bucket)).Nodup
  nonempty : sources ≠ []

/-- The path the search for a free cell ends with. -/
theorem FreeCell.Right.movement {queue : List QueueEntry} {found : FreeCell}
    (right : found.Right t immovable start queue) :
    Movement t immovable start found.freeCell
      (sourceCells queue queue.length found.queuePos found.childIdx) := by
  obtain ⟨q, hq, -⟩ := right.source
  obtain ⟨chain, distinct⟩ := right.chain
  refine ⟨right.free, chain, distinct, ?_⟩
  have inside := (List.getElem?_eq_some_iff.mp hq).1
  cases hlen : queue.length with
  | zero => omega
  | succ n => cases found.queuePos <;> exact List.cons_ne_nil _ _

theorem Movement.inTable {free : Loc} {sources : List Loc}
    (movement : Movement t immovable start free sources) : free.bucket < g.numBuckets := by
  have chain := movement.chain
  cases sources with
  | nil => exact absurd rfl movement.nonempty
  | cons src rest =>
    rw [← chain.2.1]
    exact alternateBucket_lt chain.1.inTable

theorem Movement.congr {free : Loc} {sources : List Loc}
    (movement : Movement t immovable start free sources) (same : t'.cells = t.cells) :
    Movement t' immovable start free sources where
  unused := by
    rw [same]
    exact movement.unused
  chain := movement.chain.congr fun l _ => congrFun same l
  distinct := movement.distinct
  nonempty := movement.nonempty

theorem Shifted.permuted {free : Loc} {sources : List Loc}
    (shifted : Shifted t t' free sources) (movement : Movement t immovable start free sources) :
    Permuted t t' immovable start free sources where
  vacant := movement.unused
  moved := shifted.moved
  output := by
    have isLast := List.getLast?_eq_some_getLast movement.nonempty
    have freed := shifted.freed _ isLast
    refine ⟨_, isLast, movement.chain.last_bucket isLast, ?_, ?_, ?_⟩ <;> rw [freed] <;> rfl
  entries := by
    rw [← shifted.entries, contribution_of_unused movement.unused, add_zero]
  others := shifted.others
  fixed l fixed := by
    have off : l ∉ sources := by
      intro mem
      have movable := movement.chain.movable l mem
      rcases fixed with isRoot | isImmovable
      · exact movable.ne_root isRoot
      · exact movable.ne_immovable isImmovable
    refine ⟨off, fun used => shifted.others l fun mem => ?_⟩
    rcases List.mem_cons.mp mem with rfl | mem
    · rw [movement.unused] at used
      cases used
    · exact off mem

/-- Relocating along the path that was found moves its entries, or nothing. -/
theorem relocateAlong_rule {s : Sys g} {queue : List QueueEntry} {found : FreeCell}
    {P : List Loc → Sys g → Prop}
    (moved : ∀ s₁, Quiet s s₁ →
      (moveEntries found.freeCell
        (sourceCells queue queue.length found.queuePos found.childIdx)).Returns s₁ fun _ s₂ =>
          ∀ s', Quiet s₂ s' →
            P (sourceCells queue queue.length found.queuePos found.childIdx) s') :
    (relocateAlong queue found).Returns s fun r s' =>
      r.1 = .ok ∧ P r.2 s' ∨ r.1 = .retry ∧ Quiet s s' := by
  rw [relocateAlong]
  simp only
  refine (Quietly.upgradeBucketLock found.readLock s).bind fun ret s₁ _ quiet₁ => ?_
  cases ret with
  | ok =>
    simp only
    refine (Quietly.upgradePath _ s₁).bind fun upgraded s₂ _ quiet₂ => ?_
    refine .ite (fun _ => ?_) fun _ => ?_
    · refine (moved s₂ (quiet₁.trans quiet₂)).bind fun _ s₃ _ after => ?_
      refine (Quietly.releasePath _ _ _ s₃).bind fun _ s₄ _ quiet₄ => ?_
      exact .pure (Or.inl ⟨rfl, after s₄ quiet₄⟩)
    · refine (Quietly.releasePath _ _ _ s₂).bind fun _ s₃ _ quiet₃ => ?_
      exact .pure (Or.inr ⟨rfl, (quiet₁.trans quiet₂).trans quiet₃⟩)
  | retry => exact .pure (Or.inr ⟨rfl, quiet₁⟩)
  | exist => exact .pure (Or.inr ⟨rfl, quiet₁⟩)
  | fail => exact .pure (Or.inr ⟨rfl, quiet₁⟩)

/-- **What `relocate_entry` does** is to move the entries of a path, if it finds one. -/
theorem relocateEntry_rule {s : Sys g} {bucketNum : ℕ} {immovable : Option Loc}
    {P : Loc → List Loc → Sys g → Prop} (full : BucketFull s.trie bucketNum)
    (inTable : bucketNum < g.numBuckets)
    (moved : ∀ free sources s₁, Quiet s s₁ → Movement s.trie immovable bucketNum free sources →
      (moveEntries free sources).Returns s₁ fun _ s₂ =>
        ∀ s', Quiet s₂ s' → P free sources s') :
    (relocateEntry bucketNum immovable).Returns s fun r s' =>
      (r.1 = .ok ∧ ∃ free, P free r.2 s') ∨ (r.1 = .retry ∧ Quiet s s') ∨
      (r.1 = .fail ∧ Quiet s s' ∧ ∃ queue, Exhausted s.trie immovable bucketNum queue) := by
  rw [relocateEntry]
  have same : ∀ {s₁ s₂ : Sys g}, Quiet s s₁ ∧ s₁.trie = s.trie → Quiet s₁ s₂ →
      s₂.trie = s₁.trie → Quiet s s₂ ∧ s₂.trie = s.trie :=
    fun h quiet trie => ⟨h.1.trans quiet, trie.trans h.2⟩
  refine Prog.Returns.bind (Q := fun _ s' => Quiet s s' ∧ s'.trie = s.trie)
    (.read ⟨.refl s, rfl⟩) fun _ s₁ _ h₁ => ?_
  refine Prog.Returns.bind (Q := fun _ s' => Quiet s s' ∧ s'.trie = s.trie)
    (.update (same h₁ ⟨rfl, rfl, rfl, rfl, rfl, rfl, rfl, id⟩ rfl)) fun _ s₂ _ h₂ => ?_
  refine Prog.Returns.bind (Q := fun t s' => t = s.trie ∧ s' = s₂) (.read ⟨h₂.2, rfl⟩) ?_
  rintro t s₂ - ⟨rfl, rfl⟩
  have initial : QueueInv s.trie immovable bucketNum
      [⟨bucketNum, readLockBucket s.trie bucketNum, 0, 0⟩] := .initial full inTable
  cases hsearch : searchFreeCell s.trie immovable relocateQueueSize 0
      [⟨bucketNum, readLockBucket s.trie bucketNum, 0, 0⟩] with
  | none =>
    exact .pure (Or.inr (Or.inr ⟨rfl, h₂.1,
      searchFreeCell_exhausted initial le_rfl (fun j before => absurd before (Nat.not_lt_zero j))
        hsearch⟩))
  | some result =>
    obtain ⟨queue, found⟩ := result
    have right := searchFreeCell_spec initial hsearch
    refine Prog.Returns.bind (Q := fun _ s' => Quiet s s' ∧ s'.trie = s.trie)
      (.update (same h₂ ⟨rfl, rfl, rfl, rfl, rfl, rfl, rfl, id⟩ rfl)) fun _ s₃ _ h₃ => ?_
    refine (relocateAlong_rule (P := P found.freeCell) fun s₄ quiet₄ =>
      moved found.freeCell _ s₄ (h₃.1.trans quiet₄) right.movement).weaken fun r s' _ h => ?_
    rcases h with ⟨ok, moved⟩ | ⟨retry, quiet⟩
    · exact Or.inl ⟨ok, found.freeCell, moved⟩
    · exact Or.inr (Or.inl ⟨retry, h₃.1.trans quiet⟩)

/-- A relocation permutes the entries, or changes no cell. -/
theorem relocateEntry_permuted {s : Sys g} {bucketNum : ℕ} (immovable : Option Loc)
    (full : BucketFull s.trie bucketNum) (inTable : bucketNum < g.numBuckets) :
    (relocateEntry bucketNum immovable).Returns s fun r s' =>
      (r.1 = .ok ∧ ∃ free, Permuted s.trie s'.trie immovable bucketNum free r.2) ∨
      (r.1 = .retry ∧ s'.trie.cells = s.trie.cells) ∨
      (r.1 = .fail ∧ s'.trie.cells = s.trie.cells ∧
        ∃ queue, Exhausted s.trie immovable bucketNum queue) := by
  refine (relocateEntry_rule (P := fun free sources s' =>
    Permuted s.trie s'.trie immovable bucketNum free sources) full inTable ?_).weaken ?_
  · intro free sources s₁ quiet movement
    have movement₁ := movement.congr quiet.cells
    refine (moveEntries_shifts movement.inTable movement₁.chain movement.distinct
      movement.nonempty).weaken fun _ s₂ _ shifted s' after => ?_
    exact ((shifted.congr after.cells).of_cells quiet.cells).permuted movement
  · rintro r s' - (moved | ⟨retry, quiet⟩ | ⟨fail, quiet, exhausted⟩)
    · exact Or.inl moved
    · exact Or.inr (Or.inl ⟨retry, quiet.cells⟩)
    · exact Or.inr (Or.inr ⟨fail, quiet.cells, exhausted⟩)

/-- **`relocate_entry` only permutes**, on any table and whatever the other threads do.
With `SI_OK` the last of the cells it returns is free; otherwise no cell changed.  It
gives up only when no bucket its search reaches has a free cell. -/
theorem relocate_entry_permutes {s : Sys g} {bucketNum : ℕ} (immovable : Option Loc)
    (full : BucketFull s.trie bucketNum) (inTable : bucketNum < g.numBuckets) :
    (relocateEntry bucketNum immovable).Returns s fun r s' =>
      (r.1 = .ok ∧ ∃ free, Permuted s.trie s'.trie immovable bucketNum free r.2) ∨
      (r.1 = .retry ∧ s'.trie.cells = s.trie.cells) ∨
      (r.1 = .fail ∧ s'.trie.cells = s.trie.cells ∧
        ∃ queue, Exhausted s.trie immovable bucketNum queue) :=
  relocateEntry_permuted immovable full inTable

theorem relocate_entry_permutes_contended :
    (relocateEntry 20 none).Returns contended fun r s' =>
      (r.1 = .ok ∧ ∃ free, Permuted contended.trie s'.trie none 20 free r.2) ∨
      (r.1 = .retry ∧ s'.trie.cells = contended.trie.cells) ∨
      (r.1 = .fail ∧ s'.trie.cells = contended.trie.cells ∧
        ∃ queue, Exhausted contended.trie none 20 queue) :=
  relocate_entry_permutes none full_contended (by decide)

end CuckooTrie
