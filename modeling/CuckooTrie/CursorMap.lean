import CuckooTrie.KeyMap
import CuckooTrie.Runs

/-!
# A map with cursors

What a trie and its iterators are for, without any memory: an ordered map, the answers of the
calls of a client (`Serves`), and cursors over the map.  A cursor keeps the map in which it found
its place.  It reports next what came behind its place in that map, or what comes behind it in the
map of today, so what is inserted just behind it may be passed over.

In every run, what a cursor reports is in the map and ascends, and no key that was in the map when
the cursor was placed is passed over (`Cursor.reports_spec`).
-/

namespace CuckooTrie

/-! ## Keys that stay -/

/-- All keys of the one map are keys of the other. -/
def KeyMap.Within (M M' : KeyMap) : Prop := ∀ kv ∈ M, ∃ kv' ∈ M', kv'.key = kv.key

namespace KeyMap.Within

variable {M M' M'' : KeyMap}

theorem refl (M : KeyMap) : M.Within M := fun kv mem => ⟨kv, mem, rfl⟩

theorem trans (h : M.Within M') (h' : M'.Within M'') : M.Within M'' := fun kv mem => by
  obtain ⟨kv', mem', same⟩ := h kv mem
  obtain ⟨kv'', mem'', same'⟩ := h' kv' mem'
  exact ⟨kv'', mem'', same'.trans same⟩

theorem insert (M : KeyMap) (kv : CtKv) : M.Within (M.insert kv) := fun kv' mem => by
  by_cases same : kv'.key = kv.key
  · exact ⟨kv, self_mem_insert, same.symm⟩
  · exact ⟨kv', mem_insert.mpr (Or.inr ⟨mem, same⟩), rfl⟩

end KeyMap.Within

/-! ## Cursors -/

/-- A place in a map: an object of it. -/
structure Place where
  seen : KeyMap
  kv : CtKv
  mem : kv ∈ seen

/-- A cursor reports nothing more, or the object of its place next, or what comes behind. -/
inductive Cursor
  | exhausted
  | onto (place : Place)
  | past (place : Place)

namespace Cursor

variable {M M' : KeyMap} {c c' : Cursor} {okv : Option CtKv} {kv : CtKv} {key : List UInt8}

/-- A cursor that was placed on a key. -/
def place (M : KeyMap) (key : List UInt8) : Cursor :=
  match h : M.atLeast key with
  | none => exhausted
  | some kv => onto ⟨M, kv, (KeyMap.first_eq_some_iff.mp h).1⟩

/-- The keys of the cursor's map are still there. -/
def Within (M : KeyMap) : Cursor → Prop
  | exhausted => True
  | onto place => place.seen.Within M
  | past place => place.seen.Within M

theorem Within.mono (within : c.Within M) (h : M.Within M') : c.Within M' := by
  cases c with
  | exhausted => trivial
  | onto place => exact KeyMap.Within.trans within h
  | past place => exact KeyMap.Within.trans within h

theorem within_place : (place M key).Within M := by
  unfold place
  split
  · trivial
  · exact .refl M

/-- One call of `next` on the map of today, with what it reports. -/
inductive Next (M : KeyMap) : Cursor → Option CtKv → Cursor → Prop
  | exhausted : Next M Cursor.exhausted none Cursor.exhausted
  | onto (place : Place) : Next M (Cursor.onto place) (some place.kv) (past place)
  | last {place : Place} : place.seen.after place.kv.key = none →
      Next M (past place) none Cursor.exhausted
  | follow {place : Place} {old kv : CtKv} (mem : kv ∈ M) :
      place.seen.after place.kv.key = some old → kv.key = old.key →
      Next M (past place) (some kv) (past ⟨M, kv, mem⟩)
  | anew {place : Place} {kv : CtKv} (mem : kv ∈ M) :
      place.seen.after place.kv.key ≠ none → M.after place.kv.key = some kv →
      Next M (past place) (some kv) (past ⟨M, kv, mem⟩)

theorem Next.within (step : c.Next M okv c') (within : c.Within M) : c'.Within M := by
  cases step with
  | exhausted => trivial
  | onto place => exact within
  | last _ => trivial
  | follow _ _ _ => exact .refl M
  | anew _ _ _ => exact .refl M

/-- The keys a cursor may still report. -/
def Ahead (key : List UInt8) : Cursor → Prop
  | exhausted => False
  | onto place => place.kv.key ≤ key
  | past place => place.kv.key < key

/-- The keys a cursor must not pass over. -/
def Due (key : List UInt8) : Cursor → Prop
  | exhausted => False
  | onto place => place.kv.key ≤ key ∧ ∃ kv ∈ place.seen, kv.key = key
  | past place => place.kv.key < key ∧ ∃ kv ∈ place.seen, kv.key = key

theorem Due.ahead (due : c.Due key) : c.Ahead key := by
  cases c with
  | exhausted => exact due
  | onto place => exact due.1
  | past place => exact due.1

/-- A cursor that reports nothing had nothing to report. -/
theorem Next.of_none (step : c.Next M none c') : c' = Cursor.exhausted ∧ ∀ key, ¬ c.Due key := by
  cases step with
  | exhausted => exact ⟨rfl, fun key due => due⟩
  | last ends =>
    refine ⟨rfl, fun key due => ?_⟩
    obtain ⟨less, kv, mem, rfl⟩ := due
    exact KeyMap.first_eq_none_iff.mp ends kv mem less

/-- What a cursor reports is a key of the map ahead of it; the cursor moves behind it, and passes
over no other key. -/
theorem Next.of_some (step : c.Next M (some kv) c') (within : c.Within M) :
    c.Ahead kv.key ∧ (∃ kv' ∈ M, kv'.key = kv.key) ∧ (∀ key, c'.Ahead key → kv.key < key) ∧
      (∀ key, c.Due key → key = kv.key ∨ c'.Due key) := by
  cases step with
  | onto place =>
    refine ⟨le_rfl, within place.kv place.mem, fun key ahead => ahead, fun key due => ?_⟩
    exact due.1.eq_or_lt.imp Eq.symm fun less => ⟨less, due.2⟩
  | follow mem after same =>
    rename_i place old
    obtain ⟨memOld, less, least⟩ := KeyMap.first_eq_some_iff.mp after
    refine ⟨?_, ⟨kv, mem, rfl⟩, fun key ahead => ahead, fun key due => ?_⟩
    · rw [same]
      exact less
    · obtain ⟨later, kv', mem', rfl⟩ := due
      have le : kv.key ≤ kv'.key := same ▸ least kv' mem' later
      exact le.eq_or_lt.imp Eq.symm fun less => ⟨less, within kv' mem'⟩
  | anew mem _ after =>
    rename_i place
    obtain ⟨-, less, least⟩ := KeyMap.first_eq_some_iff.mp after
    refine ⟨less, ⟨kv, mem, rfl⟩, fun key ahead => ahead, fun key due => ?_⟩
    obtain ⟨later, kv', mem', rfl⟩ := due
    obtain ⟨kv'', mem'', same⟩ := within kv' mem'
    have le : kv.key ≤ kv''.key := least kv'' mem'' (same ▸ later)
    rw [same] at le
    exact le.eq_or_lt.imp Eq.symm fun less => ⟨less, kv'', mem'', same⟩

/-- A cursor passes only what is ahead of it. -/
theorem Next.ahead (step : c.Next M (some kv) c') (within : c.Within M) (ahead : c'.Ahead key) :
    c.Ahead key := by
  obtain ⟨here, -, behind, -⟩ := step.of_some within
  have less := behind key ahead
  cases c with
  | exhausted => exact here
  | onto place => exact le_trans here less.le
  | past place => exact lt_trans here less

end Cursor

/-! ## The calls of a client -/

/-- The calls of a client; iterators have numbers. -/
inductive Call
  | insert (kv : CtKv)
  | upsert (kv : CtKv)
  | update (kv : CtKv)
  | lookup (key : List UInt8)
  | goto (i : ℕ) (key : List UInt8)
  | next (i : ℕ)
deriving DecidableEq, Repr

/-- What the calls return; `unplaced` stands for a call that is not made, since the iterator was
never placed. -/
inductive Answer
  | status (status : Status)
  | upserted (result : Status × Option Bool)
  | found (okv : Option CtKv)
  | placed
  | reported (okv : Option CtKv)
  | unplaced
deriving DecidableEq, Repr

/-- The answer says that the table is full. -/
def Answer.isOverflow : Answer → Bool
  | .status .overflow => true
  | .upserted (.overflow, _) => true
  | _ => false

/-- A map with cursors. -/
structure CursorMap where
  map : KeyMap
  cursors : ℕ → Option Cursor
  within : ∀ i c, cursors i = some c → c.Within map

namespace CursorMap

variable {a b : CursorMap} {i : ℕ} {c c' : Cursor} {okv : Option CtKv} {kv old : CtKv}
  {key : List UInt8}

/-- A map without cursors. -/
def ofMap (M : KeyMap) : CursorMap := ⟨M, fun _ => none, fun _ _ h => by cases h⟩

/-- One more object, or another one for its key. -/
def insert (a : CursorMap) (kv : CtKv) : CursorMap where
  map := a.map.insert kv
  cursors := a.cursors
  within i c h := (a.within i c h).mono (.insert a.map kv)

/-- A cursor at another place. -/
def move (a : CursorMap) (i : ℕ) (c : Cursor) (within : c.Within a.map) : CursorMap where
  map := a.map
  cursors := Function.update a.cursors i (some c)
  within j c' h := by
    by_cases same : j = i
    · subst same
      rw [Function.update_self] at h
      cases h
      exact within
    · rw [Function.update_of_ne same] at h
      exact a.within j c' h

/-- The answers of the map to the calls of a client.  A table that is full is no part of the map,
so a new object may always be refused. -/
inductive Serves : CursorMap → Call × Answer → CursorMap → Prop
  | insert {a : CursorMap} {kv : CtKv} : kv.key.length ≤ maxKeyBytes → a.map.find kv.key = none →
      Serves a (.insert kv, .status .ok) (a.insert kv)
  | alreadyIn {a : CursorMap} {kv old : CtKv} : kv.key.length ≤ maxKeyBytes →
      a.map.find kv.key = some old → Serves a (.insert kv, .status .alreadyIn) a
  | overflow {a : CursorMap} {kv : CtKv} : kv.key.length ≤ maxKeyBytes →
      a.map.find kv.key = none → Serves a (.insert kv, .status .overflow) a
  | keyTooLong {a : CursorMap} {kv : CtKv} : maxKeyBytes < kv.key.length →
      Serves a (.insert kv, .status .keyTooLong) a
  | created {a : CursorMap} {kv : CtKv} : kv.key.length ≤ maxKeyBytes →
      a.map.find kv.key = none → Serves a (.upsert kv, .upserted (.ok, some true)) (a.insert kv)
  | replaced {a : CursorMap} {kv old : CtKv} : kv.key.length ≤ maxKeyBytes →
      a.map.find kv.key = some old →
      Serves a (.upsert kv, .upserted (.ok, some false)) (a.insert kv)
  | upsertOverflow {a : CursorMap} {kv : CtKv} : kv.key.length ≤ maxKeyBytes →
      a.map.find kv.key = none → Serves a (.upsert kv, .upserted (.overflow, none)) a
  | upsertTooLong {a : CursorMap} {kv : CtKv} : maxKeyBytes < kv.key.length →
      Serves a (.upsert kv, .upserted (.keyTooLong, none)) a
  | update {a : CursorMap} {kv old : CtKv} : a.map.find kv.key = some old →
      Serves a (.update kv, .status .ok) (a.insert kv)
  | notFound {a : CursorMap} {kv : CtKv} : a.map.find kv.key = none →
      Serves a (.update kv, .status .notFound) a
  | lookup (a : CursorMap) (key : List UInt8) :
      Serves a (.lookup key, .found (a.map.find key)) a
  | goto (a : CursorMap) (i : ℕ) (key : List UInt8) :
      Serves a (.goto i key, .placed) (a.move i (.place a.map key) Cursor.within_place)
  | next {a : CursorMap} {i : ℕ} {c c' : Cursor} {okv : Option CtKv} (at_ : a.cursors i = some c)
      (step : c.Next a.map okv c') :
      Serves a (.next i, .reported okv) (a.move i c' (step.within (a.within i c at_)))
  | unplaced {a : CursorMap} {i : ℕ} : a.cursors i = none → Serves a (.next i, .unplaced) a

end CursorMap

/-! ## What a cursor reports in a run -/

open CursorMap (Serves)

/-- What an iterator reports with an answer. -/
def Call.report (i : ℕ) : Call × Answer → Option (Option CtKv)
  | (.next j, .reported okv) => if j = i then some okv else none
  | _ => none

/-- What an iterator reports in a run. -/
def reports (i : ℕ) (labels : List (Call × Answer)) : List (Option CtKv) :=
  labels.filterMap (Call.report i)

/-- The map after a call, by its answer. -/
def KeyMap.apply (M : KeyMap) : Call × Answer → KeyMap
  | (.insert kv, .status .ok) => M.insert kv
  | (.upsert kv, .upserted (.ok, _)) => M.insert kv
  | (.update kv, .status .ok) => M.insert kv
  | _ => M

/-- The object an answered call put in. -/
def Call.put : Call × Answer → Option CtKv
  | (.insert kv, .status .ok) => some kv
  | (.upsert kv, .upserted (.ok, _)) => some kv
  | (.update kv, .status .ok) => some kv
  | _ => none

namespace KeyMap

theorem find_insert (M : KeyMap) (kv : CtKv) (key : List UInt8) :
    (M.insert kv).find key = if kv.key = key then some kv else M.find key := by
  split
  · next same => exact find_eq_some_iff.mpr ⟨self_mem_insert, same⟩
  · next other =>
    apply Option.ext
    intro kv'
    rw [find_eq_some_iff, find_eq_some_iff, mem_insert]
    constructor
    · rintro ⟨rfl | ⟨mem, -⟩, same⟩
      · exact absurd same other
      · exact ⟨mem, same⟩
    · rintro ⟨mem, rfl⟩
      exact ⟨Or.inr ⟨mem, fun same => other same.symm⟩, rfl⟩

theorem apply_eq (M : KeyMap) (l : Call × Answer) : M.apply l = (Call.put l).elim M M.insert := by
  unfold KeyMap.apply Call.put
  split
  · rfl
  · rfl
  · rfl
  · rfl

/-- **The object put in last** is found after a run of calls. -/
theorem find_foldl_apply (M : KeyMap) (labels : List (Call × Answer)) (key : List UInt8) :
    (labels.foldl KeyMap.apply M).find key =
      ((labels.filterMap Call.put).reverse.find? fun kv => kv.key = key).or (M.find key) := by
  induction labels using List.reverseRecOn with
  | nil => rfl
  | append_singleton labels l ih =>
    rw [List.foldl_append, List.filterMap_append, List.reverse_append, List.find?_append,
      Option.or_assoc, ← ih, List.foldl_cons, List.foldl_nil, apply_eq]
    cases put : Call.put l with
    | none => simp [put]
    | some kv =>
      by_cases same : kv.key = key
      · simp [put, find_insert, same]
      · simp [put, find_insert, same]

end KeyMap

namespace CursorMap

variable {a b : CursorMap} {i : ℕ} {c : Cursor} {l : Call × Answer} {labels : List (Call × Answer)}

theorem Serves.map_eq (step : Serves a l b) : b.map = a.map.apply l := by
  cases step <;> rfl

/-- **The map at the end of a run** has the objects of the calls that put one in. -/
theorem map_eq (run : Run Serves a labels b) : b.map = labels.foldl KeyMap.apply a.map := by
  induction run with
  | nil a => rfl
  | cons step _ ih => rw [ih, step.map_eq, List.foldl_cons]

/-- Without upserts and updates no object is replaced. -/
theorem mem_map_of_run (run : Run Serves a labels b)
    (inserts : ∀ l ∈ labels, ∀ kv, l.1 ≠ .upsert kv ∧ l.1 ≠ .update kv) {kv : CtKv}
    (mem : kv ∈ a.map) : kv ∈ b.map := by
  refine run.invariant (I := fun a => kv ∈ a.map) (fun a l b mem step old => ?_) mem
  have kept := inserts l mem
  cases step with
  | insert _ new =>
    exact KeyMap.mem_insert_of_mem (KeyMap.find_eq_none_iff.mp new) old
  | created _ _ => exact absurd rfl (kept _).1
  | replaced _ _ => exact absurd rfl (kept _).1
  | update _ => exact absurd rfl (kept _).2
  | _ => exact old

/-- The map after inserts of distinct keys: an object is put in if its key is admitted and new,
whatever comes before it. -/
theorem mem_map_of_inserts {kvs : List CtKv} {answers : List Answer}
    (run : Run Serves a ((kvs.map Call.insert).zip answers) b)
    (distinct : (kvs.map CtKv.key).Nodup) (length : answers.length = kvs.length)
    (goes : ∀ answer ∈ answers, answer.isOverflow = false) (kv : CtKv) :
    kv ∈ b.map ↔ kv ∈ a.map ∨
      kv ∈ kvs ∧ kv.key.length ≤ maxKeyBytes ∧ a.map.find kv.key = none := by
  induction kvs generalizing a answers with
  | nil =>
    cases run
    simp
  | cons x kvs ih =>
    obtain ⟨answer, answers, rfl⟩ := List.exists_cons_of_length_eq_add_one length
    rw [List.map_cons, List.nodup_cons] at distinct
    obtain ⟨fresh, distinct⟩ := distinct
    obtain ⟨goes₁, goes⟩ := List.forall_mem_cons.mp goes
    have others : ∀ kv ∈ kvs, kv.key ≠ x.key := fun kv mem same =>
      fresh (same ▸ List.mem_map_of_mem mem)
    rw [List.map_cons, List.zip_cons_cons] at run
    cases run with
    | cons first rest =>
      have tail := ih rest distinct (Nat.succ.inj length) goes
      cases first with
      | insert size new =>
        have absent := KeyMap.find_eq_none_iff.mp new
        have here : kv ∈ (a.insert x).map ↔ kv = x ∨ kv ∈ a.map :=
          KeyMap.mem_insert.trans (or_congr_right (and_iff_left_of_imp (absent kv)))
        have still : kv ∈ kvs → (a.insert x).map.find kv.key = a.map.find kv.key := fun mem => by
          rw [CursorMap.insert, KeyMap.find_insert, if_neg (others kv mem).symm]
        rw [tail, here, List.mem_cons]
        constructor
        · rintro ((rfl | old) | ⟨mem, short, none_⟩)
          · exact Or.inr ⟨Or.inl rfl, size, new⟩
          · exact Or.inl old
          · exact Or.inr ⟨Or.inr mem, short, (still mem).symm.trans none_⟩
        · rintro (old | ⟨rfl | mem, short, none_⟩)
          · exact Or.inl (Or.inr old)
          · exact Or.inl (Or.inl rfl)
          · exact Or.inr ⟨mem, short, (still mem).trans none_⟩
      | alreadyIn size found =>
        rw [tail, List.mem_cons]
        refine or_congr_right (and_congr_left fun rest => (or_iff_right ?_).symm)
        rintro rfl
        rw [found] at rest
        cases rest.2
      | overflow size new => cases goes₁
      | keyTooLong long =>
        rw [tail, List.mem_cons]
        refine or_congr_right (and_congr_left fun rest => (or_iff_right ?_).symm)
        rintro rfl
        exact absurd rest.1 (not_le.mpr long)

/-- No call loses a key. -/
theorem Serves.map_within (step : Serves a l b) : a.map.Within b.map := by
  cases step with
  | insert _ _ => exact .insert _ _
  | created _ _ => exact .insert _ _
  | replaced _ _ => exact .insert _ _
  | update _ => exact .insert _ _
  | _ => exact .refl _

theorem map_within (run : Run Serves a labels b) : a.map.Within b.map := by
  induction run with
  | nil a => exact .refl _
  | cons step _ ih => exact step.map_within.trans ih

/-- A call moves a cursor only if it is the next call of its iterator, or places it anew. -/
theorem Serves.cursor (step : Serves a l b) (at_ : a.cursors i = some c)
    (kept : ∀ key, l.1 ≠ .goto i key) :
    Call.report i l = none ∧ b.cursors i = some c ∨
      ∃ okv c', Call.report i l = some okv ∧ c.Next a.map okv c' ∧ b.cursors i = some c' := by
  cases step with
  | goto j key =>
    have ne : i ≠ j := by
      rintro rfl
      exact kept key rfl
    exact Or.inl ⟨rfl, (Function.update_of_ne ne _ _).trans at_⟩
  | @next j c₁ c₂ okv at₁ step =>
    by_cases same : j = i
    · subst same
      cases Option.some.inj (at₁.symm.trans at_)
      exact Or.inr ⟨okv, c₂, if_pos rfl, step, Function.update_self _ _ _⟩
    · exact Or.inl ⟨if_neg same, (Function.update_of_ne (Ne.symm same) _ _).trans at_⟩
  | _ => exact Or.inl ⟨rfl, at_⟩

end CursorMap

namespace Cursor

variable {a b : CursorMap} {i : ℕ} {c : Cursor} {labels : List (Call × Answer)}
  {kvs : List CtKv} {n : ℕ}

/-- What a cursor reported: objects in ascending order, whose keys were ahead of it and are in
the map at the end; then it said some times that nothing is left.  A key it must not pass over is
among them if it came so far, or said that nothing is left. -/
structure Reported (c : Cursor) (M : KeyMap) (kvs : List CtKv) (n : ℕ) : Prop where
  ascends : kvs.Pairwise fun x y => x.key < y.key
  ahead : ∀ kv ∈ kvs, c.Ahead kv.key
  present : ∀ kv ∈ kvs, ∃ kv' ∈ M, kv'.key = kv.key
  complete : ∀ key, c.Due key → (n ≠ 0 ∨ ∃ kv ∈ kvs, key ≤ kv.key) → ∃ kv ∈ kvs, kv.key = key

/-- What a cursor reports first, and then from where it is. -/
theorem Next.reported {M M' : KeyMap} {c' : Cursor} {kv : CtKv} (step : c.Next M (some kv) c')
    (within : c.Within M) (grows : M.Within M') (rest : c'.Reported M' kvs n) :
    c.Reported M' (kv :: kvs) n := by
  obtain ⟨here, ⟨kv', mem, same⟩, behind, due⟩ := step.of_some within
  constructor
  · exact List.pairwise_cons.mpr ⟨fun y mem => behind _ (rest.ahead y mem), rest.ascends⟩
  · intro y mem
    obtain rfl | mem := List.mem_cons.mp mem
    · exact here
    · exact step.ahead within (rest.ahead y mem)
  · intro y mem'
    obtain rfl | mem' := List.mem_cons.mp mem'
    · obtain ⟨kv'', mem'', same'⟩ := grows kv' mem
      exact ⟨kv'', mem'', same'.trans same⟩
    · exact rest.present y mem'
  · intro key isDue far
    obtain rfl | isDue := due key isDue
    · exact ⟨kv, List.mem_cons_self, rfl⟩
    -- the key is behind the object, so it is left to the rest
    have less : kv.key < key := behind key isDue.ahead
    obtain ⟨y, mem, same⟩ := rest.complete key isDue (far.imp_right fun some_ => by
      obtain ⟨y, mem, le⟩ := some_
      obtain rfl | mem := List.mem_cons.mp mem
      · exact absurd le (not_le.mpr less)
      · exact ⟨y, mem, le⟩)
    exact ⟨y, List.mem_cons_of_mem _ mem, same⟩

/-- **What a cursor reports in a run**, from any state of the cursor. -/
theorem reported_run (run : Run CursorMap.Serves a labels b) (at_ : a.cursors i = some c)
    (kept : ∀ l ∈ labels, ∀ key, l.1 ≠ .goto i key) :
    ∃ kvs n, reports i labels = kvs.map some ++ List.replicate n none ∧
      c.Reported b.map kvs n := by
  induction run generalizing c with
  | nil a =>
    refine ⟨[], 0, rfl, List.Pairwise.nil, by simp, by simp, fun key _ far => ?_⟩
    simp at far
  | @cons a a₁ b l labels step run ih =>
    have keeps : ∀ l ∈ labels, ∀ key, l.1 ≠ .goto i key := fun l mem =>
      kept l (List.mem_cons_of_mem _ mem)
    obtain ⟨silent, at₁⟩ | ⟨okv, c₁, report, next, at₁⟩ :=
      step.cursor at_ (kept l List.mem_cons_self)
    · obtain ⟨kvs, n, same, reported⟩ := ih at₁ keeps
      exact ⟨kvs, n, by rw [reports, List.filterMap_cons_none silent, ← reports, same], reported⟩
    · obtain ⟨kvs, n, same, reported⟩ := ih at₁ keeps
      have reports' : reports i (l :: labels) = okv :: (kvs.map some ++ List.replicate n none) := by
        rw [reports, List.filterMap_cons_some report, ← reports, same]
      cases okv with
      | none =>
        obtain ⟨rfl, nothing⟩ := next.of_none
        -- an exhausted cursor goes on to say that nothing is left
        have empty : kvs = [] := List.eq_nil_iff_forall_not_mem.mpr reported.ahead
        subst empty
        exact ⟨[], n + 1, reports', List.Pairwise.nil, by simp, by simp, fun key due => absurd due
          (nothing key)⟩
      | some kv =>
        exact ⟨kv :: kvs, n, reports', next.reported (a.within i c at_)
          (step.map_within.trans (CursorMap.map_within run)) reported⟩

/-- The object a cursor has read but not reported yet has a property. -/
def Cached (O : CtKv → Prop) : Cursor → Prop
  | onto place => O place.kv
  | _ => True

/-- What a cursor reports was in the map at some moment of the run, if what it has read was. -/
theorem reported_origin {O : CtKv → Prop} (run : Run CursorMap.Serves a labels b)
    (at_ : a.cursors i = some c) (kept : ∀ l ∈ labels, ∀ key, l.1 ≠ .goto i key)
    (moments : ∀ before, before <+: labels → ∀ kv ∈ before.foldl KeyMap.apply a.map, O kv)
    (cached : c.Cached O) :
    ∀ kv, some kv ∈ reports i labels → O kv := by
  induction run generalizing c with
  | nil a => exact fun kv mem => absurd mem List.not_mem_nil
  | @cons a a₁ b l labels step run ih =>
    have keeps : ∀ l ∈ labels, ∀ key, l.1 ≠ .goto i key := fun l mem =>
      kept l (List.mem_cons_of_mem _ mem)
    have later : ∀ before, before <+: labels →
        ∀ kv ∈ before.foldl KeyMap.apply a₁.map, O kv := fun before up => by
      rw [step.map_eq]
      exact moments (l :: before) (List.cons_prefix_cons.mpr ⟨rfl, up⟩)
    obtain ⟨silent, at₁⟩ | ⟨okv, c₁, report, next, at₁⟩ :=
      step.cursor at_ (kept l List.mem_cons_self)
    · rw [reports, List.filterMap_cons_none silent]
      exact ih at₁ keeps later cached
    · have now : ∀ kv ∈ a.map, O kv := moments [] List.nil_prefix
      have both : c₁.Cached O ∧ ∀ kv, okv = some kv → O kv := by
        cases next with
        | exhausted => exact ⟨trivial, by simp⟩
        | onto place => exact ⟨trivial, fun kv same => Option.some.inj same ▸ cached⟩
        | last _ => exact ⟨trivial, by simp⟩
        | follow mem _ _ => exact ⟨trivial, fun kv same => Option.some.inj same ▸ now _ mem⟩
        | anew mem _ _ => exact ⟨trivial, fun kv same => Option.some.inj same ▸ now _ mem⟩
      rw [reports, List.filterMap_cons_some report]
      intro kv mem
      obtain same | mem := List.mem_cons.mp mem
      · exact both.2 kv same.symm
      · exact ih at₁ keeps later both.1 kv mem

/-- A placed cursor has the keys ahead of it that are not before the key. -/
theorem ahead_place {M : KeyMap} {key k : List UInt8} (ahead : (place M key).Ahead k) :
    key ≤ k := by
  unfold place at ahead
  split at ahead
  · exact ahead.elim
  · next kv first => exact le_trans (KeyMap.first_eq_some_iff.mp first).2.1 ahead

/-- A placed cursor must not pass over a key of the map that is not before the key. -/
theorem due_place {M : KeyMap} {key : List UInt8} {kv : CtKv} (mem : kv ∈ M) (le : key ≤ kv.key) :
    (place M key).Due kv.key := by
  unfold place
  split
  · next none_ => exact KeyMap.first_eq_none_iff.mp none_ kv mem le
  · next kv' first =>
    exact ⟨(KeyMap.first_eq_some_iff.mp first).2.2 kv mem le, kv, mem, rfl⟩

theorem cached_place {M : KeyMap} {key : List UInt8} {O : CtKv → Prop} (h : ∀ kv ∈ M, O kv) :
    (place M key).Cached O := by
  unfold place
  split
  · trivial
  · next kv first => exact h kv (KeyMap.first_eq_some_iff.mp first).1

/-- No key of a map is reported twice. -/
theorem Reported.length_le {M : KeyMap} (reported : c.Reported M kvs n) :
    kvs.length ≤ M.kvs.length := by
  have distinct : (kvs.map CtKv.key).Nodup :=
    (List.pairwise_map.mpr (reported.ascends.imp fun less => less.ne))
  have sub : kvs.map CtKv.key ⊆ M.kvs.map CtKv.key := fun key mem => by
    obtain ⟨kv, here, rfl⟩ := List.mem_map.mp mem
    obtain ⟨kv', mem', same⟩ := reported.present kv here
    exact List.mem_map.mpr ⟨kv', mem', same⟩
  simpa using (List.subperm_of_subset distinct sub).length_le

/-- **What a cursor reports after it was placed on a key**, in any run that does not place it
anew: objects in ascending order from the key on, each in the map at some moment of the run, with
a key of the map at the end; then that nothing is left.  No key of the map at the beginning is
passed over. -/
theorem reports_spec {key : List UInt8} (run : Run CursorMap.Serves a labels b)
    (at_ : a.cursors i = some (place a.map key))
    (kept : ∀ l ∈ labels, ∀ key, l.1 ≠ .goto i key) :
    ∃ (kvs : List CtKv) (n : ℕ), reports i labels = kvs.map some ++ List.replicate n none ∧
      (kvs.Pairwise fun x y => x.key < y.key) ∧ kvs.length ≤ b.map.kvs.length ∧
      (∀ kv ∈ kvs, key ≤ kv.key ∧ (∃ kv' ∈ b.map, kv'.key = kv.key) ∧
        ∃ before, before <+: labels ∧ kv ∈ before.foldl KeyMap.apply a.map) ∧
      ∀ kv ∈ a.map, key ≤ kv.key → (n ≠ 0 ∨ ∃ kv' ∈ kvs, kv.key ≤ kv'.key) →
        ∃ kv' ∈ kvs, kv'.key = kv.key := by
  obtain ⟨kvs, n, same, reported⟩ := reported_run run at_ kept
  have origin := reported_origin (O := fun kv => ∃ before, before <+: labels ∧
    kv ∈ before.foldl KeyMap.apply a.map) run at_ kept
    (fun before up kv mem => ⟨before, up, mem⟩)
    (cached_place fun kv mem => ⟨[], List.nil_prefix, mem⟩)
  refine ⟨kvs, n, same, reported.ascends, reported.length_le, fun kv mem => ?_, fun kv mem le =>
    reported.complete kv.key (due_place mem le)⟩
  refine ⟨ahead_place (reported.ahead kv mem), reported.present kv mem, origin kv ?_⟩
  rw [same]
  exact List.mem_append_left _ (List.mem_map_of_mem mem)

end Cursor

end CuckooTrie
