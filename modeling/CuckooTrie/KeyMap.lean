import CuckooTrie.PrefixOrder
import CuckooTrie.SymbolOrder

/-!
# The abstract map

What a trie stands for: a finite map from keys to `ct_kv` objects, kept as the
list of its objects in strictly increasing order of their keys.  Looking up,
inserting, and the first and the last object with a property are the operations
the trie is compared with.
-/

namespace CuckooTrie

/-- A finite map from keys to objects, in the order of the keys. -/
structure KeyMap where
  kvs : List CtKv
  sorted : kvs.Pairwise fun a b => a.key < b.key

namespace KeyMap

variable {M : KeyMap} {kv kv' : CtKv} {key : List UInt8}

instance : Membership CtKv KeyMap := ⟨fun M kv => kv ∈ M.kvs⟩

theorem mem_def : kv ∈ M ↔ kv ∈ M.kvs := Iff.rfl

/-- The map without keys. -/
def empty : KeyMap := ⟨[], List.Pairwise.nil⟩

@[simp] theorem not_mem_empty : kv ∉ empty := List.not_mem_nil

/-- The object of a key. -/
def find (M : KeyMap) (key : List UInt8) : Option CtKv := M.kvs.find? fun kv => kv.key = key

/-- The map with one more object; one with the same key is replaced. -/
def insert (M : KeyMap) (kv : CtKv) : KeyMap where
  kvs := M.kvs.filter (fun a => a.key < kv.key) ++ kv :: M.kvs.filter (fun a => kv.key < a.key)
  sorted := by
    refine List.pairwise_append.mpr ⟨M.sorted.filter _, List.pairwise_cons.mpr
      ⟨?_, M.sorted.filter _⟩, ?_⟩
    · intro b hb
      simpa using (List.mem_filter.mp hb).2
    · intro a ha b hb
      have less : a.key < kv.key := by simpa using (List.mem_filter.mp ha).2
      rcases List.mem_cons.mp hb with rfl | hb
      · exact less
      · exact less.trans (by simpa using (List.mem_filter.mp hb).2)

/-- The objects whose keys are not smaller than a key. -/
def «from» (M : KeyMap) (key : List UInt8) : List CtKv := M.kvs.filter fun kv => key ≤ kv.key

/-- The object with the smallest key among those with a property. -/
def first (M : KeyMap) (P : CtKv → Prop) [DecidablePred P] : Option CtKv := M.kvs.find? fun kv => P kv

/-- The object with the greatest key among those with a property. -/
def last (M : KeyMap) (P : CtKv → Prop) [DecidablePred P] : Option CtKv :=
  M.kvs.reverse.find? fun kv => P kv

/-- Objects of one key are equal. -/
theorem eq_of_key_eq (h : kv ∈ M) (h' : kv' ∈ M) (same : kv.key = kv'.key) : kv = kv' := by
  have increasing := List.pairwise_iff_getElem.mp M.sorted
  obtain ⟨i, hi, rfl⟩ := List.getElem_of_mem (mem_def.mp h)
  obtain ⟨j, hj, rfl⟩ := List.getElem_of_mem (mem_def.mp h')
  rcases lt_trichotomy i j with lt | rfl | gt
  · exact absurd same (increasing i j hi hj lt).ne
  · rfl
  · exact absurd same (increasing j i hj hi gt).ne'

theorem mem_insert : kv' ∈ M.insert kv ↔ kv' = kv ∨ (kv' ∈ M ∧ kv'.key ≠ kv.key) := by
  simp only [mem_def, insert, List.mem_append, List.mem_cons, List.mem_filter, decide_eq_true_eq]
  constructor
  · rintro (⟨mem, less⟩ | rfl | ⟨mem, less⟩)
    · exact Or.inr ⟨mem, less.ne⟩
    · exact Or.inl rfl
    · exact Or.inr ⟨mem, less.ne'⟩
  · rintro (rfl | ⟨mem, ne⟩)
    · exact Or.inr (Or.inl rfl)
    · rcases lt_or_gt_of_ne ne with less | less
      · exact Or.inl ⟨mem, less⟩
      · exact Or.inr (Or.inr ⟨mem, less⟩)

/-- Two maps with the same objects are equal. -/
theorem ext {M' : KeyMap} (h : ∀ kv, kv ∈ M ↔ kv ∈ M') : M = M' := by
  have perm : M.kvs.Perm M'.kvs := by
    refine (List.perm_ext_iff_of_nodup ?_ ?_).mpr h
    · exact M.sorted.imp fun less same => less.ne (congrArg CtKv.key same)
    · exact M'.sorted.imp fun less same => less.ne (congrArg CtKv.key same)
  have same : M.kvs = M'.kvs :=
    perm.eq_of_pairwise (fun a b _ _ ab ba => absurd (lt_trans ab ba) (lt_irrefl _)) M.sorted
      M'.sorted
  cases M
  cases M'
  simpa using same

theorem find_eq_some_iff : M.find key = some kv ↔ kv ∈ M ∧ kv.key = key := by
  constructor
  · intro h
    exact ⟨List.mem_of_find?_eq_some h, by simpa using List.find?_some h⟩
  · rintro ⟨mem, rfl⟩
    obtain ⟨kv', found⟩ : ∃ kv', M.find kv.key = some kv' := by
      rw [← Option.isSome_iff_exists, find, List.find?_isSome]
      exact ⟨kv, mem, by simp⟩
    have same : kv'.key = kv.key := by simpa using List.find?_some found
    rw [found, eq_of_key_eq (List.mem_of_find?_eq_some found) mem same]

theorem find_eq_none_iff : M.find key = none ↔ ∀ kv ∈ M, kv.key ≠ key := by
  rw [find, List.find?_eq_none]
  simp [mem_def]

section Extremes

variable {P : CtKv → Prop} [DecidablePred P]

theorem first_eq_some_iff :
    M.first P = some kv ↔ kv ∈ M ∧ P kv ∧ ∀ kv' ∈ M, P kv' → kv.key ≤ kv'.key := by
  have least : ∀ {kv}, M.first P = some kv →
      kv ∈ M ∧ P kv ∧ ∀ kv' ∈ M, P kv' → kv.key ≤ kv'.key := by
    intro kv h
    obtain ⟨hP, before, after, split, fails⟩ := List.find?_eq_some_iff_append.mp h
    have sorted := M.sorted
    rw [split] at sorted
    refine ⟨mem_def.mpr (split ▸ by simp), by simpa using hP, fun kv' mem hP' => ?_⟩
    rw [mem_def, split, List.mem_append, List.mem_cons] at mem
    rcases mem with mem | rfl | mem
    · exact absurd hP' (by simpa using fails kv' mem)
    · exact le_rfl
    · have tail := (List.pairwise_append.mp sorted).2.1
      exact ((List.pairwise_cons.mp tail).1 kv' mem).le
  refine ⟨least, ?_⟩
  rintro ⟨mem, hP, min⟩
  obtain ⟨kv', found⟩ : ∃ kv', M.first P = some kv' := by
    rw [← Option.isSome_iff_exists, first, List.find?_isSome]
    exact ⟨kv, mem, by simpa using hP⟩
  obtain ⟨mem', hP', min'⟩ := least found
  rw [found, eq_of_key_eq mem' mem (le_antisymm (min' kv mem hP) (min kv' mem' hP'))]

theorem first_eq_none_iff : M.first P = none ↔ ∀ kv ∈ M, ¬ P kv := by
  rw [first, List.find?_eq_none]
  simp [mem_def]

theorem last_eq_some_iff :
    M.last P = some kv ↔ kv ∈ M ∧ P kv ∧ ∀ kv' ∈ M, P kv' → kv'.key ≤ kv.key := by
  have greatest : ∀ {kv}, M.last P = some kv →
      kv ∈ M ∧ P kv ∧ ∀ kv' ∈ M, P kv' → kv'.key ≤ kv.key := by
    intro kv h
    obtain ⟨hP, after, before, split, fails⟩ := List.find?_eq_some_iff_append.mp h
    have sorted := List.pairwise_reverse.mpr M.sorted
    rw [split] at sorted
    have memIff : ∀ {kv'}, kv' ∈ M ↔ kv' ∈ after ++ kv :: before := by
      intro kv'
      rw [← split, List.mem_reverse, mem_def]
    refine ⟨memIff.mpr (by simp), by simpa using hP, fun kv' mem hP' => ?_⟩
    rw [memIff, List.mem_append, List.mem_cons] at mem
    rcases mem with mem | rfl | mem
    · exact absurd hP' (by simpa using fails kv' mem)
    · exact le_rfl
    · have tail := (List.pairwise_append.mp sorted).2.1
      exact ((List.pairwise_cons.mp tail).1 kv' mem).le
  refine ⟨greatest, ?_⟩
  rintro ⟨mem, hP, max⟩
  obtain ⟨kv', found⟩ : ∃ kv', M.last P = some kv' := by
    rw [← Option.isSome_iff_exists, last, List.find?_isSome]
    exact ⟨kv, List.mem_reverse.mpr mem, by simpa using hP⟩
  obtain ⟨mem', hP', max'⟩ := greatest found
  rw [found, eq_of_key_eq mem' mem (le_antisymm (max kv' mem' hP') (max' kv mem hP))]

theorem last_eq_none_iff : M.last P = none ↔ ∀ kv ∈ M, ¬ P kv := by
  rw [last, List.find?_eq_none]
  simp [mem_def]

end Extremes

/-- The object after a key, in the order of the keys. -/
def after (M : KeyMap) (key : List UInt8) : Option CtKv := M.first fun kv => key < kv.key

/-- What follows an object in the list is what comes after its key. -/
theorem after_of_split {earlier rest : List CtKv} (split : M.kvs = earlier ++ kv :: rest) :
    M.after kv.key = rest.head? := by
  have sorted := M.sorted
  rw [split] at sorted
  obtain ⟨-, tail, across⟩ := List.pairwise_append.mp sorted
  have greater := (List.pairwise_cons.mp tail).1
  have passed : earlier.find? (fun a => kv.key < a.key) = none :=
    List.find?_eq_none.mpr fun a mem =>
      by simpa using (across a mem kv List.mem_cons_self).le
  rw [after, first, split, List.find?_append, passed, Option.none_or,
    List.find?_cons_of_neg (by simp)]
  cases rest with
  | nil => rfl
  | cons a rest => rw [List.find?_cons_of_pos (by simpa using greater a List.mem_cons_self)]; rfl

/-- The first of all objects. -/
theorem first_true : (M.first fun _ => True) = M.kvs.head? := by
  rw [first]
  cases M.kvs <;> simp

/-- The first object that is not before a key. -/
def atLeast (M : KeyMap) (key : List UInt8) : Option CtKv := M.first fun kv => key ≤ kv.key

/-- The greatest object before a key. -/
def before (M : KeyMap) (key : List UInt8) : Option CtKv := M.last fun kv => kv.key < key

/-- The objects whose symbol strings extend a prefix. -/
def Below (p : List ℕ) (kv : CtKv) : Prop := p <+: keySymbols kv.key

instance (p : List ℕ) : DecidablePred (Below p) := fun kv =>
  inferInstanceAs (Decidable (p <+: keySymbols kv.key))

/-! ## Inserting a new object -/

section Insert

variable {P : CtKv → Prop} [DecidablePred P]

theorem mem_insert_of_mem (new : ∀ kv' ∈ M, kv'.key ≠ kv.key) (mem : kv' ∈ M) :
    kv' ∈ M.insert kv := mem_insert.mpr (Or.inr ⟨mem, new kv' mem⟩)

theorem self_mem_insert : kv ∈ M.insert kv := mem_insert.mpr (Or.inl rfl)

theorem insert_nonempty : (M.insert kv).kvs ≠ [] := fun empty => by
  have mem : kv ∈ M.insert kv := self_mem_insert
  rw [mem_def, empty] at mem
  exact List.not_mem_nil mem

/-- The first object stays the first one if the new object does not come before it. -/
theorem first_insert_of_some (new : ∀ kv' ∈ M, kv'.key ≠ kv.key) (h : M.first P = some kv')
    (later : P kv → kv'.key ≤ kv.key) : (M.insert kv).first P = some kv' := by
  obtain ⟨mem, hP, min⟩ := first_eq_some_iff.mp h
  refine first_eq_some_iff.mpr ⟨mem_insert_of_mem new mem, hP, fun a ha hPa => ?_⟩
  rcases mem_insert.mp ha with rfl | ⟨ha, -⟩
  · exact later hPa
  · exact min a ha hPa

/-- The new object is the first one if it comes before all others. -/
theorem first_insert_self (hP : P kv) (least : ∀ kv' ∈ M, P kv' → kv.key < kv'.key) :
    (M.insert kv).first P = some kv := by
  refine first_eq_some_iff.mpr ⟨self_mem_insert, hP, fun a ha hPa => ?_⟩
  rcases mem_insert.mp ha with rfl | ⟨ha, -⟩
  · exact le_rfl
  · exact (least a ha hPa).le

/-- A new object without the property changes nothing. -/
theorem first_insert_of_not (new : ∀ kv' ∈ M, kv'.key ≠ kv.key) (hP : ¬ P kv) :
    (M.insert kv).first P = M.first P := by
  cases h : M.first P with
  | some kv' => exact first_insert_of_some new h fun h' => absurd h' hP
  | none =>
    refine first_eq_none_iff.mpr fun a ha => ?_
    rcases mem_insert.mp ha with rfl | ⟨ha, -⟩
    · exact hP
    · exact first_eq_none_iff.mp h a ha

/-- The last object stays the last one if the new object does not come after it. -/
theorem last_insert_of_some (new : ∀ kv' ∈ M, kv'.key ≠ kv.key) (h : M.last P = some kv')
    (earlier : P kv → kv.key ≤ kv'.key) : (M.insert kv).last P = some kv' := by
  obtain ⟨mem, hP, max⟩ := last_eq_some_iff.mp h
  refine last_eq_some_iff.mpr ⟨mem_insert_of_mem new mem, hP, fun a ha hPa => ?_⟩
  rcases mem_insert.mp ha with rfl | ⟨ha, -⟩
  · exact earlier hPa
  · exact max a ha hPa

/-- The new object is the last one if it comes after all others. -/
theorem last_insert_self (hP : P kv) (greatest : ∀ kv' ∈ M, P kv' → kv'.key < kv.key) :
    (M.insert kv).last P = some kv := by
  refine last_eq_some_iff.mpr ⟨self_mem_insert, hP, fun a ha hPa => ?_⟩
  rcases mem_insert.mp ha with rfl | ⟨ha, -⟩
  · exact le_rfl
  · exact (greatest a ha hPa).le

theorem last_insert_of_not (new : ∀ kv' ∈ M, kv'.key ≠ kv.key) (hP : ¬ P kv) :
    (M.insert kv).last P = M.last P := by
  cases h : M.last P with
  | some kv' => exact last_insert_of_some new h fun h' => absurd h' hP
  | none =>
    refine last_eq_none_iff.mpr fun a ha => ?_
    rcases mem_insert.mp ha with rfl | ⟨ha, -⟩
    · exact hP
    · exact last_eq_none_iff.mp h a ha

/-- A new object either becomes the last one with a property, or changes nothing. -/
theorem last_insert (new : ∀ kv' ∈ M, kv'.key ≠ kv.key) :
    (M.insert kv).last P = M.last P ∨
      (M.insert kv).last P = some kv ∧ P kv ∧ ∀ kv' ∈ M, P kv' → kv'.key < kv.key := by
  by_cases hP : P kv
  · by_cases greatest : ∀ kv' ∈ M, P kv' → kv'.key < kv.key
    · exact Or.inr ⟨last_insert_self hP greatest, hP, greatest⟩
    · push Not at greatest
      obtain ⟨a, mem, hPa, above⟩ := greatest
      cases h : M.last P with
      | none => exact absurd hPa (last_eq_none_iff.mp h a mem)
      | some kv' =>
        have max := (last_eq_some_iff.mp h).2.2 a mem hPa
        exact Or.inl (last_insert_of_some new h fun _ => above.trans max)
  · exact Or.inl (last_insert_of_not new hP)

/-- Behind a new object comes what came behind its key. -/
theorem after_insert_self (new : ∀ kv' ∈ M, kv'.key ≠ kv.key) :
    (M.insert kv).after kv.key = M.after kv.key :=
  first_insert_of_not new (lt_irrefl _)

/-- The object just before a new one is followed by it. -/
theorem after_insert_pred (pred : M.before kv.key = some kv') :
    (M.insert kv).after kv'.key = some kv := by
  obtain ⟨-, less, max⟩ := last_eq_some_iff.mp pred
  refine first_eq_some_iff.mpr ⟨self_mem_insert, less, fun a ha after => ?_⟩
  rcases mem_insert.mp ha with rfl | ⟨ha, -⟩
  · exact le_rfl
  · exact not_lt.mp fun before => absurd (max a ha before) (not_le.mpr after)

/-- What comes behind the object just before a key comes behind the key. -/
theorem after_pred (new : ∀ kv' ∈ M, kv'.key ≠ key) (pred : M.before key = some kv') :
    M.after kv'.key = M.after key := by
  obtain ⟨-, less, max⟩ := last_eq_some_iff.mp pred
  have same : ∀ a ∈ M, kv'.key < a.key ↔ key < a.key := fun a mem =>
    ⟨fun after => lt_of_le_of_ne
      (not_lt.mp fun before => absurd (max a mem before) (not_le.mpr after)) (new a mem).symm,
      fun after => less.trans after⟩
  cases h : M.after key with
  | none =>
    refine first_eq_none_iff.mpr fun a mem after => ?_
    exact first_eq_none_iff.mp h a mem ((same a mem).mp after)
  | some b =>
    obtain ⟨mem, after, min⟩ := first_eq_some_iff.mp h
    exact first_eq_some_iff.mpr ⟨mem, (same b mem).mpr after, fun a ha after' =>
      min a ha ((same a ha).mp after')⟩

/-- What an object follows is what is before it. -/
theorem before_of_after {x : CtKv} (mem : kv' ∈ M) (next : M.after kv'.key = some x) :
    M.before x.key = some kv' := by
  obtain ⟨-, less, least⟩ := first_eq_some_iff.mp next
  refine last_eq_some_iff.mpr ⟨mem, less, fun kv'' mem'' before => not_lt.mp fun later => ?_⟩
  exact absurd (least kv'' mem'' later) (not_le.mpr before)

/-- Any other object is followed by what followed it. -/
theorem after_insert_of_ne (new : ∀ kv' ∈ M, kv'.key ≠ kv.key) (mem : kv' ∈ M)
    (ne : M.before kv.key ≠ some kv') : (M.insert kv).after kv'.key = M.after kv'.key := by
  by_cases less : kv'.key < kv.key
  · -- some object lies between it and the new one
    obtain ⟨a, ha, between, before⟩ : ∃ a ∈ M, kv'.key < a.key ∧ a.key < kv.key := by
      by_contra none
      push Not at none
      refine ne (last_eq_some_iff.mpr ⟨mem, less, fun a ha before => not_lt.mp fun after => ?_⟩)
      exact absurd before (not_lt.mpr (none a ha after))
    cases h : M.after kv'.key with
    | none => exact absurd between (first_eq_none_iff.mp h a ha)
    | some b =>
      have min := (first_eq_some_iff.mp h).2.2 a ha between
      exact first_insert_of_some new h fun _ => min.trans before.le
  · exact first_insert_of_not new less

/-- Before a new least object nothing is in the map. -/
theorem first_insert_of_before_none (new : ∀ kv' ∈ M, kv'.key ≠ kv.key)
    (none : M.before kv.key = none) : (M.insert kv).first (fun _ => True) = some kv :=
  first_insert_self trivial fun kv' mem _ =>
    lt_of_le_of_ne (not_lt.mp (last_eq_none_iff.mp none kv' mem)) (new kv' mem).symm

theorem first_of_before_none (new : ∀ kv' ∈ M, kv'.key ≠ key) (none : M.before key = none) :
    (M.first fun _ => True) = M.after key := by
  have all : ∀ a ∈ M, key < a.key := fun a mem =>
    lt_of_le_of_ne (not_lt.mp (last_eq_none_iff.mp none a mem)) (new a mem).symm
  cases h : M.after key with
  | none =>
    exact first_eq_none_iff.mpr fun a mem _ => first_eq_none_iff.mp h a mem (all a mem)
  | some b =>
    obtain ⟨mem, -, min⟩ := first_eq_some_iff.mp h
    exact first_eq_some_iff.mpr ⟨mem, trivial, fun a ha _ => min a ha (all a ha)⟩

theorem first_insert_of_before_some (new : ∀ kv' ∈ M, kv'.key ≠ kv.key)
    (pred : M.before kv.key = some kv') :
    (M.insert kv).first (fun _ => True) = M.first fun _ => True := by
  obtain ⟨mem, less, -⟩ := last_eq_some_iff.mp pred
  cases h : M.first fun _ => True with
  | none => exact absurd trivial (first_eq_none_iff.mp h kv' mem)
  | some b =>
    have min := (first_eq_some_iff.mp h).2.2 kv' mem trivial
    exact first_insert_of_some new h fun _ => min.trans less.le

/-! ## Inserting beside an object -/

/-- A new object has its place just before or just after an object of the map; `lo` and `hi` are
the two in order. -/
structure Beside (M : KeyMap) (kv₀ kv lo hi : CtKv) : Prop where
  mem : kv₀ ∈ M
  new : ∀ kv' ∈ M, kv'.key ≠ kv.key
  between : ∀ kv' ∈ M, kv' ≠ kv₀ → (kv'.key < kv₀.key ↔ kv'.key < kv.key)
  order : lo = kv₀ ∧ hi = kv ∧ kv₀.key < kv.key ∨ lo = kv ∧ hi = kv₀ ∧ kv.key < kv₀.key

namespace Beside

variable {kv₀ lo hi : CtKv}

theorem lt (beside : M.Beside kv₀ kv lo hi) : lo.key < hi.key := by
  obtain ⟨rfl, rfl, less⟩ | ⟨rfl, rfl, less⟩ := beside.order
  · exact less
  · exact less

/-- A greater new object comes just behind the old one. -/
theorem before_of_lt (beside : M.Beside kv₀ kv lo hi) (less : kv₀.key < kv.key) :
    M.before kv.key = some kv₀ := by
  refine last_eq_some_iff.mpr ⟨beside.mem, less, fun kv' mem' less' => ?_⟩
  by_cases same : kv' = kv₀
  · rw [same]
  · exact ((beside.between kv' mem' same).mpr less').le

/-- Before a smaller new object there is what was before the old one. -/
theorem before_of_gt (beside : M.Beside kv₀ kv lo hi) (less : kv.key < kv₀.key) :
    M.before kv.key = M.before kv₀.key := by
  have other : ∀ kv' ∈ M, kv'.key < kv.key ∨ kv'.key < kv₀.key → kv' ≠ kv₀ := by
    rintro kv' - (less' | less') rfl
    · exact absurd less' (not_lt.mpr less.le)
    · exact absurd less' (lt_irrefl _)
  cases h : M.before kv₀.key with
  | none =>
    refine last_eq_none_iff.mpr fun kv' mem' less' => last_eq_none_iff.mp h kv' mem' ?_
    exact (beside.between kv' mem' (other kv' mem' (Or.inl less'))).mpr less'
  | some x =>
    obtain ⟨mem, lessX, greatest⟩ := last_eq_some_iff.mp h
    refine last_eq_some_iff.mpr ⟨mem,
      (beside.between x mem (other x mem (Or.inr lessX))).mp lessX, fun kv' mem' less' => ?_⟩
    exact greatest kv' mem' ((beside.between kv' mem' (other kv' mem' (Or.inl less'))).mpr less')

/-- A smaller new object comes just before the old one. -/
theorem after_of_gt (beside : M.Beside kv₀ kv lo hi) (less : kv.key < kv₀.key) :
    M.after kv.key = some kv₀ := by
  refine first_eq_some_iff.mpr ⟨beside.mem, less, fun kv' mem' less' => ?_⟩
  by_cases same : kv' = kv₀
  · rw [same]
  · refine not_lt.mp fun before => ?_
    exact absurd ((beside.between kv' mem' same).mp before) (not_lt.mpr less'.le)

/-- The greater of the two follows the smaller one. -/
theorem after_lo (beside : M.Beside kv₀ kv lo hi) : (M.insert kv).after lo.key = some hi := by
  obtain ⟨rfl, rfl, less⟩ | ⟨rfl, rfl, less⟩ := beside.order
  · exact after_insert_pred (beside.before_of_lt less)
  · rw [after_insert_self beside.new]
    exact beside.after_of_gt less

/-- Behind the greater of the two comes what came behind the old object. -/
theorem after_hi (beside : M.Beside kv₀ kv lo hi) :
    (M.insert kv).after hi.key = M.after kv₀.key := by
  obtain ⟨rfl, rfl, less⟩ | ⟨rfl, rfl, less⟩ := beside.order
  · rw [after_insert_self beside.new]
    exact (after_pred beside.new (beside.before_of_lt less)).symm
  · refine after_insert_of_ne beside.new beside.mem fun pred => ?_
    exact absurd (last_eq_some_iff.mp pred).2.1 (not_lt.mpr less.le)

/-- What was before the old object is followed by the smaller of the two. -/
theorem after_pred (beside : M.Beside kv₀ kv lo hi) {x : CtKv} (pred : M.before kv₀.key = some x) :
    (M.insert kv).after x.key = some lo := by
  obtain ⟨mem, lessX, greatest⟩ := last_eq_some_iff.mp pred
  obtain ⟨rfl, rfl, less⟩ | ⟨rfl, rfl, less⟩ := beside.order
  · rw [after_insert_of_ne beside.new mem fun same => ?_]
    · refine first_eq_some_iff.mpr ⟨beside.mem, lessX, fun kv' mem' later => ?_⟩
      exact not_lt.mp fun before => absurd (greatest kv' mem' before) (not_le.mpr later)
    · rw [beside.before_of_lt less] at same
      cases same
      exact absurd lessX (lt_irrefl _)
  · exact after_insert_pred (by rw [beside.before_of_gt less, pred])

/-- Any other object is followed by what followed it. -/
theorem after_of_ne (beside : M.Beside kv₀ kv lo hi) (mem : kv' ∈ M) (ne : kv' ≠ kv₀)
    (notPred : M.before kv₀.key ≠ some kv') : (M.insert kv).after kv'.key = M.after kv'.key := by
  refine after_insert_of_ne beside.new mem fun pred => ?_
  obtain ⟨-, -, less⟩ | ⟨-, -, less⟩ := beside.order
  · rw [beside.before_of_lt less] at pred
    cases pred
    exact ne rfl
  · rw [beside.before_of_gt less] at pred
    exact notPred pred

/-- If the old object was the first one, the smaller of the two is. -/
theorem first_of_none (beside : M.Beside kv₀ kv lo hi) (none : M.before kv₀.key = none) :
    (M.insert kv).first (fun _ => True) = some lo := by
  obtain ⟨rfl, rfl, less⟩ | ⟨rfl, rfl, less⟩ := beside.order
  · rw [first_insert_of_before_some beside.new (beside.before_of_lt less)]
    refine first_eq_some_iff.mpr ⟨beside.mem, trivial, fun kv' mem' _ => ?_⟩
    exact not_lt.mp fun before => last_eq_none_iff.mp none kv' mem' before
  · exact first_insert_of_before_none beside.new (by rw [beside.before_of_gt less, none])

/-- Otherwise the first object stays. -/
theorem first_of_some (beside : M.Beside kv₀ kv lo hi) {x : CtKv}
    (pred : M.before kv₀.key = some x) :
    (M.insert kv).first (fun _ => True) = M.first fun _ => True := by
  obtain ⟨-, -, less⟩ | ⟨-, -, less⟩ := beside.order
  · exact first_insert_of_before_some beside.new (beside.before_of_lt less)
  · exact first_insert_of_before_some beside.new (by rw [beside.before_of_gt less, pred])

end Beside

end Insert

end KeyMap

end CuckooTrie
