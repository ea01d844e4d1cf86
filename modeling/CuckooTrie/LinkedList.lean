import Mathlib.Data.List.Nodup
import Mathlib.Data.List.Perm.Subperm

/-!
# Linked lists

Nodes that are found by links: a link leads to a node or ends the list, and each node has
the link to the next one.  `Visits` says which nodes the links lead through, one after the
other.  A list that visits its nodes in the order of a strict relation visits none of them
twice; so it is no longer than any list of nodes that has all of its nodes
(`length_le_of_pairwise`), and it visits each node of such a list exactly once if it leaves
none out (`count_eq_one_of_pairwise`).
-/

namespace LinkedList

variable {α β : Type*} {follow : β → Option α} {next : α → β} {ends : β → Prop}

/-- The links from one on lead through these nodes and come to an end. -/
inductive Visits (follow : β → Option α) (next : α → β) (ends : β → Prop) : β → List α → Prop
  | stop {l} : ends l → Visits follow next ends l []
  | go {l a as} : ¬ ends l → follow l = some a → Visits follow next ends (next a) as →
      Visits follow next ends l (a :: as)

/-- A link leads through one list of nodes at most. -/
theorem Visits.unique {l : β} {as bs : List α} (visits : Visits follow next ends l as)
    (visits' : Visits follow next ends l bs) : as = bs := by
  induction visits generalizing bs with
  | stop stops =>
    cases visits' with
    | stop => rfl
    | go goes => exact absurd stops goes
  | go goes found _ ih =>
    cases visits' with
    | stop stops => exact absurd stops goes
    | go _ found' rest' =>
      rw [found] at found'
      cases found'
      rw [ih rest']

section Order

variable {r : α → α → Prop} {as nodes : List α}

theorem nodup_of_pairwise (irrefl : ∀ a, ¬ r a a) (sorted : as.Pairwise r) : as.Nodup := by
  refine sorted.imp ?_
  rintro a _ less rfl
  exact irrefl a less

/-- In order a list has no more nodes than there are. -/
theorem length_le_of_pairwise (irrefl : ∀ a, ¬ r a a) (sorted : as.Pairwise r)
    (inside : as ⊆ nodes) : as.length ≤ nodes.length :=
  (List.subperm_of_subset (nodup_of_pairwise irrefl sorted) inside).length_le

/-- In order each node is visited once. -/
theorem count_eq_one_of_pairwise [DecidableEq α] {a : α} (irrefl : ∀ a, ¬ r a a)
    (sorted : as.Pairwise r) (mem : a ∈ as) : as.count a = 1 :=
  List.count_eq_one_of_mem (nodup_of_pairwise irrefl sorted) mem

end Order

end LinkedList
