import Mathlib.Data.List.Induction
import Mathlib.Data.List.Lex
import Mathlib.Order.Lattice

/-!
# Prefixes and the lexicographic order

A small library on lists over a linear order: the lists that extend a given
prefix lie together in the lexicographic order, and two lists that leave a common
prefix by different elements are ordered by these elements.
-/

namespace PrefixOrder

variable {α : Type*}

/-- Two prefixes of one list are comparable. -/
theorem comparable {p q x : List α} (hp : p <+: x) (hq : q <+: x) : p <+: q ∨ q <+: p :=
  List.prefix_or_prefix_of_prefix hp hq

/-- A prefix that is not the whole list goes on with some element. -/
theorem exists_concat {p x : List α} (h : p <+: x) (ne : p ≠ x) : ∃ a, p ++ [a] <+: x := by
  obtain ⟨rest, rfl⟩ := h
  cases rest with
  | nil => exact absurd (List.append_nil p).symm ne
  | cons a rest => exact ⟨a, rest, by simp⟩

/-- The element after a prefix, as an element of the list. -/
theorem concat_prefix_iff {p x : List α} {a : α} (h : p <+: x) :
    p ++ [a] <+: x ↔ x[p.length]? = some a := by
  obtain ⟨rest, rfl⟩ := h
  cases rest with
  | nil =>
    have tooLong : ¬ p ++ [a] <+: p := fun h => absurd h.length_le (by simp)
    simpa using tooLong
  | cons b rest => simp [eq_comm]

theorem concat_prefix_unique {p x : List α} {a b : α} (ha : p ++ [a] <+: x) (hb : p ++ [b] <+: x) :
    a = b := by
  have h := (List.prefix_append p [a]).trans ha
  have := ((concat_prefix_iff h).mp ha).symm.trans ((concat_prefix_iff h).mp hb)
  exact Option.some.inj this

/-- Two incomparable lists leave a common prefix by different elements. -/
theorem exists_split {x y : List α} (hxy : ¬ x <+: y) (hyx : ¬ y <+: x) :
    ∃ p a b, a ≠ b ∧ p ++ [a] <+: x ∧ p ++ [b] <+: y := by
  classical
  induction x generalizing y with
  | nil => exact absurd List.nil_prefix hxy
  | cons a x ih =>
    cases y with
    | nil => exact absurd List.nil_prefix hyx
    | cons b y =>
      by_cases same : a = b
      · subst same
        obtain ⟨p, c, d, ne, hc, hd⟩ :=
          ih (fun h => hxy (List.cons_prefix_cons.mpr ⟨rfl, h⟩))
            (fun h => hyx (List.cons_prefix_cons.mpr ⟨rfl, h⟩))
        exact ⟨a :: p, c, d, ne, by simpa using hc, by simpa using hd⟩
      · exact ⟨[], a, b, same, by simp, by simp⟩

section Order

variable [LinearOrder α]

/-- Leaving a common prefix by a smaller element makes a smaller list. -/
theorem lt_of_concat {p x y : List α} {a b : α} (h : a < b) (hx : p ++ [a] <+: x)
    (hy : p ++ [b] <+: y) : x < y := by
  obtain ⟨x', rfl⟩ := hx
  obtain ⟨y', rfl⟩ := hy
  induction p with
  | nil => exact List.cons_lt_cons_iff.mpr (Or.inl h)
  | cons c p ih => exact List.cons_lt_cons_iff.mpr (Or.inr ⟨rfl, ih⟩)

/-- A list outside a prefix lies on one side of all its extensions. -/
theorem lt_iff_outside {p x y z : List α} (hx : ¬ p <+: x) (hy : p <+: y) (hz : p <+: z) :
    x < y ↔ x < z := by
  obtain ⟨y', rfl⟩ := hy
  obtain ⟨z', rfl⟩ := hz
  induction p generalizing x with
  | nil => exact absurd List.nil_prefix hx
  | cons c p ih =>
    cases x with
    | nil => simp
    | cons a x =>
      simp only [List.cons_append, List.cons_lt_cons_iff]
      by_cases same : a = c
      · subst same
        simp only [lt_self_iff_false, false_or, true_and]
        exact ih fun h => hx (List.cons_prefix_cons.mpr ⟨rfl, h⟩)
      · simp [same]

/-- Two lists that leave a common prefix by different elements compare like them. -/
theorem lt_iff_of_concat {p x y : List α} {a b : α} (ne : a ≠ b) (hx : p ++ [a] <+: x)
    (hy : p ++ [b] <+: y) : x < y ↔ a < b := by
  rcases lt_or_gt_of_ne ne with h | h
  · exact ⟨fun _ => h, fun _ => lt_of_concat h hx hy⟩
  · exact ⟨fun h' => absurd (lt_of_concat h hy hx) (lt_asymm h'),
      fun h' => absurd h' (lt_asymm h)⟩

end Order

end PrefixOrder
