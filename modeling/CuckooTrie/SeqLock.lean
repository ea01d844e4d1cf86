import Mathlib.Data.Nat.ModEq
import Mathlib.Order.Monotone.Basic

/-!
# Sequence locks

A value that one writer changes in several stages, and a count that tells readers whether
it changed.  The count is even while nothing is being written; a write makes it odd first
and even again at its end.  A reader that sees one even count before and after its reads
has read one value (`Run.eq_of_count_eq`), also if it sees the count up to multiples of a
modulus, as long as fewer writes than half of it come in between
(`Run.count_eq_of_mod_eq`).
-/

namespace SeqLock

/-- The writes completed so far, whether one is in progress, and the value. -/
structure Moment (α : Type*) where
  writes : ℕ
  busy : Bool
  value : α

namespace Moment

variable {α : Type*}

/-- What the counter of the lock counts. -/
def count (m : Moment α) : ℕ := 2 * m.writes + m.busy.toNat

/-- The value changes only while a write is in progress. -/
inductive Step : Moment α → Moment α → Prop
  | rest {m} : Step m m
  | enter {w v} : Step ⟨w, false, v⟩ ⟨w, true, v⟩
  | change {w v v'} : Step ⟨w, true, v⟩ ⟨w, true, v'⟩
  | leave {w v} : Step ⟨w, true, v⟩ ⟨w + 1, false, v⟩

/-- A step that leaves the count and an idle lock alone changes nothing. -/
theorem Step.eq_of_count_eq {m m' : Moment α} (step : Step m m') (same : m'.count = m.count)
    (idle : m.busy = false) : m' = m := by
  cases step with
  | rest => rfl
  | enter => simp [count] at same
  | change => cases idle
  | leave => cases idle

theorem Step.count_le {m m' : Moment α} (step : Step m m') : m.count ≤ m'.count := by
  cases step with
  | rest => exact le_rfl
  | enter => simp [count]
  | change => exact le_rfl
  | @leave w v =>
    change 2 * w + 1 ≤ 2 * (w + 1)
    omega

end Moment

/-- A run of the writer, with any stages in between. -/
structure Run (α : Type*) where
  moment : ℕ → Moment α
  step : ∀ n, Moment.Step (moment n) (moment (n + 1))

namespace Run

variable {α : Type*} (run : Run α) {a b : ℕ}

theorem count_mono : Monotone fun n => (run.moment n).count :=
  monotone_nat_of_le_succ fun n => (run.step n).count_le

/-- **Between two equal counts of an idle lock nothing changes.** -/
theorem eq_of_count_eq (idle : (run.moment a).busy = false)
    (same : (run.moment b).count = (run.moment a).count) {n : ℕ} (after : a ≤ n) (before : n ≤ b) :
    run.moment n = run.moment a := by
  induction n, after using Nat.le_induction with
  | base => rfl
  | succ n after ih =>
    have here := ih (Nat.le_of_succ_le before)
    have up : (run.moment a).count ≤ (run.moment (n + 1)).count :=
      run.count_mono (Nat.le_succ_of_le after)
    have down : (run.moment (n + 1)).count ≤ (run.moment b).count := run.count_mono before
    have step := run.step n
    rw [here] at step
    exact step.eq_of_count_eq (by omega) idle

/-- **A count that wraps** tells moments apart with fewer writes than half its range
between them. -/
theorem count_eq_of_mod_eq {half : ℕ} (le : a ≤ b)
    (few : (run.moment b).writes < (run.moment a).writes + half)
    (same : (run.moment b).count % (2 * half) = (run.moment a).count % (2 * half)) :
    (run.moment b).count = (run.moment a).count := by
  have up : (run.moment a).count ≤ (run.moment b).count := run.count_mono le
  have near : (run.moment b).count < (run.moment a).count + 2 * half := by
    unfold Moment.count
    have := Bool.toNat_le (run.moment b).busy
    omega
  obtain ⟨k, hk⟩ : 2 * half ∣ (run.moment b).count - (run.moment a).count :=
    (Nat.modEq_iff_dvd' up).mp same.symm
  have zero : k = 0 := by
    by_contra positive
    have : 2 * half * 1 ≤ 2 * half * k := Nat.mul_le_mul_left _ (Nat.pos_of_ne_zero positive)
    omega
  subst zero
  omega

end Run

end SeqLock
