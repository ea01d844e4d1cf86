import Mathlib.Order.Lattice

/-!
# Programs over a growing state

A small library for total correctness of sequential programs that may run for
ever.  The states carry a preorder, and every program carries the proof that it
only moves forward in it: the order is meant for a record of the run (a list of
events that is only appended to), so a condition on the record that holds at the
end of a run held all the way through.

`Ensures good f s Q` is the judgement the library is about: if the final state
of the run of `f` from `s` is `good`, then the run returns, and `Q` holds of its
result and its final state.  With `good` closed downward, the judgement composes
along `bind` without any side condition.
-/

universe u

/-- A program: a run ends with a result, or never ends (`none`); the second
component is the state at the end, or the one it hangs in. -/
structure Prog (σ : Type u) [Preorder σ] (α : Type u) where
  run : σ → Option α × σ
  le_run : ∀ s, s ≤ (run s).2

namespace Prog

variable {σ α β : Type u} [Preorder σ]

/-- A program that never ends. -/
def hang : Prog σ α := ⟨fun s => (none, s), fun _ => le_rfl⟩

/-- Read something off the state; the run hangs if there is nothing to read. -/
def find (f : σ → Option α) : Prog σ α := ⟨fun s => (f s, s), fun _ => le_rfl⟩

/-- Read a value off the state. -/
def read (f : σ → α) : Prog σ α := ⟨fun s => (some (f s), s), fun _ => le_rfl⟩

/-- Change the state, moving forward. -/
def update (f : σ → α × σ) (forward : ∀ s, s ≤ (f s).2) : Prog σ α :=
  ⟨fun s => (some (f s).1, (f s).2), forward⟩

instance : Monad (Prog σ) where
  pure a := ⟨fun s => (some a, s), fun _ => le_rfl⟩
  bind f k :=
    { run := fun s =>
        match f.run s with
        | (some a, s') => (k a).run s'
        | (none, s') => (none, s')
      le_run := fun s => by
        have first := f.le_run s
        split
        · next a s' h =>
          rw [h] at first
          exact le_trans first ((k a).le_run s')
        · next s' h =>
          rw [h] at first
          exact first }

/-- **Total correctness**: the run returns, with a result and a state that
satisfy `Q`. -/
def Returns (f : Prog σ α) (s : σ) (Q : α → σ → Prop) : Prop :=
  ∃ a, (f.run s).1 = some a ∧ Q a (f.run s).2

/-- **Conditional total correctness**: a run that ends in a `good` state returns,
with a result and a state that satisfy `Q`. -/
def Ensures (good : σ → Prop) (f : Prog σ α) (s : σ) (Q : α → σ → Prop) : Prop :=
  good (f.run s).2 → ∃ a, (f.run s).1 = some a ∧ Q a (f.run s).2

section Rules

variable {good : σ → Prop} {f : Prog σ α} {k : α → Prog σ β} {s : σ}

theorem run_bind (f : Prog σ α) (k : α → Prog σ β) (s : σ) :
    (f >>= k).run s =
      match f.run s with
      | (some a, s') => (k a).run s'
      | (none, s') => (none, s') := rfl

/-- A run that returns determines how a composition goes on. -/
theorem run_bind_of_some {a : α} (h : (f.run s).1 = some a) :
    (f >>= k).run s = (k a).run (f.run s).2 := by
  rw [run_bind]
  rcases hf : f.run s with ⟨r, s'⟩
  rw [hf] at h
  cases h
  rfl

/-- The results of a program are those of its parts. -/
theorem run_bind_eq_some {b : β} (h : ((f >>= k).run s).1 = some b) :
    ∃ a, (f.run s).1 = some a ∧ ((k a).run (f.run s).2).1 = some b ∧
      ((f >>= k).run s).2 = ((k a).run (f.run s).2).2 := by
  rw [run_bind] at h ⊢
  rcases hf : f.run s with ⟨_ | a, s'⟩
  · rw [hf] at h
    cases h
  · rw [hf] at h
    exact ⟨a, rfl, h, rfl⟩

/-- Programs that go on in the same way from every result are equal. -/
theorem bind_congr {k' : α → Prog σ β} (same : ∀ s a, (f.run s).1 = some a → k a = k' a) :
    f >>= k = f >>= k' := by
  have runs : (f >>= k).run = (f >>= k').run := by
    funext s
    rw [run_bind, run_bind]
    rcases hf : f.run s with ⟨_ | a, s'⟩
    · rfl
    · exact congrArg (fun p => p.run s') (same s a (by rw [hf]))
  generalize f >>= k = p at runs
  generalize f >>= k' = q at runs
  cases p
  cases q
  cases runs
  rfl

namespace Returns

theorem pure {Q : α → σ → Prop} {a : α} (h : Q a s) : Returns (pure a) s Q := ⟨a, rfl, h⟩

theorem read {Q : α → σ → Prop} {f : σ → α} (h : Q (f s) s) : Returns (Prog.read f) s Q :=
  ⟨f s, rfl, h⟩

theorem find {Q : α → σ → Prop} {f : σ → Option α} {a : α} (found : f s = some a) (h : Q a s) :
    Returns (Prog.find f) s Q := ⟨a, found, h⟩

theorem update {Q : α → σ → Prop} {f : σ → α × σ} {forward : ∀ s, s ≤ (f s).2}
    (h : Q (f s).1 (f s).2) : Returns (Prog.update f forward) s Q := ⟨(f s).1, rfl, h⟩

theorem weaken {Q R : α → σ → Prop} (h : Returns f s Q) (imp : ∀ a s', s ≤ s' → Q a s' → R a s') :
    Returns f s R := by
  obtain ⟨a, ret, hQ⟩ := h
  exact ⟨a, ret, imp a _ (f.le_run s) hQ⟩

theorem bind {Q : α → σ → Prop} {R : β → σ → Prop} (first : Returns f s Q)
    (rest : ∀ a s', s ≤ s' → Q a s' → Returns (k a) s' R) : Returns (f >>= k) s R := by
  obtain ⟨a, ret, hQ⟩ := first
  rw [Returns, run_bind_of_some ret]
  exact rest a _ (f.le_run s) hQ

theorem ite {c : Prop} [Decidable c] {f g : Prog σ α} {Q : α → σ → Prop}
    (pos : c → Returns f s Q) (neg : ¬c → Returns g s Q) :
    Returns (if c then f else g) s Q := by
  split
  · exact pos ‹_›
  · exact neg ‹_›

theorem ensures {Q : α → σ → Prop} (h : Returns f s Q) : Ensures good f s Q := fun _ => h

theorem and {Q R : α → σ → Prop} (hQ : Returns f s Q) (hR : Returns f s R) :
    Returns f s fun a s' => Q a s' ∧ R a s' := by
  obtain ⟨a, ret, h⟩ := hQ
  obtain ⟨a', ret', h'⟩ := hR
  rw [ret] at ret'
  cases ret'
  exact ⟨a, ret, h, h'⟩

end Returns

namespace Ensures

theorem pure {Q : α → σ → Prop} {a : α} (h : Q a s) : Ensures good (pure a) s Q :=
  fun _ => ⟨a, rfl, h⟩

theorem read {Q : α → σ → Prop} {f : σ → α} (h : Q (f s) s) : Ensures good (Prog.read f) s Q :=
  fun _ => ⟨f s, rfl, h⟩

theorem find {Q : α → σ → Prop} {f : σ → Option α} {a : α} (found : f s = some a) (h : Q a s) :
    Ensures good (Prog.find f) s Q :=
  fun _ => ⟨a, found, h⟩

theorem update {Q : α → σ → Prop} {f : σ → α × σ} {forward : ∀ s, s ≤ (f s).2}
    (h : good (f s).2 → Q (f s).1 (f s).2) : Ensures good (Prog.update f forward) s Q :=
  fun hgood => ⟨(f s).1, rfl, h hgood⟩

/-- **Consequence.**  The weaker postcondition may use that the final state is
good and comes after the first one. -/
theorem weaken {Q R : α → σ → Prop} (h : Ensures good f s Q)
    (imp : ∀ a s', s ≤ s' → good s' → Q a s' → R a s') : Ensures good f s R := by
  intro hgood
  obtain ⟨a, ret, hQ⟩ := h hgood
  exact ⟨a, ret, imp a _ (f.le_run s) hgood hQ⟩

theorem mono {Q R : α → σ → Prop} (h : Ensures good f s Q) (imp : ∀ a s', Q a s' → R a s') :
    Ensures good f s R :=
  h.weaken fun a s' _ _ => imp a s'

/-- **Composition.**  Goodness at the end gives goodness in the middle. -/
theorem bind (down : ∀ s s', s ≤ s' → good s' → good s) {Q : α → σ → Prop} {R : β → σ → Prop}
    (first : Ensures good f s Q)
    (rest : ∀ a s', s ≤ s' → good s' → Q a s' → Ensures good (k a) s' R) :
    Ensures good (f >>= k) s R := by
  intro hgood
  have middle : good (f.run s).2 := by
    rw [run_bind] at hgood
    rcases hf : f.run s with ⟨_ | a, s'⟩
    · rw [hf] at hgood
      exact hgood
    · rw [hf] at hgood
      exact down _ _ ((k a).le_run s') hgood
  obtain ⟨a, ret, hQ⟩ := first middle
  rw [run_bind_of_some ret] at hgood ⊢
  exact rest a _ (f.le_run s) middle hQ hgood

/-- The state at the start of a good run is good. -/
theorem of_good (down : ∀ s s', s ≤ s' → good s' → good s) {Q : α → σ → Prop}
    (h : good s → Ensures good f s Q) : Ensures good f s Q :=
  fun hgood => h (down _ _ (f.le_run s) hgood) hgood

theorem ite {c : Prop} [Decidable c] {f g : Prog σ α} {Q : α → σ → Prop}
    (pos : c → Ensures good f s Q) (neg : ¬c → Ensures good g s Q) :
    Ensures good (if c then f else g) s Q := by
  split
  · exact pos ‹_›
  · exact neg ‹_›

theorem and {Q R : α → σ → Prop} (hQ : Ensures good f s Q) (hR : Ensures good f s R) :
    Ensures good f s fun a s' => Q a s' ∧ R a s' := by
  intro hgood
  obtain ⟨a, ret, h⟩ := hQ hgood
  obtain ⟨a', ret', h'⟩ := hR hgood
  rw [ret] at ret'
  cases ret'
  exact ⟨a, ret, h, h'⟩

end Ensures

end Rules

/-! ### Frames -/

/-- **A frame**: however a run ends, its first and its last state are related. -/
def Frames (R : σ → σ → Prop) (f : Prog σ α) : Prop := ∀ s, R s (f.run s).2

namespace Frames

variable {R : σ → σ → Prop} {f : Prog σ α} {k : α → Prog σ β}

theorem pure (refl : ∀ s, R s s) (a : α) : Frames R (pure a : Prog σ α) := refl

theorem read (refl : ∀ s, R s s) (f : σ → α) : Frames R (Prog.read f) := refl

theorem find (refl : ∀ s, R s s) (f : σ → Option α) : Frames R (Prog.find f) := refl

theorem update {f : σ → α × σ} {forward : ∀ s, s ≤ (f s).2} (h : ∀ s, R s (f s).2) :
    Frames R (Prog.update f forward) := h

theorem bind (trans : ∀ s s' s'', R s s' → R s' s'' → R s s'') (first : Frames R f)
    (rest : ∀ a, Frames R (k a)) : Frames R (f >>= k) := by
  intro s
  have h := first s
  rw [run_bind]
  split
  · next a s' run =>
    rw [run] at h
    exact trans _ _ _ h (rest a s')
  · next s' run =>
    rw [run] at h
    exact h

theorem ite {c : Prop} [Decidable c] {f' : Prog σ α} (pos : Frames R f) (neg : Frames R f') :
    Frames R (if c then f else f') := by
  split
  · exact pos
  · exact neg

/-- A frame of a program that returns goes into its postcondition. -/
theorem and_returns {s : σ} {Q : α → σ → Prop} (frame : Frames R f) (h : Returns f s Q) :
    Returns f s fun a s' => Q a s' ∧ R s s' := by
  obtain ⟨a, ret, post⟩ := h
  exact ⟨a, ret, post, frame s⟩

end Frames

/-! ### Partial correctness -/

/-- **Partial correctness with an invariant**: however a run ends, the invariant holds
then; if it returns, its result and its final state satisfy `Q`. -/
def Keeps (I : σ → Prop) (f : Prog σ α) (s : σ) (Q : α → σ → Prop) : Prop :=
  I (f.run s).2 ∧ ∀ a, (f.run s).1 = some a → Q a (f.run s).2

namespace Keeps

variable {I : σ → Prop} {f : Prog σ α} {k : α → Prog σ β} {s : σ} {Q : α → σ → Prop}

theorem pure {a : α} (inv : I s) (h : Q a s) : Keeps I (pure a) s Q :=
  ⟨inv, fun _ ret => Option.some.inj ret ▸ h⟩

theorem hang (inv : I s) : Keeps I hang s Q := ⟨inv, fun _ ret => nomatch ret⟩

theorem read {f : σ → α} (inv : I s) (h : Q (f s) s) : Keeps I (Prog.read f) s Q :=
  ⟨inv, fun _ ret => Option.some.inj ret ▸ h⟩

theorem find {f : σ → Option α} (inv : I s) (h : ∀ a, f s = some a → Q a s) :
    Keeps I (Prog.find f) s Q := ⟨inv, h⟩

theorem update {f : σ → α × σ} {forward : ∀ s, s ≤ (f s).2} (inv : I (f s).2)
    (h : Q (f s).1 (f s).2) : Keeps I (Prog.update f forward) s Q :=
  ⟨inv, fun _ ret => Option.some.inj ret ▸ h⟩

theorem weaken {R : α → σ → Prop} (h : Keeps I f s Q) (imp : ∀ a s', Q a s' → R a s') :
    Keeps I f s R := ⟨h.1, fun a ret => imp a _ (h.2 a ret)⟩

theorem bind {R : β → σ → Prop} (first : Keeps I f s Q)
    (rest : ∀ a s', Q a s' → Keeps I (k a) s' R) : Keeps I (f >>= k) s R := by
  obtain ⟨inv, post⟩ := first
  rw [Keeps, run_bind]
  rcases hf : f.run s with ⟨_ | a, s'⟩
  · rw [hf] at inv
    exact ⟨inv, fun _ ret => nomatch ret⟩
  · rw [hf] at post
    exact rest a s' (post a rfl)

/-- What comes after a program that returns. -/
theorem after {R : β → σ → Prop} (returns : Returns f s Q)
    (rest : ∀ a s', Q a s' → Keeps I (k a) s' R) : Keeps I (f >>= k) s R := by
  obtain ⟨a, ret, post⟩ := returns
  rw [Keeps, run_bind_of_some ret]
  exact rest a _ post

theorem ite {c : Prop} [Decidable c] {f' : Prog σ α} (pos : c → Keeps I f s Q)
    (neg : ¬c → Keeps I f' s Q) : Keeps I (if c then f else f') s Q := by
  split
  · exact pos ‹_›
  · exact neg ‹_›

theorem and {J : σ → Prop} {R : α → σ → Prop} (hQ : Keeps I f s Q) (hR : Keeps J f s R) :
    Keeps I f s fun a s' => Q a s' ∧ R a s' := ⟨hQ.1, fun a ret => ⟨hQ.2 a ret, hR.2 a ret⟩⟩

/-- The result and the state a program returns with are those of its run. -/
theorem and_run (h : Keeps I f s Q) : Keeps I f s fun a s' => Q a s' ∧ f.run s = (some a, s') :=
  ⟨h.1, fun a ret => ⟨h.2 a ret, Prod.ext ret rfl⟩⟩

theorem mono {J : σ → Prop} (h : Keeps I f s Q) (imp : ∀ s', I s' → J s') : Keeps J f s Q :=
  ⟨imp _ h.1, h.2⟩

/-- A program that returns keeps what its postcondition says. -/
theorem of_post (h : Returns f s Q) (inv : ∀ a s', Q a s' → I s') : Keeps I f s Q := by
  obtain ⟨a, ret, post⟩ := h
  refine ⟨inv a _ post, fun a' ret' => ?_⟩
  rw [ret] at ret'
  cases ret'
  exact post

theorem of_returns (h : Returns f s Q) : Keeps (fun _ => True) f s Q :=
  of_post h fun _ _ _ => trivial

/-- A frame that keeps the invariant. -/
theorem of_frames {R : σ → σ → Prop} (frame : Frames R f) (inv : ∀ s', R s s' → I s')
    (h : ∀ a s', R s s' → Q a s') : Keeps I f s Q :=
  ⟨inv _ (frame s), fun a _ => h a _ (frame s)⟩

/-- The cases in which a program is known to return. -/
theorem returns {a : α} (h : Keeps I f s Q) (ret : (f.run s).1 = some a) : Returns f s Q :=
  ⟨a, ret, h.2 a ret⟩

/-- What is known of good runs and what is known of all runs that return. -/
theorem and_ensures {good : σ → Prop} {R : α → σ → Prop} (h : Keeps I f s R)
    (hQ : Ensures good f s Q) : Ensures good f s fun a s' => Q a s' ∧ R a s' := fun hgood => by
  obtain ⟨a, ret, post⟩ := hQ hgood
  exact ⟨a, ret, post, h.2 a ret⟩

end Keeps

/-! ### Partial correctness of good runs -/

/-- **Partial correctness of good runs**: if a run ends in a `good` state and returns, then
its result and its final state satisfy `Q`. -/
def Yields (good : σ → Prop) (f : Prog σ α) (s : σ) (Q : α → σ → Prop) : Prop :=
  good (f.run s).2 → ∀ a, (f.run s).1 = some a → Q a (f.run s).2

namespace Yields

variable {good : σ → Prop} {f : Prog σ α} {k : α → Prog σ β} {s : σ} {Q : α → σ → Prop}

theorem pure {a : α} (h : good s → Q a s) : Yields good (pure a) s Q :=
  fun hgood _ ret => Option.some.inj ret ▸ h hgood

theorem hang : Yields good (hang : Prog σ α) s Q := fun _ _ ret => nomatch ret

theorem find {f : σ → Option α} (h : ∀ a, f s = some a → Q a s) :
    Yields good (Prog.find f) s Q := fun _ => h

theorem of_returns (h : Returns f s Q) : Yields good f s Q := by
  obtain ⟨a, ret, post⟩ := h
  intro _ a' ret'
  rw [ret] at ret'
  cases ret'
  exact post

/-- What is known of good states only. -/
theorem of_good (down : ∀ s s', s ≤ s' → good s' → good s) (h : good s → Yields good f s Q) :
    Yields good f s Q := fun hgood => h (down _ _ (f.le_run s) hgood) hgood

theorem weaken {R : α → σ → Prop} (h : Yields good f s Q)
    (imp : ∀ a s', s ≤ s' → good s' → Q a s' → R a s') : Yields good f s R :=
  fun hgood a ret => imp a _ (f.le_run s) hgood (h hgood a ret)

/-- **Composition.**  Goodness at the end gives goodness in the middle. -/
theorem bind (down : ∀ s s', s ≤ s' → good s' → good s) {R : β → σ → Prop}
    (first : Yields good f s Q)
    (rest : ∀ a s', s ≤ s' → good s' → Q a s' → Yields good (k a) s' R) :
    Yields good (f >>= k) s R := by
  intro hgood b ret
  obtain ⟨a, first_, second, same⟩ := run_bind_eq_some ret
  rw [same] at hgood ⊢
  have middle := down _ _ ((k a).le_run _) hgood
  exact rest a _ (f.le_run s) middle (first middle a first_) hgood b second

theorem ite {c : Prop} [Decidable c] {f' : Prog σ α} (pos : c → Yields good f s Q)
    (neg : ¬c → Yields good f' s Q) : Yields good (if c then f else f') s Q := by
  split
  · exact pos ‹_›
  · exact neg ‹_›

theorem and {R : α → σ → Prop} (hQ : Yields good f s Q) (hR : Yields good f s R) :
    Yields good f s fun a s' => Q a s' ∧ R a s' :=
  fun hgood a ret => ⟨hQ hgood a ret, hR hgood a ret⟩

end Yields

/-! ### Frames with a result -/

/-- **A frame with a result**: however a run ends, its first and its last state are
related, and what it returns has a property. -/
def FramesWith (R : σ → σ → Prop) (f : Prog σ α) (Q : α → Prop) : Prop :=
  ∀ s, Keeps (R s) f s fun a _ => Q a

namespace FramesWith

variable {R : σ → σ → Prop} {f : Prog σ α} {k : α → Prog σ β} {Q : α → Prop}

theorem of_frames (frame : Frames R f) (h : ∀ a, Q a) : FramesWith R f Q :=
  fun s => ⟨frame s, fun a _ => h a⟩

theorem pure (refl : ∀ s, R s s) {a : α} (h : Q a) : FramesWith R (pure a : Prog σ α) Q :=
  fun s => .pure (refl s) h

theorem weaken {Q' : α → Prop} (h : FramesWith R f Q) (imp : ∀ a, Q a → Q' a) :
    FramesWith R f Q' := fun s => (h s).weaken fun a _ => imp a

theorem bind {Q' : β → Prop} (trans : ∀ s s' s'', R s s' → R s' s'' → R s s'')
    (first : FramesWith R f Q) (rest : ∀ a, Q a → FramesWith R (k a) Q') :
    FramesWith R (f >>= k) Q' := by
  intro s
  have frame := (first s).1
  refine Keeps.bind (Q := fun a s' => Q a ∧ R s s') ⟨frame, fun a ret => ⟨(first s).2 a ret, frame⟩⟩
    fun a s' h => ?_
  exact (rest a h.1 s').mono fun s'' => trans s s' s'' h.2

theorem ite {c : Prop} [Decidable c] {f' : Prog σ α} (pos : c → FramesWith R f Q)
    (neg : ¬c → FramesWith R f' Q) : FramesWith R (if c then f else f') Q :=
  fun s => .ite (fun h => pos h s) fun h => neg h s

end FramesWith

/-! ### What a run leads to -/

/-- However a run ends, a condition holds then.  If moving forward keeps the condition, it
is enough that it holds at some point of the run. -/
def Leads (P : σ → Prop) (f : Prog σ α) (s : σ) : Prop := P (f.run s).2

namespace Leads

variable {P : σ → Prop} {f : Prog σ α} {k : α → Prog σ β} {s : σ} {Q : α → σ → Prop}

theorem first (up : ∀ s s', s ≤ s' → P s → P s') (h : Leads P f s) : Leads P (f >>= k) s := by
  rw [Leads] at h ⊢
  rw [run_bind]
  rcases hf : f.run s with ⟨_ | a, s'⟩
  · rw [hf] at h
    exact h
  · rw [hf] at h
    exact up _ _ ((k a).le_run s') h

theorem bind (returns : Returns f s Q) (rest : ∀ a s', Q a s' → Leads P (k a) s') :
    Leads P (f >>= k) s := by
  obtain ⟨a, ret, post⟩ := returns
  rw [Leads, run_bind_of_some ret]
  exact rest a _ post

end Leads

/-! ### Costs -/

/-- **A bound on a cost**: however a run ends, a measure of the state has grown by at most
`n`, and what it returns has a property. -/
def Spends (size : σ → ℕ) (n : ℕ) (f : Prog σ α) (Q : α → Prop) : Prop :=
  ∀ s, Keeps (fun s' => size s' ≤ size s + n) f s fun a _ => Q a

namespace Spends

variable {size : σ → ℕ} {n m : ℕ} {f : Prog σ α} {k : α → Prog σ β} {Q : α → Prop}

theorem pure {a : α} (h : Q a) : Spends size n (pure a) Q :=
  fun _ => .pure (Nat.le_add_right _ _) h

theorem hang : Spends size n (hang : Prog σ α) Q := fun _ => .hang (Nat.le_add_right _ _)

theorem read {f : σ → α} (h : ∀ s, Q (f s)) : Spends size n (Prog.read f) Q :=
  fun s => .read (Nat.le_add_right _ _) (h s)

theorem find {f : σ → Option α} (h : ∀ s a, f s = some a → Q a) :
    Spends size n (Prog.find f) Q := fun s => .find (Nat.le_add_right _ _) (h s)

theorem update {f : σ → α × σ} {forward : ∀ s, s ≤ (f s).2}
    (cost : ∀ s, size (f s).2 ≤ size s + n) (h : ∀ s, Q (f s).1) :
    Spends size n (Prog.update f forward) Q := fun s => .update (cost s) (h s)

/-- Costs add up along a composition. -/
theorem bind {R : β → Prop} (first : Spends size n f Q)
    (rest : ∀ a, Q a → Spends size m (k a) R) : Spends size (n + m) (f >>= k) R := by
  intro s
  have cost := (first s).1
  refine ⟨?_, fun b ret => ?_⟩
  · rw [run_bind]
    rcases hf : f.run s with ⟨_ | a, s'⟩
    · rw [hf] at cost
      exact cost.trans (by omega)
    · rw [hf] at cost
      have post : Q a := (first s).2 a (by rw [hf])
      have second := (rest a post s').1
      change size s' ≤ size s + n at cost
      exact second.trans (by omega)
  · obtain ⟨a, ret₁, ret₂, -⟩ := run_bind_eq_some ret
    exact (rest a ((first s).2 a ret₁) _).2 b ret₂

theorem ite {c : Prop} [Decidable c] {f' : Prog σ α} (pos : c → Spends size n f Q)
    (neg : ¬c → Spends size n f' Q) : Spends size n (if c then f else f') Q :=
  fun s => .ite (fun h => pos h s) fun h => neg h s

theorem weaken {R : α → Prop} (h : Spends size n f Q) (le : n ≤ m) (imp : ∀ a, Q a → R a) :
    Spends size m f R := fun s =>
  ((h s).mono fun _ cost => cost.trans (Nat.add_le_add_left le _)).weaken fun a _ => imp a

theorem mono (h : Spends size n f Q) (le : n ≤ m) : Spends size m f Q :=
  h.weaken le fun _ => id

end Spends

end Prog
