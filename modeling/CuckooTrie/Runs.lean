import CuckooTrie.Prog

/-!
# Labelled runs

A small library for step relations whose steps carry labels.  A `Run` lists the labels of its
steps; `Run.invariant` is the induction over a run.  A client that makes one call after the other
is a program (`Prog.each`), and if every call simulates a step of an abstract relation, then the
client simulates a run of it (`Prog.Ensures.each`): the calls and their answers are the labels.
-/

universe u

variable {σ τ ℓ : Type u}

/-- Runs of a step relation, with the labels of the steps. -/
inductive Run (step : σ → ℓ → σ → Prop) : σ → List ℓ → σ → Prop
  | nil (s : σ) : Run step s [] s
  | cons {s s' s'' : σ} {l : ℓ} {ls : List ℓ} : step s l s' → Run step s' ls s'' →
      Run step s (l :: ls) s''

namespace Run

variable {step : σ → ℓ → σ → Prop} {s s' s'' : σ} {l : ℓ} {ls ls' : List ℓ}

theorem append (run : Run step s ls s') (run' : Run step s' ls' s'') :
    Run step s (ls ++ ls') s'' := by
  induction run with
  | nil s => exact run'
  | cons first _ ih => exact .cons first (ih run')

theorem exists_of_append (run : Run step s (ls ++ ls') s'') :
    ∃ s', Run step s ls s' ∧ Run step s' ls' s'' := by
  induction ls generalizing s with
  | nil => exact ⟨s, .nil s, run⟩
  | cons l ls ih =>
    cases run with
    | cons first rest =>
      obtain ⟨s', run, run'⟩ := ih rest
      exact ⟨s', .cons first run, run'⟩

/-- **Invariants.**  What every step keeps holds at the end of every run. -/
theorem invariant {I : σ → Prop} (run : Run step s ls s')
    (keeps : ∀ s l s', l ∈ ls → step s l s' → I s → I s') (init : I s) : I s' := by
  induction run with
  | nil s => exact init
  | cons first _ ih =>
    exact ih (fun s l s' mem => keeps s l s' (List.mem_cons_of_mem _ mem))
      (keeps _ _ _ List.mem_cons_self first init)

end Run

namespace Prog

variable {ι α : Type u} [Preorder σ]

/-- A client: one call after the other, up to one with a last answer.  The client carries data of
its own from call to call. -/
def each (call : ι → τ → Prog σ (α × τ)) (last : α → Bool) :
    List ι → τ → Prog σ (List α × τ)
  | [], t => pure ([], t)
  | i :: calls, t => do
    let (a, t) ← call i t
    if last a then pure ([a], t)
    else
      let (answers, t) ← each call last calls t
      pure (a :: answers, t)

/-- **Simulation.**  If each call simulates a step of an abstract relation, then a client
simulates a run of it. -/
theorem Ensures.each {A : Type u} {good : σ → Prop} {call : ι → τ → Prog σ (α × τ)} {last : α → Bool}
    {step : A → ι × α → A → Prop} {R F : σ → τ → A → Prop}
    (down : ∀ s s', s ≤ s' → good s' → good s)
    (simulates : ∀ s t a i, R s t a → (call i t).Ensures good s fun r s' =>
      ∃ a', step a (i, r.1) a' ∧ (last r.1 = true → F s' r.2 a') ∧ (last r.1 = false → R s' r.2 a'))
    (calls : List ι) {s : σ} {t : τ} {a : A} (related : R s t a) :
    (Prog.each call last calls t).Ensures good s fun r s' =>
      ∃ a', Run step a (calls.zip r.1) a' ∧
        ((∀ x ∈ r.1, last x = false) ∧ r.1.length = calls.length ∧ R s' r.2 a' ∨
          (∃ x ∈ r.1.getLast?, last x = true) ∧ F s' r.2 a') := by
  induction calls generalizing s t a with
  | nil => exact .pure ⟨a, .nil a, Or.inl ⟨fun x mem => absurd mem List.not_mem_nil, rfl, related⟩⟩
  | cons i calls ih =>
    rw [Prog.each]
    refine (simulates s t a i related).bind down fun r s₁ _ _ post => ?_
    obtain ⟨x, t₁⟩ := r
    obtain ⟨a₁, first, done, goes⟩ := post
    refine .ite (fun isLast => ?_) fun notLast => ?_
    · have labels : (i :: calls).zip [x] = [(i, x)] := by
        rw [List.zip_cons_cons, List.zip_nil_right]
      have run : Run step a ((i :: calls).zip [x]) a₁ := labels ▸ .cons first (.nil a₁)
      exact .pure ⟨a₁, run, Or.inr ⟨⟨x, rfl, isLast⟩, done isLast⟩⟩
    · have notLast : last x = false := Bool.eq_false_iff.mpr notLast
      refine (ih (goes notLast)).bind down fun r s₂ _ _ post => ?_
      obtain ⟨answers, t₂⟩ := r
      obtain ⟨a₂, run, ended⟩ := post
      refine .pure ⟨a₂, .cons first run, ?_⟩
      obtain ⟨none_, length, rel⟩ | ⟨⟨y, hy, isLast⟩, final⟩ := ended
      · refine Or.inl ⟨fun y mem => ?_, congrArg Nat.succ length, rel⟩
        obtain rfl | mem := List.mem_cons.mp mem
        · exact notLast
        · exact none_ y mem
      · refine Or.inr ⟨⟨y, ?_, isLast⟩, final⟩
        cases answers with
        | nil => cases hy
        | cons z zs => exact hy

end Prog
