import CuckooTrie.Bookkeeping

/-!
# The two climbs of an insert

The ancestors of a new greatest leaf are visited twice: `upgrade_locks_on_left_parents_above`
locks them before anything is written, and `propagate_max_leaf` enters the leaf into them
afterwards.  The loops stop at different tests.  Each of them is a loop over the list of the
ancestors it visits (`lockLeftParents_eq`, `propagateMaxLeaf_eq`), and on a path on which no
child comes after the greatest child of its bitmap the two lists are equal (`climb_eq`).
-/

namespace CuckooTrie

variable {g : Geometry} {s s' : Sys g} {others : ℕ → Bool}

/-! ## The ancestors a climb visits -/

/-- The ancestors a loop visits on its way up, if `goesOn` is its test whether to go on from
a child with a last symbol to the parent. -/
def climb (goesOn : ℕ → Entry → Bool) : ℕ → List PathEntry → List PathEntry
  | _, [] => []
  | symbol, parent :: above =>
    if goesOn symbol parent.entry.value then
      parent :: climb goesOn parent.entry.value.lastSymbol above
    else []

/-- The test of `upgrade_locks_on_left_parents_above`. -/
def locksOn (backtrackSymbol : ℕ) (parent : Entry) : Bool :=
  parent.body.isJump || decide (backtrackSymbol = parent.body.maxChild)

/-- The test of `propagate_max_leaf`. -/
def writesOn (lastSymbol : ℕ) (parent : Entry) : Bool :=
  !(parent.body.isBitmap && decide (lastSymbol < parent.body.maxChild))

/-- The symbol a climb compares next, after it has visited some ancestors. -/
def climbedSymbol (symbol : ℕ) (visited : List PathEntry) : ℕ :=
  (visited.map fun e => e.entry.value.lastSymbol).getLastD symbol

theorem climbedSymbol_cons (symbol : ℕ) (e : PathEntry) (visited : List PathEntry) :
    climbedSymbol symbol (e :: visited) = climbedSymbol e.entry.value.lastSymbol visited := by
  cases visited <;> rfl

/-- **What a climb visits**: it goes on up to the first ancestor that fails the test. -/
theorem climb_stops (goesOn : ℕ → Entry → Bool) (symbol : ℕ) (path : List PathEntry) :
    ∃ rest, path = climb goesOn symbol path ++ rest ∧
      (∀ below parent above, climb goesOn symbol path = below ++ parent :: above →
        goesOn (climbedSymbol symbol below) parent.entry.value = true) ∧
      ∀ top ∈ rest.head?,
        goesOn (climbedSymbol symbol (climb goesOn symbol path)) top.entry.value = false := by
  induction path generalizing symbol with
  | nil => exact ⟨[], rfl, fun below _ _ h => by simp [climb] at h, nofun⟩
  | cons parent path ih =>
    rw [climb]
    by_cases test : goesOn symbol parent.entry.value = true
    · rw [if_pos test]
      obtain ⟨rest, split, goes, stops⟩ := ih parent.entry.value.lastSymbol
      refine ⟨rest, congrArg (parent :: ·) split, fun below parent' above h => ?_, ?_⟩
      · cases below with
        | nil =>
          cases h
          exact test
        | cons e below =>
          obtain ⟨rfl, tail⟩ := List.cons_eq_cons.mp h
          rw [climbedSymbol_cons]
          exact goes below parent' above tail
      · rw [climbedSymbol_cons]
        exact stops
    · rw [if_neg test]
      refine ⟨parent :: path, rfl, fun below _ _ h => by simp at h, fun top h => ?_⟩
      cases h
      exact Bool.eq_false_iff.mpr test

/-- A path on which no child comes after the greatest child of its bitmap. -/
def Ascends : ℕ → List PathEntry → Prop
  | _, [] => True
  | symbol, parent :: above =>
    (parent.entry.value.body.isJump = true ∨ parent.entry.value.body.isBitmap = true ∧
      symbol ≤ parent.entry.value.body.maxChild) ∧ Ascends parent.entry.value.lastSymbol above

theorem locksOn_eq_writesOn {symbol : ℕ} {parent : Entry}
    (between : parent.body.isJump = true ∨ parent.body.isBitmap = true ∧
      symbol ≤ parent.body.maxChild) : locksOn symbol parent = writesOn symbol parent := by
  rw [locksOn, writesOn]
  cases body : parent.body with
  | bitmap bits maxChild maxLeaf =>
    rw [body] at between
    have le : symbol ≤ maxChild := by simpa [Body.isJump, Body.isBitmap, Body.maxChild] using between
    rcases le.lt_or_eq with lt | rfl
    · simp [Body.isJump, Body.isBitmap, Body.maxChild, lt, lt.ne]
    · simp [Body.isJump, Body.isBitmap, Body.maxChild]
  | jump bits childColor maxLeaf => simp [Body.isJump, Body.isBitmap]
  | _ => simp [body, Body.isJump, Body.isBitmap] at between

/-- **Both climbs visit the same ancestors.** -/
theorem climb_eq {symbol : ℕ} {path : List PathEntry} (ascends : Ascends symbol path) :
    climb locksOn symbol path = climb writesOn symbol path := by
  induction path generalizing symbol with
  | nil => rfl
  | cons parent path ih =>
    rw [climb, climb, locksOn_eq_writesOn ascends.1, ih ascends.2]

/-! ## The climb that locks -/

/-- Lock the entries of a list, the lowest one first; on a failure the locks taken so far
are released. -/
def lockAll : List Loc → List PathEntry → M g InternalStatus
  | _, [] => pure .ok
  | locked, e :: above => do
    match ← upgradeLock e.entry with
    | .ok => lockAll (e.entry.lastPos :: locked) above
    | ret =>
      locked.forM writeUnlock
      pure ret

/-- **`upgrade_locks_on_left_parents_above`** locks the ancestors it visits. -/
theorem lockLeftParents_eq (locked : List Loc) (child : PathEntry) (path : List PathEntry) :
    (lockLeftParents locked (child :: path) : M g InternalStatus) =
      lockAll locked (climb locksOn child.entry.value.lastSymbol path) := by
  induction path generalizing locked child with
  | nil => rfl
  | cons parent path ih =>
    rw [lockLeftParents, climb]
    by_cases goes : locksOn child.entry.value.lastSymbol parent.entry.value = true
    · rw [if_pos goes, if_neg (by simpa [locksOn, or_iff_not_imp_left] using goes), lockAll]
      refine congrArg _ (funext fun ret => ?_)
      cases ret with
      | ok => exact ih _ parent
      | _ => rfl
    · rw [if_neg goes, if_pos (by simpa [locksOn] using goes)]
      rfl

/-- **The locks of the climb**: those of the whole list, or, after a failure, those that were
held before. -/
theorem Kept.lockAll {H : Multiset ℕ} {entries : Multiset Loc} {locked : List Loc}
    {path : List PathEntry} (kept : Kept others ⟨H, ↑locked + entries⟩ s) :
    Books others (lockAll locked path) s fun ret s' =>
      ret = .ok ∧ Kept others ⟨H, ↑(path.map fun e => e.entry.lastPos) + (↑locked + entries)⟩ s' ∨
        ret = .retry ∧ Kept others ⟨H, entries⟩ s' := by
  induction path generalizing s locked with
  | nil => exact .pure kept.past (Or.inl ⟨rfl, by simpa using kept⟩)
  | cons e path ih =>
    rw [CuckooTrie.lockAll]
    refine (kept.upgradeLock e.entry).bind ?_
    rintro ret s₁ (⟨rfl, kept⟩ | ⟨rfl, kept⟩)
    · have held : Kept others ⟨H, ↑(e.entry.lastPos :: locked) + entries⟩ s₁ := by
        rw [← Multiset.cons_coe, Multiset.cons_add]
        exact kept
      refine (ih held).weaken fun ret s₂ h => h.imp_left fun ⟨ok, kept⟩ => ⟨ok, ?_⟩
      rw [List.map_cons, ← Multiset.cons_coe, Multiset.cons_add]
      rw [← Multiset.cons_coe, Multiset.cons_add, Multiset.add_cons] at kept
      exact kept
    · refine kept.writeUnlocks.bind fun _ s₂ kept => ?_
      exact .pure kept.past (Or.inr ⟨rfl, kept⟩)

/-! ## The climb that writes -/

/-- Enter the greatest leaf of an entry into the entries of a list. -/
def updateMaxLeaves : LocalCopy → List PathEntry → M g Unit
  | _, [] => pure ()
  | child, parent :: above => do
    let newParent ← updateEntry parent.entry
      { parent.entry.value with
        body := parent.entry.value.body.setMaxLeaf child.value.body.maxLeaf }
    updateMaxLeaves newParent above

/-- The copy an update returns has the value that was written, up to its bucket. -/
theorem updateEntry_value (lc : LocalCopy) (v : Entry) (s : Sys g) :
    (updateEntry lc v).Keeps (fun _ => True) s fun lc' _ =>
      ∃ secondary, lc'.value = { v with secondary := secondary } := by
  rw [updateEntry]
  refine Prog.Keeps.bind (Q := fun _ _ => True) (.read trivial trivial) fun t s₁ _ => ?_
  refine .ite (fun _ => ?_) fun _ => ?_
  · refine Prog.Keeps.bind (Q := fun _ _ => True) (.update trivial trivial) fun _ s₂ _ => ?_
    refine Prog.Keeps.bind (Q := fun _ _ => True) (.read trivial trivial) fun t s₃ _ => ?_
    exact .pure trivial ⟨v.secondary, rfl⟩
  · refine Prog.Keeps.bind (Q := fun _ _ => True) (.update trivial trivial) fun _ s₂ _ => ?_
    refine Prog.Keeps.bind (Q := fun _ _ => True) (.find trivial fun _ _ => trivial)
      fun cur s₃ _ => ?_
    refine Prog.Keeps.bind (Q := fun _ _ => True) (.update trivial trivial) fun _ s₄ _ => ?_
    refine Prog.Keeps.bind (Q := fun _ _ => True) (.read trivial trivial) fun t s₅ _ => ?_
    exact .pure trivial ⟨cur.value.secondary, rfl⟩

/-- **`propagate_max_leaf`** writes the ancestors it visits. -/
theorem propagateMaxLeaf_eq (child : LocalCopy) (path : List PathEntry) :
    (propagateMaxLeaf child path : M g Unit) =
      updateMaxLeaves child (climb writesOn child.value.lastSymbol path) := by
  induction path generalizing child with
  | nil => rfl
  | cons parent path ih =>
    rw [propagateMaxLeaf, climb]
    by_cases goes : writesOn child.value.lastSymbol parent.entry.value = true
    · rw [if_pos goes, if_neg (by simpa [writesOn, or_iff_not_imp_left] using goes), updateMaxLeaves]
      refine Prog.bind_congr fun s newParent ret => ?_
      obtain ⟨secondary, value⟩ := (updateEntry_value _ _ s).2 newParent ret
      rw [ih newParent, value]
    · rw [if_neg goes, if_pos (by simpa [writesOn] using goes)]
      rfl

end CuckooTrie
