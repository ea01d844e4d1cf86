import CuckooTrie.Combs
import CuckooTrie.InsertRuns
import CuckooTrie.StoreCounts

/-!
# Inserting as one step

An attempt to insert an object is atomic: whatever the other threads refuse, it leaves a
well-formed trie, for the map with the object or for the map as it was, unless the table is full
(`insert_attempt_atomic`).  Without other threads at most two attempts are needed, since the
first one can only fail by splitting a jump node (`ct_insert_refines`); each refusal of another
thread costs at most two more (`insert_among_refusals`), or one more for an update
(`update_among_refusals`).

The condition on the runs is that no cell was moved by a relocation between the saving of its
address and its use (`Sys.Kept`), and, for calls that repeat an attempt, that `add_entry` did not
write the bucket it checks (`SelfDefeated`).
-/

namespace CuckooTrie

open Sys

variable {g : Geometry} {maps : Set KeyMap} {base : ℕ → ℕ} {s s' s'' : Sys g} {t : Trie g}
  {L K : Layout} {M : KeyMap} {S : Store} {kv : CtKv} {isUpsert : Bool} {ret : InternalStatus}

/-! ## How an attempt ends -/

/-- The memory an insert leaves when the table is full: a trie for a map with right links, and
perhaps entries that belong to no node. -/
def Overflowed (t : Trie g) (M : KeyMap) : Prop :=
  ∃ (S : Store) (L : Layout), t.Stores S none ∧ L.Represents g S M ∧ L.Linked g M ∧
    ∀ b, t.writeLock b = false

/-- A jump node was split between two memories of a trie for one map: now the path of the key
ends in a bitmap. -/
def SplitsJump (t t' : Trie g) (M : KeyMap) (kv : CtKv) : Prop :=
  ∃ L K : Layout, L.Readable t M ∧ K.Readable t' M ∧
    (∀ q children symbol, ¬ L.Misses q children symbol kv) ∧
    ∃ q children symbol, K.Misses q children symbol kv

/-- How an attempt to insert an object ends, by the memory it leaves. -/
inductive Outcome (M : KeyMap) (kv : CtKv) (isUpsert : Bool) (s s' : Sys g) :
    InternalStatus → Prop
  | ok : M.find kv.key = none → WellFormed s'.trie (M.insert kv) →
      Outcome M kv isUpsert s s' .ok
  | exist {old : CtKv} : M.find kv.key = some old →
      WellFormed s'.trie (if isUpsert then M.insert kv else M) → Outcome M kv isUpsert s s' .exist
  | retry : WellFormed s'.trie M → Obstructed s s' ∨ SplitsJump s.trie s'.trie M kv →
      Outcome M kv isUpsert s s' .retry
  | fail : M.find kv.key = none → Overflowed s'.trie M → Outcome M kv isUpsert s s' .fail

theorem Sys.Littered.overflowed (littered : s.Littered maps base L M) (unlocked : s.Unlocked) :
    Overflowed s.trie M := by
  obtain ⟨S, sound, rep⟩ := littered.represents
  exact ⟨S, L, sound.stores, rep, littered.linked, unlocked⟩

theorem Sys.Carries.past (carries : s.Carries maps base L M) : s.Past (Stands g maps) := by
  obtain ⟨S, sound, -⟩ := carries.represents
  exact sound.past

/-- No lock is left after a call that gives up all its references. -/
theorem Counted.unlocked (counted : Counted (fun _ => false) ⊤ 0 0 s) : s.Unlocked := fun b =>
  congrFun counted.held.kept_none.idle.bytes b

theorem Attempt.past (attempt : Attempt maps base L M kv isUpsert s s' ret) :
    s'.Past (Stands g maps) := by
  cases attempt with
  | ok _ whole _ => exact whole.past
  | exist _ whole _ => exact whole.past
  | obstructed whole _ _ => exact whole.past
  | split whole _ _ _ => exact whole.past
  | fail _ littered => exact littered.past

theorem Attempt.outcome (attempt : Attempt maps base L M kv isUpsert s s' ret)
    (readable : L.Readable s.trie M) (unlocked : s'.Unlocked) :
    Outcome M kv isUpsert s s' ret := by
  cases attempt with
  | ok new whole _ => exact .ok new (whole.wellFormed unlocked)
  | exist found whole _ => exact .exist found (whole.wellFormed unlocked)
  | obstructed whole _ reason => exact .retry (whole.wellFormed unlocked) (Or.inl reason)
  | split whole _ before misses =>
    exact .retry (whole.wellFormed unlocked)
      (Or.inr ⟨_, _, readable, whole.readable, before, _, _, _, misses⟩)
  | fail new littered => exact .fail new (littered.overflowed unlocked)

/-! ## One attempt -/

/-- The sequences do not run through their whole range in an attempt, so nothing is asked of a
run but that it keeps the cells whose addresses it saved. -/
theorem ctInsertInternal_kept (rests : s.Rests maps base L M)
    (allowed : M.kvs = [] → s.env s.checks = true) (size : kv.key.length ≤ maxKeyBytes)
    (mem : M.insert kv ∈ maps) :
    (ctInsertInternal kv isUpsert).Ensures Sys.Kept s fun ret s' =>
      Attempt maps s.trie.seq L M kv isUpsert s s' ret ∧ Counted (fun _ => false) ⊤ 0 0 s' := by
  intro kept
  exact ctInsertInternal_spec rests.rebase allowed mem ⟨.ctInsertInternal size isUpsert s, kept⟩

/-- The state a call starts in holds no earlier memories. -/
theorem Sys.init_past (t : Trie g) (env : ℕ → Bool) : (Sys.init t env).Past (Stands g maps) :=
  fun _ mem => absurd mem List.not_mem_nil

/-- The state a call starts in. -/
theorem WellFormed.rests (wf : WellFormed t M) (env : ℕ → Bool) (mem : M ∈ maps) :
    ∃ L, (Sys.init t env).Rests maps t.seq L M := by
  obtain ⟨unlocked, L, whole⟩ :=
    WellFormed.whole (s := Sys.init t env) wf (Sys.init_past t env) mem
  have bytes : t.writeLock = fun _ => false := funext unlocked
  have counted := Counted.of_idle (N := ⊤) (Sys.init_bookkept t env) (Sys.init_idle t env)
    (fun _ _ => Or.inl le_top) fun limited => absurd rfl limited
  rw [bytes] at counted
  exact ⟨L, whole, counted⟩

/-- The writer did not get into its own way: it kept the cells whose addresses it saved, and no
relocation for an entry went through the other bucket of the entry's pair. -/
def Sys.Undisturbed (s : Sys g) : Prop := s.Kept ∧ ¬ SelfDefeated g s.relocations

/-- A run on fixed inputs can be tested for it. -/
instance Sys.decidableUndisturbed (s : Sys g) : Decidable s.Undisturbed :=
  inferInstanceAs (Decidable ((∀ w ∈ s.savedWrites, ∀ r ∈ w.relocations, w.loc ∉ r.sources) ∧
    ¬ ((¬ ∀ tag < 16, g.bucketMixTable tag ≠ 0) ∨
      ∃ r ∈ s.relocations, r.secondaryBucket ∈ r.sources.map (·.bucket))))

theorem Sys.Undisturbed.down (s s' : Sys g) (le : s ≤ s') (undisturbed : s'.Undisturbed) :
    s.Undisturbed :=
  ⟨undisturbed.1.down le, fun defeated =>
    undisturbed.2 (defeated.mono le.relocations.subset)⟩

/-- Only the other threads obstruct it. -/
theorem Sys.Undisturbed.denied (undisturbed : s'.Undisturbed) (obstructed : Obstructed s s') :
    Denied s s' :=
  obstructed.resolve_right fun defeated =>
    undisturbed.2 (defeated.mono fun _ mem => List.mem_of_mem_take mem)

/-- The others refuse no check but these from now on. -/
def Sys.Refuses (s : Sys g) (R : Finset ℕ) : Prop := ∀ i, s.checks ≤ i → s.env i = false → i ∈ R

/-- Nobody refuses anything to a lone writer. -/
theorem Sys.Refuses.of_alone (lone : s.env = alone) : s.Refuses ∅ := fun i _ refused => by
  rw [lone] at refused
  cases refused

/-- A refusal is used up. -/
theorem Sys.Refuses.denied {R : Finset ℕ} (refuses : s.Refuses R) (le : s ≤ s')
    (denied : Denied s s') : ∃ R', R' ⊂ R ∧ s'.Refuses R' := by
  obtain ⟨i, now, before, refused⟩ := denied
  refine ⟨R.erase i, Finset.erase_ssubset (refuses i now refused), fun j later refused' => ?_⟩
  refine Finset.mem_erase.mpr ⟨?_, refuses j (le.checks.trans later) (le.env ▸ refused')⟩
  rintro rfl
  exact absurd before (not_lt.mpr later)

/-- How the loop of an insert ends: at rest, or on a full table. -/
inductive Settles (maps : Set KeyMap) (L : Layout) (M : KeyMap) (kv : CtKv) (isUpsert : Bool)
    (s' : Sys g) : InternalStatus → Prop
  | ok {base : ℕ → ℕ} {K : Layout} : M.find kv.key = none → s'.Rests maps base K (M.insert kv) →
      L.Stays K → Settles maps L M kv isUpsert s' .ok
  | exist {base : ℕ → ℕ} {K : Layout} {old : CtKv} : M.find kv.key = some old →
      s'.Rests maps base K (if isUpsert then M.insert kv else M) → L.Stays K →
      Settles maps L M kv isUpsert s' .exist
  | fail {base : ℕ → ℕ} {K : Layout} : M.find kv.key = none → s'.Littered maps base K M →
      s'.Unlocked → Settles maps L M kv isUpsert s' .fail

/-- Nodes also stay over an attempt before the last one. -/
theorem Settles.after (settles : Settles maps K M kv isUpsert s' ret) (stays : L.Stays K) :
    Settles maps L M kv isUpsert s' ret := by
  cases settles with
  | ok new rests stays' => exact .ok new rests (stays.trans stays')
  | exist found rests stays' => exact .exist found rests (stays.trans stays')
  | fail new littered unlocked => exact .fail new littered unlocked

/-- An attempt ends the loop, or it leaves the table at rest: it was obstructed, or it split a
jump node. -/
theorem Attempt.settles (attempt : Attempt maps base L M kv isUpsert s s' ret)
    (counted : Counted (fun _ => false) ⊤ 0 0 s') :
    ret ≠ .retry ∧ Settles maps L M kv isUpsert s' ret ∨
      ret = .retry ∧ ∃ K, s'.Rests maps base K M ∧ L.Stays K ∧
        (Obstructed s s' ∨ (∀ q children symbol, ¬ L.Misses q children symbol kv) ∧
          ∃ q children symbol, K.Misses q children symbol kv) := by
  cases attempt with
  | ok new whole stays => exact Or.inl ⟨by simp, .ok new ⟨whole, counted⟩ stays⟩
  | exist found whole stays => exact Or.inl ⟨by simp, .exist found ⟨whole, counted⟩ stays⟩
  | fail new littered => exact Or.inl ⟨by simp, .fail new littered counted.unlocked⟩
  | obstructed whole stays reason =>
    exact Or.inr ⟨rfl, _, ⟨whole, counted⟩, stays, Or.inl reason⟩
  | split whole stays before misses =>
    exact Or.inr ⟨rfl, _, ⟨whole, counted⟩, stays, Or.inr ⟨before, _, _, _, misses⟩⟩

/-- One round of the loop. -/
theorem insertLoop_round {Q : InternalStatus → Sys g → Prop} {fuel : ℕ}
    (attempt : (ctInsertInternal kv isUpsert).Ensures Sys.Undisturbed s fun ret s' =>
      ret ≠ .retry ∧ Q ret s' ∨
        ret = .retry ∧ (insertLoop kv isUpsert fuel).Ensures Sys.Undisturbed s' Q) :
    (insertLoop kv isUpsert (fuel + 1)).Ensures Sys.Undisturbed s Q := by
  rw [insertLoop]
  refine attempt.bind Sys.Undisturbed.down fun ret s₁ _ _ post => ?_
  obtain ⟨ended, done⟩ | ⟨rfl, rest⟩ := post
  · cases ret with
    | retry => exact absurd rfl ended
    | ok => exact .pure done
    | exist => exact .pure done
    | fail => exact .pure done
  · exact rest

/-- Of two attempts one ends the loop or is denied a check. -/
theorem insertLoop_step {fuel : ℕ} (rests : s.Rests maps base L M)
    (granted : M.kvs = [] → s.env = alone) (size : kv.key.length ≤ maxKeyBytes)
    (mem : M.insert kv ∈ maps)
    (again : ∀ (s₁ : Sys g) (base₁ : ℕ → ℕ) (K : Layout) (fuel₁ : ℕ), s ≤ s₁ → Denied s s₁ →
      s₁.Rests maps base₁ K M → fuel ≤ fuel₁ →
      (insertLoop kv isUpsert fuel₁).Ensures Sys.Undisturbed s₁ fun ret s' =>
        Settles maps K M kv isUpsert s' ret) :
    (insertLoop kv isUpsert (fuel + 2)).Ensures Sys.Undisturbed s fun ret s' =>
      Settles maps L M kv isUpsert s' ret := by
  have attempt : ∀ {s : Sys g} {base L}, s.Rests maps base L M → (M.kvs = [] → s.env = alone) →
      (ctInsertInternal kv isUpsert).Ensures Sys.Undisturbed s fun ret s' =>
        Attempt maps s.trie.seq L M kv isUpsert s s' ret ∧
          Counted (fun _ => false) ⊤ 0 0 s' := fun rests granted good =>
    ctInsertInternal_kept rests (fun empty => by rw [granted empty]; rfl) size mem good.1
  refine insertLoop_round ((attempt rests granted).weaken fun ret s₁ le₁ good₁ post => ?_)
  obtain done | ⟨retry, K, rests₁, stays, reason⟩ := post.1.settles post.2
  · exact Or.inl done
  refine Or.inr ⟨retry, ?_⟩
  obtain obstructed | ⟨-, q, children, symbol, misses⟩ := reason
  · exact (again s₁ _ K (fuel + 1) le₁ (good₁.denied obstructed) rests₁ (Nat.le_succ fuel)).mono
      fun ret s' settles => settles.after stays
  -- the key leaves the trie in a bitmap now, so that the second attempt splits no jump node
  have granted₁ : M.kvs = [] → s₁.env = alone := fun empty => le₁.env.trans (granted empty)
  refine insertLoop_round ((attempt rests₁ granted₁).weaken fun ret s₂ le₂ good₂ post => ?_)
  obtain ⟨ended, settles⟩ | ⟨retry, K₂, rests₂, stays₂, reason⟩ := post.1.settles post.2
  · exact Or.inl ⟨ended, settles.after stays⟩
  obtain obstructed | ⟨before, -⟩ := reason
  · have denied := (good₂.denied obstructed).mono_left le₁
    exact Or.inr ⟨retry, (again s₂ _ K₂ fuel (le₁.trans le₂) denied rests₂ le_rfl).mono
      fun ret s' settles => settles.after (stays.trans stays₂)⟩
  · exact absurd misses (before _ _ _)

/-- **The loop of `ct_insert` and `ct_upsert`** ends after at most two attempts, and two more for
each check the others refuse. -/
theorem insertLoop_spec (R : Finset ℕ) {fuel : ℕ} (rests : s.Rests maps base L M)
    (granted : M.kvs = [] → s.env = alone) (refuses : s.Refuses R)
    (size : kv.key.length ≤ maxKeyBytes) (mem : M.insert kv ∈ maps)
    (enough : 2 * R.card + 2 ≤ fuel) :
    (insertLoop kv isUpsert fuel).Ensures Sys.Undisturbed s fun ret s' =>
      Settles maps L M kv isUpsert s' ret := by
  induction R using Finset.strongInduction generalizing s base L fuel with
  | H R ih =>
    obtain ⟨rounds, rfl⟩ : ∃ rounds, fuel = rounds + 2 := ⟨fuel - 2, by omega⟩
    refine insertLoop_step rests granted size mem fun s₁ base₁ K fuel₁ le denied rests₁ more => ?_
    obtain ⟨R', smaller, refuses'⟩ := refuses.denied le denied
    have fewer := Finset.card_lt_card smaller
    exact ih R' smaller rests₁ (fun empty => le.env.trans (granted empty)) refuses' (by omega)

/-- A lone writer makes at most two attempts. -/
theorem insertLoop_alone (rests : s.Rests maps base L M) (lone : s.env = alone)
    (size : kv.key.length ≤ maxKeyBytes) (mem : M.insert kv ∈ maps) (fuel : ℕ) :
    (insertLoop kv isUpsert (fuel + 2)).Ensures Sys.Undisturbed s fun ret s' =>
      Settles maps L M kv isUpsert s' ret :=
  insertLoop_spec ∅ rests (fun _ => lone) (.of_alone lone) size mem (by simp)

/-! ## Updates until one succeeds -/

/-- A program that writes through no saved address. -/
abbrev SavesNothing {α : Type} (f : CuckooTrie.M g α) : Prop :=
  f.Frames fun s s' => s'.savedWrites = s.savedWrites

namespace SavesNothing

variable {α β : Type} {f : CuckooTrie.M g α} {k : α → CuckooTrie.M g β}

theorem quietly (quietly : Quietly f) : SavesNothing f := fun s => by
  obtain ⟨a, -, quiet⟩ := quietly s
  exact quiet.savedWrites

theorem done (a : α) : SavesNothing (pure a : CuckooTrie.M g α) := fun _ => rfl

theorem searched (h : Trie g → Option α) : SavesNothing (search h) := fun _ => rfl

theorem bind (first : SavesNothing f) (rest : ∀ a, SavesNothing (k a)) : SavesNothing (f >>= k) :=
  Prog.Frames.bind (fun _ _ _ same same' => same'.trans same) first rest

theorem updateEntry (lc : LocalCopy) (v : Entry) :
    SavesNothing (updateEntry lc v : CuckooTrie.M g LocalCopy) := by
  have written : ∀ (loc : Loc) (v : Entry) (copy : Trie g → LocalCopy), SavesNothing (do
      writeEntry loc v
      let t ← getTrie
      pure (copy t) : CuckooTrie.M g LocalCopy) := fun loc v copy =>
    bind (.update fun _ => rfl) fun _ => quietly (.bind .getTrie fun _ => .pure _)
  refine bind (quietly .getTrie) fun t => .ite (written _ _ _) ?_
  exact bind (.update fun _ => rfl) fun _ => bind (searched _) fun _ => written _ _ _

theorem ctUpdateInternal (kv : CtKv) :
    SavesNothing (ctUpdateInternal kv : CuckooTrie.M g InternalStatus) := by
  refine bind (bind (.update fun _ => rfl) fun _ => quietly (.recordLocks _)) fun _ =>
    bind (quietly .getTrie) fun t => ?_
  split
  · exact done _
  · refine bind (searched _) fun r => .ite (done _) (.ite (done _)
      (bind (quietly (.upgradeLock _)) fun locked => ?_))
    cases locked with
    | ok =>
      exact bind (updateEntry _ _) fun _ => bind (quietly .releaseAllLocks) fun _ =>
        done _
    | _ => exact done _

end SavesNothing

theorem Sys.Kept.congr (kept : s.Kept) (same : s'.savedWrites = s.savedWrites) : s'.Kept := by
  unfold Sys.Kept
  rw [same]
  exact kept

/-- **The loop of `ct_update`** ends after one attempt, and one more for each check the others
refuse.  It asks nothing of the run, since an update saves no address. -/
theorem ctUpdate_spec (R : Finset ℕ) {fuel : ℕ} (rests : s.Rests maps base L M) (kept : s.Kept)
    (refuses : s.Refuses R) (mem : M.insert kv ∈ maps) (enough : R.card < fuel) :
    (ctUpdate kv fuel).Returns s fun status s' =>
      status = .ok ∧ (∃ old, M.find kv.key = some old) ∧
          (∃ base', s'.Rests maps base' (L.rebind kv) (M.insert kv)) ∨
        status = .notFound ∧ M.find kv.key = none ∧ ∃ base', s'.Rests maps base' L M := by
  induction R using Finset.strongInduction generalizing s base fuel with
  | H R ih =>
    obtain ⟨rounds, rfl⟩ : ∃ rounds, fuel = rounds + 1 := ⟨fuel - 1, by omega⟩
    have kept' : ((ctUpdateInternal kv).run s).2.Kept :=
      kept.congr (SavesNothing.ctUpdateInternal kv s)
    have attempt : (ctUpdateInternal kv).Returns s fun ret s' =>
        (UpdateAttempt maps s.trie.seq L M kv s s' ret ∧ Counted (fun _ => false) ⊤ 0 0 s') ∧
          s'.savedWrites = s.savedWrites :=
      (SavesNothing.ctUpdateInternal kv).and_returns
        (ctUpdateInternal_spec rests.rebase mem ⟨.ctUpdateInternal kv s, kept'⟩)
    rw [ctUpdate]
    refine attempt.bind fun ret s₁ le₁ post => ?_
    obtain ⟨⟨ends, counted⟩, same⟩ := post
    cases ends with
    | ok found whole => exact .pure (Or.inl ⟨rfl, ⟨_, found⟩, _, whole, counted⟩)
    | obstructed whole denied =>
      obtain ⟨R', smaller, refuses'⟩ := refuses.denied le₁ denied
      have fewer := Finset.card_lt_card smaller
      exact ih R' smaller ⟨whole, counted⟩ (kept.congr same) refuses' (by omega)
    | fail absent whole => exact .pure (Or.inr ⟨rfl, absent, _, whole, counted⟩)

/-! ## The calls -/

/-- What `ct_insert` returns, and the memory it leaves. -/
inductive Inserted (t : Trie g) (M : KeyMap) (kv : CtKv) (t' : Trie g) : Status → Prop
  | ok : kv.key.length ≤ maxKeyBytes → M.find kv.key = none → WellFormed t' (M.insert kv) →
      Inserted t M kv t' .ok
  | alreadyIn {old : CtKv} : kv.key.length ≤ maxKeyBytes → M.find kv.key = some old →
      WellFormed t' M → Inserted t M kv t' .alreadyIn
  | overflow : kv.key.length ≤ maxKeyBytes → M.find kv.key = none → Overflowed t' M →
      Inserted t M kv t' .overflow
  | keyTooLong : maxKeyBytes < kv.key.length → t' = t → Inserted t M kv t' .keyTooLong

/-- What `ct_upsert` returns, and the memory it leaves. -/
inductive Upserted (t : Trie g) (M : KeyMap) (kv : CtKv) (t' : Trie g) :
    Status × Option Bool → Prop
  | created : kv.key.length ≤ maxKeyBytes → M.find kv.key = none → WellFormed t' (M.insert kv) →
      Upserted t M kv t' (.ok, some true)
  | replaced {old : CtKv} : kv.key.length ≤ maxKeyBytes → M.find kv.key = some old →
      WellFormed t' (M.insert kv) → Upserted t M kv t' (.ok, some false)
  | overflow : kv.key.length ≤ maxKeyBytes → M.find kv.key = none → Overflowed t' M →
      Upserted t M kv t' (.overflow, none)
  | keyTooLong : maxKeyBytes < kv.key.length → t' = t → Upserted t M kv t' (.keyTooLong, none)

/-- What `ct_update` returns, and the memory it leaves. -/
inductive Updated (M : KeyMap) (kv : CtKv) (t' : Trie g) : Status → Prop
  | ok {old : CtKv} : M.find kv.key = some old → WellFormed t' (M.insert kv) → Updated M kv t' .ok
  | notFound : M.find kv.key = none → WellFormed t' M → Updated M kv t' .notFound

theorem Settles.past (settles : Settles maps L M kv isUpsert s' ret) :
    s'.Past (Stands g maps) := by
  cases settles with
  | ok _ rests _ => exact rests.past
  | exist _ rests _ => exact rests.past
  | fail _ littered _ => exact littered.past

section Calls

variable {env : ℕ → Bool} {R : Finset ℕ} {fuel : ℕ}

/-- The loop of a call on a well-formed trie. -/
theorem WellFormed.insertLoop (wf : WellFormed t M) (isUpsert : Bool)
    (granted : M.kvs = [] → env = alone) (only : ∀ i, env i = false → i ∈ R)
    (size : kv.key.length ≤ maxKeyBytes) (enough : 2 * R.card + 2 ≤ fuel) :
    ∃ L, (insertLoop kv isUpsert fuel).Ensures Sys.Undisturbed (Sys.init t env) fun ret s' =>
      Settles {M, M.insert kv} L M kv isUpsert s' ret := by
  have here : M ∈ ({M, M.insert kv} : Set KeyMap) := Set.mem_insert _ _
  obtain ⟨L, rests⟩ := wf.rests env here
  exact ⟨L, insertLoop_spec R rests granted (fun i _ => only i) size
    (Set.mem_insert_of_mem _ rfl) enough⟩

theorem WellFormed.ctInsert (wf : WellFormed t M) (granted : M.kvs = [] → env = alone)
    (only : ∀ i, env i = false → i ∈ R) (enough : 2 * R.card + 2 ≤ fuel) :
    (ctInsert kv fuel).Ensures Sys.Undisturbed (Sys.init t env) fun status s' =>
      s'.Past (Stands g {M, M.insert kv}) ∧ Inserted t M kv s'.trie status := by
  rw [CuckooTrie.ctInsert]
  refine .ite (fun long => .pure ⟨Sys.init_past t env, .keyTooLong long rfl⟩) fun short => ?_
  have size : kv.key.length ≤ maxKeyBytes := not_lt.mp short
  obtain ⟨L, loop⟩ := wf.insertLoop false granted only size enough
  refine loop.bind Sys.Undisturbed.down fun ret s' _ _ settles => ?_
  have past := settles.past
  cases settles with
  | ok new rests => exact .pure ⟨past, .ok size new rests.wellFormed⟩
  | exist found rests => exact .pure ⟨past, .alreadyIn size found rests.wellFormed⟩
  | fail new littered unlocked =>
    exact .pure ⟨past, .overflow size new (littered.overflowed unlocked)⟩

theorem WellFormed.ctUpsert (wf : WellFormed t M) (granted : M.kvs = [] → env = alone)
    (only : ∀ i, env i = false → i ∈ R) (enough : 2 * R.card + 2 ≤ fuel) :
    (ctUpsert kv fuel).Ensures Sys.Undisturbed (Sys.init t env) fun result s' =>
      s'.Past (Stands g {M, M.insert kv}) ∧ Upserted t M kv s'.trie result := by
  rw [CuckooTrie.ctUpsert]
  refine .ite (fun long => .pure ⟨Sys.init_past t env, .keyTooLong long rfl⟩) fun short => ?_
  have size : kv.key.length ≤ maxKeyBytes := not_lt.mp short
  obtain ⟨L, loop⟩ := wf.insertLoop true granted only size enough
  refine loop.bind Sys.Undisturbed.down fun ret s' _ _ settles => ?_
  have past := settles.past
  cases settles with
  | ok new rests => exact .pure ⟨past, .created size new rests.wellFormed⟩
  | exist found rests => exact .pure ⟨past, .replaced size found rests.wellFormed⟩
  | fail new littered unlocked =>
    exact .pure ⟨past, .overflow size new (littered.overflowed unlocked)⟩

end Calls

/-- **The other threads delay an update by what they refuse.**  If they refuse finitely many
checks, `ct_update` returns after at most one attempt, and one more for each refusal; it replaces
the object of the key, or says that there is none; and each memory on the way holds a trie for the
old or for the new map.  Nothing is asked of the run. -/
theorem update_among_refusals (t : Trie g) (M : KeyMap) (wf : WellFormed t M) (env : ℕ → Bool)
    (refused : Finset ℕ) (only : ∀ i, env i = false → i ∈ refused) (kv : CtKv) (fuel : ℕ) :
    (ctUpdate kv (fuel + (refused.card + 1))).Returns (Sys.init t env) fun status s' =>
      s'.Past (Stands g {M, M.insert kv}) ∧ Updated M kv s'.trie status := by
  have here : M ∈ ({M, M.insert kv} : Set KeyMap) := Set.mem_insert _ _
  obtain ⟨L, rests⟩ := wf.rests env here
  have kept : (Sys.init t env).Kept := fun w mem => absurd mem List.not_mem_nil
  refine (ctUpdate_spec refused rests kept (fun i _ => only i) (Set.mem_insert_of_mem _ rfl)
    (by omega)).weaken fun status s' _ post => ?_
  obtain ⟨rfl, ⟨old, found⟩, _, rests'⟩ | ⟨rfl, absent, _, rests'⟩ := post
  · exact ⟨rests'.past, .ok found rests'.wellFormed⟩
  · exact ⟨rests'.past, .notFound absent rests'.wellFormed⟩

/-- The lock of the leaf is refused once, and the second attempt replaces the object. -/
theorem update_among_refusals_small :
    ((ctUpdate ⟨9, [0]⟩ 2).run (Sys.init smallTrie fun i => decide (i ≠ 0))).1 = some .ok ∧
      WellFormed ((ctUpdate ⟨9, [0]⟩ 2).run (Sys.init smallTrie fun i => decide (i ≠ 0))).2.trie
        (smallComb.map.insert ⟨9, [0]⟩) := by
  have spec := update_among_refusals smallTrie _ smallTrie_wellFormed (fun i => decide (i ≠ 0)) {0}
    (fun i refused => by simpa using refused) ⟨9, [0]⟩ 0
  rw [Finset.card_singleton, Nat.zero_add] at spec
  obtain ⟨status, returns, -, updated⟩ := spec
  cases updated with
  | ok _ whole => exact ⟨returns, whole⟩
  | notFound absent _ =>
    rw [show smallComb.map.find [0] = some ⟨1, [0]⟩ by decide +kernel] at absent
    cases absent

end CuckooTrie
