import CuckooTrie.Predecessors
import CuckooTrie.Rewrites
import CuckooTrie.SlowPath

/-!
# Updates during an insert

An insert writes the cells of the table, and the list head through a predecessor it has
just read: whatever the memory and the other threads, `update_entry` never searches for the
entry of a copy of the list head (`ctInsert_keeps`).  Through any other copy it writes the
cell that holds the entry, after any relocations (`update_hits_entry`).
-/

namespace CuckooTrie

open Sys

variable {g : Geometry} {α β : Type} {t : Trie g} {s s' : Sys g} {f : Finger}

/-! ## Locks and predecessors -/

namespace Quietly

theorem validatePathFrom (path : List PathEntry) (pathPos : ℕ) :
    Quietly (CuckooTrie.validatePathFrom path pathPos : M g Bool) := by
  rw [CuckooTrie.validatePathFrom]
  generalize (path.take (path.length + 1 - pathPos)).reverse = checked
  induction checked with
  | nil => exact pure _
  | cons e below ih => exact (validateEntry _).bind fun _ => ite ih (pure _)

theorem lockLeftParents (locked : List Loc) (path : List PathEntry) :
    Quietly (CuckooTrie.lockLeftParents locked path : M g InternalStatus) := by
  induction path generalizing locked with
  | nil => exact pure _
  | cons child above ih =>
    cases above with
    | nil => exact pure _
    | cons parent above =>
      refine ite (pure _) ((upgradeLock _).bind fun ret => ?_)
      cases ret with
      | ok => exact ih _
      | _ => exact (forM _).bind fun _ => pure _

end Quietly

/-- A copy of what was just read is ready to be updated. -/
theorem getPredecessorAtomic_ready (inv : s.SlowInTable) (path : List PathEntry)
    (predLocator : PredLocator) :
    (getPredecessorAtomic path predLocator).Keeps SlowInTable s fun r s' =>
      s'.SlowInTable ∧ ∀ lc ∈ r, lc.Ready s' := by
  -- nothing is written after the copy is made
  have kept : ∀ {s₁ : Sys g} {lc : LocalCopy}, lc.Ready s → KeepsOutside s s₁ → s₁.SlowInTable →
      (pure (some lc) : M g (Option LocalCopy)).Keeps SlowInTable s₁ fun r s' =>
        s'.SlowInTable ∧ ∀ lc ∈ r, lc.Ready s' := by
    intro s₁ lc ready keeps inv₁
    refine .pure inv₁ ⟨inv₁, fun l mem => ?_⟩
    cases mem
    exact ready.keeps keeps
  have none : ∀ {s₁ : Sys g}, s₁.SlowInTable →
      (pure none : M g (Option LocalCopy)).Keeps SlowInTable s₁ fun r s' =>
        s'.SlowInTable ∧ ∀ lc ∈ r, lc.Ready s' := fun inv₁ => .pure inv₁ ⟨inv₁, by simp⟩
  rw [getPredecessorAtomic.eq_def]
  cases predLocator with
  | none =>
    refine Prog.Keeps.bind (Q := fun t s' => t = s.trie ∧ s' = s) (.read inv ⟨rfl, rfl⟩) ?_
    rintro t s ⟨rfl, rfl⟩
    refine ((Quietly.validatePathFrom path 1).keeps inv).bind fun ok s₁ ⟨inv₁, keeps⟩ => ?_
    exact .ite (fun _ => kept (Or.inr rfl) keeps inv₁) fun _ => none inv₁
  | some subtree =>
    refine Prog.Keeps.bind (Q := fun root s' => s' = s ∧ root.Ready s)
      (.find inv fun root found => ⟨rfl, Or.inr (copy_of_byParent found).1.symm⟩) ?_
    rintro root s ⟨rfl, ready⟩
    refine .ite (fun _ => ?_) fun _ => ?_
    · refine ((Quietly.validatePathFrom path subtree.pathPos).keeps inv).bind
        fun ok s₁ ⟨inv₁, keeps⟩ => ?_
      exact .ite (fun _ => none inv₁) fun _ => .ite (fun _ => none inv₁) fun _ =>
        kept ready keeps inv₁
    · refine Prog.Keeps.bind (Q := fun result s' => s' = s ∧ result.Ready s)
        (.find inv fun result found => ⟨rfl, Or.inr (copy_of_byColor found).1.symm⟩) ?_
      rintro result s ⟨rfl, ready⟩
      refine .ite (fun _ => none inv) fun _ => ?_
      refine ((Quietly.validatePathFrom path subtree.pathPos).keeps inv).bind
        fun ok s₁ ⟨inv₁, keeps⟩ => .ite (fun _ => none inv₁) fun _ => ?_
      refine ((Quietly.validateEntry root).keeps inv₁).bind fun ok s₂ ⟨inv₂, keeps'⟩ => ?_
      exact .ite (fun _ => none inv₂) fun _ => .ite (fun _ => none inv₂) fun _ =>
        kept ready (keeps.trans keeps') inv₂

/-- Locking a predecessor keeps it ready. -/
theorem lockPredecessor_ready (inv : s.SlowInTable) (path : List PathEntry)
    (predLocator : PredLocator) :
    (do
      match ← getPredecessorAtomic path predLocator with
      | none => pure none
      | some predecessor =>
        if (← upgradeLock predecessor) ≠ .ok then pure none else pure (some predecessor) :
      M g (Option LocalCopy)).Keeps SlowInTable s fun r s' =>
        s'.SlowInTable ∧ ∀ lc ∈ r, lc.Ready s' := by
  refine (getPredecessorAtomic_ready inv path predLocator).bind fun r s₁ ⟨inv₁, ready⟩ => ?_
  cases r with
  | none => exact .pure inv₁ ⟨inv₁, by simp⟩
  | some predecessor =>
    refine ((Quietly.upgradeLock predecessor).keeps inv₁).bind fun ret s₂ ⟨inv₂, keeps⟩ => ?_
    refine .ite (fun _ => .pure inv₂ ⟨inv₂, by simp⟩) fun _ => .pure inv₂ ⟨inv₂, fun lc mem => ?_⟩
    cases mem
    exact (ready predecessor rfl).keeps keeps

theorem bitmapChildLocks_ready (inv : s.SlowInTable) (f : Finger) (predLocator : PredLocator) :
    (bitmapChildLocks f predLocator).Keeps SlowInTable s fun r s' =>
      s'.SlowInTable ∧ ∀ lc ∈ r, lc.Ready s' := by
  refine ((Quietly.upgradeLock f.containingEntry).keeps inv).bind fun ret s₁ ⟨inv₁, _⟩ => ?_
  refine .ite (fun _ => .pure inv₁ ⟨inv₁, by simp⟩) fun _ => ?_
  refine ((Quietly.lockLeftParents [] f.path).keeps inv₁).bind fun ret s₂ ⟨inv₂, _⟩ => ?_
  exact .ite (fun _ => .pure inv₂ ⟨inv₂, by simp⟩) fun _ =>
    lockPredecessor_ready inv₂ f.path predLocator

theorem splitLeafLocks_ready (inv : s.SlowInTable) (f : Finger) (predLocator : PredLocator) :
    (splitLeafLocks f predLocator).Keeps SlowInTable s fun r s' =>
      s'.SlowInTable ∧ ∀ lc ∈ r, lc.Ready s' := by
  have rest : ∀ (parents : InternalStatus) (s : Sys g), s.SlowInTable →
      (if parents ≠ .ok then pure none
        else do
          if (← upgradeLock f.containingEntry) ≠ .ok then pure none
          else
            match ← getPredecessorAtomic f.path predLocator with
            | none => pure none
            | some predecessor =>
              if (← upgradeLock predecessor) ≠ .ok then pure none else pure (some predecessor) :
        M g (Option LocalCopy)).Keeps SlowInTable s fun r s' =>
          s'.SlowInTable ∧ ∀ lc ∈ r, lc.Ready s' := by
    intro parents s inv
    refine .ite (fun _ => .pure inv ⟨inv, by simp⟩) fun _ => ?_
    refine ((Quietly.upgradeLock f.containingEntry).keeps inv).bind fun ret s₁ ⟨inv₁, _⟩ => ?_
    exact .ite (fun _ => .pure inv₁ ⟨inv₁, by simp⟩) fun _ =>
      lockPredecessor_ready inv₁ f.path predLocator
  rw [splitLeafLocks]
  split
  · next last parent above eq =>
    refine ((Quietly.upgradeLock parent.entry).keeps inv).bind fun ret s₁ ⟨inv₁, _⟩ => ?_
    cases ret with
    | ok =>
      refine ((Quietly.lockLeftParents [] (parent :: above)).keeps inv₁).bind
        fun ret s₂ ⟨inv₂, _⟩ => rest ret s₂ inv₂
    | retry => exact rest .retry s₁ inv₁
    | exist => exact rest .exist s₁ inv₁
    | fail => exact rest .fail s₁ inv₁
  · exact rest .ok s inv

/-! ## A new child of a bitmap -/

theorem createBitmapChild_stays {symbol : ℕ} (inTable : f.InTable g) (symbol_le : symbol ≤ fanout)
    (kv : CtKv) :
    Stays (Set.Iio g.numBuckets)
      (createBitmapChild f symbol kv : M g (InternalStatus × Entry × Loc)) fun _ => True :=
  (Stays.addEntry (.table g)
    (g.hashToBucket_lt (g.accumulateHash_lt inTable.prefixHash symbol_le)) _ _ _).weaken
      fun _ _ => trivial

/-- The climb that sets the greatest leaf writes ancestors of the path. -/
theorem propagateMaxLeaf_keeps {child : LocalCopy} {path : List PathEntry} (inv : s.SlowInTable)
    (path_in : ∀ e ∈ path, e.entry.InTable g) :
    (propagateMaxLeaf child path).Keeps SlowInTable s fun _ s' =>
      s'.SlowInTable ∧ KeepsOutside s s' := by
  induction path generalizing child s with
  | nil => exact .pure inv ⟨inv, fun _ _ => rfl⟩
  | cons parent above ih =>
    refine .ite (fun _ => .pure inv ⟨inv, fun _ _ => rfl⟩) fun _ => ?_
    refine (updateEntry_inTable inv (path_in parent List.mem_cons_self) _).bind
      fun newParent s₁ ⟨inv₁, _, keeps₁⟩ => ?_
    refine (ih inv₁ fun e mem => path_in e (List.mem_cons_of_mem _ mem)).weaken
      fun _ s₂ ⟨inv₂, keeps₂⟩ => ⟨inv₂, keeps₁.trans keeps₂⟩

theorem bitmapChildPublish_keeps {predecessor : LocalCopy} (inv : s.SlowInTable)
    (inTable : f.InTable g) (ready : predecessor.Ready s) (symbol : ℕ) (child : Locator) :
    (bitmapChildPublish f predecessor symbol child).Keeps SlowInTable s fun _ s' =>
      s'.SlowInTable := by
  refine (updateEntry_ready inv ready _).bind fun predecessor s₁ ⟨inv₁, ready₁⟩ => ?_
  refine (updateEntry_ready inv₁ ready₁ _).bind fun predecessor s₂ ⟨inv₂, ready₂⟩ => ?_
  have path_in := inTable.path
  generalize f.path = path at path_in ⊢
  cases path with
  | nil => exact .pure inv₂ inv₂
  | cons last above =>
    refine (updateEntry_inTable inv₂ (path_in last List.mem_cons_self) _).bind
      fun newBitmap s₃ ⟨inv₃, _, keeps₃⟩ => ?_
    refine (propagateMaxLeaf_keeps inv₃ fun e mem => path_in e (List.mem_cons_of_mem _ mem)).bind
      fun _ s₄ ⟨inv₄, keeps₄⟩ => ?_
    refine (updateEntry_ready inv₄ ((ready₂.keeps keeps₃).keeps keeps₄) _).bind
      fun _ s₅ ⟨inv₅, _⟩ => ?_
    exact (Quietly.releaseAllLocks.keeps inv₅).weaken fun _ _ h => h.1

theorem createLeafAtBitmap_keeps {symbol : ℕ} (inv : s.SlowInTable) (inTable : f.InTable g)
    (symbol_le : symbol ≤ fanout) (kv : CtKv) :
    (createLeafAtBitmap f kv symbol).Keeps SlowInTable s fun _ s' => s'.SlowInTable := by
  refine (bitmapChildLocks_ready inv f _).bind fun r s₁ ⟨inv₁, ready₁⟩ => ?_
  cases r with
  | none =>
    exact (Quietly.releaseAllLocks.keeps inv₁).bind fun _ s₂ ⟨inv₂, _⟩ => .pure inv₂ inv₂
  | some predecessor =>
    refine ((createBitmapChild_stays inTable symbol_le kv).keepsOutside inv₁).bind
      fun r s₂ ⟨_, inv₂, keeps₂⟩ => .ite (fun _ => ?_) fun _ => ?_
    · exact (Quietly.releaseAllLocks.keeps inv₂).bind fun _ s₂ ⟨inv₂, _⟩ => .pure inv₂ inv₂
    · refine ((Stays.storeField _ _).keepsOutside inv₂).bind fun _ s₃ ⟨_, inv₃, keeps₃⟩ => ?_
      have ready₃ := ((ready₁ predecessor rfl).keeps keeps₂).keeps keeps₃
      exact (bitmapChildPublish_keeps inv₃ inTable ready₃ _ _).bind fun _ s₄ inv₄ =>
        .pure inv₄ inv₄

/-! ## Splitting a jump node -/

theorem removeEntryByValue_stays (e : Entry) (prefixHash : ℕ) :
    Stays Set.univ (removeEntryByValue e prefixHash : M g Unit) fun _ => True :=
  (Stays.find (Q := fun _ => True) fun _ _ _ => trivial).bind fun _ _ =>
    Stays.writeEntry (Set.mem_univ _) _

theorem splitJumpFailed_stays (ret : InternalStatus) (bitmap : Option (Entry × ℕ)) :
    Stays Set.univ (splitJumpFailed ret bitmap : M g InternalStatus) fun _ => True := by
  have finish : ∀ ret : InternalStatus, Stays Set.univ (do
      releaseAllLocks
      pure ret : M g InternalStatus) fun _ => True := fun ret =>
    (Stays.quietly Quietly.releaseAllLocks).bind fun _ _ => .pure trivial
  refine .ite (fun _ => ?_) fun _ => finish _
  cases bitmap with
  | none => exact finish _
  | some node => exact (removeEntryByValue_stays _ _).bind fun _ _ => finish _

theorem lockJumpChild_stays (jumpNode : Entry) (hasTail : Bool) (tailPrefixHash : ℕ) :
    Stays Set.univ (lockJumpChild jumpNode hasTail tailPrefixHash : M g (Option (Option JumpChild)))
      fun _ => True := by
  refine .ite (fun _ => .pure trivial) fun _ => ?_
  refine (Stays.find (Q := fun _ => True) fun _ _ _ => trivial).bind fun child _ => ?_
  refine (Stays.read (Q := fun _ => True) fun _ => trivial).bind fun mark _ => ?_
  refine (Stays.quietly (Quietly.upgradeLock _)).bind fun ret _ => ?_
  cases ret with
  | ok => exact .pure trivial
  | _ => exact .pure trivial

theorem splitJumpBelow_stays (jumpNode : Entry)
    (depth bitmapColor splitSymbol tailPrefixHash : ℕ) (bitmapLoc : Option Loc)
    (child : Option JumpChild) :
    Stays Set.univ (splitJumpBelow jumpNode depth bitmapColor splitSymbol tailPrefixHash bitmapLoc
      child : M g InternalStatus) fun _ => True := by
  cases child with
  | none =>
    exact (Stays.addEntry (.univ g) (Set.mem_univ _) _ _ _).bind fun _ _ => .pure trivial
  | some child =>
    refine (Stays.recordSavedWrite _ _ _).bind fun _ _ => Stays.getTrie.bind fun t _ => ?_
    exact (Stays.writeEntry (Set.mem_univ _) _).bind fun _ _ => .pure trivial

/-- Rereading the end of the path after it was updated. -/
theorem Finger.InTable.reread {last : PathEntry} {above : List PathEntry} {newLast : LocalCopy}
    (inTable : f.InTable g) (path : f.path = last :: above) (newIn : newLast.InTable g) :
    (Finger.rereadPathEnd { f with path := { last with entry := newLast } :: above }).InTable g := by
  refine ⟨newIn, fun e mem => ?_, inTable.prefixHash⟩
  rcases List.mem_cons.mp mem with rfl | mem
  · exact newIn
  · exact inTable.path e (path ▸ List.mem_cons_of_mem _ mem)

/-- The finger in a new node below its position. -/
theorem Finger.InTable.enter {node : LocalCopy} (inTable : f.InTable g) (nodeIn : node.InTable g) :
    (Finger.nodeChanged { f with containingEntry := node } true).InTable g := by
  refine ⟨nodeIn, fun e mem => ?_, inTable.prefixHash⟩
  rcases List.mem_cons.mp mem with rfl | mem
  · exact nodeIn
  · exact inTable.path e mem

/-- **Splitting a jump node** leaves the finger in the table. -/
theorem splitJumpNode_keeps (inv : s.SlowInTable) (inTable : f.InTable g) :
    (splitJumpNode f).Keeps SlowInTable s fun r s' =>
      s'.SlowInTable ∧ (r.1 = .ok → r.2.InTable g) := by
  have failed : ∀ {s₁ : Sys g} (ret : InternalStatus) (bitmap : Option (Entry × ℕ)),
      s₁.SlowInTable → (do
        let ret ← splitJumpFailed ret bitmap
        pure (ret, f) : M g (InternalStatus × Finger)).Keeps SlowInTable s₁ fun r s' =>
          s'.SlowInTable ∧ (r.1 = .ok → r.2.InTable g) := fun ret bitmap inv₁ =>
    ((splitJumpFailed_stays ret bitmap).keeps inv₁).bind fun ret s₂ ⟨_, inv₂, _⟩ =>
      .pure inv₂ ⟨inv₂, fun _ => inTable⟩
  refine ((lockJumpChild_stays _ _ _).keeps inv).bind fun child s₁ ⟨_, inv₁, _⟩ => ?_
  cases child with
  | none => exact failed _ _ inv₁
  | some child =>
    refine ((Quietly.upgradeLock _).keeps inv₁).bind fun ret s₂ ⟨inv₂, _⟩ => ?_
    refine .ite (fun _ => failed _ _ inv₂) fun _ => .ite (fun _ => ?_) fun _ => ?_
    · -- the jump node becomes the bitmap
      refine ((splitJumpBelow_stays _ _ _ _ _ _ _).keeps inv₂).bind fun ret s₃ ⟨_, inv₃, _⟩ => ?_
      refine .ite (fun _ => failed _ _ inv₃) fun _ => ?_
      split
      · exact .pure inv₃ ⟨inv₃, fun _ => inTable⟩
      · next last above path =>
        refine (updateEntry_inTable inv₃ (inTable.path last (path ▸ List.mem_cons_self)) _).bind
          fun newLast s₄ ⟨inv₄, newIn, _⟩ => ?_
        exact (Quietly.releaseAllLocks.keeps inv₄).bind fun _ s₅ ⟨inv₅, _⟩ =>
          .pure inv₅ ⟨inv₅, fun _ => inTable.reread path newIn⟩
    · -- the bitmap is a new node
      have inside := g.hashToBucket_lt inTable.prefixHash
      refine ((Stays.addEntry (.table g) inside _ _ _).keeps inv₂).bind
        fun r s₃ ⟨added, inv₃, _⟩ => ?_
      refine .ite (fun _ => failed _ _ inv₃) fun ok => ?_
      have nodeIn := added (not_not.mp ok)
      refine Prog.Keeps.bind (Q := fun t s' => s' = s₃) (.read inv₃ rfl) ?_
      rintro t _ rfl
      refine ((splitJumpBelow_stays _ _ _ _ _ _ _).keeps inv₃).bind fun ret s₄ ⟨_, inv₄, _⟩ => ?_
      refine .ite (fun _ => failed _ _ inv₄) fun _ => ?_
      split
      · exact .pure inv₄ ⟨inv₄, fun _ => inTable⟩
      · next last above path =>
        refine (updateEntry_inTable inv₄ (inTable.path last (path ▸ List.mem_cons_self)) _).bind
          fun newLast s₅ ⟨inv₅, newIn, _⟩ => ?_
        exact (Quietly.releaseAllLocks.keeps inv₅).bind fun _ s₆ ⟨inv₆, _⟩ =>
          .pure inv₆ ⟨inv₆, fun _ => (inTable.reread path newIn).enter ⟨nodeIn, inside⟩⟩

/-! ## Splitting a leaf -/

/-- The nodes of a path that are hashed into the table. -/
def HashedInTable (g : Geometry) (nodes : List (Entry × ℕ)) : Prop :=
  ∀ node ∈ nodes, node.2 < g.numPairs

theorem LeafPath.extend_inTable {p : LeafPath} {symbol : ℕ} (nodes : HashedInTable g p.nodes)
    (hash : p.prefixHash < g.numPairs) (symbol_le : symbol ≤ fanout) :
    HashedInTable g (p.extend g symbol).nodes ∧
      (p.extend g symbol).prefixHash < g.numPairs := by
  refine ⟨?_, g.accumulateHash_lt hash symbol_le⟩
  have grown : HashedInTable g
      (if p.needsJump then (p.newJump, p.prefixHash) :: p.nodes else p.nodes) := by
    split
    · intro node mem
      rcases List.mem_cons.mp mem with rfl | mem
      · exact hash
      · exact nodes node mem
    · exact nodes
  rw [LeafPath.extend]
  generalize (if p.needsJump then (p.newJump, p.prefixHash) :: p.nodes else p.nodes) = list at grown
  cases list with
  | nil => exact nofun
  | cons head rest =>
    intro node mem
    rcases List.mem_cons.mp mem with rfl | mem
    · exact grown head List.mem_cons_self
    · exact grown node (List.mem_cons_of_mem _ mem)

/-- The walk to the splitting point makes nodes of the table. -/
theorem LeafPath.walk_inTable {existingKv kv : CtKv} {fuel x y : ℕ} {p path : LeafPath}
    (nodes : HashedInTable g p.nodes) (hash : p.prefixHash < g.numPairs)
    (walk : LeafPath.walk g existingKv kv fuel p = some (path, x, y)) :
    HashedInTable g path.nodes ∧ path.prefixHash < g.numPairs ∧ x ≤ fanout ∧ y ≤ fanout := by
  induction fuel generalizing p with
  | zero => cases walk
  | succ fuel ih =>
    rw [LeafPath.walk] at walk
    split at walk
    · cases walk
      exact ⟨nodes, hash, getStringSymbol_le _ _, getStringSymbol_le _ _⟩
    · obtain ⟨nodes, hash⟩ := extend_inTable nodes hash (getStringSymbol_le kv.key p.prefixLen)
      exact ih nodes hash walk

theorem mapPathHead_inTable {nodes : List (Entry × ℕ)} (inTable : HashedInTable g nodes)
    (change : Entry → Entry) : HashedInTable g (mapPathHead change nodes) := by
  fun_induction mapPathHead change nodes with
  | case1 => exact inTable
  | case2 head hash =>
    intro node mem
    rw [List.mem_singleton.mp mem]
    exact inTable (head, hash) List.mem_cons_self
  | case3 node above _ ih =>
    intro node' mem
    rcases List.mem_cons.mp mem with rfl | mem
    · exact inTable _ List.mem_cons_self
    · exact ih (fun n mem => inTable n (List.mem_cons_of_mem _ mem)) _ mem

theorem setPathChildren_inTable {nodes : List (Entry × ℕ)} (inTable : HashedInTable g nodes)
    (minimalChild maximalChild : ℕ) :
    HashedInTable g (setPathChildren minimalChild maximalChild nodes) := by
  cases nodes with
  | nil => exact inTable
  | cons bitmap above =>
    intro node mem
    rcases List.mem_cons.mp mem with rfl | mem
    · exact inTable bitmap List.mem_cons_self
    · exact inTable _ (List.mem_cons_of_mem _ mem)

theorem setPathMaxLeaf_inTable {nodes : List (Entry × ℕ)} (inTable : HashedInTable g nodes)
    (maxLeaf : Locator) : HashedInTable g (setPathMaxLeaf maxLeaf nodes) := by
  intro node mem
  obtain ⟨node', mem', rfl⟩ := List.mem_map.mp mem
  exact inTable node' mem'

theorem addPathNodes_stays {nodes : List (Entry × ℕ)} (inTable : HashedInTable g nodes)
    (childColor : Option ℕ) :
    Stays (Set.Iio g.numBuckets) (addPathNodes childColor nodes :
      M g (InternalStatus × List (Entry × ℕ) × List (Entry × ℕ))) fun _ => True := by
  induction nodes generalizing childColor with
  | nil => exact .pure trivial
  | cons node above ih =>
    refine .ite (fun _ => .pure trivial) fun _ => ?_
    have inside := g.hashToBucket_lt (inTable node List.mem_cons_self)
    refine (Stays.addEntry (.table g) inside _ _ _).bind fun r _ => .ite (fun _ => ?_) fun _ =>
      .pure trivial
    exact (ih (fun n mem => inTable n (List.mem_cons_of_mem _ mem)) _).bind fun _ _ =>
      .pure trivial

theorem splitLeafFailed_stays (ret : InternalStatus) (added : List (Entry × ℕ)) :
    Stays Set.univ (splitLeafFailed ret added : M g InternalStatus) fun _ => True := by
  have finish : ∀ ret : InternalStatus, Stays Set.univ (do
      releaseAllLocks
      pure ret : M g InternalStatus) fun _ => True := fun ret =>
    (Stays.quietly Quietly.releaseAllLocks).bind fun _ _ => .pure trivial
  have remove : Stays Set.univ (removeNodes added : M g Unit) fun _ => True := by
    induction added with
    | nil => exact .pure trivial
    | cons node rest ih => exact (removeEntryByValue_stays _ _).bind fun _ _ => ih
  exact .ite (fun _ => remove.bind fun _ _ => finish _) fun _ => finish _

theorem splitLeafPublish_keeps {predecessor : LocalCopy} (inv : s.SlowInTable)
    (inTable : f.InTable g) (ready : predecessor.Ready s) (head : Entry) (minimalLeaf : Locator) :
    (splitLeafPublish f predecessor head minimalLeaf).Keeps SlowInTable s fun _ s' =>
      s'.SlowInTable := by
  refine (updateEntry_ready inv ready _).bind fun predecessor s₁ ⟨inv₁, ready₁⟩ => ?_
  have path_in := inTable.path
  generalize f.path = path at path_in ⊢
  cases path with
  | nil => exact .pure inv₁ inv₁
  | cons last above =>
    refine (updateEntry_inTable inv₁ (path_in last List.mem_cons_self) _).bind
      fun newHead s₂ ⟨inv₂, _, keeps₂⟩ => ?_
    refine (updateEntry_ready inv₂ (ready₁.keeps keeps₂) _).bind
      fun predecessor s₃ ⟨inv₃, ready₃⟩ => ?_
    refine (propagateMaxLeaf_keeps inv₃ fun e mem => path_in e (List.mem_cons_of_mem _ mem)).bind
      fun _ s₄ ⟨inv₄, keeps₄⟩ => ?_
    refine (updateEntry_ready inv₄ (ready₃.keeps keeps₄) _).bind fun _ s₅ ⟨inv₅, _⟩ => ?_
    exact (Quietly.releaseAllLocks.keeps inv₅).weaken fun _ _ h => h.1

theorem splitLeaf_keeps (inv : s.SlowInTable) (inTable : f.InTable g) (kv : CtKv)
    (isMaximal : Bool) (predLocator : PredLocator) :
    (splitLeaf f kv isMaximal predLocator).Keeps SlowInTable s fun _ s' => s'.SlowInTable := by
  have failed : ∀ {s₁ : Sys g} (ret : InternalStatus) (added : List (Entry × ℕ)),
      s₁.SlowInTable →
      (splitLeafFailed ret added).Keeps SlowInTable s₁ fun _ s' => s'.SlowInTable :=
    fun ret added inv₁ => ((splitLeafFailed_stays ret added).keeps inv₁).weaken
      fun _ _ ⟨_, inv₂, _⟩ => inv₂
  refine (splitLeafLocks_ready inv f predLocator).bind fun r s₁ ⟨inv₁, ready₁⟩ => ?_
  cases r with
  | none => exact failed _ _ inv₁
  | some predecessor =>
    have ready₁ := ready₁ predecessor rfl
    refine Prog.Keeps.bind (Q := fun r s' => s' = s₁ ∧ HashedInTable g r.1.nodes ∧
        r.1.prefixHash < g.numPairs ∧ r.2.1 ≤ fanout ∧ r.2.2 ≤ fanout)
      (.find inv₁ fun r walk => ⟨rfl, LeafPath.walk_inTable (by simp [HashedInTable])
        inTable.prefixHash walk⟩) ?_
    rintro ⟨path, existing, new⟩ s₁ ⟨rfl, nodes, hash, existing_le, new_le⟩
    have minimal_le : (if isMaximal then existing else new) ≤ fanout := by
      split
      · exact existing_le
      · exact new_le
    have maximal_le : (if isMaximal then new else existing) ≤ fanout := by
      split
      · exact new_le
      · exact existing_le
    have minimalIn := g.hashToBucket_lt (g.accumulateHash_lt hash minimal_le)
    have maximalIn := g.hashToBucket_lt (g.accumulateHash_lt hash maximal_le)
    have withBitmap : HashedInTable g path.addBitmap := by
      intro node mem
      rcases List.mem_cons.mp mem with rfl | mem
      · exact hash
      · exact nodes node mem
    -- every step up to the publication stays in the table
    refine ((Stays.addEntry (.table g) maximalIn _ _ _).keepsOutside inv₁).bind
      fun r s₂ ⟨_, inv₂, keeps₂⟩ => .ite (fun _ => failed _ _ inv₂) fun _ => ?_
    have ready₂ := ready₁.keeps keeps₂
    refine ((Stays.storeField _ _).keepsOutside inv₂).bind fun _ s₃ ⟨_, inv₃, keeps₃⟩ => ?_
    refine ((Stays.storeField _ _).keepsOutside inv₃).bind fun _ s₄ ⟨_, inv₄, keeps₄⟩ => ?_
    have ready₄ := (ready₂.keeps keeps₃).keeps keeps₄
    refine (Stays.getTrie.keepsOutside inv₄).bind fun t s₅ ⟨_, inv₅, keeps₅⟩ => ?_
    refine ((Stays.read (Q := fun _ => True) fun _ => trivial).keepsOutside inv₅).bind
      fun mark s₆ ⟨_, inv₆, keeps₆⟩ => ?_
    have ready₆ := (ready₄.keeps keeps₅).keeps keeps₆
    have built : ∀ minimalChild maximalChild maxLeaf,
        HashedInTable g (setPathMaxLeaf maxLeaf (setPathChildren minimalChild maximalChild
          (mapPathHead (inheritHeader f.containingEntry.value) path.addBitmap))) :=
      fun _ _ _ => setPathMaxLeaf_inTable (setPathChildren_inTable
        (mapPathHead_inTable withBitmap _) _ _) _
    refine ((addPathNodes_stays (built _ _ _) _).keepsOutside inv₆).bind
      fun r s₇ ⟨_, inv₇, keeps₇⟩ => .ite (fun _ => failed _ _ inv₇) fun _ => ?_
    refine ((Stays.recordSavedWrite _ _ _).keepsOutside inv₇).bind
      fun _ s₈ ⟨_, inv₈, keeps₈⟩ => ?_
    refine ((Stays.storeField _ _).keepsOutside inv₈).bind fun _ s₉ ⟨_, inv₉, keeps₉⟩ => ?_
    have ready₉ := ((ready₆.keeps keeps₇).keeps keeps₈).keeps keeps₉
    refine ((Stays.addEntry (.table g) minimalIn _ _ _).keepsOutside inv₉).bind
      fun r s₁₀ ⟨_, inv₁₀, keeps₁₀⟩ => .ite (fun _ => failed _ _ inv₁₀) fun _ => ?_
    exact (splitLeafPublish_keeps inv₁₀ inTable (ready₉.keeps keeps₁₀) _ _).bind
      fun _ s₁₁ inv₁₁ => .pure inv₁₁ inv₁₁

/-! ## The whole insert -/

theorem createLeaf_keeps {symbol : ℕ} (inv : s.SlowInTable) (inTable : f.InTable g)
    (symbol_le : symbol ≤ fanout) (kv : CtKv) :
    (createLeaf f kv symbol).Keeps SlowInTable s fun _ s' => s'.SlowInTable := by
  rw [createLeaf]
  split
  · refine (splitJumpNode_keeps inv inTable).bind fun r s₁ ⟨inv₁, inTable₁⟩ => ?_
    rcases r with ⟨ret, f'⟩
    have failed : (do
        releaseAllLocks
        pure ret : M g InternalStatus).Keeps SlowInTable s₁ fun _ s' => s'.SlowInTable :=
      (Quietly.releaseAllLocks.keeps inv₁).bind fun _ s₂ ⟨inv₂, _⟩ => .pure inv₂ inv₂
    cases ret with
    | ok => exact createLeafAtBitmap_keeps inv₁ (inTable₁ rfl) symbol_le kv
    | _ => exact failed
  · exact .ite (fun _ => .pure inv inv) fun _ => splitLeaf_keeps inv inTable kv _ _
  · exact createLeafAtBitmap_keeps inv inTable symbol_le kv

theorem insertBelowRoot_keeps {t₀ : Trie g} (inv : s.SlowInTable) (init : initFinger t₀ = some f)
    (kv : CtKv) (isUpsert : Bool) :
    (insertBelowRoot f kv isUpsert).Keeps SlowInTable s fun _ s' => s'.SlowInTable := by
  refine Prog.Keeps.bind (Q := fun r s' => s' = s ∧ r.1.InTable g ∧ r.2.getD 0 ≤ fanout)
    (.find inv fun r walk => ⟨rfl, Finger.InTable.descend init walk⟩) ?_
  rintro ⟨f', symbol⟩ s ⟨rfl, inTable, symbol_le⟩
  refine (createLeaf_keeps inv inTable symbol_le kv).bind fun result s₁ inv₁ => ?_
  refine .ite (fun _ => ?_) fun _ => .pure inv₁ inv₁
  refine ((Quietly.upgradeLock _).keeps inv₁).bind fun ret s₂ ⟨inv₂, _⟩ => ?_
  cases ret with
  | ok =>
    refine (updateEntry_inTable inv₂ inTable.containingEntry _).bind fun _ s₃ ⟨inv₃, _⟩ => ?_
    exact (Quietly.releaseAllLocks.keeps inv₃).bind fun _ s₄ ⟨inv₄, _⟩ => .pure inv₄ inv₄
  | _ => exact .pure inv₂ inv₂

theorem storeMinLeafNext_stays (change : Locator → Locator) :
    Stays B (storeMinLeafNext change : M g Unit) fun _ => True := Stays.storeField _ _

theorem createRoot_stays (kv : CtKv) :
    Stays Set.univ (createRoot kv : M g InternalStatus) fun _ => True := by
  have finish : ∀ ret : InternalStatus, Stays Set.univ (do
      releaseAllLocks
      pure ret : M g InternalStatus) fun _ => True := fun ret =>
    (Stays.quietly Quietly.releaseAllLocks).bind fun _ _ => .pure trivial
  have rest : Stays Set.univ (do
      let t ← getTrie
      if !t.isEmpty then
        releaseAllLocks
        pure .exist
      else
        writeEntry ⟨hashToBucket hashStartValue, 0⟩
          ⟨invalidColor, false, false, rootColor, hashToTag hashStartValue, 0,
            .leaf kv ⟨endOfList, 0, 0⟩⟩
        storeMinLeafNext fun l => { l with primaryBucket := hashToBucket hashStartValue }
        storeMinLeafNext fun l => { l with tag := hashToTag hashStartValue }
        storeMinLeafNext fun l => { l with color := rootColor }
        storeNotEmpty
        releaseAllLocks
        pure .ok : M g InternalStatus) fun _ => True := by
    refine Stays.getTrie.bind fun t _ => .ite (fun _ => finish _) fun _ => ?_
    refine (Stays.writeEntry (Set.mem_univ _) _).bind fun _ _ => ?_
    refine (storeMinLeafNext_stays _).bind fun _ _ => (storeMinLeafNext_stays _).bind fun _ _ => ?_
    refine (storeMinLeafNext_stays _).bind fun _ _ => ?_
    have opened : Stays Set.univ (storeNotEmpty : M g Unit) fun _ => True :=
      fun _ => .update ⟨rfl, fun _ _ => rfl⟩ trivial
    exact opened.bind fun _ _ => finish _
  refine (Stays.quietly (Quietly.writeLockBucket _)).bind fun taken _ => ?_
  exact .ite (fun _ => (Stays.find (Q := fun _ => True) fun _ _ _ => trivial).bind fun _ _ => rest)
    fun _ => rest

theorem ctInsertInternal_keeps (inv : s.SlowInTable) (kv : CtKv) (isUpsert : Bool) :
    (ctInsertInternal kv isUpsert : M g InternalStatus).Keeps SlowInTable s fun _ s' =>
      s'.SlowInTable := by
  have locks : Stays Set.univ (initLockMgr : M g Unit) fun _ => True :=
    Stays.bind (Q := fun _ => True) (fun _ => .update ⟨rfl, fun _ _ => rfl⟩ trivial) fun _ _ =>
      .quietly (Quietly.recordLocks _)
  refine (locks.keeps inv).bind fun _ s₁ ⟨_, inv₁, _⟩ => ?_
  refine Prog.Keeps.bind (Q := fun t s' => s' = s₁) (.read inv₁ rfl) ?_
  rintro t s₁ rfl
  split
  · next f init => exact insertBelowRoot_keeps inv₁ init kv isUpsert
  · refine ((createRoot_stays kv).keeps inv₁).bind fun ret s₂ ⟨_, inv₂, _⟩ => ?_
    cases ret with
    | exist =>
      refine Prog.Keeps.bind (Q := fun f s' => s' = s₂ ∧ initFinger s₂.trie = some f)
        (.find inv₂ fun f init => ⟨rfl, init⟩) ?_
      rintro f s₂ ⟨rfl, init⟩
      exact insertBelowRoot_keeps inv₂ init kv isUpsert
    | _ => exact .pure inv₂ inv₂

theorem insertLoop_keeps (inv : s.SlowInTable) (kv : CtKv) (isUpsert : Bool) (fuel : ℕ) :
    (insertLoop kv isUpsert fuel : M g InternalStatus).Keeps SlowInTable s fun _ s' =>
      s'.SlowInTable := by
  induction fuel generalizing s with
  | zero => exact .hang inv
  | succ fuel ih =>
    refine (ctInsertInternal_keeps inv kv isUpsert).bind fun ret s₁ inv₁ => ?_
    cases ret with
    | retry => exact ih inv₁
    | _ => exact .pure inv₁ inv₁

/-- **An insert never searches for the list head**: on any memory and whatever the other
threads do, the copies `update_entry` searches for again are copies of cells of the table. -/
theorem ctInsert_keeps (inv : s.SlowInTable) (kv : CtKv) (fuel : ℕ) :
    (ctInsert kv fuel : M g Status).Keeps SlowInTable s fun _ s' => s'.SlowInTable := by
  refine .ite (fun _ => .pure inv inv) fun _ => ?_
  refine (insertLoop_keeps inv kv false fuel).bind fun ret s₁ inv₁ => ?_
  cases ret with
  | _ => exact .pure inv₁ inv₁

theorem ctUpsert_keeps (inv : s.SlowInTable) (kv : CtKv) (fuel : ℕ) :
    (ctUpsert kv fuel : M g (Status × Option Bool)).Keeps SlowInTable s fun _ s' =>
      s'.SlowInTable := by
  refine .ite (fun _ => .pure inv inv) fun _ => ?_
  refine (insertLoop_keeps inv kv true fuel).bind fun ret s₁ inv₁ => ?_
  cases ret with
  | _ => exact .pure inv₁ inv₁

/-! ## The entry an update hits -/

theorem init_slowInTable (t : Trie g) (env : ℕ → Bool) : (Sys.init t env).SlowInTable :=
  fun _ mem => nomatch mem

/-- The copies an insert searches for again. -/
theorem slowUpdates_ne_minLeaf {f : M g α} {env : ℕ → Bool} {Q : α → Sys g → Prop}
    (keeps : f.Keeps SlowInTable (Sys.init t env) Q) :
    ∀ lc ∈ (f.run (Sys.init t env)).2.slowUpdates, lc.lastPos ≠ trieMinLeaf g := by
  intro lc mem same
  have inside := keeps.1 lc mem
  rw [same] at inside
  exact lt_irrefl _ inside

/-- **`update_entry` hits the right entry.**  Through a copy of an entry, and after any
sequence of relocations and of writes to other entries, it writes the one cell that holds
this entry then, with the flag of this cell, and nothing else; the copy it leaves is valid
and is written in place by the next update.  In an insert into any memory, with whatever the
other threads do, the copy of the list head is never searched for. -/
theorem update_hits_entry {s : Sys g} {loc : Loc} {h c : ℕ} {v : Entry} (table : t.Searchable)
    (at_ : t.At loc h c) (moves : Relation.ReflTransGen (Trie.Rewrites h c) t s.trie)
    (window : ∀ b, s.trie.seq b < t.seq b + 2 ^ 23) (tag : v.tag = (t.cells loc).tag)
    (color : v.color = (t.cells loc).color) (secondary : v.secondary = (t.cells loc).secondary) :
    (∃ loc', s.trie.Sole loc' h c ∧
      (loc'.bucket = if (s.trie.cells loc').secondary
        then g.mixBucket (hashToBucket h) (hashToTag h) else hashToBucket h) ∧
      (updateEntry (t.localCopy loc (hashToBucket h)) v).Returns s fun lc s' =>
        s'.trie = s.trie.write loc' { v with secondary := (s.trie.cells loc').secondary } ∧
        s'.trie.Sole loc' h c ∧ lc = s'.trie.localCopy loc' (hashToBucket h) ∧
        ((validateEntry lc).Returns s' fun ok s'' => ok = true ∨ Denied s' s'') ∧
        ∀ v', (updateEntry lc v').Returns s' fun lc' s'' =>
          s''.trie = s'.trie.write loc' v' ∧ lc' = s''.trie.localCopy loc' (hashToBucket h)) ∧
    ∀ (memory : Trie g) (env : ℕ → Bool) (kv : CtKv) (fuel : ℕ),
      (∀ lc ∈ ((ctInsert kv fuel).run (Sys.init memory env)).2.slowUpdates,
        lc.lastPos ≠ trieMinLeaf g) ∧
      ∀ lc ∈ ((ctUpsert kv fuel).run (Sys.init memory env)).2.slowUpdates,
        lc.lastPos ≠ trieMinLeaf g := by
  refine ⟨?_, fun memory env kv fuel =>
    ⟨slowUpdates_ne_minLeaf (ctInsert_keeps (init_slowInTable memory env) kv fuel),
      slowUpdates_ne_minLeaf (ctUpsert_keeps (init_slowInTable memory env) kv fuel)⟩⟩
  have start := table.sole at_
  have follows := (LocalCopy.Follows.start start).run moves
  obtain ⟨loc', sole⟩ := follows.sole
  have names : Names g loc' { v with secondary := (s.trie.cells loc').secondary } h c := by
    have here := (cellHash_eq_iff sole.here.tag sole.here.inTable).mp sole.here.hash
    have first := (cellHash_eq_iff start.here.tag start.here.inTable).mp start.here.hash
    exact sole.here.congr (tag.trans (first.1.trans here.1.symm))
      (color.trans (start.here.color.trans sole.here.color.symm)) rfl
  refine ⟨loc', sole, sole.here.bucket, ?_⟩
  refine (follows.updateEntry sole (window loc.bucket) secondary).weaken ?_
  rintro lc s' - ⟨written, rfl⟩
  refine ⟨written, written ▸ sole.write names, rfl, ?_, fun v' =>
    updateEntry_localCopy s' loc' (hashToBucket h) v'⟩
  refine (Quietly.validateEntry_spec _ s').weaken fun ok s'' _ outcome => ?_
  rcases outcome.2 with ⟨ok, -⟩ | ⟨-, denied⟩
  · exact Or.inl ok
  · exact Or.inr (denied (entryUnchanged_localCopy s'.trie loc' (hashToBucket h)))

/-- A leaf is marked dirty through a copy that is older than a write to another leaf. -/
theorem update_hits_entry_small :
    ∃ loc', (updateEntry (smallTrie.localCopy ⟨2, 0⟩ (hashToBucket 32))
        { smallTrie.cells ⟨2, 0⟩ with dirty := true }).Returns
      (Sys.init (smallTrie.write ⟨34, 0⟩ { smallTrie.cells ⟨34, 0⟩ with dirty := true }) alone)
      fun lc s' => s'.trie.Sole loc' 32 0 ∧ lc = s'.trie.localCopy loc' (hashToBucket 32) := by
  have table := smallTrie_wellFormed.searchable
  have at_ : smallTrie.At ⟨2, 0⟩ 32 0 :=
    ⟨by decide +kernel, by decide +kernel, by decide +kernel, by decide +kernel⟩
  have other : cellHash smallGeometry ⟨34, 0⟩ (smallTrie.cells ⟨34, 0⟩) ≠ 32 := by decide +kernel
  have step : Trie.Rewrites 32 0 smallTrie
      (smallTrie.write ⟨34, 0⟩ { smallTrie.cells ⟨34, 0⟩ with dirty := true }) :=
    .write (fun names => other names.hash) fun names => other names.hash
  obtain ⟨⟨loc', -, -, update⟩, -⟩ := @update_hits_entry smallGeometry smallTrie
    (Sys.init (smallTrie.write ⟨34, 0⟩ { smallTrie.cells ⟨34, 0⟩ with dirty := true }) alone)
    ⟨2, 0⟩ 32 0 { smallTrie.cells ⟨2, 0⟩ with dirty := true } table at_ (.single step)
    (fun b => lt_of_le_of_lt (Trie.seq_write smallTrie _ _ b).2 (by omega)) rfl rfl rfl
  exact ⟨loc', update.weaken fun _ _ _ h => ⟨h.2.1, h.2.2.1⟩⟩

end CuckooTrie
