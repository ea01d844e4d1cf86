import CuckooTrie.Bookkeeping

/-!
# The slots a call needs

A finger stores at most one entry for each symbol it has passed, and `split_leaf` adds at
most one node for each further symbol that the two keys share.  Keys share less than
`MAX_KEY_SYMBOLS` symbols before they part, so the three more slots of the lock manager
are for the predecessor and two leaves.  They suffice for everything but the buckets on
the path of a relocation, which nothing bounds (`lock_table_fits_iff`).
-/

namespace CuckooTrie

open Sys

variable {g : Geometry} {t : Trie g} {L : Layout} {M : KeyMap} {kv : CtKv}

/-! ## The path of a finger -/

/-- A finger has passed a symbol for each entry of its path but the first, and one more
inside a jump node. -/
def Finger.Shallow (f : Finger) : Prop :=
  f.path.length + (if f.depthInJump = 0 then 0 else 1) ≤ f.prefixLen + 1

theorem initFinger_shallow {f : Finger} (init : initFinger t = some f) :
    f.Shallow ∧ f.prefixLen = 0 := by
  rw [initFinger] at init
  split at init
  · cases init
  · cases init
    exact ⟨le_rfl, rfl⟩

/-- A new node is stored, and the place inside it is its start. -/
theorem Finger.nodeChanged_shallow {f : Finger} (few : f.path.length ≤ f.prefixLen) :
    (f.nodeChanged true).Shallow := Nat.succ_le_succ few

theorem tryDescend_shallow {f f' : Finger} {symbol hash : ℕ} (shallow : f.Shallow)
    (descends : tryDescend t f symbol true hash = some (some f')) :
    f'.Shallow ∧ f'.prefixLen = f.prefixLen + 1 := by
  have few : f.path.length ≤ f.prefixLen + 1 := (Nat.le_add_right _ _).trans shallow
  obtain ⟨-, -, -, rfl⟩ | ⟨child, rfl, -⟩ := tryDescend_cases descends
  · exact ⟨Nat.succ_le_succ few, rfl⟩
  · exact ⟨Finger.nodeChanged_shallow few, rfl⟩

/-- The walk passes the symbols of the key at most, and all of them only if it does not
stop at one. -/
theorem descendLoop_shallow {fuel n : ℕ} {f : Finger} {p : KeyPrefetcher} {r : Finger × Option ℕ}
    (shallow : f.Shallow) (left : fuel + f.prefixLen = n)
    (descends : descendLoop t true fuel f p = some r) :
    r.1.Shallow ∧ (r.2 ≠ none → r.1.prefixLen < n) := by
  induction fuel generalizing f p with
  | zero => cases descends
  | succ fuel ih =>
    rw [descendLoop] at descends
    split at descends
    · cases descends
    · cases descends
      refine ⟨shallow, fun _ => ?_⟩
      simp only
      omega
    · next f' step =>
      obtain ⟨shallow', further⟩ := tryDescend_shallow shallow step
      split at descends
      · cases descends
        exact ⟨shallow', fun more => absurd rfl more⟩
      · exact ih shallow' (by omega) descends

/-! ## The nodes of a split leaf -/

theorem LeafPath.extend_length (p : LeafPath) (symbol : ℕ) :
    (p.extend g symbol).nodes.length ≤ p.nodes.length + 1 := by
  have added : (if p.needsJump then (p.newJump, p.prefixHash) :: p.nodes else p.nodes).length ≤
      p.nodes.length + 1 := by
    split <;> simp
  rw [extend]
  simp only
  split
  · exact Nat.zero_le _
  · next hnodes =>
    rw [hnodes] at added
    exact added

/-- The walk stops where the keys differ, with at most one node for each symbol before. -/
theorem LeafPath.walk_length {existingKv : CtKv} {fuel : ℕ} {p : LeafPath} {r : LeafPath × ℕ × ℕ}
    (walks : walk g existingKv kv fuel p = some r) :
    r.1.nodes.length + p.prefixLen ≤ p.nodes.length + r.1.prefixLen ∧
      getKeySymbol existingKv r.1.prefixLen ≠ getKeySymbol kv r.1.prefixLen := by
  induction fuel generalizing p with
  | zero => cases walks
  | succ fuel ih =>
    rw [walk] at walks
    split at walks
    · next differ =>
      cases walks
      exact ⟨le_rfl, differ⟩
    · obtain ⟨few, differ⟩ := ih walks
      have longer := p.extend_length (g := g) (getKeySymbol kv p.prefixLen)
      have further : (p.extend g (getKeySymbol kv p.prefixLen)).prefixLen = p.prefixLen + 1 := rfl
      exact ⟨by omega, differ⟩

/-- Keys of an admissible size differ at one of the first `MAX_KEY_SYMBOLS` symbols. -/
theorem lt_maxKeySymbols_of_ne {existingKv : CtKv} {i : ℕ}
    (hExisting : existingKv.key.length ≤ maxKeyBytes) (hNew : kv.key.length ≤ maxKeyBytes)
    (differ : getKeySymbol existingKv i ≠ getKeySymbol kv i) : i < maxKeySymbols := by
  by_contra beyond
  have far : 8 * maxKeyBytes ≤ 5 * i := by
    have : maxKeySymbols = 410 := rfl
    have : maxKeyBytes = 256 := rfl
    omega
  refine differ ?_
  rw [getKeySymbol, getKeySymbol, getStringSymbol_of_ge (by omega), getStringSymbol_of_ge (by omega)]

/-! ## Walks that end at a key -/

/-- Where a walk for a key may end: at a leaf, whose key is admissible and, if nothing is
left of the key, the key itself, or at a symbol that an inner node does not go on with. -/
def Body.EndsAtKey (body : Body) (symbol : Option ℕ) (kv : CtKv) : Prop :=
  match body with
  | .leaf leafKv _ =>
    leafKv.key.length ≤ maxKeyBytes ∧ (symbol = none → kvKeyCompare leafKv kv = 0)
  | _ => symbol ≠ none

instance (symbol : Option ℕ) (kv : CtKv) : (body : Body) → Decidable (body.EndsAtKey symbol kv)
  | .leaf leafKv _ => inferInstanceAs (Decidable (leafKv.key.length ≤ maxKeyBytes ∧
      (symbol = none → kvKeyCompare leafKv kv = 0)))
  | .bitmap _ _ _ => inferInstanceAs (Decidable (symbol ≠ none))
  | .jump _ _ _ => inferInstanceAs (Decidable (symbol ≠ none))
  | .unused => inferInstanceAs (Decidable (symbol ≠ none))

/-- The walk for a key ends as it does in a trie with admissible keys. -/
def Trie.EndsAtKey (t : Trie g) (kv : CtKv) : Prop :=
  ∀ f ∈ initFinger t, ∀ r ∈ descend t f kv.key true,
    r.1.containingEntry.value.body.EndsAtKey r.2 kv

instance (t : Trie g) (kv : CtKv) : Decidable (t.EndsAtKey kv) :=
  inferInstanceAs (Decidable (∀ f ∈ initFinger t, ∀ r ∈ descend t f kv.key true,
    r.1.containingEntry.value.body.EndsAtKey r.2 kv))

/-- **The slots suffice** where walks end at keys. -/
theorem Trie.EndsAtKey.slotsFit (ends : t.EndsAtKey kv) (short : kv.key.length ≤ maxKeyBytes) :
    t.SlotsFit kv maxLocks := by
  intro f init r walk
  obtain ⟨shallow, start⟩ := initFinger_shallow init
  have end_ := ends f init r walk
  obtain ⟨shallow, stops⟩ := descendLoop_shallow shallow (by rw [start, Nat.add_zero]) walk
  have symbols : numKeySymbols kv.key ≤ maxKeySymbols + 1 := by
    have : numKeySymbols kv.key = (kv.key.length * 8 + 5 - 1) / 5 + 1 := rfl
    have : maxKeySymbols = 410 := rfl
    have : maxKeyBytes = 256 := rfl
    omega
  have slots : maxLocks = maxKeySymbols + 3 := rfl
  rw [Finger.Shallow] at shallow
  rw [Finger.SlotsFit]
  cases body : r.1.containingEntry.value.body with
  | jump jumpBits childColor maxLeaf =>
    rw [body] at end_
    have stopped := stops end_
    exact_mod_cast (by omega)
  | leaf leafKv nextLeaf =>
    rw [body] at end_
    intro differ
    have stopped := stops fun whole => differ (end_.2 whole)
    refine ⟨by exact_mod_cast (by omega), fun r' walks => ?_⟩
    obtain ⟨few, parted⟩ := LeafPath.walk_length walks
    have inside := lt_maxKeySymbols_of_ne end_.1 short parted
    simp only [List.length_nil, Nat.zero_add] at few
    exact_mod_cast (by omega)
  | bitmap childBitmap maxChild maxLeaf =>
    rw [body] at end_
    have stopped := stops end_
    exact_mod_cast (by omega)
  | unused =>
    rw [body] at end_
    have stopped := stops end_
    exact_mod_cast (by omega)

/-- Walks in a trie for a map with admissible keys end at keys. -/
theorem Layout.Readable.endsAtKey (readable : L.Readable t M)
    (short : ∀ kv ∈ M, kv.key.length ≤ maxKeyBytes) (kv : CtKv) : t.EndsAtKey kv := by
  intro f init r walk
  have nonempty : M.kvs ≠ [] := by
    intro empty
    rw [initFinger_empty readable empty] at init
    cases init
  obtain ⟨f₀, n, init₀, at_⟩ := initFinger_spec readable nonempty true
  rw [init] at init₀
  cases init₀
  obtain ⟨f', symbol, walk', exits⟩ := descend_spec readable at_ kv.key
  rw [walk] at walk'
  cases walk'
  have isLeaf : symbol = none → ∃ kv' ∈ M, kv'.key = kv.key ∧
      f'.containingEntry.value.body.isLeaf = true ∧ f'.containingEntry.value.body.kv = kv' := by
    rintro rfl
    exact exits_end readable.shape exits
  cases body : f'.containingEntry.value.body with
  | leaf leafKv nextLeaf =>
    rw [body] at isLeaf
    refine ⟨?_, fun whole => ?_⟩
    · obtain ⟨p, n, x, at', -⟩ := exits
      have isNode := at'.entry.body
      rw [body] at isNode
      cases n with
      | leaf kv' =>
        cases isNode
        exact short _ (readable.shape.leaf p leafKv at'.position.node).1
      | bitmap children => cases isNode
      | jump symbols => cases isNode
    · obtain ⟨kv', -, key, -, same⟩ := isLeaf whole
      exact kvKeyCompareTo_eq_zero_iff.mpr ((congrArg CtKv.key same).trans key)
  | bitmap childBitmap maxChild maxLeaf =>
    rintro whole
    obtain ⟨kv', -, -, leaf, -⟩ := isLeaf whole
    rw [body] at leaf
    cases leaf
  | jump jumpBits childColor maxLeaf =>
    rintro whole
    obtain ⟨kv', -, -, leaf, -⟩ := isLeaf whole
    rw [body] at leaf
    cases leaf
  | unused =>
    rintro whole
    obtain ⟨kv', -, -, leaf, -⟩ := isLeaf whole
    rw [body] at leaf
    cases leaf

end CuckooTrie
