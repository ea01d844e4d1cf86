import CuckooTrie.PrefixOrder
import CuckooTrie.Split
import CuckooTrie.SymbolOrder

/-!
# The path a leaf is split into

The loop of `split_leaf` that walks the common symbols of two keys builds a chain
of jump nodes, each but the last one full (`Builds`), and stops at the first symbol
in which the keys differ (`walk_spec`).  The local buffer for these nodes and the
bitmap has one place too few for the longest chain (`split_path_fits_iff`).
-/

namespace CuckooTrie

variable {g : Geometry} {p q r P Q : List ℕ} {a b : CtKv}

/-! ## Where two keys part -/

/-- Two keys part after some common symbols. -/
theorem exists_parting {a b : List UInt8} (ne : a ≠ b) :
    ∃ P e n, e ≠ n ∧ P ++ [e] <+: keySymbols a ∧ P ++ [n] <+: keySymbols b :=
  PrefixOrder.exists_split (fun h => ne (keySymbols_eq_of_isPrefix h))
    fun h => ne (keySymbols_eq_of_isPrefix h).symm

/-- The symbol of a key after one of its prefixes. -/
theorem getStringSymbol_of_isPrefix {bytes : List UInt8} {s : ℕ}
    (h : P ++ [s] <+: keySymbols bytes) : getStringSymbol bytes P.length = s := by
  have inside : P.length < numKeySymbols bytes := by
    have := h.length_le
    rw [List.length_append, length_keySymbols, List.length_singleton] at this
    omega
  have at_ := (PrefixOrder.concat_prefix_iff ((List.prefix_append _ _).trans h)).mp h
  rw [getElem?_keySymbols inside] at at_
  exact Option.some.inj at_

/-- A symbol that is followed by another one is not the END symbol. -/
theorem pos_of_isPrefix {bytes : List UInt8} {s s' : ℕ}
    (h : P ++ [s] ++ [s'] <+: keySymbols bytes) : 1 ≤ s := by
  by_contra zero
  have isEnd : s = symbolEnd := Nat.lt_one_iff.mp (not_le.mp zero)
  have mem : symbolEnd ∈ P ++ [s] := by simp [isEnd]
  have whole := eq_keySymbols_of_end_mem ((List.prefix_append _ _).trans h) mem
  have := h.length_le
  rw [← whole] at this
  simp at this

/-- Keys of an admissible size part before the last symbol they may have. -/
theorem length_parting_lt {a b : List UInt8} {e n : ℕ} (ha : a.length ≤ maxKeyBytes)
    (hb : b.length ≤ maxKeyBytes) (ne : e ≠ n) (he : P ++ [e] <+: keySymbols a)
    (hn : P ++ [n] <+: keySymbols b) : P.length < maxKeySymbols := by
  have count : ∀ {c : List UInt8} {s}, c.length ≤ 256 → P ++ [s] <+: keySymbols c →
      ¬ P.length < 410 → s = symbolEnd := by
    intro c s small h long
    have fits := h.length_le
    have symbols := numKeySymbols_eq c
    rw [List.length_append, length_keySymbols, List.length_singleton] at fits
    have last : P.length + 1 = numKeySymbols c := by omega
    have at_ := getElem?_keySymbols_eq_end_iff.mpr last
    rw [getElem?_keySymbols (by omega)] at at_
    exact (getStringSymbol_of_isPrefix h).symm.trans (Option.some.inj at_)
  by_contra long
  exact ne ((count ha he long).trans (count hb hn long).symm)

/-! ## The chain of jump nodes -/

namespace LeafPath

/-- A jump node of the chain, before its color, child color and greatest leaf are
known. -/
def jumpEntry (g : Geometry) (r seg : List ℕ) : Entry :=
  ⟨invalidColor, false, false, 0, hashToTag (g.prefixHash r), r.getLastD 0,
    .jump (seg.map (· - 1)) 0 default⟩

@[simp] theorem jumpSize_jumpEntry (r seg : List ℕ) :
    (jumpEntry g r seg).jumpSize = seg.length := by
  simp [jumpEntry, Entry.jumpSize, Body.jumpBits]

/-- The jump nodes lead from one position to another one, the last one listed first;
all but the last one are full. -/
inductive Builds (g : Geometry) (p : List ℕ) : List (Entry × ℕ) → List ℕ → Prop
  | nil : Builds g p [] p
  | cons {rest r seg} : Builds g p rest r →
      (∀ node ∈ rest.head?, node.1.jumpSize = maxJumpSymbols) →
      seg ≠ [] → seg.length ≤ maxJumpSymbols → (∀ s ∈ seg, 1 ≤ s ∧ s ≤ fanout) →
      Builds g p ((jumpEntry g r seg, g.prefixHash r) :: rest) (r ++ seg)

/-- The number of symbols in the last jump node of a chain. -/
def lastJumpSize : List (Entry × ℕ) → ℕ
  | [] => 0
  | (node, _) :: _ => node.jumpSize

theorem Builds.length_eq {nodes : List (Entry × ℕ)} (builds : Builds g p nodes q) :
    q.length = p.length + maxJumpSymbols * nodes.tail.length + lastJumpSize nodes ∧
      (nodes ≠ [] → 1 ≤ lastJumpSize nodes) ∧ lastJumpSize nodes ≤ maxJumpSymbols := by
  induction builds with
  | nil => simp [lastJumpSize]
  | @cons rest r seg _ full hne short _ ih =>
    have positive := List.length_pos_iff.mpr hne
    simp only [lastJumpSize, jumpSize_jumpEntry, List.length_append, List.tail_cons]
    refine ⟨?_, fun _ => positive, short⟩
    obtain ⟨length, -, -⟩ := ih
    cases rest with
    | nil => simpa [lastJumpSize] using length
    | cons node rest =>
      have whole : lastJumpSize (node :: rest) = maxJumpSymbols := full node rfl
      rw [length, whole, List.tail_cons, List.length_cons]
      ring

/-- **A chain has a node for each eight symbols**, rounded up. -/
theorem Builds.length_nodes {nodes : List (Entry × ℕ)} (builds : Builds g p nodes q) :
    p.length ≤ q.length ∧
      nodes.length = (q.length - p.length + (maxJumpSymbols - 1)) / maxJumpSymbols := by
  obtain ⟨length, positive, short⟩ := builds.length_eq
  change _ = _ + 8 * _ + _ at length
  change _ ≤ 8 at short
  change _ ∧ _ = (q.length - p.length + 7) / 8
  cases nodes with
  | nil =>
    simp only [lastJumpSize, List.tail_nil, List.length_nil] at *
    omega
  | cons node rest =>
    have one := positive (List.cons_ne_nil _ _)
    rw [List.tail_cons] at length
    rw [List.length_cons]
    omega

/-- The state of the loop after it has walked from one position to another one. -/
structure Walked (g : Geometry) (p q : List ℕ) (path : LeafPath) : Prop where
  builds : Builds g p path.nodes q
  prefixLen : path.prefixLen = q.length
  prefixHash : path.prefixHash = g.prefixHash q
  lastSymbol : path.lastSymbol = q.getLastD 0

/-- **One iteration of the loop.** -/
theorem Walked.extend {path : LeafPath} {s : ℕ} (walked : Walked g p q path)
    (range : 1 ≤ s ∧ s ≤ fanout) : Walked g p (q ++ [s]) (path.extend g s) := by
  obtain ⟨builds, prefixLen, prefixHash, lastSymbol⟩ := walked
  have one : ∀ s' ∈ [s], 1 ≤ s' ∧ s' ≤ fanout := fun s' mem => List.mem_singleton.mp mem ▸ range
  refine ⟨?_, by simp [LeafPath.extend, prefixLen], ?_, by simp [LeafPath.extend]⟩
  · by_cases needs : path.needsJump = true
    · -- a new jump node with one symbol
      have new : (path.extend g s).nodes = (jumpEntry g q [s], g.prefixHash q) :: path.nodes := by
        simp [LeafPath.extend, needs, newJump, jumpEntry, prefixHash, lastSymbol, Body.extendJump]
      rw [new]
      refine builds.cons (fun node mem => ?_) (List.cons_ne_nil _ _)
        (show 1 ≤ maxJumpSymbols by decide) one
      cases h : path.nodes with
      | nil => simp [h] at mem
      | cons top rest =>
        rw [h, List.head?_cons, Option.mem_some_iff] at mem
        subst mem
        simpa [needsJump, h] using needs
    · -- the last jump node gets one symbol more
      cases h : path.nodes with
      | nil => simp [needsJump, h] at needs
      | cons top rest =>
        rw [h] at builds
        cases builds with
        | @cons _ r seg inner full hne short range' =>
          have room : seg.length ≠ maxJumpSymbols := by simpa [needsJump, h] using needs
          have longer : (path.extend g s).nodes =
              (jumpEntry g r (seg ++ [s]), g.prefixHash r) :: rest := by
            simp [LeafPath.extend, needs, h, jumpEntry, Body.extendJump]
          rw [longer, List.append_assoc]
          refine inner.cons full (by simp) ?_ fun s' mem => ?_
          · rw [List.length_append, List.length_singleton]
            omega
          · rcases List.mem_append.mp mem with mem | mem
            · exact range' s' mem
            · exact one s' mem
  · rw [LeafPath.extend, prefixHash, g.prefixHash_concat]

/-- **The loop of `split_leaf`** stops where the keys part. -/
theorem walk_spec {e n : ℕ} (ne : e ≠ n) (he : P ++ [e] <+: keySymbols a.key)
    (hn : P ++ [n] <+: keySymbols b.key) {fuel : ℕ} {path : LeafPath} (walked : Walked g p Q path)
    (onPath : Q <+: P) (enough : P.length < fuel + Q.length) :
    ∃ path', walk g a b fuel path = some (path', e, n) ∧ Walked g p P path' := by
  induction fuel generalizing Q path with
  | zero => exact absurd onPath.length_le (by omega)
  | succ fuel ih =>
    rw [walk]
    simp only [getKeySymbol, walked.prefixLen]
    by_cases here : Q = P
    · subst here
      rw [getStringSymbol_of_isPrefix he, getStringSymbol_of_isPrefix hn]
      exact ⟨path, if_pos ne, walked⟩
    · obtain ⟨s, next⟩ := PrefixOrder.exists_concat onPath here
      have inA := next.trans ((List.prefix_append _ [e]).trans he)
      have inB := next.trans ((List.prefix_append _ [n]).trans hn)
      rw [getStringSymbol_of_isPrefix inA, getStringSymbol_of_isPrefix inB,
        if_neg (not_not.mpr rfl)]
      have positive : 1 ≤ s := by
        obtain ⟨s', after⟩ := PrefixOrder.exists_concat (next.trans (List.prefix_append P [e]))
          (fun same => by
            have := next.length_le
            rw [same] at this
            simp at this)
        exact pos_of_isPrefix (after.trans he)
      have small : s ≤ fanout := le_fanout_of_mem_keySymbols (inA.subset (by simp))
      refine ih (walked.extend ⟨positive, small⟩) next ?_
      rw [List.length_append, List.length_singleton]
      omega

end LeafPath

/-! ## The buffer of `split_leaf` -/

/-- What two keys have in common ends where they part. -/
theorem prefix_parting {x : List ℕ} {e n : ℕ} (ne : e ≠ n) (he : P ++ [e] <+: p)
    (hn : P ++ [n] <+: q) (hp : x <+: p) (hq : x <+: q) : x <+: P := by
  rcases PrefixOrder.comparable hp ((List.prefix_append P [e]).trans he) with short | long
  · exact short
  · by_cases same : P = x
    · exact same ▸ List.prefix_rfl
    · obtain ⟨s, next⟩ := PrefixOrder.exists_concat long same
      exact absurd ((PrefixOrder.concat_prefix_unique he (next.trans hp)).trans
        (PrefixOrder.concat_prefix_unique (next.trans hq) hn)) ne

/-- Two lists that part agree in their first elements up to there. -/
theorem take_eq_iff_parting {e n k : ℕ} (ne : e ≠ n) (he : P ++ [e] <+: p)
    (hn : P ++ [n] <+: q) : p.take k = q.take k ↔ k ≤ P.length := by
  constructor
  · intro same
    by_contra long
    have at_ : p[P.length]? = q[P.length]? := by
      rw [← List.getElem?_take_of_lt (not_le.mp long), same,
        List.getElem?_take_of_lt (not_le.mp long)]
    rw [(PrefixOrder.concat_prefix_iff ((List.prefix_append _ _).trans he)).mp he,
      (PrefixOrder.concat_prefix_iff ((List.prefix_append _ _).trans hn)).mp hn] at at_
    exact ne (Option.some.inj at_)
  · intro short
    have first : ∀ {l : List ℕ} {s}, P ++ [s] <+: l → l.take k = P.take k := by
      rintro l s ⟨rest, rfl⟩
      rw [List.append_assoc, List.take_append_of_le_length short]
    rw [first he, first hn]

/-- **The buffer of `split_leaf` is one place too short for one kind of input**: it
holds the jump nodes and the bitmap exactly when the leaf is not the root, or the
keys differ before the last symbol that two keys can have in common. -/
theorem split_path_fits_iff (g : Geometry) {existingKv kv : CtKv} {x : List ℕ}
    (hExisting : existingKv.key.length ≤ maxKeyBytes) (hNew : kv.key.length ≤ maxKeyBytes)
    (ne : existingKv.key ≠ kv.key) (onExisting : x <+: keySymbols existingKv.key)
    (onNew : x <+: keySymbols kv.key) :
    ∃ path existingKeySymbol newKeySymbol,
      LeafPath.walk g existingKv kv (numKeySymbols kv.key + 1)
        ⟨[], x.length, g.prefixHash x, x.getLastD 0⟩ =
          some (path, existingKeySymbol, newKeySymbol) ∧
      (path.addBitmap.length ≤ maxKeySymbols / maxJumpSymbols + 1 ↔
        x ≠ [] ∨ (keySymbols existingKv.key).take (maxKeySymbols - 1) ≠
          (keySymbols kv.key).take (maxKeySymbols - 1)) := by
  obtain ⟨P, e, n, differ, he, hn⟩ := exists_parting ne
  have short := length_parting_lt hExisting hNew differ he hn
  have inside := prefix_parting differ he hn onExisting onNew
  have enough : P.length < numKeySymbols kv.key + 1 + x.length := by
    have := hn.length_le
    rw [List.length_append, length_keySymbols, List.length_singleton] at this
    omega
  have start : LeafPath.Walked g x x ⟨[], x.length, g.prefixHash x, x.getLastD 0⟩ :=
    ⟨.nil, rfl, rfl, rfl⟩
  obtain ⟨path, walk, walked⟩ := LeafPath.walk_spec differ he hn start inside enough
  refine ⟨path, e, n, walk, ?_⟩
  have count := walked.builds.length_nodes.2
  rw [Ne, Ne, take_eq_iff_parting differ he hn, ← List.length_eq_zero_iff]
  have covered := inside.length_le
  change _ = (_ + 7) / 8 at count
  change _ < 410 at short
  change path.nodes.length + 1 ≤ 52 ↔ ¬ _ ∨ ¬ 409 ≤ _
  rw [count]
  omega

/-- Two keys of one byte under a root that is a leaf. -/
theorem split_path_fits_iff_bytes :
    ∃ path existingKeySymbol newKeySymbol,
      LeafPath.walk (.ctAlloc 256 (by decide) (by decide)) ⟨0, [0]⟩ ⟨1, [1]⟩
        (numKeySymbols [1] + 1) ⟨[], 0, 0, 0⟩ = some (path, existingKeySymbol, newKeySymbol) ∧
      (path.addBitmap.length ≤ maxKeySymbols / maxJumpSymbols + 1 ↔
        ([] : List ℕ) ≠ [] ∨
          (keySymbols [0]).take (maxKeySymbols - 1) ≠ (keySymbols [1]).take (maxKeySymbols - 1)) :=
  @split_path_fits_iff (.ctAlloc 256 (by decide) (by decide)) ⟨0, [0]⟩ ⟨1, [1]⟩ [] (by decide)
    (by decide) (by decide) List.nil_prefix List.nil_prefix

/-- A key of the greatest size, and one that differs from it in the last bit only. -/
def longKey (lastByte : UInt8) : CtKv := ⟨lastByte.toNat, List.replicate 255 0 ++ [lastByte]⟩

/-- The 409 common symbols of two such keys need 52 jump nodes, so the bitmap is
appended behind the buffer. -/
theorem split_path_overflow :
    ¬ ∀ (existingKv kv : CtKv) (x : List ℕ), existingKv.key.length ≤ maxKeyBytes →
      kv.key.length ≤ maxKeyBytes → existingKv.key ≠ kv.key → x <+: keySymbols existingKv.key →
      x <+: keySymbols kv.key → ∀ path existingKeySymbol newKeySymbol,
      LeafPath.walk (.ctAlloc 256 (by decide) (by decide)) existingKv kv
        (numKeySymbols kv.key + 1) ⟨[], x.length,
          (Geometry.ctAlloc 256 (by decide) (by decide)).prefixHash x, x.getLastD 0⟩ =
        some (path, existingKeySymbol, newKeySymbol) →
      path.addBitmap.length ≤ maxKeySymbols / maxJumpSymbols + 1 := by
  intro fits
  have run : ((LeafPath.walk (.ctAlloc 256 (by decide) (by decide)) (longKey 0) (longKey 1)
      (numKeySymbols (longKey 1).key + 1) ⟨[], 0, 0, 0⟩).map fun r => r.1.addBitmap.length) =
        some 53 := by
    decide +kernel
  obtain ⟨⟨path, e, n⟩, walk, length⟩ := Option.map_eq_some_iff.mp run
  have := fits (longKey 0) (longKey 1) [] (by decide +kernel) (by decide +kernel)
    (by decide +kernel) List.nil_prefix List.nil_prefix path e n walk
  rw [length] at this
  exact absurd this (by decide)

end CuckooTrie
