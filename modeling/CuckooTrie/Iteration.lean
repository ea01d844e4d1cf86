import CuckooTrie.Iterator
import CuckooTrie.Predecessors

/-!
# Range iteration is exact

`ct_iter_goto` finds the place just before the start key by falling off the trie
and choosing a left neighbour (`gotoTarget_spec`); one round of it, on any memory
a reader may see, asks to be repeated or lands on the first key that is not
before the start key (`gotoRound_spec`).  On a well-formed trie the first round
succeeds, and from there `ct_iter_next` follows the list of leaves
(`ctIterNexts_spec`).
-/

namespace CuckooTrie

open Sys

variable {g : Geometry} {t : Trie g} {L : Layout} {M : KeyMap} {p q x : List ℕ} {n : Node}

/-! ## The first object not before a key -/

theorem KeyMap.first_eq_atLeast {key : List UInt8} (none : M.before key = none) :
    (M.first fun _ => True) = M.atLeast key := by
  have all : ∀ kv ∈ M, key ≤ kv.key := fun kv mem =>
    not_lt.mp (last_eq_none_iff.mp none kv mem)
  cases least : M.atLeast key with
  | none =>
    refine first_eq_none_iff.mpr fun kv mem => ?_
    exact absurd (all kv mem) (first_eq_none_iff.mp least kv mem)
  | some kv =>
    obtain ⟨mem, -, min⟩ := first_eq_some_iff.mp least
    exact first_eq_some_iff.mpr ⟨mem, trivial, fun kv' mem' _ => min kv' mem' (all kv' mem')⟩

theorem KeyMap.after_before {key : List UInt8} {kv : CtKv} (before : M.before key = some kv) :
    M.after kv.key = M.atLeast key := by
  obtain ⟨mem, less, max⟩ := last_eq_some_iff.mp before
  have same : ∀ kv' ∈ M, (kv.key < kv'.key ↔ key ≤ kv'.key) := by
    intro kv' mem'
    constructor
    · intro h
      by_contra notLe
      exact absurd (max kv' mem' (not_le.mp notLe)) (not_le.mpr h)
    · exact fun h => lt_of_lt_of_le less h
  cases least : M.atLeast key with
  | none =>
    refine first_eq_none_iff.mpr fun kv' mem' h => ?_
    exact first_eq_none_iff.mp least kv' mem' ((same kv' mem').mp h)
  | some kv' =>
    obtain ⟨mem', le, min⟩ := first_eq_some_iff.mp least
    exact first_eq_some_iff.mpr ⟨mem', (same kv' mem').mpr le, fun kv'' mem'' h =>
      min kv'' mem'' ((same kv'' mem'').mp h)⟩

/-! ## The lowest bitmap above a node -/

/-- The position of the lowest bitmap in a path. -/
def lastBitmapPos : List PathEntry → Option ℕ
  | [] => none
  | e :: above => if e.entry.value.body.isBitmap then some (above.length + 1) else lastBitmapPos above

/-- The lowest bitmap above a node, and its child on the way to the node: every
object below that child is below the node. -/
theorem lastBitmapPos_spec (shape : L.Shape M) {path : List PathEntry} (spine : Spine t L p path) :
    match lastBitmapPos path.tail with
    | none => ∀ kv ∈ M, KeyMap.Below p kv
    | some k => ∃ b children s, k < path.length ∧ Spine t L b (path.drop (path.length - k)) ∧
        L.node b = some (.bitmap children) ∧ b ++ [s] <+: p ∧
        (∀ kv ∈ M, KeyMap.Below (b ++ [s]) kv → KeyMap.Below p kv) ∧
        ((path.drop (path.length - (k + 1))).headD default).entry.value.lastSymbol = s := by
  induction spine with
  | root hn d hash => exact fun kv _ => List.nil_prefix
  | @child q p e above n spine child hn d hash ih =>
    obtain ⟨e', above', n', rfl, hn', d', -⟩ := spine.head
    cases child with
    | @bitmap children s hq bit =>
      rw [hq] at hn'
      cases hn'
      have isBitmap : e'.entry.value.body.isBitmap = true := by rw [d'.body]; rfl
      simp only [List.tail_cons, lastBitmapPos, isBitmap, if_true]
      refine ⟨q, children, s, by simp, ?_, hq, List.prefix_rfl, fun kv _ below => below, ?_⟩
      · rw [show (e :: e' :: above').length - (above'.length + 1) = 1 by simp]
        exact spine
      · rw [show (e :: e' :: above').length - (above'.length + 1 + 1) = 0 by simp]
        simpa using d.content.lastSymbol
    | @jump symbols hq =>
      rw [hq] at hn'
      cases hn'
      have isBitmap : e'.entry.value.body.isBitmap = false := by rw [d'.body]; rfl
      simp only [List.tail_cons, lastBitmapPos, isBitmap, Bool.false_eq_true, if_false] at ih ⊢
      cases found : lastBitmapPos above' with
      | none =>
        rw [found] at ih
        exact fun kv mem => shape.jump_below hq mem (ih kv mem)
      | some k =>
        rw [found] at ih
        obtain ⟨b, children, s, lt, spine', hb, onPath, below, last⟩ := ih
        refine ⟨b, children, s, lt.trans (Nat.lt_succ_self _), ?_, hb,
          onPath.trans (List.prefix_append _ _), fun kv mem h =>
            shape.jump_below hq mem (below kv mem h), ?_⟩
        · rw [List.length_cons, Nat.succ_sub lt.le, List.drop_succ_cons]
          exact spine'
        · rw [List.length_cons, Nat.succ_sub lt, List.drop_succ_cons]
          exact last

/-! ## Going to a key -/

/-- Where the walk of `ct_iter_goto_internal` ends. -/
def Finger.GotoExits (f : Finger) (t : Trie g) (L : Layout) (keyBytes : List UInt8) (symbol : ℕ)
    (lastBitmap : Option ℕ) : Prop :=
  ∃ p n x, f.AtPosition t L p n x true ∧
    (x = keySymbols keyBytes ∨
      x ++ [symbol] <+: keySymbols keyBytes ∧ ¬ n.Continues f.depthInJump symbol) ∧
    (n.isInner = false ∨ (∃ symbols, n = .jump symbols) → lastBitmap = lastBitmapPos f.path.tail)

theorem isBitmap_iff {lc : LocalCopy} (d : lc.Describes t L p n) :
    lc.value.body.isBitmap = true ↔ ∃ children, n = .bitmap children := by
  rw [d.body]
  cases n <;> simp [Layout.body, Body.isBitmap]

/-- The position of the lowest bitmap after a step down. -/
theorem lastBitmapPos_step {f f' : Finger} {s hash : ℕ} (at_ : f.AtPosition t L p n x true)
    (step : tryDescend t f s true hash = some (some f')) :
    lastBitmapPos f'.path.tail = lastBitmapPos f.path := by
  obtain ⟨isJump, -, -, rfl⟩ | ⟨child, rfl, -⟩ := tryDescend_cases step
  · -- inside a jump node the head of the path is that node
    obtain ⟨e, above, m, path, hm, d, -⟩ := (at_.spine rfl).head
    rw [at_.position.node] at hm
    cases hm
    have same : e.entry.value.body = f.containingEntry.value.body :=
      d.body.trans at_.entry.body.symm
    have notBitmap : e.entry.value.body.isBitmap = false := by
      rw [same]
      cases body : f.containingEntry.value.body with
      | bitmap bits maxChild maxLeaf =>
        rw [body] at isJump
        cases isJump
      | _ => rfl
    change lastBitmapPos f.path.tail = lastBitmapPos f.path
    simp only [path, lastBitmapPos, notBitmap, Bool.false_eq_true, if_false, List.tail_cons]
  · rfl

theorem gotoLoop_spec (readable : L.Readable t M) {keyBytes : List UInt8} {fuel k : ℕ} (symbol : ℕ)
    {f : Finger} {pf : KeyPrefetcher} {lastBitmap : Option ℕ} (at_ : f.AtPosition t L p n x true)
    (isPrefix : x <+: keySymbols keyBytes) (left : fuel + x.length = (keySymbols keyBytes).length)
    (prefetched : pf.Prefetched g keyBytes k) (ahead : x.length ≤ k)
    (lowest : lastBitmap = lastBitmapPos f.path.tail) :
    ∃ f' symbol' lastBitmap',
      gotoLoop t fuel f pf symbol lastBitmap = some (f', symbol', lastBitmap') ∧
      f'.GotoExits t L keyBytes symbol' lastBitmap' := by
  induction fuel generalizing f pf k p n x lastBitmap symbol with
  | zero =>
    refine ⟨f, symbol, lastBitmap, rfl, p, n, x, at_, Or.inl ?_, fun _ => lowest⟩
    exact isPrefix.eq_of_length (by omega)
  | succ fuel ih =>
    obtain ⟨s, k', extended, -, prefetched', ahead', next, hash⟩ :=
      nextSymbol_spec at_ isPrefix (by omega) prefetched ahead
    obtain ⟨moves, stops⟩ := tryDescend_spec readable at_ (s := s)
    have longer : (x ++ [s]).length = x.length + 1 := by simp
    have depth : (keySymbols keyBytes).length - (fuel + 1) = f.prefixLen := by
      rw [at_.prefixLen]
      omega
    by_cases goesOn : n.Continues f.depthInJump s
    · obtain ⟨f', p', n', step, at'⟩ := moves goesOn
      have lowest' : (if f.containingEntry.value.body.isBitmap then some f.path.length
          else lastBitmap) = lastBitmapPos f'.path.tail := by
        rw [lastBitmapPos_step at_ step]
        obtain ⟨e, above, m, path, hm, d, -⟩ := (at_.spine rfl).head
        rw [at_.position.node] at hm
        cases hm
        have same : e.entry.value.body.isBitmap = f.containingEntry.value.body.isBitmap := by
          rw [d.body, at_.entry.body]
        rw [lowest, path]
        simp only [lastBitmapPos, same, List.length_cons, List.tail_cons]
      obtain ⟨f'', symbol', lastBitmap', rest, exits⟩ :=
        ih s at' extended (by omega) prefetched' (by omega) lowest'
      refine ⟨f'', symbol', lastBitmap', ?_, exits⟩
      rw [gotoLoop]
      simp only [prefetched.symbols, depth, next, hash, step]
      exact rest
    · refine ⟨f, s, if f.containingEntry.value.body.isBitmap then some f.path.length
        else lastBitmap, ?_, p, n, x, at_, Or.inr ⟨extended, goesOn⟩, ?_⟩
      · rw [gotoLoop]
        simp only [prefetched.symbols, depth, next, hash, stops goesOn]
      · intro notBitmap
        have isBitmap : ¬ f.containingEntry.value.body.isBitmap = true := by
          rw [isBitmap_iff at_.entry]
          rintro ⟨children, rfl⟩
          rcases notBitmap with inner | ⟨symbols, eq⟩
          · cases inner
          · cases eq
        rw [if_neg isBitmap, lowest]

/-- What the decision of `ct_iter_goto_internal` says about the map. -/
def GotoTarget.Right (t : Trie g) (L : Layout) (M : KeyMap) (key : List UInt8) : GotoTarget → Prop
  | .predecessor path locator => (∃ p, Spine t L p path) ∧ L.Selects g M locator (M.before key)
  | .minLeaf => M.before key = none
  | .exhausted => M.atLeast key = none

/-- Everything below the node where the walk ends lies on one side of the key. -/
theorem isBeforeLongestPrefix_spec (shape : L.Shape M) {f : Finger} {key : List UInt8} {symbol : ℕ}
    (at_ : f.AtPosition t L p n x true) (notBitmap : ∀ children, n ≠ .bitmap children)
    (ends : x = keySymbols key ∨
      x ++ [symbol] <+: keySymbols key ∧ ¬ n.Continues f.depthInJump symbol) :
    if isBeforeLongestPrefix f symbol key then NoneBefore M key p
    else ∀ kv ∈ M, KeyMap.Below p kv → kv.key < key := by
  obtain ⟨hp, place⟩ := at_.position
  have body := at_.entry.body
  cases n with
  | leaf kv =>
    have value : isBeforeLongestPrefix f symbol key = decide (key ≤ kv.key) := by
      rw [isBeforeLongestPrefix, body]
      simp only [Layout.body, Body.isLeaf, if_true, Body.kv, kvKeyCompareTo_nonneg_iff]
    rw [value]
    split
    · next le =>
      intro kv' mem below
      rw [shape.eq_of_below_leaf hp mem below]
      exact not_lt.mpr (by simpa using le)
    · next gt =>
      intro kv' mem below
      rw [shape.eq_of_below_leaf hp mem below]
      simpa using gt
  | bitmap children => exact absurd rfl (notBitmap children)
  | jump symbols =>
    obtain ⟨inside, rfl⟩ := place
    have jumpSymbol := at_.jumpSymbol shape inside
    obtain ⟨extended, stops⟩ := ends.resolve_left (at_.position.ne_keySymbols shape rfl key)
    have differ : symbols[f.depthInJump] ≠ symbol := by
      simpa [Node.Continues, List.getElem?_eq_getElem inside] using stops
    have value : isBeforeLongestPrefix f symbol key = decide (symbol < symbols[f.depthInJump]) := by
      rw [isBeforeLongestPrefix, body]
      simp only [Layout.body, Body.isLeaf, Bool.false_eq_true, if_false, jumpSymbol]
    have side : ∀ kv ∈ M, KeyMap.Below p kv → (kv.key < key ↔ symbols[f.depthInJump] < symbol) := by
      intro kv mem below
      have whole := shape.jump_below hp mem below
      have next : p ++ symbols.take f.depthInJump ++ [symbols[f.depthInJump]] <+:
          keySymbols kv.key := by
        rw [List.append_assoc, List.take_append_getElem inside]
        exact ((List.prefix_append_right_inj p).mpr (List.take_prefix _ _)).trans whole
      rw [← keySymbols_lt_iff]
      exact PrefixOrder.lt_iff_of_concat differ next extended
    rw [value]
    split
    · next less =>
      intro kv mem below
      rw [side kv mem below]
      exact not_lt.mpr (by simpa using less : symbol < symbols[f.depthInJump]).le
    · next notLess =>
      intro kv mem below
      rw [side kv mem below]
      exact lt_of_le_of_ne (by simpa using notLess) differ

/-- **The decision of `ct_iter_goto_internal` is right.** -/
theorem gotoTarget_spec (shape : L.Shape M) {f : Finger} {key : List UInt8} {symbol : ℕ}
    {lastBitmap : Option ℕ} (exits : f.GotoExits t L key symbol lastBitmap) :
    (gotoTarget g f symbol lastBitmap key).Right t L M key := by
  obtain ⟨p, n, x, at_, ends, lowest⟩ := exits
  have spine := at_.spine rfl
  have hp := at_.position.node
  by_cases isBitmap : f.containingEntry.value.body.isBitmap = true
  · -- falling off at a bitmap
    obtain ⟨children, rfl⟩ := (isBitmap_iff at_.entry).mp isBitmap
    obtain rfl : p = x := at_.position.2.2.symm
    rw [gotoTarget, if_pos isBitmap]
    refine ⟨⟨p, spine⟩, selects_of_leftNeighbour ?_⟩
    obtain ⟨extended, stops⟩ := ends.resolve_left (at_.position.ne_keySymbols shape rfl key)
    have onPath : p <+: keySymbols key := (List.prefix_append _ _).trans extended
    refine (findLeftDescend_spec shape spine.ancestry onPath).1 children symbol hp ?_
    exact cutsAt_of_absent shape hp extended (by simpa [Node.Continues] using stops)
  · have notBitmap : ∀ children, n ≠ .bitmap children := fun children same =>
      isBitmap ((isBitmap_iff at_.entry).mpr ⟨children, same⟩)
    have side := isBeforeLongestPrefix_spec shape at_ notBitmap ends
    have lowest' := lowest (by
      cases n with
      | leaf kv => exact Or.inl rfl
      | bitmap children => exact absurd rfl (notBitmap children)
      | jump symbols => exact Or.inr ⟨symbols, rfl⟩)
    have bitmapAbove := lastBitmapPos_spec shape spine
    rw [gotoTarget, if_neg isBitmap]
    cases found : lastBitmapPos f.path.tail with
    | none =>
      rw [found] at bitmapAbove lowest'
      subst lowest'
      simp only
      split
      · next before =>
        rw [if_pos before] at side
        exact KeyMap.last_eq_none_iff.mpr fun kv mem => side kv mem (bitmapAbove kv mem)
      · next notBefore =>
        rw [if_neg notBefore] at side
        exact KeyMap.first_eq_none_iff.mpr fun kv mem =>
          not_le.mpr (side kv mem (bitmapAbove kv mem))
    | some k =>
      rw [found] at bitmapAbove lowest'
      subst lowest'
      obtain ⟨b, children, s, -, spine', hb, onPath, below, last⟩ := bitmapAbove
      simp only
      have whole : b ++ [s] <+: keySymbols key := by
        refine (onPath.trans at_.position.isPrefix).trans ?_
        rcases ends with rfl | ⟨extended, -⟩
        · exact List.prefix_rfl
        · exact (List.prefix_append _ _).trans extended
      refine ⟨⟨p, spine⟩, selects_of_leftNeighbour ?_⟩
      have onWay := (List.prefix_append _ _).trans whole
      refine (findLeftDescend_spec shape spine'.ancestry onWay).1 children _ hb ?_
      rw [last]
      split
      · next before =>
        rw [if_pos before] at side
        exact cutsAt_of_noneBefore whole fun kv mem h => side kv mem (below kv mem h)
      · next notBefore =>
        rw [if_neg notBefore] at side
        exact cutsAt_succ whole fun kv mem h => side kv mem (below kv mem h)

/-- **`ct_iter_goto_internal`** on a memory a reader may see gives up, or places
the iterator on the leaf just before the key, on the list head if there is none,
or finds that nothing is to be reported. -/
theorem ctIterGotoInternal_spec {s : Sys g} (readable : L.Readable s.trie M)
    (nav : L.Navigable g M) (iter : CtIter) (key : List UInt8) :
    (ctIterGotoInternal iter key).Returns s fun r s' =>
      Quiet s s' ∧ s'.trie = s.trie ∧
        match r with
        | none => Denied s s' ∨ ¬ L.Linked g M
        | some it => it.reportCurrent = iter.reportCurrent ∧
            (it.isExhausted = true ∧ M.atLeast key = none ∨
              it.isExhausted = false ∧ M.kvs ≠ [] ∧
                IsPredecessor s.trie L it.leaf (M.before key)) := by
  have shape := readable.shape
  rw [ctIterGotoInternal]
  refine Prog.Returns.bind (Q := fun t' s' => t' = s.trie ∧ s' = s) (.read ⟨rfl, rfl⟩) ?_
  rintro t s - ⟨rfl, rfl⟩
  by_cases empty : M.kvs = []
  · rw [initFinger_empty readable empty]
    refine .pure ⟨Quiet.refl s, rfl, rfl, Or.inl ⟨rfl, ?_⟩⟩
    exact KeyMap.first_eq_none_iff.mpr fun kv mem => by
      rw [KeyMap.mem_def, empty] at mem
      exact absurd mem List.not_mem_nil
  · obtain ⟨f, n, init, at_⟩ := initFinger_spec readable empty true
    rw [init]
    simp only
    by_cases noKey : key.isEmpty = true
    · rw [if_pos noKey]
      obtain rfl := List.isEmpty_iff.mp noKey
      refine .pure ⟨Quiet.refl s, rfl, rfl, Or.inr ⟨rfl, empty, ?_⟩⟩
      rw [show M.before [] = none from
        KeyMap.last_eq_none_iff.mpr fun _ _ h => absurd h (List.not_lt_nil _)]
      exact rfl
    · rw [if_neg noKey]
      obtain ⟨k, prefetched⟩ := @KeyPrefetcher.Prefetched.start g key
      obtain ⟨f', symbol, lastBitmap, walk, exits⟩ :=
        @gotoLoop_spec g s.trie L M [] [] n readable key (numKeySymbols key) k 0 f _ none at_
          List.nil_prefix (by simp) prefetched (Nat.zero_le k) (by
            rw [(at_.spine rfl).tail_root shape rfl]
            rfl)
      refine (search_spec walk).bind ?_
      rintro result s' - ⟨rfl, rfl⟩
      have right := gotoTarget_spec shape exits
      simp only
      cases target : gotoTarget g f' symbol lastBitmap key with
      | predecessor path locator =>
        rw [target] at right
        obtain ⟨⟨p, spine⟩, selects⟩ := right
        refine (getPredecessorAtomic_spec readable nav selects).bind fun r s' _ h => ?_
        obtain ⟨quiet, same, outcome⟩ := h
        refine .pure ⟨quiet, same, ?_⟩
        cases r with
        | none =>
          rcases outcome with denied | unlinked | ⟨e, mem, changed⟩
          · exact Or.inl denied
          · exact Or.inr unlinked
          · rw [spine.unchanged e mem] at changed
            cases changed
        | some lc => exact ⟨rfl, Or.inr ⟨rfl, empty, outcome⟩⟩
      | minLeaf =>
        rw [target] at right
        refine Prog.Returns.bind (Q := fun t s => t = s.trie ∧ s = s') (.read ⟨rfl, rfl⟩) ?_
        rintro t s - ⟨rfl, rfl⟩
        split
        · next dirty =>
          refine .pure ⟨Quiet.refl _, rfl, Or.inr fun linked => ?_⟩
          rw [readable.minLeaf] at dirty
          rw [show (headEntry L.first L.firstDirty).dirty = L.firstDirty from rfl,
            linked.first_clean] at dirty
          cases dirty
        · have fresh : s.trie.entryUnchanged (readMinLeaf s.trie) = true := by
            simp [Trie.entryUnchanged, sameSeq, readMinLeaf, Trie.localCopy]
          refine (validateEntry_spec _ _).bind fun ok s'' _ h => ?_
          obtain ⟨quiet, same, failed⟩ := h
          cases ok with
          | false =>
            rcases failed rfl with denied | changed
            · exact .pure ⟨quiet, same, Or.inl denied⟩
            · rw [fresh] at changed
              cases changed
          | true =>
            refine .pure ⟨quiet, same, rfl, Or.inr ⟨rfl, empty, ?_⟩⟩
            rw [show M.before key = none from right]
            exact rfl
      | exhausted =>
        rw [target] at right
        exact .pure ⟨Quiet.refl _, rfl, rfl, Or.inl ⟨rfl, right⟩⟩

/-- An iterator whose next call reports a given object, or nothing. -/
def CtIter.Awaits (iter : CtIter) (t : Trie g) (L : Layout) (M : KeyMap) (okv : Option CtKv) :
    Prop :=
  iter.isExhausted = true ∧ okv = none ∨
    iter.isExhausted = false ∧ ∃ p kv, L.node p = some (.leaf kv) ∧
      iter.leaf.Describes t L p (.leaf kv) ∧
      okv = if iter.reportCurrent then some kv else M.after kv.key

/-- What the links of the list promise holds of the link of a predecessor. -/
theorem IsPredecessor.next (readable : L.Readable t M) {promise : Locator → Option CtKv → Prop}
    (next : ∀ p kv, L.node p = some (.leaf kv) → L.dirty p = false →
      promise (L.link p) (M.after kv.key))
    (first : promise L.first (M.first fun _ => True)) {key : List UInt8} {lc : LocalCopy}
    (before : IsPredecessor t L lc (M.before key)) :
    promise lc.value.body.nextLeaf (M.atLeast key) := by
  cases h : M.before key with
  | none =>
    rw [h] at before
    obtain rfl : lc = readMinLeaf t := before
    rw [readable.minLeaf, ← KeyMap.first_eq_atLeast h]
    exact first
  | some kv =>
    rw [h] at before
    obtain ⟨p, hp, d, clean⟩ := before
    rw [d.body, ← KeyMap.after_before h]
    exact next p kv hp clean

/-- `ct_iter_next_internal` follows a locator that does not end the list. -/
theorem ctIterNextInternal_spec {s : Sys g} (readable : L.Readable s.trie M) {iter : CtIter}
    {okv : Option CtKv} (follows : L.Follows g iter.leaf.value.body.nextLeaf okv)
    (more : iter.leaf.value.body.nextLeaf.primaryBucket ≠ endOfList) :
    (ctIterNextInternal iter).Returns s fun r s' => s' = s ∧
      match r with
      | none => ¬ L.PointsTo g iter.leaf.value.body.nextLeaf okv
      | some it => it.isExhausted = iter.isExhausted ∧ it.reportCurrent = iter.reportCurrent ∧
          ∃ p kv, okv = some kv ∧ L.node p = some (.leaf kv) ∧
            it.leaf.Describes s.trie L p (.leaf kv) := by
  rw [ctIterNextInternal]
  by_cases points : L.PointsTo g iter.leaf.value.body.nextLeaf okv
  · cases okv with
    | none => exact absurd points more
    | some kv =>
      obtain ⟨p, hp, link⟩ := points
      obtain ⟨lc, found, d⟩ := locatorToEntry_spec readable hp
      refine (search_spec (a := lc) (by rw [link]; exact found)).bind ?_
      rintro b s' - ⟨rfl, rfl⟩
      rw [(isLeaf_iff d).mpr ⟨kv, rfl⟩]
      exact .pure ⟨rfl, rfl, rfl, p, kv, rfl, hp, d⟩
  · obtain ⟨p, n, hp, inner, link⟩ := follows.resolve_left points
    obtain ⟨lc, found, d⟩ := locatorToEntry_spec readable hp
    refine (search_spec (a := lc) (by rw [link]; exact found)).bind ?_
    rintro b s' - ⟨rfl, rfl⟩
    have notLeaf : b.value.body.isLeaf = false := by
      rw [← Bool.not_eq_true, isLeaf_iff d]
      rintro ⟨kv, rfl⟩
      cases inner
    rw [notLeaf]
    exact .pure ⟨rfl, points⟩

/-- **One round of `ct_iter_goto`**, on any memory a reader may see: it asks to be
repeated, or the first key that is not before the start key comes next. -/
theorem gotoRound_spec {s : Sys g} (readable : L.Readable s.trie M) (nav : L.Navigable g M)
    (iter : CtIter) (key : List UInt8) :
    (gotoRound iter key).Returns s fun r s' =>
      Quiet s s' ∧ s'.trie = s.trie ∧
        match r with
        | none => Denied s s' ∨ ¬ L.Linked g M
        | some it => it.Awaits s.trie L M (M.atLeast key) ∧
            (it.isExhausted = false → it.reportCurrent = true) := by
  rw [gotoRound]
  refine (ctIterGotoInternal_spec readable nav iter key).bind fun r s' le h => ?_
  obtain ⟨quiet, same, outcome⟩ := h
  cases r with
  | none => exact .pure ⟨quiet, same, outcome⟩
  | some it =>
    obtain ⟨-, ⟨exhausted, done⟩ | ⟨awake, nonempty, before⟩⟩ := outcome
    · have still : (if it.leaf.value.body.nextLeaf.primaryBucket = endOfList then
          { it with isExhausted := true } else it).isExhausted = true := by
        split
        · rfl
        · exact exhausted
      simp only
      rw [if_pos still]
      refine .pure ⟨quiet, same, Or.inl ⟨still, done⟩, fun h => ?_⟩
      rw [still] at h
      cases h
    · have follows := before.next readable nav.next (nav.first nonempty)
      simp only
      by_cases last : it.leaf.value.body.nextLeaf.primaryBucket = endOfList
      · simp only [last, if_true]
        refine .pure ⟨quiet, same, Or.inl ⟨rfl, ?_⟩, fun h => by cases h⟩
        rcases follows with points | ⟨p, n, hp, -, link⟩
        · cases end_ : M.atLeast key with
          | none => rfl
          | some kv =>
            rw [end_] at points
            obtain ⟨p, hp, link⟩ := points
            rw [link] at last
            exact absurd last (locator_ne_endOfList readable.shape hp)
        · rw [link] at last
          exact absurd last (locator_ne_endOfList readable.shape hp)
      · simp only [last, if_false, awake, Bool.false_eq_true]
        refine (ctIterNextInternal_spec (same ▸ readable) follows last).bind ?_
        rintro r s'' - ⟨rfl, result⟩
        cases r with
        | none =>
          refine .pure ⟨quiet, same, Or.inr fun linked => result ?_⟩
          exact before.next readable (fun p kv hp _ => linked.next p kv hp) linked.first
        | some it' =>
          obtain ⟨exhausted, -, p, kv, least, hp, d⟩ := result
          rw [same] at d
          exact .pure ⟨quiet, same, Or.inr ⟨exhausted.trans awake, p, kv, hp, d, least⟩,
            fun _ => rfl⟩

/-! ## Iterating a well-formed trie -/

/-- Alone on a memory with right links, the first round of `ct_iter_goto`
succeeds. -/
theorem ctIterGoto_spec {s : Sys g} (readable : L.Readable s.trie M) (linked : L.Linked g M)
    (alone : s.env = alone) (iter : CtIter) (key : List UInt8) (fuel : ℕ) :
    (ctIterGoto iter key (fuel + 1)).Returns s fun it s' =>
      Quiet s s' ∧ s'.trie = s.trie ∧ it.Awaits s.trie L M (M.atLeast key) ∧
        (it.isExhausted = false → it.reportCurrent = true) := by
  rw [ctIterGoto]
  refine (gotoRound_spec readable (linked.navigable readable.shape) iter key).bind
    fun r s' _ h => ?_
  obtain ⟨quiet, same, outcome⟩ := h
  cases r with
  | none =>
    rcases outcome with denied | unlinked
    · exact absurd denied (Denied.not_alone alone)
    · exact absurd linked unlinked
  | some it => exact .pure ⟨quiet, same, outcome⟩

/-- The object reported after a given one, or nothing once nothing was reported. -/
def KeyMap.following (M : KeyMap) (okv : Option CtKv) : Option CtKv :=
  okv.bind fun kv => M.after kv.key

/-- **One call of `ct_iter_next`** reports what the iterator awaits, and leaves it
awaiting the object after that one. -/
theorem ctIterNext_spec {s : Sys g} (readable : L.Readable s.trie M) (linked : L.Linked g M)
    {iter : CtIter} {okv : Option CtKv} (awaits : iter.Awaits s.trie L M okv) (fuel : ℕ) :
    (ctIterNext iter (fuel + 1)).Returns s fun r s' =>
      s' = s ∧ r.1 = okv ∧ r.2.Awaits s.trie L M (M.following okv) := by
  rw [ctIterNext]
  obtain ⟨exhausted, rfl⟩ | ⟨awake, p, kv, hp, d, rfl⟩ := awaits
  · rw [if_pos exhausted]
    exact .pure ⟨rfl, rfl, Or.inl ⟨exhausted, rfl⟩⟩
  have points := linked.next p kv hp
  have link : iter.leaf.value.body.nextLeaf = L.link p := by
    rw [d.body]
    rfl
  rw [if_neg (by simp [awake])]
  cases current : iter.reportCurrent with
  | true =>
    have reported : iter.leaf.value.body.kv = kv := by
      rw [d.body]
      rfl
    simp only [if_true]
    exact .pure ⟨rfl, congrArg some reported, Or.inr ⟨awake, p, kv, hp, d, rfl⟩⟩
  | false =>
    simp only [Bool.false_eq_true, if_false]
    by_cases last : iter.leaf.value.body.nextLeaf.primaryBucket = endOfList
    · rw [if_pos last]
      have done : M.after kv.key = none := by
        cases after : M.after kv.key with
        | none => rfl
        | some kv' =>
          rw [after] at points
          obtain ⟨p', hp', same⟩ := points
          rw [link, same] at last
          exact absurd last (locator_ne_endOfList readable.shape hp')
      exact .pure ⟨rfl, done.symm, Or.inl ⟨rfl, by rw [done]; rfl⟩⟩
    · rw [if_neg last, ctIterNextLoop]
      refine Prog.Returns.bind (Q := fun it s' => s' = s ∧ it.isExhausted = iter.isExhausted ∧
        it.reportCurrent = iter.reportCurrent ∧ ∃ p' kv', M.after kv.key = some kv' ∧
          L.node p' = some (.leaf kv') ∧ it.leaf.Describes s.trie L p' (.leaf kv')) ?_ ?_
      · refine (ctIterNextInternal_spec readable (Or.inl (link ▸ points)) last).bind ?_
        rintro r s' - ⟨rfl, result⟩
        cases r with
        | none => exact absurd (link ▸ points) result
        | some it => exact .pure ⟨rfl, result⟩
      · rintro it s' - ⟨rfl, exhausted, current', p', kv', after, hp', d'⟩
        have reported : it.leaf.value.body.kv = kv' := by
          rw [d'.body]
          rfl
        refine .pure ⟨rfl, (congrArg some reported).trans after.symm,
          Or.inr ⟨exhausted.trans awake, p', kv', hp', d', ?_⟩⟩
        rw [current', current, after]
        rfl

theorem ctIterNexts_spec {s : Sys g} (readable : L.Readable s.trie M) (linked : L.Linked g M)
    (fuel n : ℕ) {iter : CtIter} {okv : Option CtKv} (awaits : iter.Awaits s.trie L M okv) :
    (ctIterNexts (fuel + 1) n iter).Returns s fun reported _ =>
      reported = (List.range n).map fun i => M.following^[i] okv := by
  induction n generalizing iter okv with
  | zero => exact .pure rfl
  | succ n ih =>
    rw [ctIterNexts]
    refine (ctIterNext_spec readable linked awaits fuel).bind ?_
    rintro ⟨kv, iter'⟩ s' - ⟨rfl, rfl, awaits'⟩
    refine (ih awaits').bind ?_
    rintro rest s'' - rfl
    refine .pure ?_
    rw [List.range_succ_eq_map, List.map_cons, List.map_map]
    rfl

namespace KeyMap

variable {key : List UInt8} {kv : CtKv}

theorem mem_from : kv ∈ M.from key ↔ kv ∈ M ∧ key ≤ kv.key := by
  simp [«from», mem_def]

theorem from_sorted (M : KeyMap) (key : List UInt8) :
    (M.from key).Pairwise fun a b => a.key < b.key := M.sorted.filter _

/-- Following the order of the keys from the first object that is not before a
key goes through the objects from that key on. -/
theorem following_iterate (M : KeyMap) (key : List UInt8) (i : ℕ) :
    M.following^[i] (M.atLeast key) = (M.from key)[i]? := by
  have increasing := List.pairwise_iff_getElem.mp (M.from_sorted key)
  have least : ∀ {P : CtKv → Prop} [DecidablePred P] (i : ℕ) (hi : i < (M.from key).length),
      P (M.from key)[i] → (∀ kv ∈ M, P kv → key ≤ kv.key) →
      (∀ j, ∀ hj : j < i, ¬ P (M.from key)[j]) → M.first P = some (M.from key)[i] := by
    intro P _ i hi holds within before
    refine first_eq_some_iff.mpr ⟨(mem_from.mp (List.getElem_mem hi)).1, holds, fun kv mem hP => ?_⟩
    obtain ⟨j, hj, rfl⟩ := List.getElem_of_mem (mem_from.mpr ⟨mem, within kv mem hP⟩)
    rcases lt_trichotomy i j with lt | rfl | gt
    · exact (increasing i j hi hj lt).le
    · exact le_rfl
    · exact absurd hP (before j gt)
  induction i with
  | zero =>
    rw [Function.iterate_zero, id]
    by_cases nonempty : 0 < (M.from key).length
    · rw [List.getElem?_eq_getElem nonempty]
      exact least 0 nonempty (mem_from.mp (List.getElem_mem nonempty)).2 (fun _ _ h => h)
        fun j hj => absurd hj (Nat.not_lt_zero j)
    · rw [List.getElem?_eq_none (not_lt.mp nonempty)]
      refine first_eq_none_iff.mpr fun kv mem h => nonempty ?_
      exact List.length_pos_of_mem (mem_from.mpr ⟨mem, h⟩)
  | succ i ih =>
    rw [Function.iterate_succ_apply', ih]
    by_cases inside : i < (M.from key).length
    · have start := (mem_from.mp (List.getElem_mem inside)).2
      rw [List.getElem?_eq_getElem inside]
      by_cases more : i + 1 < (M.from key).length
      · rw [List.getElem?_eq_getElem more]
        refine least (i + 1) more (increasing _ _ _ _ (Nat.lt_succ_self i))
          (fun kv _ h => start.trans h.le) fun j hj => ?_
        rcases (Nat.lt_succ_iff.mp hj).lt_or_eq with lt | rfl
        · exact not_lt.mpr (increasing j i (lt.trans inside) inside lt).le
        · exact lt_irrefl _
      · rw [List.getElem?_eq_none (not_lt.mp more)]
        refine first_eq_none_iff.mpr fun kv mem h => ?_
        obtain ⟨j, hj, rfl⟩ := List.getElem_of_mem (mem_from.mpr ⟨mem, start.trans h.le⟩)
        rcases lt_trichotomy i j with lt | rfl | gt
        · omega
        · exact lt_irrefl _ h
        · exact lt_asymm h (increasing j i hj inside gt)
    · rw [List.getElem?_eq_none (not_lt.mp inside),
        List.getElem?_eq_none (le_trans (not_lt.mp inside) (Nat.le_succ i))]
      rfl

end KeyMap

/-- The iteration on a well-formed trie, from any earlier state of the iterator. -/
theorem WellFormed.iteration (wf : WellFormed t M) (iter : CtIter) (key : List UInt8)
    (fuel n : ℕ) :
    ((ctIterGoto iter key (fuel + 1) >>= ctIterNexts (fuel + 1) n).run (Sys.init t alone)).1 =
      some ((List.range n).map fun i => (M.from key)[i]?) := by
  obtain ⟨S, L, stores, rep, linked, finished, -⟩ := wf
  have readable : L.Readable (Sys.init t alone).trie M :=
    ⟨S, none, stores, rep, rep.identifies finished⟩
  obtain ⟨reported, ret, whole⟩ :=
    (ctIterGoto_spec readable linked rfl iter key fuel).bind fun it s' _ h =>
      ctIterNexts_spec (h.2.1.symm ▸ readable) linked fuel n (h.2.1.symm ▸ h.2.2.1)
  rw [ret, whole]
  simp only [KeyMap.following_iterate]

/-- **Range iteration is exact.**  On a well-formed trie, from any earlier state
of the iterator, `ct_iter_goto` returns, and the calls of `ct_iter_next` after it
report the objects whose keys are not before the start key, one after the other
in the order of their keys, and from then on nothing. -/
theorem range_iteration_exact (t : Trie g) (M : KeyMap) (wf : WellFormed t M) (iter : CtIter)
    (key : List UInt8) (fuel n : ℕ) :
    ((ctIterGoto iter key (fuel + 1) >>= ctIterNexts (fuel + 1) n).run (Sys.init t alone)).1 =
        some ((List.range n).map fun i => (M.from key)[i]?) ∧
      (M.from key).Pairwise (fun a b => a.key < b.key) ∧
      ∀ kv, kv ∈ M.from key ↔ kv ∈ M ∧ key ≤ kv.key :=
  ⟨wf.iteration iter key fuel n, M.from_sorted key, fun _ => KeyMap.mem_from⟩

/-- From a key between the two keys of the trie on only the greater one is reported. -/
theorem range_iteration_exact_small :
    ((ctIterGoto default [0x40] 1 >>= ctIterNexts 1 2).run (Sys.init smallTrie alone)).1 =
        some [some ⟨2, [0x80]⟩, none] ∧
      (smallComb.map.from [0x40]).Pairwise (fun a b => a.key < b.key) ∧
      ∀ kv, kv ∈ smallComb.map.from [0x40] ↔ kv ∈ smallComb.map ∧ [0x40] ≤ kv.key := by
  obtain ⟨reports, sorted, mem⟩ :=
    range_iteration_exact smallTrie smallComb.map smallTrie_wellFormed default [0x40] 0 2
  exact ⟨reports.trans (by decide +kernel), sorted, mem⟩

end CuckooTrie
