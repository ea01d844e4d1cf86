import CuckooTrie.Combs
import CuckooTrie.Iterator
import CuckooTrie.Lookup
import CuckooTrie.PackedJumps

/-!
# The pipelined hashes are right and in time

The walks down a trie hash the prefixes of a key ahead of the finger.  Two cursors run
over the key: that of the prefetcher, which starts four symbols ahead and moves on by
one in every iteration until the key ends, and that of the finger, which moves on with
every symbol descended.

`DescendReaches` and `GotoReaches` are the states in which the loops of `descend` and
of `ct_iter_goto_internal` start an iteration.  Nothing is asked of the trie here; it
need not be well-formed.  That the loop of `descend` ends follows from the END symbol
alone, which ends every key.
-/

namespace CuckooTrie

variable {g : Geometry} {t : Trie g} {L : Layout} {M : KeyMap} {f₀ f f' : Finger}
  {p : KeyPrefetcher} {key : List UInt8} {track : Bool} {depth : ℕ}

/-! ## One successful step -/

/-- What a successful `try_descend` does to the prefix of the finger, whatever the
entry it is in. -/
theorem tryDescend_extends {symbol hash : ℕ}
    (step : tryDescend t f symbol track hash = some (some f')) :
    f'.prefixLen = f.prefixLen + 1 ∧ f'.prefixHash = hash := by
  obtain ⟨-, -, -, rfl⟩ | ⟨child, rfl, -⟩ := tryDescend_cases step
  · exact ⟨rfl, rfl⟩
  · cases track <;> exact ⟨rfl, rfl⟩

/-- **END never matches a jump symbol**: it is descended outside jump nodes only. -/
theorem tryDescend_end {hash : ℕ}
    (step : tryDescend t f symbolEnd track hash = some (some f')) :
    f.containingEntry.value.body.isJump = false := by
  obtain ⟨-, same, -⟩ | ⟨child, -, ⟨-, same, -⟩ | ⟨outside, -⟩⟩ := tryDescend_cases step
  · exact absurd same (Nat.succ_ne_zero _)
  · exact absurd same (Nat.succ_ne_zero _)
  · exact outside

/-! ## The iterations of the two loops -/

/-- The symbol an iteration reads at an index, the prefetcher having been stepped. -/
def KeyPrefetcher.symbolAt (p : KeyPrefetcher) (i : ℕ) : ℕ := p.keySymbols.getD i symbolEnd

/-- The hash an iteration hands to `try_descend`. -/
def KeyPrefetcher.hashAt (p : KeyPrefetcher) (i : ℕ) : ℕ := p.prefixHashes.getD i 0

/-- The states in which the loop of `descend` starts an iteration, with the number of
the iterations before. -/
inductive DescendReaches (t : Trie g) (f₀ : Finger) (key : List UInt8) (track : Bool) :
    ℕ → Finger → KeyPrefetcher → Prop
  | start : DescendReaches t f₀ key track 0 f₀ (KeyPrefetcher.start g key)
  | step {depth : ℕ} {f f' : Finger} {p : KeyPrefetcher} :
      DescendReaches t f₀ key track depth f p →
      tryDescend t f ((p.step g).symbolAt f.prefixLen) track ((p.step g).hashAt f.prefixLen) =
        some (some f') →
      (p.step g).symbolAt f.prefixLen ≠ symbolEnd →
      DescendReaches t f₀ key track (depth + 1) f' (p.step g)

/-- The states in which the loop of `ct_iter_goto_internal` tests its bound, with the
value of `depth`. -/
inductive GotoReaches (t : Trie g) (f₀ : Finger) (key : List UInt8) :
    ℕ → Finger → KeyPrefetcher → Prop
  | start : GotoReaches t f₀ key 0 f₀ (KeyPrefetcher.start g key)
  | step {depth : ℕ} {f f' : Finger} {p : KeyPrefetcher} : GotoReaches t f₀ key depth f p →
      depth < numKeySymbols key →
      tryDescend t f ((p.step g).symbolAt depth) true ((p.step g).hashAt depth) =
        some (some f') →
      GotoReaches t f₀ key (depth + 1) f' (p.step g)

/-- The prefix of the finger is the one of a key of a given length, and it was hashed;
the prefetcher is not behind it. -/
structure Finger.InStep (f : Finger) (p : KeyPrefetcher) (g : Geometry) (key : List UInt8)
    (depth : ℕ) : Prop where
  prefixLen : f.prefixLen = depth
  prefixHash : f.prefixHash = g.prefixHash ((keySymbols key).take depth)
  ahead : ∃ k, p.Prefetched g key k ∧ depth ≤ k

/-- What an iteration reads of the stepped prefetcher is there and is right: the symbol
of the key at its depth, which is END at the last one only, and the hash folded from
`HASH_START_VALUE` over the symbols up to that one. -/
structure Finger.OnTime (f : Finger) (p : KeyPrefetcher) (g : Geometry) (key : List UInt8)
    (depth : ℕ) : Prop where
  prefixLen : f.prefixLen = depth
  prefixHash : f.prefixHash =
    ((keySymbols key).take depth).foldl g.accumulateHash hashStartValue
  within : depth < numKeySymbols key
  symbol : p.keySymbols[depth]? = (keySymbols key)[depth]?
  last : p.symbolAt depth = symbolEnd ↔ depth + 1 = numKeySymbols key
  computed : p.prefixHashes[depth]? =
    some (((keySymbols key).take (depth + 1)).foldl g.accumulateHash hashStartValue)

/-- The finger starts in step. -/
theorem initFinger_inStep (init : initFinger t = some f₀) (key : List UInt8) :
    f₀.InStep (KeyPrefetcher.start g key) g key 0 := by
  unfold initFinger at init
  split at init
  · cases init
  · cases init
    obtain ⟨k, prefetched⟩ := KeyPrefetcher.Prefetched.start (g := g) key
    exact ⟨rfl, rfl, k, prefetched, Nat.zero_le k⟩

namespace Finger.InStep

/-- **One iteration**: as long as the key is not at its end, what is read is there. -/
theorem onTime (inStep : f.InStep p g key depth) (within : depth < numKeySymbols key) :
    f.OnTime (p.step g) g key depth := by
  obtain ⟨k, prefetched, ahead⟩ := inStep.ahead
  obtain ⟨k', prefetched', mono, more⟩ := prefetched.step
  have inside : depth < k' := by
    rcases prefetched.bound.lt_or_eq with lt | whole
    · have := more lt
      omega
    · rw [length_keySymbols] at whole
      omega
  have symbol : (p.step g).keySymbols[depth]? = (keySymbols key)[depth]? := by
    rw [prefetched'.symbols]
  refine ⟨inStep.prefixLen, inStep.prefixHash, within, symbol, ?_, ?_⟩
  · rw [← getElem?_keySymbols_eq_end_iff, ← symbol, KeyPrefetcher.symbolAt,
      List.getD_eq_getElem?_getD, symbol, getElem?_keySymbols within, Option.getD_some,
      Option.some_inj]
  · rw [prefetched'.hashes, List.getElem?_map, List.getElem?_range inside]
    rfl

/-- A successful iteration keeps the finger in step. -/
theorem step (inStep : f.InStep p g key depth) (within : depth < numKeySymbols key)
    (descended : tryDescend t f ((p.step g).symbolAt depth) track ((p.step g).hashAt depth) =
      some (some f')) : f'.InStep (p.step g) g key (depth + 1) := by
  obtain ⟨k, prefetched, ahead⟩ := inStep.ahead
  obtain ⟨k', prefetched', mono, more⟩ := prefetched.step
  have computed := (inStep.onTime within).computed
  obtain ⟨len, hash⟩ := tryDescend_extends descended
  refine ⟨by rw [len, inStep.prefixLen], ?_, k', prefetched', ?_⟩
  · rw [hash, KeyPrefetcher.hashAt, List.getD_eq_getElem?_getD, computed]
    rfl
  · obtain ⟨inside, -⟩ := List.getElem?_eq_some_iff.mp computed
    rw [prefetched'.hashes, List.length_map, List.length_range] at inside
    exact inside

end Finger.InStep

/-- **Every iteration of `descend`** is one of the first `num_key_symbols`. -/
theorem DescendReaches.inStep (init : initFinger t = some f₀)
    (reaches : DescendReaches t f₀ key track depth f p) :
    f.InStep p g key depth ∧ depth < numKeySymbols key := by
  induction reaches with
  | start => exact ⟨initFinger_inStep init key, Nat.succ_pos _⟩
  | step _ descended notEnd ih =>
    obtain ⟨inStep, within⟩ := ih
    rw [inStep.prefixLen] at descended notEnd
    refine ⟨inStep.step within descended, ?_⟩
    have notLast := (inStep.onTime within).last.not.mp notEnd
    omega

theorem GotoReaches.inStep (init : initFinger t = some f₀)
    (reaches : GotoReaches t f₀ key depth f p) :
    f.InStep p g key depth ∧ depth ≤ numKeySymbols key := by
  induction reaches with
  | start => exact ⟨initFinger_inStep init key, Nat.zero_le _⟩
  | step _ within descended ih => exact ⟨ih.1.step within descended, within⟩

/-! ## The loops end -/

/-- Where a walk ends: the finger is still in step with the key. -/
structure Finger.EndsInStep (f : Finger) (g : Geometry) (key : List UInt8) : Prop where
  prefixLen : f.prefixLen ≤ numKeySymbols key
  prefixHash : f.prefixHash =
    ((keySymbols key).take f.prefixLen).foldl g.accumulateHash hashStartValue

theorem Finger.InStep.endsInStep (inStep : f.InStep p g key depth)
    (within : depth ≤ numKeySymbols key) : f.EndsInStep g key := by
  obtain ⟨rfl, hash, -⟩ := inStep
  exact ⟨within, hash⟩

/-- Every search that the loop of `descend` makes returns an entry. -/
def DescendReturns (t : Trie g) (f₀ : Finger) (key : List UInt8) (track : Bool) : Prop :=
  ∀ depth f p, DescendReaches t f₀ key track depth f p →
    tryDescend t f ((p.step g).symbolAt f.prefixLen) track ((p.step g).hashAt f.prefixLen) ≠ none

/-- Every search that the loop of `ct_iter_goto_internal` makes returns an entry. -/
def GotoReturns (t : Trie g) (f₀ : Finger) (key : List UInt8) : Prop :=
  ∀ depth f p, GotoReaches t f₀ key depth f p → depth < numKeySymbols key →
    tryDescend t f ((p.step g).symbolAt depth) true ((p.step g).hashAt depth) ≠ none

/-- An iteration of the loop of `descend`. -/
theorem descendLoop_succ (fuel : ℕ) :
    descendLoop t track (fuel + 1) f p =
      match tryDescend t f ((p.step g).symbolAt f.prefixLen) track
        ((p.step g).hashAt f.prefixLen) with
      | none => none
      | some none => some (f, some ((p.step g).symbolAt f.prefixLen))
      | some (some f') =>
        if (p.step g).symbolAt f.prefixLen = symbolEnd then some (f', none)
        else descendLoop t track fuel f' (p.step g) := rfl

/-- An iteration of the loop of `ct_iter_goto_internal`. -/
theorem gotoLoop_succ (fuel symbol : ℕ) (lastBitmap : Option ℕ) :
    gotoLoop t (fuel + 1) f p symbol lastBitmap =
      match tryDescend t f ((p.step g).symbolAt (p.keySymbols.length - (fuel + 1))) true
        ((p.step g).hashAt (p.keySymbols.length - (fuel + 1))) with
      | none => none
      | some none => some (f, (p.step g).symbolAt (p.keySymbols.length - (fuel + 1)),
          if f.containingEntry.value.body.isBitmap then some f.path.length else lastBitmap)
      | some (some f') => gotoLoop t fuel f' (p.step g)
          ((p.step g).symbolAt (p.keySymbols.length - (fuel + 1)))
          (if f.containingEntry.value.body.isBitmap then some f.path.length
            else lastBitmap) := rfl

/-- From an iteration the loop of `descend` has reached, it runs to its end. -/
theorem descendLoop_returns (init : initFinger t = some f₀)
    (returns : DescendReturns t f₀ key track) {fuel : ℕ}
    (reaches : DescendReaches t f₀ key track depth f p)
    (left : fuel + depth = numKeySymbols key) :
    ∃ f' symbol, descendLoop t track fuel f p = some (f', symbol) ∧ f'.EndsInStep g key ∧
      (symbol = none → f'.prefixLen = numKeySymbols key) := by
  induction fuel generalizing depth f p with
  | zero =>
    have within := (reaches.inStep init).2
    omega
  | succ fuel ih =>
    obtain ⟨inStep, within⟩ := reaches.inStep init
    have onTime := inStep.onTime within
    have searched := returns depth f p reaches
    rw [descendLoop_succ]
    cases outcome : tryDescend t f ((p.step g).symbolAt f.prefixLen) track
        ((p.step g).hashAt f.prefixLen) with
    | none => exact absurd outcome searched
    | some stepped =>
      cases stepped with
      | none =>
        exact ⟨f, _, rfl, inStep.endsInStep within.le,
          fun none => absurd none (Option.some_ne_none _)⟩
      | some f' =>
        by_cases final : (p.step g).symbolAt f.prefixLen = symbolEnd
        · rw [inStep.prefixLen] at outcome final
          have inStep' := inStep.step within outcome
          have last := onTime.last.mp final
          refine ⟨f', none, ?_, inStep'.endsInStep last.le, fun _ => ?_⟩
          · rw [inStep.prefixLen]
            exact if_pos final
          · rw [inStep'.prefixLen, last]
        · simp only [if_neg final]
          exact ih (reaches.step outcome final) (by omega)

/-- From an iteration the loop of `ct_iter_goto_internal` has reached, it runs to its
end. -/
theorem gotoLoop_returns (init : initFinger t = some f₀) (returns : GotoReturns t f₀ key)
    {fuel symbol : ℕ} {lastBitmap : Option ℕ} (reaches : GotoReaches t f₀ key depth f p)
    (left : fuel + depth = numKeySymbols key) :
    ∃ f' symbol' lastBitmap', gotoLoop t fuel f p symbol lastBitmap =
      some (f', symbol', lastBitmap') ∧ f'.EndsInStep g key := by
  induction fuel generalizing depth f p symbol lastBitmap with
  | zero => exact ⟨f, symbol, lastBitmap, rfl, (reaches.inStep init).1.endsInStep (by omega)⟩
  | succ fuel ih =>
    have inStep := (reaches.inStep init).1
    have within : depth < numKeySymbols key := by omega
    have onTime := inStep.onTime within
    have searched := returns depth f p reaches within
    obtain ⟨k, prefetched, -⟩ := inStep.ahead
    have index : p.keySymbols.length - (fuel + 1) = depth := by
      rw [prefetched.symbols, length_keySymbols]
      omega
    rw [gotoLoop_succ, index]
    cases outcome : tryDescend t f ((p.step g).symbolAt depth) true ((p.step g).hashAt depth) with
    | none => exact absurd outcome searched
    | some stepped =>
      cases stepped with
      | none => exact ⟨f, _, _, rfl, inStep.endsInStep within.le⟩
      | some f' => exact ih (reaches.step within outcome) (by omega)

/-! ## On a readable memory -/

/-- The hash handed over extends that of the finger by the symbol. -/
theorem Finger.OnTime.hashAt (onTime : f.OnTime p g key depth) :
    p.hashAt depth = g.accumulateHash f.prefixHash (p.symbolAt depth) := by
  have within : depth < (keySymbols key).length := by
    rw [length_keySymbols]
    exact onTime.within
  rw [KeyPrefetcher.hashAt, KeyPrefetcher.symbolAt, List.getD_eq_getElem?_getD,
    List.getD_eq_getElem?_getD, onTime.computed, onTime.symbol, onTime.prefixHash,
    List.getElem?_eq_getElem within, Option.getD_some, Option.getD_some,
    ← List.take_append_getElem within, List.foldl_append]
  rfl

/-- Where the nodes of a layout can be found, an iteration that starts at a position of
the layout makes a search that returns, and leads to a position. -/
theorem tryDescend_atPosition (readable : L.Readable t M)
    (at_ : ∃ q n x, f.AtPosition t L q n x track) (onTime : f.OnTime p g key depth) :
    tryDescend t f (p.symbolAt depth) track (p.hashAt depth) ≠ none ∧
      ∀ f', tryDescend t f (p.symbolAt depth) track (p.hashAt depth) = some (some f') →
        ∃ q n x, f'.AtPosition t L q n x track := by
  obtain ⟨q, n, x, at_⟩ := at_
  obtain ⟨moves, stops⟩ := tryDescend_spec readable at_ (s := p.symbolAt depth)
  rw [onTime.hashAt]
  by_cases goesOn : n.Continues f.depthInJump (p.symbolAt depth)
  · obtain ⟨f'', q', n', step, at'⟩ := moves goesOn
    rw [step]
    refine ⟨Option.some_ne_none _, fun f' same => ?_⟩
    cases same
    exact ⟨q', n', _, at'⟩
  · rw [stops goesOn]
    exact ⟨Option.some_ne_none _, fun f' same => by cases same⟩

theorem initFinger_atPosition (readable : L.Readable t M) (init : initFinger t = some f₀)
    (track : Bool) : ∃ q n x, f₀.AtPosition t L q n x track := by
  have nonempty : M.kvs ≠ [] := by
    intro empty
    rw [initFinger_empty readable empty] at init
    cases init
  obtain ⟨f, n, init', at_⟩ := initFinger_spec readable nonempty track
  rw [init] at init'
  cases init'
  exact ⟨[], n, [], at_⟩

/-- There all searches of `descend` return. -/
theorem descendReturns_of_readable (readable : L.Readable t M) (init : initFinger t = some f₀)
    (key : List UInt8) (track : Bool) : DescendReturns t f₀ key track := by
  have atPosition : ∀ {depth f p}, DescendReaches t f₀ key track depth f p →
      ∃ q n x, f.AtPosition t L q n x track := by
    intro depth f p reaches
    induction reaches with
    | start => exact initFinger_atPosition readable init track
    | step before descended _ ih =>
      obtain ⟨inStep, within⟩ := before.inStep init
      rw [inStep.prefixLen] at descended
      exact (tryDescend_atPosition readable ih (inStep.onTime within)).2 _ descended
  intro depth f p reaches
  obtain ⟨inStep, within⟩ := reaches.inStep init
  rw [inStep.prefixLen]
  exact (tryDescend_atPosition readable (atPosition reaches) (inStep.onTime within)).1

/-- There all searches of `ct_iter_goto_internal` return. -/
theorem gotoReturns_of_readable (readable : L.Readable t M) (init : initFinger t = some f₀)
    (key : List UInt8) : GotoReturns t f₀ key := by
  have atPosition : ∀ {depth f p}, GotoReaches t f₀ key depth f p →
      ∃ q n x, f.AtPosition t L q n x true := by
    intro depth f p reaches
    induction reaches with
    | start => exact initFinger_atPosition readable init true
    | step before within descended ih =>
      have inStep := (before.inStep init).1
      exact (tryDescend_atPosition readable ih (inStep.onTime within)).2 _ descended
  intro depth f p reaches within
  have inStep := (reaches.inStep init).1
  exact (tryDescend_atPosition readable (atPosition reaches) (inStep.onTime within)).1

/-! ## The result -/

/-- **The pipelined hashes are right and in time.**  Whatever the trie contains, every
iteration of `descend` and of `ct_iter_goto_internal` reads the symbol of the key and the
hash at the length of the finger's prefix, both are there, and the hash is the fold over
the symbols up to that one; the prefix hash of the finger is the fold over its prefix.
Iterations are at most as many as the key has symbols, END included, and if the searches
made return, so do the loops.  END is no symbol of a jump node, as bytes or as a record,
so that it is descended at bitmaps only. -/
theorem pipelined_hashes_right (t : Trie g) (key : List UInt8) {f₀ : Finger}
    (init : initFinger t = some f₀) :
    (∀ track depth f p, DescendReaches t f₀ key track depth f p →
      f.OnTime (p.step g) g key depth) ∧
    (∀ depth f p, GotoReaches t f₀ key depth f p → depth < numKeySymbols key →
      f.OnTime (p.step g) g key depth) ∧
    (∀ track, DescendReturns t f₀ key track → ∃ f symbol,
      descend t f₀ key track = some (f, symbol) ∧ f.EndsInStep g key ∧
        (symbol = none → f.prefixLen = numKeySymbols key)) ∧
    (GotoReturns t f₀ key → ∃ f symbol lastBitmap,
      gotoLoop t (numKeySymbols key) f₀ (KeyPrefetcher.start g key) 0 none =
        some (f, symbol, lastBitmap) ∧ f.EndsInStep g key) ∧
    (∀ (f f' : Finger) track hash, tryDescend t f symbolEnd track hash = some (some f') →
      f.containingEntry.value.body.isJump = false) ∧
    ∀ (jumpNode : Packed.CtEntry) i, jumpNode.getJumpSymbol i ≠ symbolEnd := by
  refine ⟨fun track depth f p reaches => ?_, fun depth f p reaches within => ?_,
    fun track returns => ?_, fun returns => ?_, fun f f' track hash step => tryDescend_end step,
    fun jumpNode i => ?_⟩
  · obtain ⟨inStep, within⟩ := reaches.inStep init
    exact inStep.onTime within
  · exact (reaches.inStep init).1.onTime within
  · exact descendLoop_returns init returns .start rfl
  · exact gotoLoop_returns init returns .start rfl
  · have positive := (Packed.CtEntry.getJumpSymbol_mem jumpNode i).1
    exact Nat.pos_iff_ne_zero.mp positive

/-- Both walks for the key `80` end in the trie of the keys `00` and `80`. -/
theorem pipelined_hashes_right_small :
    ∃ f₀ f symbol f' symbol' lastBitmap, initFinger smallTrie = some f₀ ∧
      descend smallTrie f₀ [0x80] true = some (f, symbol) ∧ f.EndsInStep smallGeometry [0x80] ∧
      gotoLoop smallTrie 3 f₀ (KeyPrefetcher.start smallGeometry [0x80]) 0 none =
        some (f', symbol', lastBitmap) ∧ f'.EndsInStep smallGeometry [0x80] := by
  obtain ⟨L, readable⟩ := smallTrie_wellFormed.readable
  obtain ⟨f₀, n, init, -⟩ := initFinger_spec readable (List.cons_ne_nil _ _) true
  obtain ⟨-, -, descends, goes, -⟩ := pipelined_hashes_right smallTrie [0x80] init
  obtain ⟨f, symbol, walk, ends, -⟩ :=
    descends true (descendReturns_of_readable readable init [0x80] true)
  obtain ⟨f', symbol', lastBitmap, walk', ends'⟩ :=
    goes (gotoReturns_of_readable readable init [0x80])
  exact ⟨f₀, f, symbol, f', symbol', lastBitmap, init, walk, ends, walk', ends'⟩

end CuckooTrie
