import CuckooTrie.Insert
import CuckooTrie.SymbolOrder

/-!
# The arrays of the key prefetcher

`key_to_symbols` encodes a key with one store of eight symbols for each five bytes,
the last group zero-padded, so it writes past the symbols of the key.  The arrays
here carry the list of all places accessed.  They hold what `KeyPrefetcher` says
(`run_implements`), and they are left exactly by the keys of the greatest size
(`prefetcher_in_bounds_iff`).
-/

namespace CuckooTrie

variable {g : Geometry}

/-! ## The fast encoder -/

/-- The first `n` of some bytes as a number, the first byte the most significant. -/
def bigEndian (byte : ℕ → UInt8) : ℕ → ℕ
  | 0 => 0
  | n + 1 => bigEndian byte n * 256 + (byte n).toNat

/-- `key_qword` in an iteration of `key_to_symbols`: the eight next bytes of the key,
zero-filled by `read_qword_zfill`, with the five of this iteration moved to the low
end. -/
def keyQword (key : List UInt8) : ℕ :=
  bigEndian (fun i => key.getD i 0) 8 >>> (64 - 8 * bitsPerSymbol)

/-- A byte of the stored qword: `pdep` deposits five bits in each byte, one is added
to each, and the byte swap puts the most significant one first. -/
def groupSymbol (keyQword j : ℕ) : ℕ := (keyQword >>> (35 - 5 * j) &&& symbolMask) + 1

/-- `key_prefetcher` with its two arrays as memory, and the places of them that were
accessed so far. -/
structure PrefetcherArrays where
  keySymbols : ℕ → ℕ
  prefixHashes : ℕ → ℕ
  prefetchPrefixHash : ℕ
  prefetchPos : ℕ
  numKeySymbols : ℕ
  symbolPlaces : List ℕ
  hashPlaces : List ℕ

namespace PrefetcherArrays

/-- The store of one group of symbols. -/
def storeGroup (p : PrefetcherArrays) (place keyQword : ℕ) : PrefetcherArrays :=
  { p with
    keySymbols := fun i =>
      if place ≤ i ∧ i < place + 8 then groupSymbol keyQword (i - place) else p.keySymbols i
    symbolPlaces := List.range' place 8 ++ p.symbolPlaces }

/-- The loop of `key_to_symbols`.  The bytes left bound the number of iterations. -/
def keyToSymbolsLoop : ℕ → List UInt8 → ℕ → PrefetcherArrays → PrefetcherArrays
  | 0, _, _, p => p
  | fuel + 1, key, nextSym, p =>
    if key.length > 0 then
      keyToSymbolsLoop fuel (key.drop bitsPerSymbol) (nextSym + 8)
        (p.storeGroup nextSym (keyQword key))
    else p

/-- `key_to_symbols`. -/
def keyToSymbols (p : PrefetcherArrays) (key : List UInt8) : PrefetcherArrays :=
  keyToSymbolsLoop key.length key 0 p

/-- The store of the END symbol. -/
def storeEnd (p : PrefetcherArrays) : PrefetcherArrays :=
  { p with
    keySymbols := Function.update p.keySymbols (p.numKeySymbols - 1) symbolEnd
    symbolPlaces := (p.numKeySymbols - 1) :: p.symbolPlaces }

/-- Hash the prefix that ends with the symbol at a place. -/
def hashPrefixAt (g : Geometry) (p : PrefetcherArrays) (i : ℕ) : PrefetcherArrays :=
  let hash := g.accumulateHash p.prefetchPrefixHash (p.keySymbols i)
  { p with
    prefetchPrefixHash := hash
    prefixHashes := Function.update p.prefixHashes i hash
    symbolPlaces := i :: p.symbolPlaces
    hashPlaces := i :: p.hashPlaces }

/-- The loop of `prefetcher_start`, for some more iterations, and the position it
leaves. -/
def startLoop (g : Geometry) : ℕ → ℕ → PrefetcherArrays → PrefetcherArrays
  | 0, i, p => { p with prefetchPos := i }
  | more + 1, i, p =>
    if i < p.numKeySymbols then startLoop g more (i + 1) (p.hashPrefixAt g i)
    else { p with prefetchPos := i }

/-- `prefetcher_start`, on arrays without any contents. -/
def start (g : Geometry) (keyBytes : List UInt8) : PrefetcherArrays :=
  let p : PrefetcherArrays :=
    ⟨fun _ => 0, fun _ => 0, hashStartValue, 0, CuckooTrie.numKeySymbols keyBytes, [], []⟩
  startLoop g 4 0 (p.keyToSymbols keyBytes).storeEnd

/-- `prefetcher_step`. -/
def step (g : Geometry) (p : PrefetcherArrays) : PrefetcherArrays :=
  if p.prefetchPos < p.numKeySymbols then
    { p.hashPrefixAt g p.prefetchPos with prefetchPos := p.prefetchPos + 1 }
  else p

/-- The arrays after a number of calls of `prefetcher_step`. -/
def run (g : Geometry) (keyBytes : List UInt8) : ℕ → PrefetcherArrays
  | 0 => start g keyBytes
  | steps + 1 => (run g keyBytes steps).step g

/-- All accesses were inside the declared arrays. -/
def InBounds (p : PrefetcherArrays) : Prop :=
  (∀ i ∈ p.symbolPlaces, i < maxKeySymbols) ∧ ∀ i ∈ p.hashPlaces, i < maxKeySymbols

end PrefetcherArrays

/-! ## The encoder computes the symbols of the key -/

theorem testBit_bigEndian (byte : ℕ → UInt8) {n q : ℕ} (h : q < 8 * n) :
    (bigEndian byte n).testBit (8 * n - 1 - q) = (byte (q / 8)).toNat.testBit (7 - q % 8) := by
  induction n with
  | zero => omega
  | succ n ih =>
    have small : (byte n).toNat < 2 ^ 8 := (byte n).toNat_lt
    rw [bigEndian, Nat.mul_comm, show 256 = 2 ^ 8 from rfl, Nat.testBit_two_pow_mul_add _ small]
    by_cases last : 8 * n ≤ q
    · rw [if_pos (by omega), show q / 8 = n by omega,
        show 8 * (n + 1) - 1 - q = 7 - q % 8 by omega]
    · rw [if_neg (by omega), show 8 * (n + 1) - 1 - q - 8 = 8 * n - 1 - q by omega]
      exact ih (by omega)

theorem keyBit_drop (bytes : List UInt8) (n p : ℕ) :
    keyBit (bytes.drop n) p = keyBit bytes (8 * n + p) := by
  rw [keyBit, keyBit, show (8 * n + p) / 8 = n + p / 8 by omega,
    show (8 * n + p) % 8 = p % 8 by omega]
  simp [List.getD_eq_getElem?_getD, List.getElem?_drop]

/-- **The fast encoder agrees with `get_string_symbol`.** -/
theorem groupSymbol_eq {bytes : List UInt8} {k j : ℕ} (hj : j < 8)
    (inside : 5 * (8 * k + j) < 8 * bytes.length) :
    groupSymbol (keyQword (bytes.drop (5 * k))) j = getStringSymbol bytes (8 * k + j) := by
  obtain ⟨v, small, symbol, bits⟩ := getStringSymbol_of_lt inside
  rw [symbol, groupSymbol]
  congr 1
  refine Nat.eq_of_testBit_eq fun m => ?_
  rw [show symbolMask = 2 ^ 5 - 1 from rfl, Nat.testBit_and, Nat.testBit_two_pow_sub_one]
  by_cases low : m < 5
  · rw [bits m low, keyQword, Nat.testBit_shiftRight, Nat.testBit_shiftRight]
    have position : 64 - 8 * bitsPerSymbol + (35 - 5 * j + m) = 8 * 8 - 1 - (5 * j + 4 - m) := by
      change 64 - 8 * 5 + (35 - 5 * j + m) = _
      omega
    rw [position, testBit_bigEndian _ (by omega), decide_eq_true low, Bool.and_true]
    change keyBit (bytes.drop (5 * k)) (5 * j + 4 - m) = _
    rw [keyBit_drop]
    congr 1
    omega
  · rw [decide_eq_false low, Bool.and_false]
    have power : 2 ^ 5 ≤ 2 ^ m := Nat.pow_le_pow_right (by decide) (by omega)
    exact (Nat.testBit_lt_two_pow (lt_of_lt_of_le small power)).symm

namespace PrefetcherArrays

/-- **`key_to_symbols`**, from one of its iterations on: it stores whole groups up to
the end of the key, and with them the symbols of the key. -/
theorem keyToSymbolsLoop_spec (bytes : List UInt8) {fuel k : ℕ} (p : PrefetcherArrays)
    (enough : bytes.length ≤ fuel + 5 * k) :
    let p' := keyToSymbolsLoop fuel (bytes.drop (5 * k)) (8 * k) p
    (∀ i, i ∈ p'.symbolPlaces ↔
      i ∈ p.symbolPlaces ∨ 8 * k ≤ i ∧ i < 8 * ((bytes.length + 4) / 5)) ∧
    (∀ i, 5 * i < 8 * bytes.length →
      p'.keySymbols i = if 8 * k ≤ i then getStringSymbol bytes i else p.keySymbols i) ∧
    p' = { p with keySymbols := p'.keySymbols, symbolPlaces := p'.symbolPlaces } := by
  induction fuel generalizing k p with
  | zero =>
    refine ⟨fun i => ?_, fun i inside => ?_, rfl⟩
    · rw [keyToSymbolsLoop]
      refine ⟨Or.inl, fun h => h.resolve_right fun range => ?_⟩
      omega
    · rw [keyToSymbolsLoop, if_neg (by omega)]
  | succ fuel ih =>
    rw [keyToSymbolsLoop, List.length_drop]
    by_cases more : bytes.length - 5 * k > 0
    · rw [if_pos more, List.drop_drop]
      obtain ⟨places, symbols, rest⟩ :=
        ih (k := k + 1) (p.storeGroup (8 * k) (keyQword (bytes.drop (5 * k)))) (by omega)
      rw [show 5 * k + bitsPerSymbol = 5 * (k + 1) from rfl, show 8 * k + 8 = 8 * (k + 1) from rfl]
      refine ⟨fun i => ?_, fun i inside => ?_, rest⟩
      · have split : 8 * k ≤ i ∧ i < 8 * ((bytes.length + 4) / 5) ↔
            (8 * k ≤ i ∧ i < 8 * k + 8) ∨
              8 * (k + 1) ≤ i ∧ i < 8 * ((bytes.length + 4) / 5) := by
          omega
        rw [places, storeGroup, List.mem_append, List.mem_range'_1, split]
        tauto
      · rw [symbols i inside]
        by_cases later : 8 * (k + 1) ≤ i
        · rw [if_pos later, if_pos (by omega)]
        · rw [if_neg later]
          by_cases now : 8 * k ≤ i
          · rw [if_pos now, storeGroup]
            have group : groupSymbol (keyQword (bytes.drop (5 * k))) (i - 8 * k) =
                getStringSymbol bytes (8 * k + (i - 8 * k)) := groupSymbol_eq (by omega) (by omega)
            rw [show 8 * k + (i - 8 * k) = i by omega] at group
            simp only [if_pos (show 8 * k ≤ i ∧ i < 8 * k + 8 by omega), group]
          · rw [if_neg now, storeGroup]
            simp only [if_neg (show ¬ (8 * k ≤ i ∧ i < 8 * k + 8) by omega)]
    · rw [if_neg more]
      refine ⟨fun i => ⟨Or.inl, fun h => h.resolve_right fun range => ?_⟩, fun i inside => ?_, rfl⟩
      · omega
      · rw [if_neg (by omega)]

/-! ## The prefetcher of a descent -/

/-- The arrays hold the symbols of the key and the prefix hashes computed so far, and
only places of these and of whole groups were accessed. -/
structure Implements (p : PrefetcherArrays) (keyBytes : List UInt8) (q : KeyPrefetcher) : Prop where
  symbols : q.keySymbols = CuckooTrie.keySymbols keyBytes
  numKeySymbols : p.numKeySymbols = CuckooTrie.numKeySymbols keyBytes
  keySymbols : ∀ i < CuckooTrie.numKeySymbols keyBytes,
    p.keySymbols i = getStringSymbol keyBytes i
  prefetchPos : p.prefetchPos = q.prefixHashes.length
  prefixHashes : ∀ i < p.prefetchPos, q.prefixHashes[i]? = some (p.prefixHashes i)
  prefetchPrefixHash : p.prefetchPrefixHash = q.prefetchPrefixHash
  symbolPlaces : ∀ i ∈ p.symbolPlaces,
    i < CuckooTrie.numKeySymbols keyBytes ∨ i < 8 * ((keyBytes.length + 4) / 5)
  groups : ∀ i < 8 * ((keyBytes.length + 4) / 5), i ∈ p.symbolPlaces
  hashPlaces : ∀ i ∈ p.hashPlaces, i < CuckooTrie.numKeySymbols keyBytes

/-- Hashing one more prefix. -/
theorem Implements.hashNext {p : PrefetcherArrays} {keyBytes : List UInt8} {q : KeyPrefetcher}
    (implements : p.Implements keyBytes q) (more : p.prefetchPos < p.numKeySymbols) :
    Implements { p.hashPrefixAt g p.prefetchPos with prefetchPos := p.prefetchPos + 1 } keyBytes
      (q.step g) := by
  obtain ⟨symbols, num, content, pos, hashes, hash, places, groups, hashPlaces⟩ := implements
  rw [num] at more
  have next : q.keySymbols[q.prefixHashes.length]? = some (p.keySymbols p.prefetchPos) := by
    rw [symbols, ← pos, getElem?_keySymbols more, content _ more]
  have stepped : q.step g =
      { q with
        prefixHashes := q.prefixHashes ++
          [g.accumulateHash q.prefetchPrefixHash (p.keySymbols p.prefetchPos)]
        prefetchPrefixHash :=
          g.accumulateHash q.prefetchPrefixHash (p.keySymbols p.prefetchPos) } := by
    rw [KeyPrefetcher.step, next]
  rw [stepped]
  constructor
  · exact symbols
  · exact num
  · exact content
  · simp [pos]
  · intro i hi
    simp only [hashPrefixAt]
    by_cases same : i = p.prefetchPos
    · rw [same, Function.update_self, pos, List.getElem?_concat_length, hash]
    · have before : i < p.prefetchPos := by
        have : i < p.prefetchPos + 1 := hi
        omega
      rw [Function.update_of_ne same, List.getElem?_append_left (pos ▸ before)]
      exact hashes i before
  · simp [hashPrefixAt, hash]
  · exact List.forall_mem_cons.mpr ⟨Or.inl more, places⟩
  · exact fun i hi => List.mem_cons_of_mem _ (groups i hi)
  · exact List.forall_mem_cons.mpr ⟨more, hashPlaces⟩

/-- **`prefetcher_step`.** -/
theorem Implements.step {p : PrefetcherArrays} {keyBytes : List UInt8} {q : KeyPrefetcher}
    (implements : p.Implements keyBytes q) : (p.step g).Implements keyBytes (q.step g) := by
  rw [PrefetcherArrays.step]
  split
  · next more => exact implements.hashNext more
  · next final =>
    have done : q.keySymbols[q.prefixHashes.length]? = none := by
      rw [implements.symbols, ← implements.prefetchPos, List.getElem?_eq_none_iff,
        length_keySymbols, ← implements.numKeySymbols]
      exact not_lt.mp final
    rw [KeyPrefetcher.step, done]
    exact implements

/-- The loop of `prefetcher_start` hashes like the same number of steps. -/
theorem startLoop_eq (more i : ℕ) (p : PrefetcherArrays) :
    startLoop g more i p = (step g)^[more] { p with prefetchPos := i } := by
  induction more generalizing i p with
  | zero => rfl
  | succ more ih =>
    rw [startLoop, Function.iterate_succ_apply, step]
    split
    · rw [ih]
      rfl
    · next final =>
      have stays : step g { p with prefetchPos := i } = { p with prefetchPos := i } := by
        rw [step]
        exact if_neg final
      exact (Function.iterate_fixed stays more).symm

/-- Before any prefix is hashed. -/
theorem implements_encoded (keyBytes : List UInt8) :
    Implements
      (((⟨fun _ => 0, fun _ => 0, hashStartValue, 0, CuckooTrie.numKeySymbols keyBytes, [], []⟩ :
        PrefetcherArrays).keyToSymbols keyBytes).storeEnd) keyBytes
      ⟨CuckooTrie.keySymbols keyBytes, [], hashStartValue⟩ := by
  generalize hp : (⟨fun _ => 0, fun _ => 0, hashStartValue, 0,
    CuckooTrie.numKeySymbols keyBytes, [], []⟩ : PrefetcherArrays) = p
  obtain ⟨places, symbols, rest⟩ :=
    @keyToSymbolsLoop_spec keyBytes keyBytes.length 0 p (by omega)
  change ∀ i, i ∈ (p.keyToSymbols keyBytes).symbolPlaces ↔ _ at places
  change ∀ i, _ → (p.keyToSymbols keyBytes).keySymbols i = _ at symbols
  change p.keyToSymbols keyBytes = _ at rest
  generalize p.keyToSymbols keyBytes = p' at places symbols rest ⊢
  have num : p'.numKeySymbols = CuckooTrie.numKeySymbols keyBytes := by
    rw [rest, ← hp]
  have encoded : ∀ i, i ∈ p'.symbolPlaces ↔ i < 8 * ((keyBytes.length + 4) / 5) := fun i => by
    rw [places, ← hp]
    simp
  have count := numKeySymbols_eq keyBytes
  constructor
  · rfl
  · exact num
  · intro i inside
    simp only [storeEnd, num]
    by_cases last : i = CuckooTrie.numKeySymbols keyBytes - 1
    · rw [last, Function.update_self, getStringSymbol_of_ge (by omega)]
    · rw [Function.update_of_ne last, symbols i (by omega), if_pos (by omega)]
  · simp [storeEnd, rest, ← hp]
  · simp [storeEnd, rest, ← hp]
  · simp [storeEnd, rest, ← hp]
  · refine List.forall_mem_cons.mpr ⟨Or.inl ?_, fun i mem => Or.inr ((encoded i).mp mem)⟩
    omega
  · exact fun i inside => List.mem_cons_of_mem _ ((encoded i).mpr inside)
  · simp [storeEnd, rest, ← hp]

/-- **The arrays hold what the prefetcher says**, after any number of steps. -/
theorem run_implements (g : Geometry) (keyBytes : List UInt8) (steps : ℕ) :
    (run g keyBytes steps).Implements keyBytes
      ((KeyPrefetcher.step g)^[steps] (KeyPrefetcher.start g keyBytes)) := by
  induction steps with
  | zero =>
    have encoded := implements_encoded keyBytes
    have pos : ∀ p : PrefetcherArrays, p.prefetchPos = 0 → { p with prefetchPos := 0 } = p := by
      rintro ⟨⟩ rfl
      rfl
    rw [run, start, startLoop_eq, pos _ encoded.prefetchPos]
    exact encoded.step.step.step.step
  | succ steps ih =>
    rw [run, Function.iterate_succ_apply']
    exact ih.step

/-- The accesses of a run are inside the arrays for all keys but the longest ones. -/
theorem run_inBounds_iff (g : Geometry) (keyBytes : List UInt8) (steps : ℕ) :
    (run g keyBytes steps).InBounds ↔ keyBytes.length < maxKeyBytes := by
  have implements := run_implements g keyBytes steps
  have count := numKeySymbols_eq keyBytes
  constructor
  · intro inBounds
    by_contra long
    change ¬ _ < 256 at long
    have last := inBounds.1 (8 * ((keyBytes.length + 4) / 5) - 1)
      (implements.groups _ (by omega))
    change _ < 410 at last
    omega
  · intro short
    change _ < 256 at short
    refine ⟨fun i mem => ?_, fun i mem => ?_⟩
    · change i < 410
      rcases implements.symbolPlaces i mem with symbol | group <;> omega
    · change i < 410
      have := implements.hashPlaces i mem
      omega

end PrefetcherArrays

/-- **The prefetcher of a call leaves its arrays exactly on keys of the greatest size
or longer ones**, after any number of steps; only in an empty trie it is not started. -/
theorem prefetcher_in_bounds_iff (t : Trie g) (keyBytes : List UInt8) (steps : ℕ) :
    (∀ f, initFinger t = some f → (PrefetcherArrays.run g keyBytes steps).InBounds) ↔
      t.isEmpty = true ∨ keyBytes.length < maxKeyBytes := by
  rw [initFinger]
  by_cases empty : t.isEmpty = true
  · simp [empty]
  · simp [empty, PrefetcherArrays.run_inBounds_iff]

/-- A key of the greatest size is admitted by every call, and in a trie that
`ct_insert` has put one key into its END symbol is stored behind the array. -/
theorem prefetcher_overflow :
    ¬ ∀ (t : Trie (.ctAlloc 256 (by decide) (by decide))) (keyBytes : List UInt8) (steps : ℕ),
      keyBytes.length ≤ maxKeyBytes → ∀ f, initFinger t = some f →
        (PrefetcherArrays.run (.ctAlloc 256 (by decide) (by decide)) keyBytes steps).InBounds := by
  intro inBounds
  have begun : (initFinger ((ctInsert ⟨0, [0]⟩ 1).run (Sys.init
      (emptyTrie (.ctAlloc 256 (by decide) (by decide))) alone)).2.trie).isSome = true := by
    decide +kernel
  obtain ⟨f, init⟩ := Option.isSome_iff_exists.mp begun
  have long := inBounds _ (List.replicate 256 0) 0 (List.length_replicate).le f init
  rw [PrefetcherArrays.run_inBounds_iff, List.length_replicate] at long
  exact absurd long (by decide)

end CuckooTrie
