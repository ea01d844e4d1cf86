import CuckooTrie.Search

/-!
# The table as a store

What the table of buckets is for: it stores entries under a hash and a color,
wherever in the two buckets of the hash they happen to lie.  `Store` is that
abstract store, and `Trie.Stores` relates a memory to it.  While an entry is
being relocated two cells hold it for a moment; `hole` names the cell whose
contents do not count then.

The searches of a bucket pair read the store (`Stores.byColor`,
`Stores.byParent`), and the ways in which the code changes a cell are the
operations of the store (`Stores.set`, `Stores.add`, `Stores.erase`,
`Stores.move`, `Stores.fill`).
-/

namespace CuckooTrie

variable {g : Geometry}

/-- The entries stored under a hash and a color, the head of the list of leaves
and the flag `is_empty`. -/
@[ext]
structure Store where
  entry : ℕ → ℕ → Option Entry
  head : Entry
  isEmpty : Bool

namespace Store

/-- Store an entry under a hash and a color. -/
def set (S : Store) (h c : ℕ) (e : Entry) : Store :=
  { S with entry := fun h' c' => if h' = h ∧ c' = c then some e else S.entry h' c' }

/-- Take an entry out of the store. -/
def erase (S : Store) (h c : ℕ) : Store :=
  { S with entry := fun h' c' => if h' = h ∧ c' = c then none else S.entry h' c' }

/-- Replace the head of the list of leaves. -/
def setHead (S : Store) (e : Entry) : Store := { S with head := e }

@[simp] theorem set_head (S : Store) (h c : ℕ) (e : Entry) : (S.set h c e).head = S.head := rfl

@[simp] theorem set_isEmpty (S : Store) (h c : ℕ) (e : Entry) :
    (S.set h c e).isEmpty = S.isEmpty := rfl

@[simp] theorem set_entry_self (S : Store) (h c : ℕ) (e : Entry) :
    (S.set h c e).entry h c = some e := by
  simp [set]

theorem set_entry_of_ne (S : Store) {h c h' c' : ℕ} (e : Entry) (ne : ¬ (h' = h ∧ c' = c)) :
    (S.set h c e).entry h' c' = S.entry h' c' := by
  simp [set, ne]

@[simp] theorem erase_head (S : Store) (h c : ℕ) : (S.erase h c).head = S.head := rfl

@[simp] theorem erase_isEmpty (S : Store) (h c : ℕ) : (S.erase h c).isEmpty = S.isEmpty := rfl

@[simp] theorem erase_entry_self (S : Store) (h c : ℕ) : (S.erase h c).entry h c = none := by
  simp [erase]

theorem erase_entry_of_ne (S : Store) {h c h' c' : ℕ} (ne : ¬ (h' = h ∧ c' = c)) :
    (S.erase h c).entry h' c' = S.entry h' c' := by
  simp [erase, ne]

@[simp] theorem setHead_entry (S : Store) (e : Entry) : (S.setHead e).entry = S.entry := rfl

@[simp] theorem setHead_head (S : Store) (e : Entry) : (S.setHead e).head = e := rfl

@[simp] theorem setHead_isEmpty (S : Store) (e : Entry) : (S.setHead e).isEmpty = S.isEmpty := rfl

/-- Taking out what was just put under a free name changes nothing. -/
theorem erase_set (S : Store) {h c : ℕ} (e : Entry) (free : S.entry h c = none) :
    (S.set h c e).erase h c = S := by
  apply Store.ext
  · funext h' c'
    by_cases same : h' = h ∧ c' = c
    · obtain ⟨rfl, rfl⟩ := same
      rw [erase_entry_self, free]
    · rw [erase_entry_of_ne _ same, set_entry_of_ne _ _ same]
  · rfl
  · rfl

end Store

/-! ## The hash of a cell -/

/-- The hash under which a cell stores an entry: the primary bucket of its pair
and its tag. -/
def cellHash (g : Geometry) (loc : Loc) (e : Entry) : ℕ :=
  (if e.secondary then g.unmixBucket loc.bucket e.tag else loc.bucket) * 16 + e.tag

/-- The cell holds an entry, stored under the hash `h` and the color `c`. -/
structure Trie.At (t : Trie g) (loc : Loc) (h c : ℕ) : Prop where
  inTable : loc.bucket < g.numBuckets
  used : (t.cells loc).body.used = true
  hash : cellHash g loc (t.cells loc) = h
  color : (t.cells loc).color = c

/-- The memory `t` holds the store `S`; the contents of the cell `hole`, if there
is one, duplicate an entry that is being relocated. -/
structure Trie.Stores (t : Trie g) (S : Store) (hole : Option Loc) : Prop where
  unused_invalid : ∀ loc, loc.bucket < g.numBuckets → (t.cells loc).body.used = false →
    (t.cells loc).color = invalidColor ∧ (t.cells loc).parentColor = invalidColor
  tag_color : ∀ loc, loc.bucket < g.numBuckets → (t.cells loc).body.used = true →
    (t.cells loc).tag < 16 ∧ (t.cells loc).color ≤ maxValidColor
  content : ∀ loc h c, t.At loc h c → S.entry h c = some (t.cells loc).content
  stored : ∀ h c e, S.entry h c = some e → ∃ loc, t.At loc h c ∧ hole ≠ some loc
  unique : ∀ loc loc' h c, t.At loc h c → t.At loc' h c → hole ≠ some loc → hole ≠ some loc' →
    loc = loc'
  root : ∀ e, S.entry 0 0 = some e → t.At rootLoc 0 0 ∧ hole ≠ some rootLoc
  head : t.cells (trieMinLeaf g) = S.head
  isEmpty : t.isEmpty = S.isEmpty

/-- The entry with the bit flipped that says which bucket of its pair it is in. -/
def Entry.flip (e : Entry) : Entry := { e with secondary := !e.secondary }

@[simp] theorem Entry.content_flip (e : Entry) : e.flip.content = e.content := rfl

theorem cellHash_eq_iff {loc : Loc} {e : Entry} {h : ℕ} (htag : e.tag < 16)
    (hloc : loc.bucket < g.numBuckets) :
    cellHash g loc e = h ↔
      e.tag = hashToTag h ∧ hashToBucket h < g.numBuckets ∧
        loc.bucket = if e.secondary then g.mixBucket (hashToBucket h) e.tag else hashToBucket h := by
  have whole := bucket_tag_eq h
  have small := hashToTag_lt h
  have unmixed := g.unmixBucket_lt e.tag hloc
  constructor
  · rintro rfl
    rw [cellHash, hashToTag_of_pair htag, hashToBucket_of_pair htag]
    cases e.secondary
    · exact ⟨rfl, hloc, rfl⟩
    · exact ⟨rfl, unmixed, (g.mix_unmix e.tag hloc).symm⟩
  · rintro ⟨sameTag, inside, place⟩
    rw [cellHash]
    cases hsec : e.secondary
    · simp only [hsec, Bool.false_eq_true, if_false] at place ⊢
      omega
    · simp only [hsec, if_true] at place ⊢
      rw [place, g.unmix_mix e.tag inside]
      omega

/-- The alternate bucket is where the flipped entry keeps its hash. -/
theorem cellHash_alternate {loc dst : Loc} {e : Entry} (hloc : loc.bucket < g.numBuckets)
    (hdst : dst.bucket = alternateBucket g e loc.bucket) :
    cellHash g dst e.flip = cellHash g loc e := by
  simp only [cellHash, Entry.flip, hdst, alternateBucket]
  cases e.secondary
  · simp [g.unmix_mix e.tag hloc]
  · simp

theorem alternateBucket_lt {e : Entry} {b : ℕ} (h : b < g.numBuckets) :
    alternateBucket g e b < g.numBuckets := by
  unfold alternateBucket
  split
  · exact g.unmixBucket_lt _ h
  · exact g.mixBucket_lt _ h

/-- **The hash is invertible and stays inside the table.**  `accumulate_hash` is a
bijection for each symbol and injective in the symbol, `mix_bucket` and
`unmix_bucket` are inverse bijections, and so are the two alternate buckets of an
entry; hence a cell determines the hash of the prefix of its node, and a hash and
the last symbol that of the parent. -/
theorem hash_invertible (g : Geometry) :
    (∀ x < g.numPairs, ∀ symbol ≤ fanout, g.accumulateHash x symbol < g.numPairs) ∧
      (∀ symbol ≤ fanout, Set.BijOn (fun x => g.accumulateHash x symbol) (Set.Iio g.numPairs)
        (Set.Iio g.numPairs)) ∧
      (∀ x < g.numPairs, Set.InjOn (g.accumulateHash x) (Set.Iic fanout)) ∧
      (∀ tag, Set.BijOn (fun b => g.mixBucket b tag) (Set.Iio g.numBuckets)
          (Set.Iio g.numBuckets) ∧
        Set.BijOn (fun b => g.unmixBucket b tag) (Set.Iio g.numBuckets) (Set.Iio g.numBuckets) ∧
        Set.InvOn (fun b => g.unmixBucket b tag) (fun b => g.mixBucket b tag)
          (Set.Iio g.numBuckets) (Set.Iio g.numBuckets)) ∧
      (∀ (e : Entry), ∀ b < g.numBuckets,
        alternateBucket g e b < g.numBuckets ∧
          alternateBucket g e.flip (alternateBucket g e b) = b) ∧
      (∀ x < g.numPairs, ∀ (loc : Loc) (e : Entry), e.tag = hashToTag x →
        loc.bucket = (if e.secondary then g.mixBucket (hashToBucket x) (hashToTag x)
          else hashToBucket x) → cellHash g loc e = x) ∧
      ∀ x < g.numPairs, ∀ symbol ≤ fanout,
        ∃! y, y < g.numPairs ∧ g.accumulateHash y symbol = x := by
  have inverse : ∀ tag, Set.InvOn (fun b => g.unmixBucket b tag) (fun b => g.mixBucket b tag)
      (Set.Iio g.numBuckets) (Set.Iio g.numBuckets) := fun tag =>
    ⟨fun b hb => g.unmix_mix tag hb, fun b hb => g.mix_unmix tag hb⟩
  have mixes : ∀ tag, Set.MapsTo (fun b => g.mixBucket b tag) (Set.Iio g.numBuckets)
      (Set.Iio g.numBuckets) := fun tag b hb => g.mixBucket_lt tag hb
  have unmixes : ∀ tag, Set.MapsTo (fun b => g.unmixBucket b tag) (Set.Iio g.numBuckets)
      (Set.Iio g.numBuckets) := fun tag b hb => g.unmixBucket_lt tag hb
  refine ⟨fun x hx symbol h => g.accumulateHash_lt hx h, fun symbol h => g.accumulateHash_bijOn h,
    fun x hx s h s' h' same => g.accumulateHash_inj_symbol hx h h' same,
    fun tag => ⟨(inverse tag).bijOn (mixes tag) (unmixes tag),
      (inverse tag).symm.bijOn (unmixes tag) (mixes tag), inverse tag⟩,
    fun e b hb => ⟨alternateBucket_lt hb, ?_⟩, fun x hx loc e tag place => ?_,
    fun x hx symbol h => ?_⟩
  · rw [alternateBucket, alternateBucket, Entry.flip]
    cases e.secondary
    · simp [g.unmix_mix e.tag hb]
    · simp [g.mix_unmix e.tag hb]
  · have primary := g.hashToBucket_lt hx
    have inTable : loc.bucket < g.numBuckets := by
      rw [place]
      split
      · exact g.mixBucket_lt _ primary
      · exact primary
    have small := hashToTag_lt x
    rw [← tag] at place small
    exact (cellHash_eq_iff small inTable).mpr ⟨tag, primary, place⟩
  · obtain ⟨y, hy, same⟩ := (g.accumulateHash_bijOn h).surjOn hx
    exact ⟨y, ⟨hy, same⟩, fun z hz => g.accumulateHash_inj hz.1 hy h (hz.2.trans same.symm)⟩

namespace Trie.At

variable {t : Trie g} {loc : Loc} {h c : ℕ}

theorem congr {t' : Trie g} (at_ : t.At loc h c) (same : t'.cells loc = t.cells loc) :
    t'.At loc h c :=
  ⟨at_.inTable, same ▸ at_.used, same ▸ at_.hash, same ▸ at_.color⟩

/-- A cell holds one entry only. -/
theorem name_eq {h' c' : ℕ} (at_ : t.At loc h c) (at' : t.At loc h' c') : h = h' ∧ c = c' :=
  ⟨at_.hash.symm.trans at'.hash, at_.color.symm.trans at'.color⟩

theorem ne_minLeaf (at_ : t.At loc h c) : loc ≠ trieMinLeaf g := by
  rintro rfl
  exact absurd at_.inTable (lt_irrefl _)

end Trie.At

namespace Trie.Stores

variable {t : Trie g} {S : Store} {hole : Option Loc} {loc : Loc} {h c : ℕ} {e : Entry}

/-- Where a stored entry lies. -/
theorem place (stores : t.Stores S hole) (at_ : t.At loc h c) :
    (t.cells loc).tag = hashToTag h ∧ hashToBucket h < g.numBuckets ∧
      loc.bucket = if (t.cells loc).secondary then g.mixBucket (hashToBucket h) (hashToTag h)
        else hashToBucket h := by
  have htag := (stores.tag_color loc at_.inTable at_.used).1
  obtain ⟨sameTag, inside, place⟩ := (cellHash_eq_iff htag at_.inTable).mp at_.hash
  exact ⟨sameTag, inside, sameTag ▸ place⟩

/-- A cell of the right bucket with the right header holds the entry. -/
theorem at_of_place (stores : t.Stores S hole) (inside : hashToBucket h < g.numBuckets)
    (used : (t.cells loc).body.used = true) (htag : (t.cells loc).tag = hashToTag h)
    (hplace : loc.bucket = if (t.cells loc).secondary then
      g.mixBucket (hashToBucket h) (hashToTag h) else hashToBucket h) :
    t.At loc h (t.cells loc).color := by
  have inTable : loc.bucket < g.numBuckets := by
    rw [hplace]
    split
    · exact g.mixBucket_lt _ inside
    · exact inside
  have small := (stores.tag_color loc inTable used).1
  exact ⟨inTable, used, (cellHash_eq_iff small inTable).mpr ⟨htag, inside, htag ▸ hplace⟩, rfl⟩

theorem color_le (stores : t.Stores S hole) (stored : S.entry h c = some e) :
    c ≤ maxValidColor := by
  obtain ⟨loc, at_, -⟩ := stores.stored h c e stored
  exact at_.color ▸ (stores.tag_color loc at_.inTable at_.used).2

theorem hashToBucket_lt (stores : t.Stores S hole) (stored : S.entry h c = some e) :
    hashToBucket h < g.numBuckets := by
  obtain ⟨loc, at_, -⟩ := stores.stored h c e stored
  exact (stores.place at_).2.1

/-- Every cell of the table with a valid color is used. -/
theorem used_of_color_le (stores : t.Stores S hole) (inTable : loc.bucket < g.numBuckets)
    (valid : (t.cells loc).color ≤ maxValidColor) : (t.cells loc).body.used = true := by
  by_contra unused
  have invalid := (stores.unused_invalid loc inTable (by simpa using unused)).1
  rw [invalid] at valid
  exact absurd valid (by decide)

theorem used_of_parentColor_le (stores : t.Stores S hole) (inTable : loc.bucket < g.numBuckets)
    (valid : (t.cells loc).parentColor ≤ maxValidColor) : (t.cells loc).body.used = true := by
  by_contra unused
  have invalid := (stores.unused_invalid loc inTable (by simpa using unused)).2
  rw [invalid] at valid
  exact absurd valid (by decide)

end Trie.Stores

/-- A copy of the entry stored under `h` and `c`, as it is in the memory. -/
structure LocalCopy.Reads (lc : LocalCopy) (t : Trie g) (h c : ℕ) : Prop where
  at_ : t.At lc.lastPos h c
  eq : lc = t.localCopy lc.lastPos (hashToBucket h)

namespace LocalCopy.Reads

variable {lc : LocalCopy} {t : Trie g} {h c : ℕ}

theorem value (reads : lc.Reads t h c) : lc.value = t.cells lc.lastPos :=
  congrArg LocalCopy.value reads.eq

theorem lastSeq (reads : lc.Reads t h c) : lc.lastSeq = t.seq lc.lastPos.bucket :=
  congrArg LocalCopy.lastSeq reads.eq

theorem primaryBucket (reads : lc.Reads t h c) : lc.primaryBucket = hashToBucket h :=
  congrArg LocalCopy.primaryBucket reads.eq

theorem entry {S : Store} {hole : Option Loc} (reads : lc.Reads t h c) (stores : t.Stores S hole) :
    S.entry h c = some lc.value.content := by
  rw [reads.value]
  exact stores.content _ h c reads.at_

end LocalCopy.Reads

namespace Trie.Stores

variable {t : Trie g} {S : Store} {hole : Option Loc} {loc : Loc} {h c : ℕ} {e : Entry}

/-! ### Searching a pair -/

/-- The scan of the two buckets of a pair for a header: if some cell of the hash
passes the test in its bucket, then the search returns a cell that does. -/
theorem search_pair (stores : t.Stores S hole) {a : Bool → Entry → Bool}
    (at_ : t.At loc h c)
    (passes : a (t.cells loc).secondary (t.cells loc) = true) :
    ∃ loc' sec, (match findInBucket t (hashToBucket h) (a false) with
        | some loc => some loc
        | none => findInBucket t (g.mixBucket (hashToBucket h) (hashToTag h)) (a true)) =
          some loc' ∧
      a sec (t.cells loc') = true ∧
      loc'.bucket = if sec then g.mixBucket (hashToBucket h) (hashToTag h) else hashToBucket h := by
  obtain ⟨-, -, place⟩ := stores.place at_
  cases primary : findInBucket t (hashToBucket h) (a false) with
  | some loc' =>
    obtain ⟨bucket, accepted⟩ := findInBucket_eq_some primary
    exact ⟨loc', false, rfl, accepted, bucket⟩
  | none =>
    cases sec : (t.cells loc).secondary with
    | false =>
      rw [sec] at place passes
      have fails := findInBucket_eq_none primary place
      rw [passes] at fails
      cases fails
    | true =>
      rw [sec] at place passes
      cases secondary : findInBucket t (g.mixBucket (hashToBucket h) (hashToTag h)) (a true) with
      | some loc' =>
        obtain ⟨bucket, accepted⟩ := findInBucket_eq_some secondary
        exact ⟨loc', true, rfl, accepted, bucket⟩
      | none =>
        have fails := findInBucket_eq_none secondary place
        rw [passes] at fails
        cases fails

/-- **The search by color reads the store.** -/
theorem byColor (stores : t.Stores S hole) (stored : S.entry h c = some e) :
    ∃ lc, findEntryInPairByColor t (hashToBucket h) (hashToTag h) c = some lc ∧ lc.Reads t h c ∧
      lc.value.content = e := by
  obtain ⟨loc, at_, -⟩ := stores.stored h c e stored
  have inside := stores.hashToBucket_lt stored
  have valid := stores.color_le stored
  have passes : matchesColor (t.cells loc).secondary (hashToTag h) c (t.cells loc) = true := by
    simp [matchesColor, (stores.place at_).1, at_.color]
  obtain ⟨loc', sec, found, accepted, bucket⟩ :=
    stores.search_pair (a := fun sec => matchesColor sec (hashToTag h) c) at_ passes
  simp only [matchesColor, Bool.and_eq_true, decide_eq_true_eq] at accepted
  obtain ⟨⟨htag, hcolor⟩, hsec⟩ := accepted
  have inTable : loc'.bucket < g.numBuckets := by
    rw [bucket]
    split
    · exact g.mixBucket_lt _ inside
    · exact inside
  have at' : t.At loc' h c := hcolor ▸
    stores.at_of_place inside (stores.used_of_color_le inTable (hcolor ▸ valid)) htag (hsec ▸ bucket)
  refine ⟨t.localCopy loc' (hashToBucket h), ?_, ⟨at', rfl⟩, ?_⟩
  · rw [findEntryInPairByColor]
    exact congrArg (Option.map fun loc => t.localCopy loc (hashToBucket h)) found
  · exact Option.some.inj ((stores.content loc' h c at').symm.trans stored)

/-- **The search by parent reads the store**, if no other entry of the hash has
the requested last symbol and parent color. -/
theorem byParent (stores : t.Stores S hole) {symbol parentColor : ℕ}
    (stored : S.entry h c = some e) (hsymbol : e.lastSymbol = symbol)
    (hparent : e.parentColor = parentColor) (valid : parentColor ≤ maxValidColor)
    (only : ∀ c' e', S.entry h c' = some e' → e'.lastSymbol = symbol →
      e'.parentColor = parentColor → c' = c) :
    ∃ lc, findEntryInPairByParent t (hashToBucket h) (hashToTag h) symbol parentColor = some lc ∧
      lc.Reads t h c ∧ lc.value.content = e := by
  obtain ⟨loc, at_, -⟩ := stores.stored h c e stored
  have inside := stores.hashToBucket_lt stored
  have same := Option.some.inj ((stores.content loc h c at_).symm.trans stored)
  have passes : matchesParent (t.cells loc).secondary (hashToTag h) symbol parentColor
      (t.cells loc) = true := by
    have s1 : (t.cells loc).lastSymbol = symbol := by rw [← hsymbol, ← same]; rfl
    have s2 : (t.cells loc).parentColor = parentColor := by rw [← hparent, ← same]; rfl
    simp [matchesParent, (stores.place at_).1, s1, s2]
  obtain ⟨loc', sec, found, accepted, bucket⟩ :=
    stores.search_pair (a := fun sec => matchesParent sec (hashToTag h) symbol parentColor)
      at_ passes
  simp only [matchesParent, Bool.and_eq_true, decide_eq_true_eq] at accepted
  obtain ⟨⟨⟨htag, hsym⟩, hpar⟩, hsec⟩ := accepted
  have inTable : loc'.bucket < g.numBuckets := by
    rw [bucket]
    split
    · exact g.mixBucket_lt _ inside
    · exact inside
  have at' : t.At loc' h (t.cells loc').color :=
    stores.at_of_place inside (stores.used_of_parentColor_le inTable (hpar ▸ valid)) htag
      (hsec ▸ bucket)
  have sameColor : (t.cells loc').color = c :=
    only _ _ (stores.content loc' h _ at') hsym hpar
  rw [sameColor] at at'
  refine ⟨t.localCopy loc' (hashToBucket h), ?_, ⟨at', rfl⟩, ?_⟩
  · rw [findEntryInPairByParent]
    exact congrArg (Option.map fun loc => t.localCopy loc (hashToBucket h)) found
  · exact Option.some.inj ((stores.content loc' h c at').symm.trans stored)

end Trie.Stores

end CuckooTrie
