import CuckooTrie.Attempts
import CuckooTrie.CursorMap
import CuckooTrie.Verify

/-!
# Histories of calls

A client makes its calls one after the other, with any number of iterators open between them, and
stops when the table is full.  Whatever it does, the answers are those of a map with cursors
(`client_refines`): the trie stays well-formed from call to call, and an iterator backs a cursor.
What a trie holds in the end is what the answers say was put in, from `ct_alloc` on
(`client_from_ct_alloc`), last objects first (`lookup_finds_last_put`) and whatever the order of
inserts of distinct keys (`insert_order_irrelevant`).

An iterator works from a copy of the last leaf, and the link in that copy may be old.  The node it
leads to is still where it was (`Layout.Stays`), so it is the leaf of the same key or has become an
inner node (`Layout.Marks.follows`); then `ct_iter_next` goes anew to the key reported last
(`ctIterNext_backs`).
-/

namespace CuckooTrie

open Sys

variable {g : Geometry} {maps : Set KeyMap} {base : ℕ → ℕ} {s s' : Sys g} {t : Trie g}
  {L K : Layout} {M M' : KeyMap} {p : List ℕ} {kv : CtKv} {okv : Option CtKv} {lnk : Locator}
  {iter : CtIter} {c : Cursor} {key : List UInt8}

/-! ## Old links -/

namespace Layout

/-- A link that was read when a given object came next, or none: it names a node on the path of
the key. -/
def Marks (L : Layout) (g : Geometry) (M : KeyMap) (lnk : Locator) : Option CtKv → Prop
  | none => lnk.primaryBucket = endOfList
  | some kv => (∃ kv' ∈ M, kv'.key = kv.key) ∧
      ∃ p n, L.node p = some n ∧ KeyMap.Below p kv ∧ lnk = L.locator g p

theorem PointsTo.marks (points : L.PointsTo g lnk okv) (shape : L.Shape M) :
    L.Marks g M lnk okv := by
  cases okv with
  | none => exact points
  | some kv =>
    obtain ⟨p, hp, same⟩ := points
    obtain ⟨mem, below⟩ := shape.leaf p kv hp
    exact ⟨⟨kv, mem, rfl⟩, p, _, hp, below, same⟩

/-- An old link stays one. -/
theorem Marks.stays (marks : L.Marks g M lnk okv) (stays : L.Stays K) (within : M.Within M') :
    K.Marks g M' lnk okv := by
  cases okv with
  | none => exact marks
  | some kv =>
    obtain ⟨⟨kv', mem, same⟩, p, n, hp, below, link⟩ := marks
    obtain ⟨some_, color⟩ := stays p n hp
    obtain ⟨n', hp'⟩ := Option.ne_none_iff_exists'.mp some_
    obtain ⟨kv'', mem'', same'⟩ := within kv' mem
    refine ⟨⟨kv'', mem'', same'.trans same⟩, p, n', hp', below, ?_⟩
    rw [link, locator, locator, color]

theorem Marks.ne_endOfList (marks : L.Marks g M lnk (some kv)) (shape : L.Shape M) :
    lnk.primaryBucket ≠ endOfList := by
  obtain ⟨-, p, n, hp, -, rfl⟩ := marks
  exact locator_ne_endOfList shape hp

/-- An old link leads to the leaf of its key, or to an inner node. -/
theorem Marks.follows (marks : L.Marks g M lnk (some kv)) (shape : L.Shape M) :
    ∃ kv' ∈ M, kv'.key = kv.key ∧ L.Follows g lnk (some kv') := by
  obtain ⟨⟨kv', mem, same⟩, p, n, hp, below, link⟩ := marks
  have below' : KeyMap.Below p kv' := by
    rw [KeyMap.Below, same]
    exact below
  refine ⟨kv', mem, same, ?_⟩
  cases n with
  | leaf kv'' =>
    cases shape.eq_of_below_leaf hp mem below'
    exact Or.inl ⟨p, hp, link⟩
  | bitmap children => exact Or.inr ⟨p, _, hp, rfl, link⟩
  | jump symbols => exact Or.inr ⟨p, _, hp, rfl, link⟩

end Layout

/-! ## Iterators back cursors -/

/-- The copy of an iterator was made of the leaf of a place. -/
structure CtIter.HasRead (iter : CtIter) (g : Geometry) (L : Layout) (M : KeyMap) (place : Place) :
    Prop where
  awake : iter.isExhausted = false
  kv : iter.leaf.value.body.kv = place.kv
  marks : L.Marks g M iter.leaf.value.body.nextLeaf (place.seen.after place.kv.key)

/-- An iterator is where a cursor is. -/
def CtIter.Backs (iter : CtIter) (g : Geometry) (L : Layout) (M : KeyMap) : Cursor → Prop
  | .exhausted => iter.isExhausted = true
  | .onto place => iter.HasRead g L M place ∧ iter.reportCurrent = true
  | .past place => iter.HasRead g L M place ∧ iter.reportCurrent = false

namespace CtIter

theorem HasRead.stays {place : Place} (read : iter.HasRead g L M place) (stays : L.Stays K)
    (within : M.Within M') : iter.HasRead g K M' place :=
  ⟨read.awake, read.kv, read.marks.stays stays within⟩

/-- Iterators are not disturbed by an insert. -/
theorem Backs.stays (backs : iter.Backs g L M c) (stays : L.Stays K) (within : M.Within M') :
    iter.Backs g K M' c := by
  cases c with
  | exhausted => exact backs
  | onto place => exact ⟨backs.1.stays stays within, backs.2⟩
  | past place => exact ⟨backs.1.stays stays within, backs.2⟩

/-- A copy that was just made. -/
theorem hasRead_of_describes (shape : L.Shape M) (linked : L.Linked g M)
    (hp : L.node p = some (.leaf kv)) (describes : iter.leaf.Describes t L p (.leaf kv))
    (awake : iter.isExhausted = false) :
    iter.HasRead g L M ⟨M, kv, (shape.leaf p kv hp).1⟩ := by
  have body := describes.body
  refine ⟨awake, by rw [body]; rfl, ?_⟩
  rw [show iter.leaf.value.body.nextLeaf = L.link p by rw [body]; rfl]
  exact (linked.next p kv hp).marks shape

end CtIter

/-- **`ct_iter_goto`** places the cursor. -/
theorem ctIterGoto_backs (readable : L.Readable s.trie M) (linked : L.Linked g M)
    (lone : s.env = alone) (iter : CtIter) (key : List UInt8) (fuel : ℕ) :
    (ctIterGoto iter key (fuel + 1)).Returns s fun it s' =>
      Quiet s s' ∧ s'.trie = s.trie ∧ it.Backs g L M (.place M key) := by
  refine (ctIterGoto_spec readable linked lone iter key fuel).weaken fun it s' _ post => ?_
  obtain ⟨quiet, trie, awaits, current⟩ := post
  refine ⟨quiet, trie, ?_⟩
  unfold Cursor.place
  obtain ⟨exhausted, none_⟩ | ⟨awake, p, kv, hp, describes, next⟩ := awaits
  · split
    · exact exhausted
    · next kv first =>
      rw [none_] at first
      cases first
  · rw [current awake, if_pos rfl] at next
    split
    · next none_ =>
      rw [next] at none_
      cases none_
    · next kv' first =>
      cases Option.some.inj (next.symm.trans first)
      exact ⟨CtIter.hasRead_of_describes readable.shape linked hp describes awake, current awake⟩

/-- **The loop of `ct_iter_next`** behind a place that is not the last one: the link leads to the
next leaf, or the iterator goes anew to its key. -/
theorem ctIterNextLoop_backs {place : Place} {old : CtKv} (readable : L.Readable s.trie M)
    (linked : L.Linked g M) (lone : s.env = alone) (within : place.seen.Within M)
    (read : iter.HasRead g L M place) (current : iter.reportCurrent = false)
    (after : place.seen.after place.kv.key = some old) (fuel : ℕ) :
    (ctIterNextLoop iter (fuel + 2)).Returns s fun it s' =>
      Quiet s s' ∧ s'.trie = s.trie ∧ ∃ c', (Cursor.past place).Next M
        (some it.leaf.value.body.kv) c' ∧ it.Backs g L M c' := by
  have shape := readable.shape
  have marks := read.marks
  rw [after] at marks
  obtain ⟨kv', mem', same', follows⟩ := marks.follows shape
  rw [ctIterNextLoop]
  refine (ctIterNextInternal_spec readable follows (marks.ne_endOfList shape)).bind ?_
  rintro r s₁ - ⟨rfl, result⟩
  cases r with
  | some it =>
    obtain ⟨exhausted, current', p, kv, eq, hp, describes⟩ := result
    cases eq
    have read' := CtIter.hasRead_of_describes shape linked hp describes
      (exhausted.trans read.awake)
    refine .pure ⟨.refl _, rfl, .past ⟨M, _, (shape.leaf p _ hp).1⟩, ?_, read',
      current'.trans current⟩
    rw [read'.kv]
    exact .follow _ after same'
  | none =>
    -- the leaf has become an inner node: the iterator goes to its key, which is in the map
    refine (ctIterGoto_spec readable linked lone iter _ fuel).bind fun it s₂ le₂ post => ?_
    obtain ⟨quiet, trie, awaits, current'⟩ := post
    rw [read.kv] at awaits
    obtain ⟨kv₀, mem₀, same₀⟩ := within place.kv place.mem
    have first : M.atLeast place.kv.key = some kv₀ :=
      KeyMap.first_eq_some_iff.mpr ⟨mem₀, same₀.ge, fun kv _ le => same₀.trans_le le⟩
    rw [first] at awaits
    obtain ⟨-, none_⟩ | ⟨awake, p₀, kv₁, hp₀, describes₀, next⟩ := awaits
    · cases none_
    rw [current' awake, if_pos rfl] at next
    cases next
    have link : it.leaf.value.body.nextLeaf = L.link p₀ := by
      rw [describes₀.body]
      rfl
    -- behind it comes the object whose leaf was looked for, or a new one
    have less : place.kv.key < kv'.key := by
      rw [same']
      exact (KeyMap.first_eq_some_iff.mp after).2.1
    obtain ⟨kv₂, after₂⟩ : ∃ kv₂, M.after kv₀.key = some kv₂ := by
      refine Option.ne_none_iff_exists'.mp fun none_ => ?_
      refine KeyMap.first_eq_none_iff.mp none_ kv' mem' ?_
      rw [same₀]
      exact less
    have points := linked.next p₀ kv₀ hp₀
    rw [after₂, ← link] at points
    have more : it.leaf.value.body.nextLeaf.primaryBucket ≠ endOfList :=
      (points.marks shape).ne_endOfList shape
    have readable₂ : L.Readable s₂.trie M := trie ▸ readable
    rw [ctIterNextLoop]
    have follows₂ : L.Follows g ({ it with reportCurrent := false } : CtIter).leaf.value.body.nextLeaf
      (some kv₂) := Or.inl points
    refine (ctIterNextInternal_spec readable₂ follows₂ more).bind ?_
    rintro r s₃ - ⟨rfl, result⟩
    cases r with
    | none => exact absurd points result
    | some it₂ =>
      obtain ⟨exhausted, current₂, p, kv, eq, hp, describes⟩ := result
      cases eq
      have read' := CtIter.hasRead_of_describes shape linked hp describes
        (exhausted.trans awake)
      refine .pure ⟨quiet, trie, .past ⟨M, _, (shape.leaf p _ hp).1⟩, ?_, read', current₂⟩
      rw [read'.kv]
      refine .anew _ (by rw [after]; exact Option.some_ne_none old) ?_
      rw [← same₀]
      exact after₂

/-- **One call of `ct_iter_next`** is one of the cursor. -/
theorem ctIterNext_backs (readable : L.Readable s.trie M) (linked : L.Linked g M)
    (lone : s.env = alone) (backs : iter.Backs g L M c) (within : c.Within M) (fuel : ℕ) :
    (ctIterNext iter (fuel + 2)).Returns s fun r s' =>
      Quiet s s' ∧ s'.trie = s.trie ∧ ∃ c', c.Next M r.1 c' ∧ r.2.Backs g L M c' := by
  rw [ctIterNext]
  cases c with
  | exhausted =>
    rw [if_pos (show iter.isExhausted = true from backs)]
    exact .pure ⟨.refl s, rfl, .exhausted, .exhausted, backs⟩
  | onto place =>
    obtain ⟨read, current⟩ := backs
    rw [if_neg (by simp [read.awake]), if_pos current, read.kv]
    exact .pure ⟨.refl s, rfl, .past place, .onto place,
      ⟨read.awake, read.kv, read.marks⟩, rfl⟩
  | past place =>
    obtain ⟨read, current⟩ := backs
    rw [if_neg (by simp [read.awake]), if_neg (by simp [current])]
    have marks := read.marks
    cases after : place.seen.after place.kv.key with
    | none =>
      rw [after] at marks
      rw [if_pos (show iter.leaf.value.body.nextLeaf.primaryBucket = endOfList from marks)]
      exact .pure ⟨.refl s, rfl, .exhausted, .last after, rfl⟩
    | some old =>
      rw [after] at marks
      rw [if_neg (marks.ne_endOfList readable.shape)]
      refine (ctIterNextLoop_backs readable linked lone within read current after fuel).bind
        fun it s₁ _ post => .pure post

/-! ## Readers leave the locks alone -/

namespace LeavesLocks

theorem gotoRound (iter : CtIter) (key : List UInt8) :
    LeavesLocks (gotoRound iter key : CuckooTrie.M g (Option CtIter)) := by
  have next : ∀ iter : CtIter, LeavesLocks (ctIterNextInternal iter : CuckooTrie.M g _) :=
    fun iter => .bind (.find _) fun _ => .ite (.pure _) (.pure _)
  have internal : LeavesLocks (ctIterGotoInternal iter key : CuckooTrie.M g _) := by
    refine .bind (.read _) fun t => ?_
    split
    · exact .pure _
    · refine .ite (.pure _) (.bind (.find _) fun r => ?_)
      obtain ⟨f, symbol, lastBitmap⟩ := r
      dsimp only
      split
      · exact .bind (.getPredecessorAtomic _ _) fun _ => .pure _
      · exact .bind (.read _) fun t => .ite (.pure _) (.bind (.validateEntry _) fun _ =>
          .ite (.pure _) (.pure _))
      · exact .pure _
  refine .bind internal fun r => ?_
  cases r with
  | none => exact .pure _
  | some iter =>
    refine .ite (.pure _) (.bind (next _) fun r => ?_)
    cases r with
    | none => exact .pure _
    | some iter => exact .pure _

theorem ctIterGoto (iter : CtIter) (key : List UInt8) (fuel : ℕ) :
    LeavesLocks (ctIterGoto iter key fuel : CuckooTrie.M g CtIter) := by
  induction fuel with
  | zero => exact SameLocks.refl
  | succ fuel ih =>
    refine .bind (gotoRound iter key) fun r => ?_
    cases r with
    | none => exact ih
    | some iter => exact .pure _

theorem ctIterNext (iter : CtIter) (fuel : ℕ) :
    LeavesLocks (ctIterNext iter fuel : CuckooTrie.M g (Option CtKv × CtIter)) := by
  have loop : ∀ fuel iter, LeavesLocks (ctIterNextLoop iter fuel : CuckooTrie.M g CtIter) := by
    intro fuel
    induction fuel with
    | zero => exact fun iter => SameLocks.refl
    | succ fuel ih =>
      refine fun iter => .bind (.bind (.find _) fun _ => .ite (.pure _) (.pure _)) fun r => ?_
      cases r with
      | none => exact .bind (ctIterGoto _ _ _) fun _ => ih _
      | some iter => exact .pure _
  exact .ite (.pure _) (.ite (.pure _) (.ite (.pure _) (.bind (loop _ _) fun _ => .pure _)))

end LeavesLocks

/-- A reader leaves the table at rest. -/
theorem Sys.Rests.read {α : Type} {f : CuckooTrie.M g α} {Q : α → Sys g → Prop}
    (rests : s.Rests maps base L M) (leaves : LeavesLocks f)
    (returns : f.Returns s fun a s' => Quiet s s' ∧ Q a s') :
    f.Returns s fun a s' => s'.Rests maps base L M ∧ Q a s' := by
  obtain ⟨a, ret, quiet, post⟩ := returns
  have counted := ((rests.counted.quiet leaves).returns ret)
  obtain ⟨a', ret', counted⟩ := counted
  exact ⟨a, ret, ⟨rests.toWhole.quiet quiet, counted⟩, post⟩

/-! ## Clients -/

/-- The iterators of a client. -/
abbrev Iterators := ℕ → Option CtIter

/-- One call of a client, with loops of at most `fuel` rounds; `fresh` is what a new iterator
finds in its memory. -/
def Call.exec (fuel : ℕ) (fresh : CtIter) : Call → Iterators → CuckooTrie.M g (Answer × Iterators)
  | .insert kv, iters => do
    let status ← ctInsert kv fuel
    pure (.status status, iters)
  | .upsert kv, iters => do
    let result ← ctUpsert kv fuel
    pure (.upserted result, iters)
  | .update kv, iters => do
    let status ← ctUpdate kv fuel
    pure (.status status, iters)
  | .lookup key, iters => do
    let okv ← search fun t => ctLookup t key
    pure (.found okv, iters)
  | .goto i key, iters => do
    let iter ← ctIterGoto ((iters i).getD fresh) key fuel
    pure (.placed, Function.update iters i (some iter))
  | .next i, iters =>
    match iters i with
    | none => pure (.unplaced, iters)
    | some iter => do
      let (okv, iter) ← ctIterNext iter fuel
      pure (.reported okv, Function.update iters i (some iter))

/-- A client makes one call after the other until the table is full. -/
def client (fuel : ℕ) (fresh : CtIter) (calls : List Call) :
    CuckooTrie.M g (List Answer × Iterators) :=
  Prog.each (Call.exec fuel fresh) Answer.isOverflow calls fun _ => none

/-- Each iterator backs its cursor. -/
def Layout.Serves (L : Layout) (g : Geometry) (iters : Iterators) (a : CursorMap) : Prop :=
  ∀ i, Option.Rel (fun iter c => CtIter.Backs iter g L a.map c) (iters i) (a.cursors i)

namespace Layout.Serves

variable {iters : Iterators} {a : CursorMap} {i : ℕ}

theorem ofMap (L : Layout) (M : KeyMap) : L.Serves g (fun _ => none) (.ofMap M) := fun _ => .none

theorem mono {b : CursorMap} (serves : L.Serves g iters a) (stays : L.Stays K)
    (within : a.map.Within b.map) (same : b.cursors = a.cursors) : K.Serves g iters b := fun i => by
  have here := serves i
  rw [same]
  generalize iters i = iter, a.cursors i = c at here ⊢
  cases here with
  | none => exact .none
  | some backs => exact .some (backs.stays stays within)

/-- The cursors do not notice that an object is put in. -/
theorem insert (serves : L.Serves g iters a) (stays : L.Stays K) (kv : CtKv) :
    K.Serves g iters (a.insert kv) := serves.mono stays (.insert a.map kv) rfl

theorem move (serves : L.Serves g iters a) (backs : iter.Backs g L a.map c)
    (within : c.Within a.map) :
    L.Serves g (Function.update iters i (some iter)) (a.move i c within) := fun j => by
  change Option.Rel _ _ (Function.update a.cursors i (some c) j)
  by_cases same : j = i
  · subst same
    rw [Function.update_self, Function.update_self]
    exact .some backs
  · rw [Function.update_of_ne same, Function.update_of_ne same]
    exact serves j

end Layout.Serves

/-- The state between two calls of a client: the trie is one for the map of the cursors, and each
iterator backs its cursor. -/
structure ClientBacks (s : Sys g) (iters : Iterators) (a : CursorMap) : Prop where
  lone : s.env = alone
  rests : ∃ base L, s.Rests (Set.univ : Set KeyMap) base L a.map ∧ L.Serves g iters a

/-- How a call of a client ends: with an answer of the map. -/
def ClientServes (a : CursorMap) (call : Call) (answer : Answer) (s' : Sys g)
    (iters : Iterators) : Prop :=
  ∃ b, CursorMap.Serves a (call, answer) b ∧ (answer.isOverflow = true → Overflowed s'.trie b.map) ∧
    (answer.isOverflow = false → ClientBacks s' iters b)

section Calls

variable {iters : Iterators} {a b : CursorMap} {call : Call} {answer : Answer}

theorem ClientServes.goes (serves : CursorMap.Serves a (call, answer) b)
    (more : answer.isOverflow = false) (backs : ClientBacks s' iters b) :
    ClientServes a call answer s' iters :=
  ⟨b, serves, fun full => absurd full (by simp [more]), fun _ => backs⟩

theorem ClientServes.stops (serves : CursorMap.Serves a (call, answer) b)
    (full : answer.isOverflow = true) (overflowed : Overflowed s'.trie b.map) :
    ClientServes a call answer s' iters :=
  ⟨b, serves, fun _ => overflowed, fun more => absurd more (by simp [full])⟩

namespace ClientBacks

theorem ctInsert (backs : ClientBacks s iters a) (kv : CtKv) (fuel : ℕ) :
    (ctInsert kv (fuel + 2)).Ensures Sys.Undisturbed s fun status s' =>
      ClientServes a (.insert kv) (.status status) s' iters := by
  obtain ⟨lone, base, L, rests, serves⟩ := backs
  rw [CuckooTrie.ctInsert]
  refine .ite (fun long => .pure (.goes (.keyTooLong long) rfl ⟨lone, base, L, rests, serves⟩))
    fun short => ?_
  have size : kv.key.length ≤ maxKeyBytes := not_lt.mp short
  refine (insertLoop_alone rests lone size (Set.mem_univ _) fuel).bind Sys.Undisturbed.down
    fun ret s' le _ settles => ?_
  have lone' : s'.env = alone := le.env.trans lone
  cases settles with
  | ok new rests' stays =>
    exact .pure (.goes (.insert size new) rfl ⟨lone', _, _, rests', serves.insert stays kv⟩)
  | exist found rests' stays =>
    exact .pure (.goes (.alreadyIn size found) rfl
      ⟨lone', _, _, rests', serves.mono stays (.refl a.map) rfl⟩)
  | fail new littered unlocked =>
    exact .pure (.stops (.overflow size new) rfl (littered.overflowed unlocked))

theorem ctUpsert (backs : ClientBacks s iters a) (kv : CtKv) (fuel : ℕ) :
    (ctUpsert kv (fuel + 2)).Ensures Sys.Undisturbed s fun result s' =>
      ClientServes a (.upsert kv) (.upserted result) s' iters := by
  obtain ⟨lone, base, L, rests, serves⟩ := backs
  rw [CuckooTrie.ctUpsert]
  refine .ite (fun long => .pure (.goes (.upsertTooLong long) rfl
    ⟨lone, base, L, rests, serves⟩)) fun short => ?_
  have size : kv.key.length ≤ maxKeyBytes := not_lt.mp short
  refine (insertLoop_alone rests lone size (Set.mem_univ _) fuel).bind Sys.Undisturbed.down
    fun ret s' le _ settles => ?_
  have lone' : s'.env = alone := le.env.trans lone
  cases settles with
  | ok new rests' stays =>
    exact .pure (.goes (.created size new) rfl ⟨lone', _, _, rests', serves.insert stays kv⟩)
  | exist found rests' stays =>
    exact .pure (.goes (.replaced size found) rfl
      ⟨lone', _, _, rests', serves.insert stays kv⟩)
  | fail new littered unlocked =>
    exact .pure (.stops (.upsertOverflow size new) rfl (littered.overflowed unlocked))

theorem ctUpdate (backs : ClientBacks s iters a) (kv : CtKv) (fuel : ℕ) :
    (ctUpdate kv (fuel + 1)).Ensures Sys.Undisturbed s fun status s' =>
      ClientServes a (.update kv) (.status status) s' iters := by
  obtain ⟨lone, base, L, rests, serves⟩ := backs
  intro good
  have le : s ≤ _ := (CuckooTrie.ctUpdate kv (fuel + 1)).le_run s
  have enough : (∅ : Finset ℕ).card < fuel + 1 := Nat.succ_pos fuel
  obtain ⟨status, returns, post⟩ := ctUpdate_spec ∅ rests (good.1.down le) (.of_alone lone)
    (Set.mem_univ (a.map.insert kv)) enough
  refine ⟨status, returns, ?_⟩
  have lone' := le.env.trans lone
  obtain ⟨rfl, ⟨old, found⟩, _, rests'⟩ | ⟨rfl, absent, _, rests'⟩ := post
  · exact .goes (.update found) rfl ⟨lone', _, _, rests', serves.insert (.rebind L kv) kv⟩
  · exact .goes (.notFound absent) rfl ⟨lone', _, _, rests', serves⟩

theorem ctLookup (backs : ClientBacks s iters a) (key : List UInt8) :
    (search fun t => ctLookup t key : CuckooTrie.M g (Option CtKv)).Returns s fun okv s' =>
      ClientServes a (.lookup key) (.found okv) s' iters := by
  obtain ⟨lone, base, L, rests, serves⟩ := backs
  refine (search_spec (ctLookup_spec rests.readable key)).weaken ?_
  rintro _ s - ⟨rfl, rfl⟩
  exact .goes (.lookup a key) rfl ⟨lone, base, L, rests, serves⟩

theorem ctIterGoto (backs : ClientBacks s iters a) (iter : CtIter) (i : ℕ) (key : List UInt8)
    (fuel : ℕ) : (ctIterGoto iter key (fuel + 1) : CuckooTrie.M g CtIter).Returns s fun iter s' =>
      ClientServes a (.goto i key) .placed s' (Function.update iters i (some iter)) := by
  obtain ⟨lone, base, L, rests, serves⟩ := backs
  refine (rests.read (.ctIterGoto iter key _)
    (ctIterGoto_backs rests.readable rests.linked lone iter key fuel)).weaken fun it s' le post => ?_
  exact .goes (.goto a i key) rfl
    ⟨le.env.trans lone, base, L, post.1, serves.move post.2.2 Cursor.within_place⟩

theorem ctIterNext (backs : ClientBacks s iters a) {i : ℕ} (open_ : iters i = some iter)
    (fuel : ℕ) :
    (ctIterNext iter (fuel + 2) : CuckooTrie.M g (Option CtKv × CtIter)).Returns s fun r s' =>
      ClientServes a (.next i) (.reported r.1) s' (Function.update iters i (some r.2)) := by
  obtain ⟨lone, base, L, rests, serves⟩ := backs
  obtain ⟨c, at_, backs⟩ : ∃ c, a.cursors i = some c ∧ iter.Backs g L a.map c := by
    have here := serves i
    rw [open_] at here
    generalize a.cursors i = oc at here ⊢
    cases here with
    | some backs => exact ⟨_, rfl, backs⟩
  refine (rests.read (.ctIterNext iter _) (ctIterNext_backs rests.readable rests.linked lone backs
    (a.within i c at_) fuel)).weaken fun r s' le post => ?_
  obtain ⟨rests', trie, c', step, backs'⟩ := post
  exact .goes (.next at_ step) rfl
    ⟨le.env.trans lone, base, L, rests', serves.move backs' (step.within (a.within i c at_))⟩

end ClientBacks

/-- **Every call of a client is one of the map**: it returns, and its answer is that of the map. -/
theorem Call.exec_serves (backs : ClientBacks s iters a) (call : Call) (fuel : ℕ)
    (fresh : CtIter) :
    (call.exec (fuel + 2) fresh iters).Ensures Sys.Undisturbed s fun r s' =>
      ClientServes a call r.1 s' r.2 := by
  cases call with
  | insert kv =>
    exact (backs.ctInsert kv fuel).bind Sys.Undisturbed.down fun _ _ _ _ post => .pure post
  | upsert kv =>
    exact (backs.ctUpsert kv fuel).bind Sys.Undisturbed.down fun _ _ _ _ post => .pure post
  | update kv =>
    exact (backs.ctUpdate kv _).bind Sys.Undisturbed.down fun _ _ _ _ post => .pure post
  | lookup key =>
    exact ((backs.ctLookup key).bind fun _ _ _ post => .pure post).ensures
  | goto i key =>
    exact ((backs.ctIterGoto _ i key _).bind fun _ _ _ post => .pure post).ensures
  | next i =>
    cases open_ : iters i with
    | none =>
      have none_ : a.cursors i = none := by
        obtain ⟨lone, base, L, rests, serves⟩ := backs
        have here := serves i
        rw [open_] at here
        generalize a.cursors i = oc at here ⊢
        cases here
        rfl
      simp only [exec, open_]
      exact .pure (.goes (.unplaced none_) rfl backs)
    | some iter =>
      simp only [exec, open_]
      exact ((backs.ctIterNext open_ fuel).bind fun _ _ _ post => .pure post).ensures

end Calls

/-- The state in which a client begins. -/
theorem WellFormed.clientBacks (wf : WellFormed t M) :
    ClientBacks (Sys.init t alone) (fun _ => none) (.ofMap M) := by
  obtain ⟨L, rests⟩ := wf.rests alone (Set.mem_univ M)
  exact ⟨rfl, t.seq, L, rests, .ofMap L M⟩

/-- What a client leaves: a well-formed trie if every call was answered and the table did not
overflow, else a full table after the last answer. -/
inductive ClientLeaves (calls : List Call) (answers : List Answer) (t : Trie g) (M : KeyMap) : Prop
  | wellFormed : (∀ answer ∈ answers, answer.isOverflow = false) →
      answers.length = calls.length → WellFormed t M → ClientLeaves calls answers t M
  | overflowed {answer : Answer} : answers.getLast? = some answer → answer.isOverflow = true →
      Overflowed t M → ClientLeaves calls answers t M

/-- A table that did not overflow holds a well-formed trie. -/
theorem ClientLeaves.whole {calls : List Call} {answers : List Answer}
    (leaves : ClientLeaves calls answers t M)
    (goes : ∀ answer ∈ answers, answer.isOverflow = false) :
    answers.length = calls.length ∧ WellFormed t M := by
  cases leaves with
  | wellFormed _ length wf => exact ⟨length, wf⟩
  | overflowed last full _ =>
    have more := goes _ (List.mem_of_getLast? last)
    rw [full] at more
    cases more

theorem client_spec {iters : Iterators} {a : CursorMap} (backs : ClientBacks s iters a)
    (calls : List Call) (fuel : ℕ) (fresh : CtIter) :
    (Prog.each (Call.exec (fuel + 2) fresh) Answer.isOverflow calls iters).Ensures Sys.Undisturbed s
      fun r s' => ∃ b, Run CursorMap.Serves a (calls.zip r.1) b ∧
        ClientLeaves calls r.1 s'.trie b.map := by
  refine (Prog.Ensures.each (R := fun s iters a => ClientBacks s iters a)
    (F := fun s _ a => Overflowed s.trie a.map) Sys.Undisturbed.down
    (fun s iters a call backs => Call.exec_serves backs call fuel fresh) calls backs).mono
    fun r s' post => ?_
  obtain ⟨b, run, ⟨goes, length, lone, base, L, rests, -⟩ | ⟨⟨answer, last, full⟩, overflowed⟩⟩ := post
  · exact ⟨b, run, .wellFormed goes length rests.wellFormed⟩
  · exact ⟨b, run, .overflowed last full overflowed⟩

/-- **A client is served as by a map with cursors.**  From a well-formed trie, a lone client makes
any calls, with any number of iterators open, until the table is full.  In a run in which its
inserts did not get into their own way, every call returns; the answers are those of a map with
cursors; and in the end the trie is well-formed for that map, unless the table is full. -/
theorem client_refines (t : Trie g) (M : KeyMap) (wf : WellFormed t M) (calls : List Call)
    (fuel : ℕ) (fresh : CtIter) :
    (client (fuel + 2) fresh calls).Ensures Sys.Undisturbed (Sys.init t alone) fun r s' =>
      ∃ b, Run CursorMap.Serves (.ofMap M) (calls.zip r.1) b ∧
        ClientLeaves calls r.1 s'.trie b.map :=
  client_spec wf.clientBacks calls fuel fresh

/-- The calls of a client that opens an iterator and puts objects in between its steps. -/
def smallCalls : List Call :=
  [.goto 0 [], .next 0, .insert ⟨9, [0, 1]⟩, .next 0, .upsert ⟨3, [0, 1]⟩, .lookup [0, 1], .next 0]

/-- The answers it gets from a trie of two keys. -/
def smallAnswers : List Answer :=
  [.placed, .reported (some ⟨1, [0]⟩), .status .ok, .reported (some ⟨2, [0x80]⟩),
    .upserted (.ok, some false), .found (some ⟨3, [0, 1]⟩), .reported none]

theorem smallCalls_run :
    ((client 2 default smallCalls).run (Sys.init smallTrie alone)).2.Undisturbed ∧
      ((client 2 default smallCalls).run (Sys.init smallTrie alone)).1.map Prod.fst =
        some smallAnswers := by
  decide +kernel

/-- A client is served by a trie of two keys. -/
theorem client_refines_small :
    ∃ b, Run CursorMap.Serves (.ofMap smallComb.map) (smallCalls.zip smallAnswers) b ∧
      WellFormed ((client 2 default smallCalls).run (Sys.init smallTrie alone)).2.trie b.map := by
  obtain ⟨undisturbed, answers⟩ := smallCalls_run
  have spec := client_refines smallTrie _ smallTrie_wellFormed smallCalls 0 default
  rw [Nat.zero_add] at spec
  obtain ⟨r, returns, b, run, leaves⟩ := spec undisturbed
  rw [returns] at answers
  have same : r.1 = smallAnswers := Option.some.inj answers
  rw [same] at run leaves
  refine ⟨b, run, ?_⟩
  cases leaves with
  | wellFormed _ _ wf => exact wf
  | overflowed last full _ =>
    cases last
    cases full

/-- **A lookup finds the object that was put in last.**  After any calls of a lone client that did
not get into its own way, on a table that is not full, `ct_lookup` of a key returns the object of
the last call that was answered with having put one in for this key, else what was there. -/
theorem lookup_finds_last_put (t : Trie g) (M : KeyMap) (wf : WellFormed t M) (calls : List Call)
    (fuel : ℕ) (fresh : CtIter) :
    (client (fuel + 2) fresh calls).Ensures Sys.Undisturbed (Sys.init t alone) fun r s' =>
      (∀ answer ∈ r.1, answer.isOverflow = false) → ∀ key, ctLookup s'.trie key =
        some ((((calls.zip r.1).filterMap Call.put).reverse.find? fun kv => kv.key = key).or
          (M.find key)) := by
  refine (client_spec wf.clientBacks calls fuel fresh).mono fun r s' post goes key => ?_
  obtain ⟨b, run, leaves⟩ := post
  obtain ⟨-, whole⟩ := leaves.whole goes
  obtain ⟨L, readable⟩ := whole.readable
  have last := KeyMap.find_foldl_apply M (calls.zip r.1) key
  rw [ctLookup_spec readable key, ← last, CursorMap.map_eq run]
  rfl

/-- An upsert replaced the object of an insert. -/
theorem lookup_finds_last_put_small :
    ctLookup ((client 2 default smallCalls).run (Sys.init smallTrie alone)).2.trie [0, 1] =
      some (some ⟨3, [0, 1]⟩) := by
  obtain ⟨undisturbed, answers⟩ := smallCalls_run
  have spec := lookup_finds_last_put smallTrie _ smallTrie_wellFormed smallCalls 0 default
  rw [Nat.zero_add] at spec
  obtain ⟨r, returns, finds⟩ := spec undisturbed
  rw [returns] at answers
  have same : r.1 = smallAnswers := Option.some.inj answers
  rw [same] at finds
  rw [finds (by decide) [0, 1]]
  decide +kernel

/-! ## Iterating while keys are inserted -/

/-- **Iterating while keys are inserted.**  An iterator is placed on a key in a well-formed trie;
then its steps are interleaved in any order with inserts, lookups and the steps of other
iterators.  What it reports ascends from the key on and is in the map of the end, at most once
each; then it says that nothing is left.  No object that was in the map when the iterator was
placed is passed over, and all of them from the key on are reported before it says so. -/
theorem iteration_among_inserts (t : Trie g) (M : KeyMap) (wf : WellFormed t M) (i : ℕ)
    (key : List UInt8) (calls : List Call) (fuel : ℕ) (fresh : CtIter)
    (kept : ∀ call ∈ calls, ∀ key, call ≠ .goto i key)
    (inserts : ∀ call ∈ calls, ∀ kv, call ≠ .upsert kv ∧ call ≠ .update kv) :
    (client (fuel + 2) fresh (.goto i key :: calls)).Ensures Sys.Undisturbed (Sys.init t alone)
      fun r s' => ∃ (M' : KeyMap) (kvs : List CtKv) (n : ℕ),
        ClientLeaves (.goto i key :: calls) r.1 s'.trie M' ∧
        reports i ((.goto i key :: calls).zip r.1) = kvs.map some ++ List.replicate n none ∧
        (kvs.Pairwise fun x y => x.key < y.key) ∧ kvs.length ≤ M'.kvs.length ∧
        (∀ kv ∈ kvs, key ≤ kv.key ∧ kv ∈ M') ∧
        ∀ kv ∈ M, key ≤ kv.key → (n ≠ 0 ∨ ∃ kv' ∈ kvs, kv.key ≤ kv'.key) → kv ∈ kvs := by
  refine (client_spec wf.clientBacks (.goto i key :: calls) fuel fresh).mono fun r s' post => ?_
  obtain ⟨b, run, leaves⟩ := post
  obtain ⟨answer, answers, same⟩ : ∃ answer answers, r.1 = answer :: answers := by
    refine List.exists_cons_of_ne_nil fun none_ => ?_
    cases leaves with
    | wellFormed _ length _ =>
      rw [none_] at length
      cases length
    | overflowed last _ _ =>
      rw [none_] at last
      cases last
  rw [same, List.zip_cons_cons] at run ⊢
  rw [same] at leaves
  cases run with
  | cons first rest =>
    cases first with
    | goto =>
      have calls_of : ∀ l ∈ calls.zip answers, l.1 ∈ calls := fun l mem => (List.of_mem_zip mem).1
      obtain ⟨kvs, n, reported, ascends, few, sound, complete⟩ := Cursor.reports_spec rest
        (Function.update_self i _ _) fun l mem => kept l.1 (calls_of l mem)
      have inMap : ∀ kv ∈ kvs, kv ∈ b.map := by
        intro kv mem
        obtain ⟨-, -, before, ⟨after, split⟩, mem⟩ := sound kv mem
        rw [← split] at rest
        obtain ⟨b₁, run₁, run₂⟩ := rest.exists_of_append
        rw [← CursorMap.map_eq run₁] at mem
        refine CursorMap.mem_map_of_run run₂ (fun l mem => inserts l.1 (calls_of l ?_)) mem
        rw [← split]
        exact List.mem_append_right _ mem
      refine ⟨b.map, kvs, n, leaves, reported, ascends, few, fun kv mem =>
        ⟨(sound kv mem).1, inMap kv mem⟩, fun kv mem le far => ?_⟩
      obtain ⟨kv', mem', same'⟩ := complete kv mem le far
      have old : kv ∈ b.map := CursorMap.mem_map_of_run rest
        (fun l mem => inserts l.1 (calls_of l mem)) mem
      exact KeyMap.eq_of_key_eq (inMap kv' mem') old same' ▸ mem'

/-- A third key is inserted behind the place of an iterator, which reports the two old ones. -/
theorem iteration_among_inserts_small :
    ∃ (M' : KeyMap) (kvs : List CtKv) (n : ℕ),
      ((client 2 default [.goto 0 [], .next 0, .insert ⟨9, [0, 1]⟩, .next 0, .next 0]).run
        (Sys.init smallTrie alone)).1.map Prod.fst = some [.placed, .reported (some ⟨1, [0]⟩),
          .status .ok, .reported (some ⟨2, [0x80]⟩), .reported none] ∧
      kvs.map some ++ List.replicate n none = [some ⟨1, [0]⟩, some ⟨2, [0x80]⟩, none] ∧
      ∀ kv ∈ kvs, kv ∈ M' := by
  have undisturbed : ((client 2 default [.goto 0 [], .next 0, .insert ⟨9, [0, 1]⟩, .next 0,
      .next 0]).run (Sys.init smallTrie alone)).2.Undisturbed := by
    decide +kernel
  have answers : ((client 2 default [.goto 0 [], .next 0, .insert ⟨9, [0, 1]⟩, .next 0,
      .next 0]).run (Sys.init smallTrie alone)).1.map Prod.fst = some [.placed,
        .reported (some ⟨1, [0]⟩), .status .ok, .reported (some ⟨2, [0x80]⟩), .reported none] := by
    decide +kernel
  have spec := iteration_among_inserts smallTrie _ smallTrie_wellFormed 0 []
    [.next 0, .insert ⟨9, [0, 1]⟩, .next 0, .next 0] 0 default (by simp) (by simp)
  rw [Nat.zero_add] at spec
  obtain ⟨r, returns, M', kvs, n, -, reported, -, -, sound, -⟩ := spec undisturbed
  refine ⟨M', kvs, n, answers, ?_, fun kv mem => (sound kv mem).2⟩
  rw [returns] at answers
  have same : r.1 = [.placed, .reported (some ⟨1, [0]⟩), .status .ok,
    .reported (some ⟨2, [0x80]⟩), .reported none] := Option.some.inj answers
  rw [same] at reported
  exact reported.symm

/-! ## Histories from `ct_alloc` on -/

/-- The objects a client put into an empty map, by the answers it got. -/
def contents (calls : List Call) (answers : List Answer) : KeyMap :=
  (calls.zip answers).foldl KeyMap.apply KeyMap.empty

/-- **From `ct_alloc` on.**  A lone client makes any calls on the trie that `ct_alloc` returns, of
any size whose buckets a locator can name.  In a run in which its inserts did not get into their
own way every call is answered as by a map with cursors; the trie it leaves has exactly the objects
that the answers say it put in; and unless the table is full, `ct_lookup` finds these objects and
no others there, an iteration from any key reports them in order, and `ct_verify_trie` accepts
it. -/
theorem client_from_ct_alloc (numCells : ℕ) (positive : 1 ≤ numCells)
    (fits : bucketsForCells numCells < 2 ^ 32) (calls : List Call) (fuel : ℕ) (fresh : CtIter) :
    (client (fuel + 2) fresh calls).Ensures Sys.Undisturbed
      (Sys.init (emptyTrie (.ctAlloc numCells positive fits)) alone) fun r s' =>
        (∃ b, Run CursorMap.Serves (.ofMap KeyMap.empty) (calls.zip r.1) b) ∧
          ClientLeaves calls r.1 s'.trie (contents calls r.1) ∧
          ((∀ answer ∈ r.1, answer.isOverflow = false) →
            (∀ key, ctLookup s'.trie key = some ((contents calls r.1).find key)) ∧
            (∀ iter key rounds n,
              ((ctIterGoto iter key (rounds + 1) >>= ctIterNexts (rounds + 1) n).run
                (Sys.init s'.trie alone)).1 =
                  some ((List.range n).map fun i => ((contents calls r.1).from key)[i]?)) ∧
            ∀ mem, ctVerifyTrie mem s'.trie = some true) := by
  have backs := (emptyTrie_wellFormed (.ctAlloc numCells positive fits)).clientBacks
  refine (client_spec backs calls fuel fresh).mono fun r s' post => ?_
  obtain ⟨b, run, leaves⟩ := post
  have same : b.map = contents calls r.1 := CursorMap.map_eq run
  rw [same] at leaves
  refine ⟨⟨b, run⟩, leaves, fun goes => ?_⟩
  obtain ⟨-, wf⟩ := leaves.whole goes
  obtain ⟨L, readable⟩ := wf.readable
  refine ⟨fun key => ctLookup_spec readable key, fun iter key rounds n => ?_,
    fun mem => wf.ctVerifyTrie⟩
  exact wf.iteration iter key rounds n

/-- A client that begins with a new trie. -/
def freshCalls : List Call :=
  [.insert ⟨2, [0x80]⟩, .goto 0 [], .insert ⟨1, [0]⟩, .next 0, .upsert ⟨3, [0]⟩, .lookup [0]]

/-- The answers it gets. -/
def freshAnswers : List Answer :=
  [.status .ok, .placed, .status .ok, .reported (some ⟨2, [0x80]⟩), .upserted (.ok, some false),
    .found (some ⟨3, [0]⟩)]

/-- The trie of 256 cells is accepted with two keys in it, the upserted object for the first. -/
theorem client_from_ct_alloc_small :
    ctLookup ((client 2 default freshCalls).run
        (Sys.init (emptyTrie (.ctAlloc 256 (by decide) (by decide))) alone)).2.trie [0] =
      some (some ⟨3, [0]⟩) ∧
    ∀ mem, ctVerifyTrie mem ((client 2 default freshCalls).run
        (Sys.init (emptyTrie (.ctAlloc 256 (by decide) (by decide))) alone)).2.trie =
      some true := by
  have undisturbed : ((client 2 default freshCalls).run
      (Sys.init (emptyTrie (.ctAlloc 256 (by decide) (by decide))) alone)).2.Undisturbed := by
    decide +kernel
  have answers : ((client 2 default freshCalls).run
      (Sys.init (emptyTrie (.ctAlloc 256 (by decide) (by decide))) alone)).1.map Prod.fst =
        some freshAnswers := by decide +kernel
  have spec := client_from_ct_alloc 256 (by decide) (by decide) freshCalls 0 default
  rw [Nat.zero_add] at spec
  obtain ⟨r, returns, -, -, usable⟩ := spec undisturbed
  rw [returns] at answers
  have same : r.1 = freshAnswers := Option.some.inj answers
  rw [same] at usable
  obtain ⟨found, -, accepted⟩ := usable (by decide)
  exact ⟨(found [0]).trans (by decide), accepted⟩

/-! ## The order of inserts -/

/-- What a client that only inserts objects of distinct keys leaves. -/
theorem client_inserts (wf : WellFormed t M) {kvs : List CtKv} (distinct : (kvs.map CtKv.key).Nodup)
    (fuel : ℕ) (fresh : CtIter) :
    (client (fuel + 2) fresh (kvs.map Call.insert)).Ensures Sys.Undisturbed (Sys.init t alone)
      fun r s' => (∀ answer ∈ r.1, answer.isOverflow = false) →
        ∃ M', WellFormed s'.trie M' ∧ ∀ kv, kv ∈ M' ↔ kv ∈ M ∨
          kv ∈ kvs ∧ kv.key.length ≤ maxKeyBytes ∧ M.find kv.key = none := by
  refine (client_spec wf.clientBacks (kvs.map Call.insert) fuel fresh).mono fun r s' post goes => ?_
  obtain ⟨b, run, leaves⟩ := post
  obtain ⟨length, whole⟩ := leaves.whole goes
  rw [List.length_map] at length
  exact ⟨b.map, whole, CursorMap.mem_map_of_inserts run distinct length goes⟩

/-- **The order of inserts does not matter.**  Two lone clients insert the same objects, of distinct
keys, into two tries for one map, in any two orders and into tables of any two sizes.  In runs in
which they did not get into their own way, and if no table gets full, the two tries they leave are
for the same map: the old one with the new objects whose keys are admitted. -/
theorem insert_order_irrelevant {g₁ g₂ : Geometry} (t₁ : Trie g₁) (t₂ : Trie g₂) (M : KeyMap)
    (wf₁ : WellFormed t₁ M) (wf₂ : WellFormed t₂ M) (kvs₁ kvs₂ : List CtKv)
    (perm : kvs₁.Perm kvs₂) (distinct : (kvs₁.map CtKv.key).Nodup) (fuel : ℕ) (fresh : CtIter) :
    (client (fuel + 2) fresh (kvs₁.map Call.insert)).Ensures Sys.Undisturbed (Sys.init t₁ alone)
      fun r₁ s₁ =>
        (client (fuel + 2) fresh (kvs₂.map Call.insert)).Ensures Sys.Undisturbed
          (Sys.init t₂ alone) fun r₂ s₂ =>
            (∀ answer ∈ r₁.1 ++ r₂.1, answer.isOverflow = false) →
              ∃ M', WellFormed s₁.trie M' ∧ WellFormed s₂.trie M' ∧ ∀ kv, kv ∈ M' ↔ kv ∈ M ∨
                kv ∈ kvs₁ ∧ kv.key.length ≤ maxKeyBytes ∧ M.find kv.key = none := by
  have distinct₂ : (kvs₂.map CtKv.key).Nodup := (perm.map CtKv.key).nodup_iff.mp distinct
  refine (client_inserts wf₁ distinct fuel fresh).mono fun r₁ s₁ left => ?_
  refine (client_inserts wf₂ distinct₂ fuel fresh).mono fun r₂ s₂ right goes => ?_
  obtain ⟨M₁, whole₁, mem₁⟩ := left fun answer mem => goes answer (List.mem_append_left _ mem)
  obtain ⟨M₂, whole₂, mem₂⟩ := right fun answer mem => goes answer (List.mem_append_right _ mem)
  have same : M₂ = M₁ := by
    apply KeyMap.ext
    intro kv
    rw [mem₁, mem₂, perm.mem_iff]
  exact ⟨M₁, whole₁, same ▸ whole₂, mem₁⟩

/-- Two objects. -/
def twoObjects : List CtKv := [⟨1, [0]⟩, ⟨2, [0x80]⟩]

/-- They go into tries of 256 and 512 cells in the two orders. -/
theorem insert_order_irrelevant_small :
    ∃ M', WellFormed ((client 2 default (twoObjects.map Call.insert)).run
        (Sys.init (emptyTrie (.ctAlloc 256 (by decide) (by decide))) alone)).2.trie M' ∧
      WellFormed ((client 2 default (twoObjects.reverse.map Call.insert)).run
        (Sys.init (emptyTrie (.ctAlloc 512 (by decide) (by decide))) alone)).2.trie M' := by
  have undisturbed₁ : ((client 2 default (twoObjects.map Call.insert)).run
      (Sys.init (emptyTrie (.ctAlloc 256 (by decide) (by decide))) alone)).2.Undisturbed := by
    decide +kernel
  have undisturbed₂ : ((client 2 default (twoObjects.reverse.map Call.insert)).run
      (Sys.init (emptyTrie (.ctAlloc 512 (by decide) (by decide))) alone)).2.Undisturbed := by
    decide +kernel
  have answers₁ : ((client 2 default (twoObjects.map Call.insert)).run
      (Sys.init (emptyTrie (.ctAlloc 256 (by decide) (by decide))) alone)).1.map Prod.fst =
        some [.status .ok, .status .ok] := by decide +kernel
  have answers₂ : ((client 2 default (twoObjects.reverse.map Call.insert)).run
      (Sys.init (emptyTrie (.ctAlloc 512 (by decide) (by decide))) alone)).1.map Prod.fst =
        some [.status .ok, .status .ok] := by decide +kernel
  have spec := insert_order_irrelevant (emptyTrie (.ctAlloc 256 (by decide) (by decide)))
    (emptyTrie (.ctAlloc 512 (by decide) (by decide))) KeyMap.empty (emptyTrie_wellFormed _)
    (emptyTrie_wellFormed _) twoObjects twoObjects.reverse twoObjects.reverse_perm.symm
    (by decide) 0 default
  rw [Nat.zero_add] at spec
  obtain ⟨r₁, returns₁, spec₂⟩ := spec undisturbed₁
  obtain ⟨r₂, returns₂, leaves⟩ := spec₂ undisturbed₂
  rw [returns₁] at answers₁
  rw [returns₂] at answers₂
  have same₁ : r₁.1 = [.status .ok, .status .ok] := Option.some.inj answers₁
  have same₂ : r₂.1 = [.status .ok, .status .ok] := Option.some.inj answers₂
  rw [same₁, same₂] at leaves
  obtain ⟨M', whole₁, whole₂, -⟩ := leaves (by decide)
  exact ⟨M', whole₁, whole₂⟩

end CuckooTrie
