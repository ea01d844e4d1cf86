import CuckooTrie.PackedLeaf
import CuckooTrie.SeqLock

/-!
# Reading an entry while it is written

`write_entry` and `read_entry` as sequences of atomic accesses to the bytes of one bucket,
in any order.  The counter shares its word with the lock byte and wraps at 24 bits, and
one counter stands for the four cells of the bucket.

`Sound` says what the counter and the cells are between any two accesses, and is kept by
each of them (`Sound.step`).  By `Step.refines` a run of the bucket is a run of a sequence
lock whose value are the bytes of its cells, so that `read_entry_not_torn` follows from the
rules for those.
-/

namespace CuckooTrie.Packed.Interleaved

open Bytes

/-! ## Addresses and words -/

/-- `offsetof(ct_bucket, write_lock_and_seq)`. -/
abbrev offsetWriteLockAndSeq : ℕ := 60

/-- `bucket_containing`. -/
def bucketContaining (entry : ℕ) : ℕ := entry / 64 * 64

/-- `counter_ptr`. -/
def counterPtr (entry : ℕ) : ℕ := bucketContaining entry + offsetWriteLockAndSeq

/-- `&(buckets[bucket].cells[cell])`. -/
def cellPtr (bucket : ℕ) (cell : Fin 4) : ℕ := 64 * bucket + entryStorageSize * cell

/-- `&(buckets[bucket].write_lock)`, which is the low byte of the counter. -/
def writeLockPtr (bucket : ℕ) : ℕ := 64 * bucket + offsetWriteLockAndSeq

/-- `read_int_atomic`. -/
def readIntAtomic (mem : Memory) (addr : ℕ) : BitVec 32 := load 4 mem addr

/-- `write_int_atomic`. -/
def writeIntAtomic (mem : Memory) (addr : ℕ) (value : BitVec 32) : Memory := @store 4 mem addr value

/-- The local entry whose two words were loaded. -/
def resultOf (part0 part1 : BitVec 64) : CtEntry := @store 8 (@store 8 (fun _ => 0) 0 part0) 8 part1

/-- The sequence in a counter. -/
def sequence (counter : BitVec 32) : ℕ := counter.toNat / 256

/-- `validate_entry`, of a copy read from a position with a counter. -/
def validateEntry (mem : Memory) (lastPos : ℕ) (lastSeq : BitVec 64) : Bool :=
  let bucketSeq : BitVec 64 := (readIntAtomic mem (counterPtr lastPos)).setWidth 64
  bucketSeq &&& ~~~0xFF#64 == lastSeq &&& ~~~0xFF#64

/-! ## The two threads -/

/-- A call of `write_entry` that has loaded the counter. -/
structure Write where
  target : Fin 4
  src : CtEntry
  seq : BitVec 32

/-- The last access the holder of the lock made in a call of `write_entry`. -/
inductive Writer where
  | outside
  | loaded (w : Write)
  | counted (w : Write)
  | half (w : Write)
  | stored (w : Write)

/-- The last access of the reader in a call of `read_entry`, with its local variables. -/
inductive Reader where
  | idle
  | start (entry : Fin 4)
  | counted (entry : Fin 4) (seq1 : BitVec 32)
  | half (entry : Fin 4) (seq1 : BitVec 32) (part0 : BitVec 64)
  | loaded (entry : Fin 4) (seq1 : BitVec 32) (part0 part1 : BitVec 64)
  | returned (entry : Fin 4) (result : CtEntry) (seq1 : BitVec 32)

/-- A write has begun to show in memory, and is not complete. -/
def Writer.busy : Writer → Bool
  | .outside | .loaded _ => false
  | .counted _ | .half _ | .stored _ => true

/-- The cell a call reads that has not returned. -/
def Reader.reading : Reader → Option (Fin 4)
  | .idle | .returned .. => none
  | .start entry | .counted entry _ | .half entry .. | .loaded entry .. => some entry

/-- The memory and the two threads.  `writes` and `held` are a record that no thread reads:
the writes to the bucket completed so far, and the entry each cell was last given. -/
structure State where
  mem : Memory
  writer : Writer
  reader : Reader
  writes : ℕ
  held : Fin 4 → CtEntry

namespace State

/-- The counter of the bucket. -/
def counter (bucket : ℕ) (s : State) : BitVec 32 := readIntAtomic s.mem (writeLockPtr bucket)

/-- What a write in progress has made of a cell so far. -/
def contents (s : State) (cell : Fin 4) (x : ℕ) : UInt8 :=
  match s.writer with
  | .half w => if cell = w.target ∧ x < 8 then w.src x else s.held cell x
  | .stored w => if cell = w.target then w.src x else s.held cell x
  | _ => s.held cell x

/-- The state as one of a sequence lock over the bytes of the cells. -/
def moment (bucket : ℕ) (s : State) : SeqLock.Moment (Fin offsetWriteLockAndSeq → UInt8) where
  writes := s.writes
  busy := s.writer.busy
  value := fun x => s.mem (64 * bucket + x)

end State

/-- The accesses of `write_entry`.  Its caller holds the lock of the bucket. -/
inductive WriterStep (bucket : ℕ) : State → State → Prop
  | load {s} (target : Fin 4) (src : CtEntry) (outside : s.writer = .outside)
      (locked : s.mem (writeLockPtr bucket) = 1) :
      WriterStep bucket s
        { s with
          writer := .loaded
            ⟨target, src, readIntAtomic s.mem (counterPtr (cellPtr bucket target))⟩ }
  | count {s w} (here : s.writer = .loaded w) :
      WriterStep bucket s
        { s with
          writer := .counted w
          mem := writeIntAtomic s.mem (counterPtr (cellPtr bucket w.target))
            (w.seq + seqIncrement) }
  | part1 {s w} (here : s.writer = .counted w) :
      WriterStep bucket s
        { s with
          writer := .half w
          mem := @store 8 s.mem (cellPtr bucket w.target) (srcPart1 w.src) }
  | part2 {s w} (here : s.writer = .half w) :
      WriterStep bucket s
        { s with
          writer := .stored w
          mem := @store 8 s.mem (cellPtr bucket w.target + entryStorageSize - 8)
            (srcPart2 w.src) }
  | finish {s w} (here : s.writer = .stored w) :
      WriterStep bucket s
        { s with
          writer := .outside
          mem := writeIntAtomic s.mem (counterPtr (cellPtr bucket w.target))
            (w.seq + 2 * seqIncrement)
          writes := s.writes + 1
          held := Function.update s.held w.target w.src }

/-- The accesses to the lock byte: any thread may try to take the lock, and its holder
gives it back outside of a write. -/
inductive LockStep (bucket : ℕ) : State → State → Prop
  | tryTakeLock {s} :
      LockStep bucket s { s with mem := Function.update s.mem (writeLockPtr bucket) 1 }
  | removeLock {s} (outside : s.writer = .outside) :
      LockStep bucket s { s with mem := Function.update s.mem (writeLockPtr bucket) 0 }

/-- The accesses of `read_entry`, its call and its return. -/
inductive ReaderStep (bucket : ℕ) : State → State → Prop
  | call {s} (entry : Fin 4) (here : s.reader = .idle) :
      ReaderStep bucket s { s with reader := .start entry }
  | seq1 {s entry} (here : s.reader = .start entry) :
      ReaderStep bucket s
        { s with
          reader :=
            let seq1 := readIntAtomic s.mem (counterPtr (cellPtr bucket entry))
            if seq1 &&& seqIncrement ≠ 0 then .start entry else .counted entry seq1 }
  | part0 {s entry seq1} (here : s.reader = .counted entry seq1) :
      ReaderStep bucket s
        { s with reader := .half entry seq1 (load 8 s.mem (cellPtr bucket entry)) }
  | part1 {s entry seq1 part0} (here : s.reader = .half entry seq1 part0) :
      ReaderStep bucket s
        { s with reader := .loaded entry seq1 part0 (load 8 s.mem (cellPtr bucket entry + 8)) }
  | seq2 {s entry seq1 part0 part1} (here : s.reader = .loaded entry seq1 part0 part1) :
      ReaderStep bucket s
        { s with
          reader :=
            let seq2 := readIntAtomic s.mem (counterPtr (cellPtr bucket entry))
            if seq2 ≠ seq1 then .start entry else .returned entry (resultOf part0 part1) seq1 }
  | leave {s entry result seq1} (here : s.reader = .returned entry result seq1) :
      ReaderStep bucket s { s with reader := .idle }

/-- An access of either thread, or none. -/
inductive Step (bucket : ℕ) (s s' : State) : Prop
  | writer (step : WriterStep bucket s s')
  | lock (step : LockStep bucket s s')
  | reader (step : ReaderStep bucket s s')
  | rest (same : s' = s)

/-- Before the first access: no call is under way, the lock byte is 0 or 1 and the sequence
even. -/
structure Initial (bucket : ℕ) (s : State) : Prop where
  writer : s.writer = .outside
  reader : s.reader = .idle
  lock : s.mem (writeLockPtr bucket) = 0 ∨ s.mem (writeLockPtr bucket) = 1
  even : sequence (s.counter bucket) = 2 * s.writes % 2 ^ 24
  held : ∀ cell, ∀ x < entryStorageSize, s.held cell x = s.mem (cellPtr bucket cell + x)

/-- A run of the two threads, in any order. -/
structure Execution (bucket : ℕ) where
  state : ℕ → State
  initial : Initial bucket (state 0)
  step : ∀ n, Step bucket (state n) (state (n + 1))

/-! ## Words of the bucket -/

theorem counterPtr_cellPtr (bucket : ℕ) (cell : Fin 4) :
    counterPtr (cellPtr bucket cell) = writeLockPtr bucket := by
  change (64 * bucket + 15 * cell.val) / 64 * 64 + 60 = 64 * bucket + 60
  omega

/-- The local entry is the bytes the two words were loaded from. -/
theorem resultOf_load (mem mem' : Memory) (addr : ℕ) {x : ℕ} (inside : x < 16) :
    resultOf (load 8 mem addr) (load 8 mem' (addr + 8)) x =
      if 8 ≤ x then mem' (addr + x) else mem (addr + x) := by
  rw [resultOf, store_load]
  by_cases second : 8 ≤ x
  · rw [if_pos (by omega), if_pos second]
    congr 1
    omega
  · rw [if_neg (by omega), if_neg second, store_load, if_pos (by omega), Nat.sub_zero]

theorem toNat_add_seqIncrement (counter : BitVec 32) :
    (counter + seqIncrement).toNat = (counter.toNat + 256) % 2 ^ 32 := BitVec.toNat_add ..

theorem add_two_seqIncrement (counter : BitVec 32) :
    counter + 2 * seqIncrement = counter + seqIncrement + seqIncrement := by
  rw [BitVec.add_assoc]
  rfl

/-- The sequence counts modulo 2^24. -/
theorem sequence_add (counter : BitVec 32) :
    sequence (counter + seqIncrement) = (sequence counter + 1) % 2 ^ 24 := by
  rw [sequence, sequence, toNat_add_seqIncrement]
  omega

/-- Counting leaves the lock byte alone. -/
theorem lowByte_add (counter : BitVec 32) :
    (counter + seqIncrement).toNat % 256 = counter.toNat % 256 := by
  rw [toNat_add_seqIncrement]
  omega

/-- The bit that says a write is in progress. -/
theorem and_seqIncrement_eq_zero_iff (counter : BitVec 32) :
    counter &&& seqIncrement = 0 ↔ sequence counter % 2 = 0 := by
  have bit : counter.getLsbD 8 = decide (sequence counter % 2 = 1) :=
    Nat.testBit_eq_decide_div_mod_eq
  change counter &&& BitVec.twoPow 32 8 = 0 ↔ _
  rw [BitVec.and_twoPow, bit]
  by_cases odd : sequence counter % 2 = 1
  · rw [decide_eq_true odd, if_pos rfl]
    exact iff_of_false (by decide) (by omega)
  · rw [decide_eq_false odd, if_neg Bool.false_ne_true]
    exact iff_of_true rfl (by omega)

theorem toNat_and_not_lowByte (x : BitVec 64) :
    (x &&& ~~~0xFF#64).toNat = x.toNat / 256 * 256 := by
  refine Nat.eq_of_testBit_eq fun i => ?_
  rw [show 256 = 2 ^ 8 from rfl, Nat.testBit_mul_two_pow, Nat.testBit_div_two_pow]
  change (x &&& ~~~0xFF#64).getLsbD i = _
  by_cases inside : i < 64
  · have mask : (0xFF#64).getLsbD i = decide (i < 8) := by
      revert i
      decide
    rw [BitVec.getLsbD_and, BitVec.getLsbD_not, mask, decide_eq_true inside, Bool.true_and]
    by_cases low : i < 8
    · rw [decide_eq_true low, decide_eq_false (by omega), Bool.not_true, Bool.and_false,
        Bool.false_and]
    · rw [decide_eq_false low, decide_eq_true (by omega), Bool.not_false, Bool.and_true,
        Bool.true_and, Nat.sub_add_cancel (by omega)]
      rfl
  · have high : x.toNat.testBit (i - 8 + 8) = false := by
      rw [Nat.sub_add_cancel (by omega)]
      exact BitVec.getLsbD_of_ge _ _ (not_lt.mp inside)
    rw [BitVec.getLsbD_of_ge _ _ (not_lt.mp inside), high, Bool.and_false]

/-- **What `validate_entry` compares** is the sequence, not the lock byte. -/
theorem validateEntry_iff (mem : Memory) (lastPos : ℕ) (lastSeq : BitVec 32) :
    validateEntry mem lastPos (lastSeq.setWidth 64) = true ↔
      sequence (readIntAtomic mem (counterPtr lastPos)) = sequence lastSeq := by
  have widen (x : BitVec 32) : (x.setWidth 64).toNat = x.toNat :=
    BitVec.toNat_setWidth_of_le (by decide)
  rw [validateEntry, beq_iff_eq, ← BitVec.toNat_inj, toNat_and_not_lowByte, toNat_and_not_lowByte,
    widen, widen, sequence, sequence]
  omega

/-! ## What the accesses keep -/

/-- What a call of `write_entry` knows about the counter. -/
def Writer.Agrees (bucket : ℕ) (mem : Memory) : Writer → Prop
  | .outside => True
  | .loaded w =>
    mem (writeLockPtr bucket) = 1 ∧ readIntAtomic mem (writeLockPtr bucket) = w.seq
  | .counted w | .half w | .stored w =>
    mem (writeLockPtr bucket) = 1 ∧
      readIntAtomic mem (writeLockPtr bucket) = w.seq + seqIncrement

/-- **Between two accesses** the lock byte is 0 or 1, the sequence counts the writes and is
odd while one is in progress, and each cell holds what it was given, or what the write in
progress has made of it. -/
structure Sound (bucket : ℕ) (s : State) : Prop where
  lock : s.mem (writeLockPtr bucket) = 0 ∨ s.mem (writeLockPtr bucket) = 1
  counts : sequence (s.counter bucket) = (2 * s.writes + s.writer.busy.toNat) % 2 ^ 24
  writer : s.writer.Agrees bucket s.mem
  cells : ∀ cell, ∀ x < entryStorageSize, s.mem (cellPtr bucket cell + x) = s.contents cell x

variable {bucket : ℕ} {s s' : State}

theorem Initial.sound (initial : Initial bucket s) : Sound bucket s where
  lock := initial.lock
  counts := by rw [initial.even, initial.writer]; rfl
  writer := by rw [initial.writer]; trivial
  cells := fun cell x hx => by
    rw [State.contents, initial.writer]
    exact (initial.held cell x hx).symm

/-- A store to the counter reaches no cell. -/
theorem writeIntAtomic_below (mem : Memory) (value : BitVec 32) {x : ℕ}
    (inside : x < offsetWriteLockAndSeq) :
    writeIntAtomic mem (writeLockPtr bucket) value (64 * bucket + x) = mem (64 * bucket + x) := by
  change x < 60 at inside
  exact store_of_not_mem (by change ¬ (64 * bucket + 60 ≤ _ ∧ _ < 64 * bucket + 60 + 4); omega)

theorem writeIntAtomic_cellPtr (mem : Memory) (value : BitVec 32) (cell : Fin 4) {x : ℕ}
    (inside : x < entryStorageSize) :
    writeIntAtomic mem (writeLockPtr bucket) value (cellPtr bucket cell + x) =
      mem (cellPtr bucket cell + x) := by
  rw [cellPtr, Nat.add_assoc]
  refine writeIntAtomic_below mem value ?_
  change x < 15 at inside
  change 15 * cell.val + x < 60
  omega

/-- The lock byte under a counter that is stored. -/
theorem writeIntAtomic_lock (mem : Memory) (value : BitVec 32)
    (same : value.toNat % 256 = (mem (writeLockPtr bucket)).toNat) :
    writeIntAtomic mem (writeLockPtr bucket) value (writeLockPtr bucket) =
      mem (writeLockPtr bucket) := by
  refine UInt8.toNat_inj.mp ?_
  rw [@toNat_byte_load 4 _ _ (by decide), writeIntAtomic, load_store]
  exact same

/-- A store inside the cells does not reach the counter. -/
theorem store_lockWord (mem : Memory) (value : BitVec 64) {addr : ℕ}
    (before : addr + 8 ≤ writeLockPtr bucket) :
    readIntAtomic (@store 8 mem addr value) (writeLockPtr bucket) =
        readIntAtomic mem (writeLockPtr bucket) ∧
      @store 8 mem addr value (writeLockPtr bucket) = mem (writeLockPtr bucket) :=
  ⟨@load_store_of_disjoint 4 8 mem _ _ value (Or.inr before),
    @store_of_not_mem 8 mem _ _ value (by omega)⟩

/-- The words of the cells end before the counter. -/
theorem cellPtr_add_le (cell : Fin 4) (offset : Fin 8) :
    cellPtr bucket cell + offset + 8 ≤ writeLockPtr bucket := by
  change 64 * bucket + 15 * cell.val + offset + 8 ≤ 64 * bucket + 60
  omega

/-- What the holder of the lock counts. -/
theorem Sound.count (sound : Sound bucket s) :
    sequence (s.counter bucket + seqIncrement) =
        (2 * s.writes + s.writer.busy.toNat + 1) % 2 ^ 24 ∧
      writeIntAtomic s.mem (writeLockPtr bucket) (s.counter bucket + seqIncrement)
          (writeLockPtr bucket) = s.mem (writeLockPtr bucket) := by
  refine ⟨?_, writeIntAtomic_lock _ _ ?_⟩
  · rw [sequence_add, sound.counts, Nat.mod_add_mod]
  · rw [lowByte_add, @toNat_byte_load 4 _ _ (by decide)]
    rfl

/-- The cells around a store into one of them. -/
theorem store_cell (mem src : Memory) (target cell : Fin 4) {x y : ℕ} (hx : x < entryStorageSize)
    (hy : y + 8 ≤ entryStorageSize) :
    @store 8 mem (cellPtr bucket target + y) (load 8 src y) (cellPtr bucket cell + x) =
      if cell = target ∧ y ≤ x ∧ x < y + 8 then src x else mem (cellPtr bucket cell + x) := by
  change x < 15 at hx
  change y + 8 ≤ 15 at hy
  rw [store_load]
  by_cases inside : cell = target ∧ y ≤ x ∧ x < y + 8
  · obtain ⟨rfl, low, high⟩ := inside
    rw [if_pos (by omega), if_pos ⟨rfl, low, high⟩]
    congr 1
    omega
  · rw [if_neg, if_neg inside]
    intro both
    change 64 * bucket + 15 * target.val + y ≤ 64 * bucket + 15 * cell.val + x ∧
      64 * bucket + 15 * cell.val + x < 64 * bucket + 15 * target.val + y + 8 at both
    have same : cell = target := Fin.ext (by omega)
    subst same
    exact inside ⟨rfl, by omega, by omega⟩

theorem Sound.writerStep (sound : Sound bucket s) (step : WriterStep bucket s s') :
    Sound bucket s' := by
  have agrees := sound.writer
  have counts := sound.counts
  have cells := sound.cells
  unfold State.contents at cells
  cases step with
  | load target src outside locked =>
    rw [outside] at counts cells
    refine ⟨sound.lock, counts, ⟨locked, ?_⟩, cells⟩
    rw [counterPtr_cellPtr]
  | @count w here =>
    rw [here] at agrees cells
    obtain ⟨number, byte⟩ := sound.count
    rw [State.counter, agrees.2] at number byte
    rw [here] at number
    simp only [counterPtr_cellPtr]
    exact ⟨Or.inr (byte.trans agrees.1), (congrArg sequence (load_store ..)).trans number,
      ⟨byte.trans agrees.1, load_store ..⟩,
      fun cell x hx => (writeIntAtomic_cellPtr _ _ _ hx).trans (cells cell x hx)⟩
  | @part1 w here =>
    rw [here] at agrees counts cells
    obtain ⟨word, byte⟩ := store_lockWord s.mem (srcPart1 w.src) (cellPtr_add_le w.target 0)
    refine ⟨Or.inr (byte.trans agrees.1), (congrArg sequence word).trans counts,
      ⟨byte.trans agrees.1, word.trans agrees.2⟩, fun cell x hx => ?_⟩
    refine (store_cell s.mem w.src w.target cell hx (by decide : 0 + 8 ≤ 15)).trans ?_
    rw [cells cell x hx]
    exact if_congr (by simp) rfl rfl
  | @part2 w here =>
    rw [here] at agrees counts cells
    obtain ⟨word, byte⟩ := store_lockWord s.mem (srcPart2 w.src) (cellPtr_add_le w.target 7)
    refine ⟨Or.inr (byte.trans agrees.1), (congrArg sequence word).trans counts,
      ⟨byte.trans agrees.1, word.trans agrees.2⟩, fun cell x hx => ?_⟩
    change @store 8 s.mem (cellPtr bucket w.target + 7) (srcPart2 w.src) _ = _
    rw [srcPart2_eq, store_cell s.mem w.src w.target cell hx (by decide : 7 + 8 ≤ 15),
      cells cell x hx]
    change x < 15 at hx
    change (if _ then _ else if cell = w.target ∧ x < 8 then w.src x else s.held cell x) =
      if cell = w.target then w.src x else s.held cell x
    by_cases same : cell = w.target
    · rw [if_pos same]
      by_cases second : 7 ≤ x
      · rw [if_pos ⟨same, second, hx⟩]
      · rw [if_neg (fun both => second both.2.1), if_pos ⟨same, by omega⟩]
    · rw [if_neg same, if_neg (fun both => same both.1), if_neg (fun both => same both.1)]
  | @finish w here =>
    rw [here] at agrees cells
    obtain ⟨number, byte⟩ := sound.count
    rw [State.counter, agrees.2, ← add_two_seqIncrement] at number byte
    rw [here] at number
    simp only [counterPtr_cellPtr]
    refine ⟨Or.inr (byte.trans agrees.1), (congrArg sequence (load_store ..)).trans number,
      trivial, fun cell x hx => ?_⟩
    refine (writeIntAtomic_cellPtr _ _ _ hx).trans ((cells cell x hx).trans ?_)
    change (if cell = w.target then w.src x else s.held cell x) =
      Function.update s.held w.target w.src cell x
    by_cases same : cell = w.target
    · rw [if_pos same, same, Function.update_self]
    · rw [if_neg same, Function.update_of_ne same]

theorem Sound.lockStep (sound : Sound bucket s) (step : LockStep bucket s s') :
    Sound bucket s' := by
  have frame {value : UInt8} {x : ℕ} (ne : x ≠ writeLockPtr bucket) :
      Function.update s.mem (writeLockPtr bucket) value x = s.mem x :=
    Function.update_of_ne ne _ _
  have counts (value : UInt8) :
      sequence (readIntAtomic (Function.update s.mem (writeLockPtr bucket) value)
        (writeLockPtr bucket)) = (2 * s.writes + s.writer.busy.toNat) % 2 ^ 24 :=
    (load_div_congr fun x after _ => frame (by omega)).trans sound.counts
  have cells (value : UInt8) (cell : Fin 4) (x : ℕ) (hx : x < entryStorageSize) :
      Function.update s.mem (writeLockPtr bucket) value (cellPtr bucket cell + x) =
        s.contents cell x := by
    refine (frame ?_).trans (sound.cells cell x hx)
    change x < 15 at hx
    change 64 * bucket + 15 * cell.val + x ≠ 64 * bucket + 60
    omega
  cases step with
  | tryTakeLock =>
    refine ⟨Or.inr (Function.update_self ..), counts 1, ?_, cells 1⟩
    -- a thread that finds the lock taken stores what is there
    have taken (held : s.mem (writeLockPtr bucket) = 1) :
        Function.update s.mem (writeLockPtr bucket) 1 = s.mem := by
      rw [← held, Function.update_eq_self]
    have agrees := sound.writer
    revert agrees
    change s.writer.Agrees bucket s.mem → s.writer.Agrees bucket (Function.update _ _ _)
    cases s.writer with
    | outside => exact id
    | loaded w | counted w | half w | stored w => exact fun agrees => (taken agrees.1).symm ▸ agrees
  | removeLock outside =>
    refine ⟨Or.inl (Function.update_self ..), counts 0, ?_, cells 0⟩
    change s.writer.Agrees bucket _
    rw [outside]
    trivial

/-- A reader leaves the memory and the writer alone. -/
theorem ReaderStep.frame (step : ReaderStep bucket s s') :
    ∃ reader, s' = { s with reader := reader } := by
  cases step <;> exact ⟨_, rfl⟩

theorem WriterStep.reader (step : WriterStep bucket s s') : s'.reader = s.reader := by
  cases step <;> rfl

theorem LockStep.reader (step : LockStep bucket s s') : s'.reader = s.reader := by
  cases step <;> rfl

/-- **Each access keeps the invariant.** -/
theorem Sound.step (sound : Sound bucket s) (step : Step bucket s s') : Sound bucket s' := by
  cases step with
  | writer step => exact sound.writerStep step
  | lock step => exact sound.lockStep step
  | reader step =>
    obtain ⟨reader, rfl⟩ := step.frame
    exact ⟨sound.lock, sound.counts, sound.writer, sound.cells⟩
  | rest same => exact same ▸ sound

/-- Outside of a write the sequence is even. -/
theorem Sound.even_iff (sound : Sound bucket s) :
    s.counter bucket &&& seqIncrement = 0 ↔ s.writer.busy = false := by
  rw [and_seqIncrement_eq_zero_iff, sound.counts]
  cases s.writer.busy with
  | false => exact iff_of_true (by change 2 * s.writes % 2 ^ 24 % 2 = 0; omega) rfl
  | true => exact iff_of_false (by change (2 * s.writes + 1) % 2 ^ 24 % 2 ≠ 0; omega) (by decide)

/-- The holder of the lock writes the lock byte back as it was. -/
theorem WriterStep.lock (step : WriterStep bucket s s') (sound : Sound bucket s) :
    s'.mem (writeLockPtr bucket) = s.mem (writeLockPtr bucket) := by
  have agrees := sound.writer
  cases step with
  | load => rfl
  | @count w here =>
    rw [here] at agrees
    have byte := sound.count.2
    rw [State.counter, agrees.2] at byte
    simpa only [counterPtr_cellPtr] using byte
  | @part1 w here => exact (store_lockWord s.mem (srcPart1 w.src) (cellPtr_add_le w.target 0)).2
  | @part2 w here => exact (store_lockWord s.mem (srcPart2 w.src) (cellPtr_add_le w.target 7)).2
  | @finish w here =>
    rw [here] at agrees
    have byte := sound.count.2
    rw [State.counter, agrees.2, ← add_two_seqIncrement] at byte
    simpa only [counterPtr_cellPtr] using byte

/-- **A bucket is a sequence lock**: the bytes of its cells change only in a write. -/
theorem Step.refines (step : Step bucket s s') :
    SeqLock.Moment.Step (s.moment bucket) (s'.moment bucket) := by
  have counted (mem : Memory) (value : BitVec 32) :
      (fun x : Fin offsetWriteLockAndSeq =>
        writeIntAtomic mem (writeLockPtr bucket) value (64 * bucket + x)) =
      fun x : Fin offsetWriteLockAndSeq => mem (64 * bucket + x) :=
    funext fun x => writeIntAtomic_below mem value x.isLt
  have locked (value : UInt8) :
      (fun x : Fin offsetWriteLockAndSeq =>
        Function.update s.mem (writeLockPtr bucket) value (64 * bucket + x)) =
      fun x : Fin offsetWriteLockAndSeq => s.mem (64 * bucket + x) := by
    refine funext fun x => Function.update_of_ne ?_ _ _
    have inside : x.val < 60 := x.isLt
    change 64 * bucket + x.val ≠ 64 * bucket + 60
    omega
  cases step with
  | writer step =>
    cases step with
    | load target src outside =>
      simp only [State.moment, outside]
      exact .rest
    | count here =>
      simp only [State.moment, here, counterPtr_cellPtr, counted]
      exact .enter
    | part1 here | part2 here =>
      simp only [State.moment, here]
      exact .change
    | finish here =>
      simp only [State.moment, here, counterPtr_cellPtr, counted]
      exact .leave
  | lock step =>
    cases step with
    | tryTakeLock | removeLock =>
      simp only [State.moment, locked]
      exact .rest
  | reader step =>
    obtain ⟨reader, rfl⟩ := step.frame
    exact .rest
  | rest same => exact same ▸ .rest

/-! ## Runs -/

namespace Execution

variable (ex : Execution bucket)

/-- **The invariant of a run.** -/
theorem sound (n : ℕ) : Sound bucket (ex.state n) := by
  induction n with
  | zero => exact ex.initial.sound
  | succ n ih => exact ih.step (ex.step n)

/-- The run of the sequence lock. -/
def run : SeqLock.Run (Fin offsetWriteLockAndSeq → UInt8) where
  moment := fun n => (ex.state n).moment bucket
  step := fun n => (ex.step n).refines

/-- One round of the loop of `read_entry`, up to some moment: when the counter was loaded,
and what it was. -/
structure Round (entry : Fin 4) (seq1 : BitVec 32) (first now : ℕ) : Prop where
  before : first < now
  start : (ex.state first).reader = .start entry
  counter : (ex.state first).counter bucket = seq1
  even : seq1 &&& seqIncrement = 0
  reading : ∀ n, first ≤ n → n < now → (ex.state n).reader.reading = some entry

/-- **A call of `read_entry` that has returned**: the round that returned, from its first
load of the counter to the second, and the moments of the two loads of the entry. -/
structure Returned (entry : Fin 4) (result : CtEntry) (seq1 : BitVec 32)
    (first second now : ℕ) : Prop where
  round : ex.Round entry seq1 first second
  parts : ∃ a b, first < a ∧ a < b ∧ b < second ∧
    result = resultOf (load 8 (ex.state a).mem (cellPtr bucket entry))
      (load 8 (ex.state b).mem (cellPtr bucket entry + 8))
  counter : (ex.state second).counter bucket = seq1
  before : second < now
  returned : ∀ n, second < n → n ≤ now → (ex.state n).reader = .returned entry result seq1

/-- What the local variables of the reader tell of the run so far. -/
def Traced (now : ℕ) : Reader → Prop
  | .idle | .start _ => True
  | .counted entry seq1 => ∃ first, ex.Round entry seq1 first now
  | .half entry seq1 part0 =>
    ∃ first a, ex.Round entry seq1 first now ∧ first < a ∧ a < now ∧
      part0 = load 8 (ex.state a).mem (cellPtr bucket entry)
  | .loaded entry seq1 part0 part1 =>
    ∃ first a b, ex.Round entry seq1 first now ∧ first < a ∧ a < b ∧ b < now ∧
      part0 = load 8 (ex.state a).mem (cellPtr bucket entry) ∧
      part1 = load 8 (ex.state b).mem (cellPtr bucket entry + 8)
  | .returned entry result seq1 =>
    ∃ first second, ex.Returned entry result seq1 first second now

variable {ex}

theorem Round.succ {entry : Fin 4} {seq1 : BitVec 32} {first now : ℕ}
    (round : ex.Round entry seq1 first now)
    (reading : (ex.state now).reader.reading = some entry) :
    ex.Round entry seq1 first (now + 1) where
  before := Nat.lt_succ_of_lt round.before
  start := round.start
  counter := round.counter
  even := round.even
  reading := fun n after before => by
    obtain earlier | rfl := Nat.lt_succ_iff_lt_or_eq.mp before
    · exact round.reading n after earlier
    · exact reading

/-- What was so stays so while the reader waits. -/
theorem Traced.wait {now : ℕ} (same : (ex.state (now + 1)).reader = (ex.state now).reader)
    (traced : ex.Traced now (ex.state now).reader) :
    ex.Traced (now + 1) (ex.state (now + 1)).reader := by
  rw [same]
  cases here : (ex.state now).reader with
  | idle | start entry => trivial
  | counted entry seq1 =>
    rw [here] at traced
    obtain ⟨first, round⟩ := traced
    exact ⟨first, round.succ (by rw [here]; rfl)⟩
  | half entry seq1 part0 =>
    rw [here] at traced
    obtain ⟨first, a, round, after, before, loaded⟩ := traced
    exact ⟨first, a, round.succ (by rw [here]; rfl), after, Nat.lt_succ_of_lt before, loaded⟩
  | loaded entry seq1 part0 part1 =>
    rw [here] at traced
    obtain ⟨first, a, b, round, after, between, before, loaded⟩ := traced
    exact ⟨first, a, b, round.succ (by rw [here]; rfl), after, between, Nat.lt_succ_of_lt before,
      loaded⟩
  | returned entry result seq1 =>
    rw [here] at traced
    obtain ⟨first, second, round, parts, counter, before, returned⟩ := traced
    refine ⟨first, second, round, parts, counter, Nat.lt_succ_of_lt before, fun n after le => ?_⟩
    obtain earlier | rfl := Nat.le_succ_iff.mp le
    · exact returned n after earlier
    · exact same.trans here

theorem Traced.readerStep {now : ℕ} {s' : State} (step : ReaderStep bucket (ex.state now) s')
    (next : ex.state (now + 1) = s') (traced : ex.Traced now (ex.state now).reader) :
    ex.Traced (now + 1) s'.reader := by
  cases step with
  | call => trivial
  | @seq1 entry here =>
    change ex.Traced (now + 1) (if _ then _ else _)
    split
    · trivial
    · next even =>
      refine ⟨now, ⟨now.lt_succ_self, here, ?_, not_not.mp even, fun n after before => ?_⟩⟩
      · rw [counterPtr_cellPtr, State.counter]
      · obtain rfl : n = now := by omega
        rw [here]
        rfl
  | @part0 entry seq1 here =>
    rw [here] at traced
    obtain ⟨first, round⟩ := traced
    exact ⟨first, now, round.succ (by rw [here]; rfl), round.before, now.lt_succ_self, rfl⟩
  | @part1 entry seq1 part0 here =>
    rw [here] at traced
    obtain ⟨first, a, round, after, before, loaded⟩ := traced
    exact ⟨first, a, now, round.succ (by rw [here]; rfl), after, before, now.lt_succ_self, loaded,
      rfl⟩
  | @seq2 entry seq1 part0 part1 here =>
    rw [here] at traced
    change ex.Traced (now + 1) (if _ then _ else _)
    split
    · trivial
    · next same =>
      obtain ⟨first, a, b, round, after, between, before, loaded0, loaded1⟩ := traced
      refine ⟨first, now, round, ⟨a, b, after, between, before, ?_⟩, ?_, now.lt_succ_self,
        fun n after le => ?_⟩
      · rw [loaded0, loaded1]
      · rw [counterPtr_cellPtr] at same
        exact not_not.mp same
      · obtain rfl : n = now + 1 := by omega
        rw [next]
        exact if_neg same
  | leave => trivial

/-- **The local variables of the reader** are what it loaded in this round. -/
theorem traced (ex : Execution bucket) (n : ℕ) : ex.Traced n (ex.state n).reader := by
  induction n with
  | zero => rw [ex.initial.reader]; trivial
  | succ n ih =>
    cases ex.step n with
    | writer step => exact ih.wait step.reader
    | lock step => exact ih.wait step.reader
    | rest same => exact ih.wait (congrArg State.reader same)
    | reader step => exact ih.readerStep step rfl

end Execution

/-- The bytes of the cells are those of the sequence lock. -/
theorem State.mem_eq_of_moment_eq (same : s'.moment bucket = s.moment bucket) (cell : Fin 4)
    {x : ℕ} (inside : x < entryStorageSize) :
    s'.mem (cellPtr bucket cell + x) = s.mem (cellPtr bucket cell + x) := by
  change x < 15 at inside
  have below : entryStorageSize * cell + x < offsetWriteLockAndSeq := by
    change 15 * cell.val + x < 60
    omega
  rw [cellPtr, Nat.add_assoc]
  exact congrFun (congrArg SeqLock.Moment.value same) ⟨_, below⟩

/-- Outside of a write a cell holds the entry it was last given. -/
theorem Sound.held (sound : Sound bucket s) (idle : s.writer.busy = false) (cell : Fin 4) {x : ℕ}
    (inside : x < entryStorageSize) : s.mem (cellPtr bucket cell + x) = s.held cell x := by
  rw [sound.cells cell x inside, State.contents]
  cases h : s.writer with
  | outside | loaded w | counted w => rfl
  | half w | stored w =>
    rw [h] at idle
    cases idle

/-- **`validate_entry` notices a write**: a copy that was read when the bucket had some
sequence, and no write under way, is found unchanged only if it is, as long as fewer than
2^23 writes came in between. -/
theorem Execution.eq_of_validateEntry (ex : Execution bucket) (entry : Fin 4) {m k : ℕ}
    (idle : (ex.state m).writer.busy = false) (le : m ≤ k)
    (few : (ex.state k).writes < (ex.state m).writes + 2 ^ 23)
    (valid : validateEntry (ex.state k).mem (cellPtr bucket entry)
      (((ex.state m).counter bucket).setWidth 64) = true) :
    (ex.state k).moment bucket = (ex.state m).moment bucket := by
  rw [validateEntry_iff, counterPtr_cellPtr] at valid
  change sequence ((ex.state k).counter bucket) = _ at valid
  rw [(ex.sound k).counts, (ex.sound m).counts] at valid
  have same := ex.run.count_eq_of_mod_eq le few valid
  exact ex.run.eq_of_count_eq idle same le le_rfl

/-- **An entry that is read is never torn.**  The holder of the lock keeps the sequence
even outside of a write, and never changes the lock byte.  A call of `read_entry` that
returns made its two loads of the counter in one round; if fewer than 2^23 writes to the
bucket completed between them, the result is what the cell held at a moment in between
when no write was in progress, the entry it was last given, and the returned counter is
the one of that moment.  `validate_entry` on it succeeds later, as long as fewer than 2^23
writes complete, only if none did, and the cell holds the same entry. -/
theorem read_entry_not_torn (ex : Execution bucket) :
    (∀ n, (ex.state n).writer.busy = false →
      (ex.state n).counter bucket &&& seqIncrement = 0) ∧
    (∀ n s', WriterStep bucket (ex.state n) s' →
      s'.mem (writeLockPtr bucket) = (ex.state n).mem (writeLockPtr bucket)) ∧
    ∀ n entry result seq1, (ex.state n).reader = .returned entry result seq1 →
      ∃ first second, ex.Returned entry result seq1 first second n ∧
        ((ex.state second).writes < (ex.state first).writes + 2 ^ 23 →
          ∃ m, first ≤ m ∧ m ≤ second ∧
            (ex.state m).writer.busy = false ∧
            seq1 = (ex.state m).counter bucket ∧
            (∀ x < entryStorageSize, result x = (ex.state m).mem (cellPtr bucket entry + x) ∧
              result x = (ex.state m).held entry x) ∧
            ∀ k, second ≤ k → (ex.state k).writes < (ex.state second).writes + 2 ^ 23 →
              validateEntry (ex.state k).mem (cellPtr bucket entry) (seq1.setWidth 64) = true →
                (ex.state k).writes = (ex.state m).writes ∧
                  (ex.state k).writer.busy = false ∧
                  ∀ x < entryStorageSize,
                    result x = (ex.state k).mem (cellPtr bucket entry + x)) := by
  refine ⟨fun n idle => (ex.sound n).even_iff.mpr idle,
    fun n s' step => step.lock (ex.sound n), fun n entry result seq1 here => ?_⟩
  have traced := ex.traced n
  rw [here] at traced
  obtain ⟨first, second, returned⟩ := traced
  refine ⟨first, second, returned, fun few => ?_⟩
  have round := returned.round
  obtain ⟨a, b, afterFirst, between, beforeSecond, result_eq⟩ := returned.parts
  have idle : (ex.state first).writer.busy = false :=
    (ex.sound first).even_iff.mp (round.counter ▸ round.even)
  -- the two loads of the counter bracket a time in which nothing changed
  have counts : ((ex.state second).moment bucket).count % (2 * 2 ^ 23) =
      ((ex.state first).moment bucket).count % (2 * 2 ^ 23) := by
    have same := congrArg sequence (returned.counter.trans round.counter.symm)
    rwa [(ex.sound second).counts, (ex.sound first).counts] at same
  have still {n : ℕ} (after : first ≤ n) (before : n ≤ second) :
      (ex.state n).moment bucket = (ex.state first).moment bucket :=
    ex.run.eq_of_count_eq idle (ex.run.count_eq_of_mod_eq round.before.le few counts) after before
  have result_eq (x : ℕ) (hx : x < entryStorageSize) :
      result x = (ex.state first).mem (cellPtr bucket entry + x) := by
    rw [result_eq, resultOf_load _ _ _ (lt_trans hx (by decide)),
      State.mem_eq_of_moment_eq (still (n := a) (by omega) (by omega)) entry hx,
      State.mem_eq_of_moment_eq (still (n := b) (by omega) (by omega)) entry hx, ite_self]
  refine ⟨first, le_rfl, round.before.le, idle, round.counter.symm,
    fun x hx => ⟨result_eq x hx, (result_eq x hx).trans ((ex.sound first).held idle entry hx)⟩,
    fun k after fewer valid => ?_⟩
  have writes : (ex.state second).writes = (ex.state first).writes :=
    congrArg SeqLock.Moment.writes (still round.before.le le_rfl)
  have same := ex.eq_of_validateEntry entry idle (round.before.le.trans after) (writes ▸ fewer)
    (round.counter ▸ valid)
  exact ⟨congrArg SeqLock.Moment.writes same, (congrArg SeqLock.Moment.busy same).trans idle,
    fun x hx => (result_eq x hx).trans (State.mem_eq_of_moment_eq same entry hx).symm⟩

/-! ## A run by a schedule -/

/-- Who makes the next access.  A call is made where a thread is free for it. -/
inductive Access where
  | tryTakeLock
  | callWriter (target : Fin 4) (src : CtEntry)
  | writer
  | callReader (entry : Fin 4)
  | reader
  | rest

/-- The next access of a call of `write_entry`. -/
def State.writerAccess (bucket : ℕ) (s : State) : State :=
  match s.writer with
  | .outside => s
  | .loaded w =>
    { s with
      writer := .counted w
      mem := writeIntAtomic s.mem (counterPtr (cellPtr bucket w.target)) (w.seq + seqIncrement) }
  | .counted w =>
    { s with
      writer := .half w
      mem := @store 8 s.mem (cellPtr bucket w.target) (srcPart1 w.src) }
  | .half w =>
    { s with
      writer := .stored w
      mem := @store 8 s.mem (cellPtr bucket w.target + entryStorageSize - 8) (srcPart2 w.src) }
  | .stored w =>
    { s with
      writer := .outside
      mem := writeIntAtomic s.mem (counterPtr (cellPtr bucket w.target)) (w.seq + 2 * seqIncrement)
      writes := s.writes + 1
      held := Function.update s.held w.target w.src }

/-- The next access of a call of `read_entry`. -/
def State.readerAccess (bucket : ℕ) (s : State) : State :=
  match s.reader with
  | .idle | .returned _ _ _ => s
  | .start entry =>
    { s with
      reader :=
        let seq1 := readIntAtomic s.mem (counterPtr (cellPtr bucket entry))
        if seq1 &&& seqIncrement ≠ 0 then .start entry else .counted entry seq1 }
  | .counted entry seq1 =>
    { s with reader := .half entry seq1 (load 8 s.mem (cellPtr bucket entry)) }
  | .half entry seq1 part0 =>
    { s with reader := .loaded entry seq1 part0 (load 8 s.mem (cellPtr bucket entry + 8)) }
  | .loaded entry seq1 part0 part1 =>
    { s with
      reader :=
        let seq2 := readIntAtomic s.mem (counterPtr (cellPtr bucket entry))
        if seq2 ≠ seq1 then .start entry else .returned entry (resultOf part0 part1) seq1 }

/-- The state after an access; one that is not possible leaves it. -/
def Access.apply (bucket : ℕ) (s : State) : Access → State
  | .tryTakeLock => { s with mem := Function.update s.mem (writeLockPtr bucket) 1 }
  | .callWriter target src =>
    match s.writer with
    | .outside =>
      if s.mem (writeLockPtr bucket) = 1 then
        { s with
          writer := .loaded
            ⟨target, src, readIntAtomic s.mem (counterPtr (cellPtr bucket target))⟩ }
      else s
    | _ => s
  | .writer => s.writerAccess bucket
  | .callReader entry =>
    match s.reader with
    | .idle => { s with reader := .start entry }
    | _ => s
  | .reader => s.readerAccess bucket
  | .rest => s

theorem Access.step (s : State) (access : Access) : Step bucket s (access.apply bucket s) := by
  cases access with
  | tryTakeLock => exact .lock .tryTakeLock
  | callWriter target src =>
    unfold apply
    dsimp only
    split
    · next outside =>
      split
      · next locked => exact .writer (.load target src outside locked)
      · exact .rest rfl
    · exact .rest rfl
  | writer =>
    unfold apply State.writerAccess
    dsimp only
    split
    · exact .rest rfl
    · next here => exact .writer (.count here)
    · next here => exact .writer (.part1 here)
    · next here => exact .writer (.part2 here)
    · next here => exact .writer (.finish here)
  | callReader entry =>
    unfold apply
    dsimp only
    split
    · next idle => exact .reader (.call entry idle)
    · exact .rest rfl
  | reader =>
    unfold apply State.readerAccess
    dsimp only
    split
    · exact .rest rfl
    · exact .rest rfl
    · next here => exact .reader (.seq1 here)
    · next here => exact .reader (.part0 here)
    · next here => exact .reader (.part1 here)
    · next here => exact .reader (.seq2 here)
  | rest => exact .rest rfl

/-- The run that makes the accesses of a list, and no more. -/
def Execution.ofList {s : State} (initial : Initial bucket s) (accesses : List Access) :
    Execution bucket where
  state n := (accesses.take n).foldl (Access.apply bucket) s
  initial := initial
  step n := by
    rw [List.take_add_one, List.foldl_append]
    cases accesses[n]? with
    | none => exact .rest rfl
    | some access => exact access.step _

/-- A bucket of zero bytes. -/
def zeroState : State := ⟨fun _ => 0, .outside, .idle, 0, fun _ _ => 0⟩

theorem zeroState_initial : Initial 5 zeroState where
  writer := rfl
  reader := rfl
  lock := Or.inl rfl
  even := by decide +kernel
  held _ _ _ := rfl

/-- An entry is written between the two loads of a reader, which goes round again. -/
def tornRun : Execution 5 := .ofList zeroState_initial
  [.tryTakeLock, .callReader 1, .reader, .reader,
    .callWriter 1 fun _ => 0x5a, .writer, .writer, .writer, .writer,
    .reader, .reader, .reader, .reader, .reader, .reader]

/-- The words of a round that has loaded both. -/
def Reader.words : Reader → Option (BitVec 64 × BitVec 64)
  | .loaded _ _ part0 part1 => some (part0, part1)
  | _ => none

/-- What a call has returned. -/
def Reader.result : Reader → Option (Fin 4 × CtEntry × BitVec 32)
  | .returned entry result seq1 => some (entry, result, seq1)
  | _ => none

theorem Reader.eq_returned {reader : Reader} {entry : Fin 4} {result : CtEntry} {seq1 : BitVec 32}
    (returned : reader.result = some (entry, result, seq1)) :
    reader = .returned entry result seq1 := by
  cases reader with
  | returned entry' result' seq1' =>
    cases returned
    rfl
  | idle => cases returned
  | start entry' => cases returned
  | counted entry' seq1' => cases returned
  | half entry' seq1' part0 => cases returned
  | loaded entry' seq1' part0 part1 => cases returned

/-- The words of the first round are half of the old and half of the new entry, and are refused:
after it the reader still reads.  The second round returns an entry the cell held. -/
theorem read_entry_not_torn_refused :
    (tornRun.state 10).reader.words = some (0, 0x5a5a5a5a5a5a5a) ∧
      (tornRun.state 11).reader.reading = some 1 ∧
      ∃ result seq1, (tornRun.state 15).reader = .returned 1 result seq1 ∧ result 0 = 0x5a ∧
        ∃ m ≤ 15, (tornRun.state m).writer.busy = false ∧ seq1 = (tornRun.state m).counter 5 ∧
          ∀ x < entryStorageSize, result x = (tornRun.state m).held 1 x := by
  have ends : (tornRun.state 15).reader.result.map (fun r => (r.1, r.2.1 0)) = some (1, 0x5a) := by
    decide +kernel
  obtain ⟨⟨entry, result, seq1⟩, isResult, same⟩ := Option.map_eq_some_iff.mp ends
  obtain ⟨rfl, first⟩ := Prod.mk.inj same
  have here := Reader.eq_returned isResult
  refine ⟨by decide +kernel, by decide +kernel, result, seq1, here, first, ?_⟩
  obtain ⟨-, -, notTorn⟩ := read_entry_not_torn tornRun
  obtain ⟨first, second, returned, held⟩ := notTorn 15 1 result seq1 here
  have few : ∀ n < 15, (tornRun.state n).writes < 2 ^ 23 := by decide +kernel
  obtain ⟨m, after, before, idle, counter, same, -⟩ :=
    held ((few second returned.before).trans_le (Nat.le_add_left _ _))
  exact ⟨m, before.trans returned.before.le, idle, counter, fun x inside => (same x inside).2⟩

end CuckooTrie.Packed.Interleaved
