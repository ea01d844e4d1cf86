import CuckooTrie.Bytes
import Mathlib.Data.List.Basic

/-!
# Reading a dataset

`init_dataset` and `build_kvs` on a file of the benchmarks: a count, a total size that is
not used, and the keys, each after its length.  The keys become `ct_kv` objects one after the
other in a buffer that grows, and moves, while they are read; the pointers to them are
found in a second pass over the buffer.

`encodeDataset` is the format of the file.  A key is read with one `fread` of one item of
its length, which returns 0 for an item of no bytes, so that a file with an empty key is not
read: `dataset_decodes_iff` says which files are.  The sizes are numbers here: a buffer that
`realloc` returned fits the address space, so that the code computes them without wrapping.
-/

namespace CuckooTrie.Datasets

open Bytes

/-- `MAX_KEY_SIZE`. -/
abbrev maxKeySize : ℕ := 256

/-- `sizeof(ct_kv)`. -/
abbrev kvHeaderSize : ℕ := 8

/-! ## The format -/

/-- A key after its length. -/
def encodeKey (key : List UInt8) : List UInt8 := leBytes 4 key.length ++ key

/-- The keys of a dataset: their number fits its field, and none is longer than
`MAX_KEY_SIZE`. -/
structure Keys where
  list : List (List UInt8)
  count : list.length < 2 ^ 64
  short : ∀ key ∈ list, key.length ≤ maxKeySize

/-- The file of a dataset. -/
def encodeDataset (keys : Keys) : List UInt8 :=
  leBytes 8 keys.list.length ++ leBytes 8 (keys.list.map List.length).sum ++
    keys.list.flatMap encodeKey

/-! ## The C library -/

/-- `fread`: the number of complete items, the memory at `ptr`, and what is left of the
file. -/
def fread (ptr : Memory) (size count : ℕ) (file : List UInt8) : ℕ × Memory × List UInt8 :=
  if size = 0 ∨ count = 0 then (0, ptr, file)
  else
    (min count (file.length / size), overwrite ptr 0 (file.take (size * count)),
      file.drop (size * count))

/-- `memcpy`. -/
def memcpy (mem : Memory) (dest : ℕ) (src : Memory) (n : ℕ) : Memory :=
  overwrite mem dest (bytesAt src 0 n)

/-- `memset`. -/
def memset (mem : Memory) (dest : ℕ) (value : UInt8) (n : ℕ) : Memory :=
  overwrite mem dest (List.replicate n value)

/-- What `malloc` and `realloc` return, call by call, when they succeed: an address, and the
bytes found there. -/
structure Allocator where
  address : ℕ → ℕ
  garbage : ℕ → Memory
  nonNull : ∀ call, address call ≠ 0

/-! ## Objects -/

/-- `kv_required_size`. -/
def kvRequiredSize (keyLen valueLen : ℕ) : ℕ := kvHeaderSize + keyLen + valueLen

/-- `kv_key_size`, of the object at an offset of the buffer.  No size is negative. -/
def kvKeySize (mem : Memory) (kv : ℕ) : ℕ := (load 4 mem kv).toNat

/-- `kv_value_size`. -/
def kvValueSize (mem : Memory) (kv : ℕ) : ℕ := (load 4 mem (kv + 4)).toNat

/-- `kv_size`. -/
def kvSize (mem : Memory) (kv : ℕ) : ℕ := kvHeaderSize + kvKeySize mem kv + kvValueSize mem kv

/-- `kv_init`. -/
def kvInit (mem : Memory) (kv keyLen valueLen : ℕ) : Memory :=
  @store 4 (@store 4 mem kv (BitVec.ofNat 32 keyLen)) (kv + 4) (BitVec.ofNat 32 valueLen)

/-- `kv_key_bytes`. -/
def kvKeyBytes (kv : ℕ) : ℕ := kv + kvHeaderSize

/-- `kv_value_bytes`. -/
def kvValueBytes (mem : Memory) (kv : ℕ) : ℕ := kv + kvHeaderSize + kvKeySize mem kv

/-! ## The buffer -/

/-- `dynamic_buffer_t`, with the bytes at `ptr`, and the number of the next allocation. -/
structure DynamicBuffer where
  ptr : ℕ
  bytes : Memory
  size : ℕ
  pos : ℕ
  call : ℕ

/-- `dynamic_buffer_init`. -/
def dynamicBufferInit (a : Allocator) (call : ℕ) : DynamicBuffer where
  ptr := a.address call
  bytes := a.garbage call
  size := 1024
  pos := 0
  call := call + 1

/-- `dynamic_buffer_extend`: the old position, and the buffer.  `realloc` keeps the bytes of
the old size. -/
def dynamicBufferExtend (a : Allocator) (buf : DynamicBuffer) (dataSize : ℕ) :
    ℕ × DynamicBuffer :=
  let oldPos := buf.pos
  let buf :=
    if buf.pos + dataSize > buf.size then
      { ptr := a.address buf.call
        bytes := fun x => if x < buf.size then buf.bytes x else a.garbage buf.call x
        size := buf.size * 2 + dataSize
        pos := buf.pos
        call := buf.call + 1 }
    else buf
  (oldPos, { buf with pos := buf.pos + dataSize })

/-! ## The dataset -/

/-- `blob_t`. -/
structure Blob where
  size : ℕ
  bytes : Memory

/-- `file_dataset_read_key`: whether it succeeds, what is left of the file, and the key. -/
def fileDatasetReadKey (file : List UInt8) (buf : Blob) : Bool × List UInt8 × Blob :=
  let (itemsRead, word, file) := fread (fun _ => 0) 4 1 file
  if itemsRead ≠ 1 then (false, file, buf)
  else
    let size := (load 4 word 0).toNat
    if size > maxKeySize then (false, file, buf)
    else
      let (itemsRead, bytes, file) := fread buf.bytes size 1 file
      (decide (itemsRead = 1), file, ⟨size, bytes⟩)

/-- `dataset_t` for a file.  `kvsBytes` are the bytes at `kvs`, and `context` what is left of
the file. -/
structure Dataset where
  numKeys : ℕ
  totalSize : ℕ
  kvs : ℕ
  kvsBytes : Memory
  kvPointers : List ℕ
  context : List UInt8

/-- `init_dataset`, with the name of a file that can be opened. -/
def initDataset (file : List UInt8) (keysRequested : ℕ) : Option Dataset :=
  let (itemsRead, word, file) := fread (fun _ => 0) 8 1 file
  if itemsRead ≠ 1 then none
  else
    let numKeys := (load 8 word 0).toNat
    let numKeys := if numKeys > keysRequested then keysRequested else numKeys
    let (itemsRead, word, file) := fread (fun _ => 0) 8 1 file
    if itemsRead ≠ 1 then none
    else some ⟨numKeys, (load 8 word 0).toNat, 0, fun _ => 0, [], file⟩

/-- The variables of the first loop of `build_kvs`. -/
structure Reading where
  file : List UInt8
  keyBuf : Blob
  kvsBuf : DynamicBuffer

/-- One round of the first loop of `build_kvs`: whether a key was read, and the variables. -/
def appendKv (a : Allocator) (valueSize : ℕ) (r : Reading) : Bool × Reading :=
  let (ok, file, keyBuf) := fileDatasetReadKey r.file r.keyBuf
  if !ok then (false, ⟨file, keyBuf, r.kvsBuf⟩)
  else
    let kvLen := kvRequiredSize keyBuf.size valueSize
    let (bufPos, kvsBuf) := dynamicBufferExtend a r.kvsBuf kvLen
    let bytes := kvInit kvsBuf.bytes bufPos keyBuf.size valueSize
    let bytes := memcpy bytes (kvKeyBytes bufPos) keyBuf.bytes keyBuf.size
    let bytes := memset bytes (kvValueBytes bytes bufPos) 0xAB valueSize
    (true, ⟨file, keyBuf, { kvsBuf with bytes := bytes }⟩)

/-- The first loop of `build_kvs`, which returns at a key that is not read. -/
def appendKvs (a : Allocator) (valueSize : ℕ) : ℕ → Reading → Bool × Reading
  | 0, r => (true, r)
  | n + 1, r =>
    match appendKv a valueSize r with
    | (false, r) => (false, r)
    | (true, r) => appendKvs a valueSize n r

/-- The second loop of `build_kvs`. -/
def pointersFrom (buf : DynamicBuffer) : ℕ → ℕ → List ℕ
  | 0, _ => []
  | n + 1, bufPos => (buf.ptr + bufPos) :: pointersFrom buf n (bufPos + kvSize buf.bytes bufPos)

/-- `build_kvs`. -/
def buildKvs (a : Allocator) (dataset : Dataset) (valueSize : ℕ) : Dataset :=
  if dataset.kvs ≠ 0 then dataset
  else
    let start : Reading := ⟨dataset.context, ⟨0, a.garbage 0⟩, dynamicBufferInit a 1⟩
    match appendKvs a valueSize dataset.numKeys start with
    | (false, r) => { dataset with context := r.file }
    | (true, r) =>
      { dataset with
        kvs := r.kvsBuf.ptr
        kvsBytes := r.kvsBuf.bytes
        kvPointers := pointersFrom r.kvsBuf dataset.numKeys 0
        context := r.file }

/-! ## What a dataset should hold -/

/-- The object of a key, with the value `build_kvs` gives it. -/
structure IsKv (mem : Memory) (kv : ℕ) (key : List UInt8) (valueSize : ℕ) : Prop where
  keyLen : kvKeySize mem kv = key.length
  valueLen : kvValueSize mem kv = valueSize
  keyBytes : bytesAt mem (kvKeyBytes kv) key.length = key
  valueBytes : bytesAt mem (kvValueBytes mem kv) valueSize = List.replicate valueSize 0xAB

/-- Where the object of a key begins, if the objects are consecutive. -/
def kvPosition (keys : List (List UInt8)) (valueSize i : ℕ) : ℕ :=
  ((keys.take i).map fun key => kvRequiredSize key.length valueSize).sum

/-- **The keys of a dataset are read**: the objects of these keys, in this order, are
consecutive in the buffer, and the pointers are to them. -/
structure Decoded (keys : List (List UInt8)) (valueSize : ℕ) (d : Dataset) : Prop where
  kvs : d.kvs ≠ 0
  numKeys : d.numKeys = keys.length
  pointers : d.kvPointers =
    (List.range keys.length).map fun i => d.kvs + kvPosition keys valueSize i
  objects : ∀ i (h : i < keys.length),
    IsKv d.kvsBytes (kvPosition keys valueSize i) keys[i] valueSize

/-! ## Reading a key -/

variable {file : List UInt8} {buf : Blob}

/-- `fread` of one item that is there. -/
theorem fread_one (ptr : Memory) {bytes rest : List UInt8} (positive : bytes ≠ []) :
    fread ptr bytes.length 1 (bytes ++ rest) = (1, overwrite ptr 0 bytes, rest) := by
  have pos := List.length_pos_iff.mpr positive
  have whole : 1 ≤ (bytes ++ rest).length / bytes.length := by
    rw [Nat.le_div_iff_mul_le pos, List.length_append]
    omega
  rw [fread, if_neg (by omega), Nat.mul_one, List.take_left, List.drop_left, Nat.min_eq_left whole]

/-- `fread` of one item reads it whole, and it is not empty. -/
theorem fread_one_eq {ptr mem : Memory} {size : ℕ} {rest : List UInt8}
    (read : fread ptr size 1 file = (1, mem, rest)) :
    ∃ bytes, bytes.length = size ∧ bytes ≠ [] ∧ file = bytes ++ rest ∧
      mem = overwrite ptr 0 bytes := by
  unfold fread at read
  split at read
  · cases read
  · next some =>
    simp only [Prod.mk.injEq, Nat.mul_one] at read
    obtain ⟨items, rfl, rfl⟩ := read
    have whole : size ≤ file.length := by
      have : 1 ≤ file.length / size := by omega
      rw [Nat.le_div_iff_mul_le (by omega)] at this
      omega
    refine ⟨file.take size, List.length_take_of_le whole, ?_, (List.take_append_drop ..).symm, rfl⟩
    intro empty
    have := congrArg List.length empty
    rw [List.length_take_of_le whole] at this
    exact some (Or.inl this)

/-- **The route of the empty key**: one item of no bytes is no item. -/
theorem fread_zero (ptr : Memory) (count : ℕ) : fread ptr 0 count file = (0, ptr, file) :=
  if_pos (Or.inl rfl)

/-- A number that was read. -/
theorem load_overwrite_leBytes {n x : ℕ} (ptr : Memory) (small : x < 256 ^ n) :
    (load n (overwrite ptr 0 (leBytes n x)) 0).toNat = x := by
  refine toNat_load_of_bytesAt small ?_
  have read := bytesAt_overwrite ptr 0 (leBytes n x)
  rwa [length_leBytes] at read

/-- Bytes are the digits of the number they are loaded as. -/
theorem leBytes_load {n : ℕ} {bytes : List UInt8} (ptr : Memory) (length : bytes.length = n) :
    leBytes n (load n (overwrite ptr 0 bytes) 0).toNat = bytes := by
  subst length
  rw [← bytesAt_eq_leBytes, bytesAt_overwrite]

/-- **A key that is not empty** is read. -/
theorem fileDatasetReadKey_encodeKey {key rest : List UInt8} (positive : key ≠ [])
    (short : key.length ≤ maxKeySize) :
    fileDatasetReadKey (encodeKey key ++ rest) buf =
      (true, rest, ⟨key.length, overwrite buf.bytes 0 key⟩) := by
  have word := @fread_one (fun _ => 0) (leBytes 4 key.length) (key ++ rest)
    (fun empty => by cases congrArg List.length empty)
  rw [length_leBytes] at word
  have small : key.length < 256 ^ 4 := lt_of_le_of_lt short (by decide)
  rw [fileDatasetReadKey, encodeKey, List.append_assoc, word]
  simp only [load_overwrite_leBytes _ small, fread_one buf.bytes positive]
  rw [if_neg (not_not.mpr rfl), if_neg (not_lt.mpr short)]
  rfl

/-- **The empty key** is not. -/
theorem fileDatasetReadKey_empty (rest : List UInt8) :
    (fileDatasetReadKey (encodeKey [] ++ rest) buf).1 = false := by
  have word := @fread_one (fun _ => 0) (leBytes 4 0) rest (by decide)
  rw [length_leBytes] at word
  rw [fileDatasetReadKey, encodeKey, List.append_nil, List.length_nil, word]
  simp only [load_overwrite_leBytes _ (show 0 < 256 ^ 4 by decide), fread_zero]
  rfl

/-- **What is read is a key** that is whole, not empty and not too long. -/
theorem eq_of_fileDatasetReadKey {rest : List UInt8} {buf' : Blob}
    (read : fileDatasetReadKey file buf = (true, rest, buf')) :
    ∃ key, file = encodeKey key ++ rest ∧ key ≠ [] ∧ key.length ≤ maxKeySize ∧
      buf' = ⟨key.length, overwrite buf.bytes 0 key⟩ := by
  unfold fileDatasetReadKey at read
  rcases word : fread (fun _ => 0) 4 1 file with ⟨items, mem, file'⟩
  simp only [word] at read
  split at read
  · cases read
  next one =>
  split at read
  · cases read
  next short =>
  rcases body : fread buf.bytes (load 4 mem 0).toNat 1 file' with ⟨items', bytes, file''⟩
  simp only [body, Prod.mk.injEq, decide_eq_true_eq] at read
  obtain ⟨rfl, rfl, rfl⟩ := read
  rw [not_not] at one
  subst one
  obtain ⟨length, four, -, rfl, rfl⟩ := fread_one_eq word
  obtain ⟨key, size, positive, rfl, rfl⟩ := fread_one_eq body
  rw [← size] at short ⊢
  refine ⟨key, ?_, positive, not_lt.mp short, rfl⟩
  rw [encodeKey, size, leBytes_load _ four, List.append_assoc]

/-! ## Appending objects -/

/-- The bytes of an object. -/
def kvBytes (valueSize : ℕ) (key : List UInt8) : List UInt8 :=
  leBytes 4 key.length ++ leBytes 4 valueSize ++ key ++ List.replicate valueSize 0xAB

theorem length_kvBytes (valueSize : ℕ) (key : List UInt8) :
    (kvBytes valueSize key).length = kvRequiredSize key.length valueSize := by
  rw [kvBytes, List.length_append, List.length_append, List.length_append, length_leBytes,
    length_leBytes, List.length_replicate]
  rfl

/-- **The buffer holds the objects** of some keys, one after the other. -/
structure Holds (buf : DynamicBuffer) (valueSize : ℕ) (keys : List (List UInt8)) : Prop where
  ptr : buf.ptr ≠ 0
  inside : buf.pos ≤ buf.size
  bytes : bytesAt buf.bytes 0 buf.pos = keys.flatMap (kvBytes valueSize)

theorem holds_dynamicBufferInit (a : Allocator) (call valueSize : ℕ) :
    Holds (dynamicBufferInit a call) valueSize [] :=
  ⟨a.nonNull call, Nat.zero_le _, rfl⟩

/-- **Growing keeps what the buffer holds**, also if it moves, and makes room. -/
theorem dynamicBufferExtend_spec (a : Allocator) {buf : DynamicBuffer} (ptr : buf.ptr ≠ 0)
    (inside : buf.pos ≤ buf.size) (dataSize : ℕ) :
    ∃ buf', dynamicBufferExtend a buf dataSize = (buf.pos, buf') ∧ buf'.ptr ≠ 0 ∧
      buf'.pos = buf.pos + dataSize ∧ buf'.pos ≤ buf'.size ∧
      bytesAt buf'.bytes 0 buf.pos = bytesAt buf.bytes 0 buf.pos := by
  unfold dynamicBufferExtend
  by_cases full : buf.pos + dataSize > buf.size
  · simp only [if_pos full]
    refine ⟨_, rfl, a.nonNull _, rfl, ?_, bytesAt_congr fun x _ lt => if_pos (by omega)⟩
    change buf.pos + dataSize ≤ buf.size * 2 + dataSize
    omega
  · simp only [if_neg full]
    exact ⟨_, rfl, ptr, rfl, not_lt.mp full, rfl⟩

section Object

variable (mem : Memory) (kv : ℕ) {keyBuf : Memory} {key : List UInt8} {valueSize : ℕ}

/-- The two sizes of an object. -/
theorem bytesAt_kvInit (short : key.length < 2 ^ 32) (fits : valueSize < 2 ^ 32) :
    bytesAt (kvInit mem kv key.length valueSize) kv 8 =
      leBytes 4 key.length ++ leBytes 4 valueSize := by
  have word {n : ℕ} (small : n < 2 ^ 32) : (BitVec.ofNat 32 n).toNat = n := by
    rw [BitVec.toNat_ofNat, Nat.mod_eq_of_lt small]
  have first : bytesAt (kvInit mem kv key.length valueSize) kv 4 = leBytes 4 key.length := by
    refine Eq.trans (bytesAt_congr fun x _ lt => @store_of_not_mem 4 _ _ _ _ (by omega)) ?_
    exact (@bytesAt_store 4 _ _ _).trans (congrArg _ (word short))
  have second : bytesAt (kvInit mem kv key.length valueSize) (kv + 4) 4 = leBytes 4 valueSize :=
    (@bytesAt_store 4 _ _ _).trans (congrArg _ (word fits))
  rw [show 8 = 4 + 4 from rfl, bytesAt_add, first, second]

theorem kvInit_before {x : ℕ} (before : x < kv) {keyLen valueLen : ℕ} :
    kvInit mem kv keyLen valueLen x = mem x := by
  rw [kvInit, @store_of_not_mem 4 _ _ _ _ (by omega), @store_of_not_mem 4 _ _ _ _ (by omega)]

/-- **The stores of one round** put an object in place, and touch nothing before it. -/
theorem object_written (short : key.length < 2 ^ 32) (fits : valueSize < 2 ^ 32)
    (keyBytes : bytesAt keyBuf 0 key.length = key) :
    let bytes := memcpy (kvInit mem kv key.length valueSize) (kvKeyBytes kv) keyBuf key.length
    let bytes := memset bytes (kvValueBytes bytes kv) 0xAB valueSize
    bytesAt bytes kv (kvRequiredSize key.length valueSize) = kvBytes valueSize key ∧
      ∀ x < kv, bytes x = mem x := by
  intro bytes bytes'
  have sizes : bytesAt bytes kv 8 = leBytes 4 key.length ++ leBytes 4 valueSize :=
    (bytesAt_overwrite_of_disjoint _ (Or.inl le_rfl)).trans (bytesAt_kvInit mem kv short fits)
  have copied : bytesAt bytes (kv + 8) key.length = key := by
    have there := bytesAt_overwrite (kvInit mem kv key.length valueSize) (kv + 8)
      (bytesAt keyBuf 0 key.length)
    rw [length_bytesAt] at there
    exact there.trans keyBytes
  have keySize : kvKeySize bytes kv = key.length := by
    rw [show 8 = 4 + 4 from rfl, bytesAt_add] at sizes
    exact toNat_load_of_bytesAt short (List.append_inj_left sizes (by simp))
  have value : kvValueBytes bytes kv = kv + 8 + key.length := congrArg _ keySize
  have before (x : ℕ) (lt : x < kv + 8 + key.length) : bytes' x = bytes x := by
    refine overwrite_of_not_mem ?_
    rw [value]
    omega
  refine ⟨?_, fun x lt => ?_⟩
  · have filled : bytesAt bytes' (kv + 8 + key.length) valueSize = List.replicate valueSize 0xAB := by
      have there := bytesAt_overwrite bytes (kvValueBytes bytes kv) (List.replicate valueSize 0xAB)
      rw [List.length_replicate] at there
      rw [← value]
      exact there
    rw [kvRequiredSize, bytesAt_add, bytesAt_add, ← Nat.add_assoc, filled,
      bytesAt_congr fun x _ lt => before x (by change x < kv + 8 at lt; omega), sizes,
      bytesAt_congr fun x _ lt => before x lt, copied, kvBytes]
  · rw [before x (by omega)]
    refine (overwrite_of_not_mem ?_).trans (kvInit_before mem kv lt)
    change ¬ (kv + 8 ≤ x ∧ _)
    omega

end Object

/-- **A round that reads a key** appends its object. -/
theorem appendKv_encodeKey (a : Allocator) {valueSize : ℕ} (fits : valueSize < 2 ^ 32) {r : Reading}
    {keys : List (List UInt8)} {key rest : List UInt8} (holds : Holds r.kvsBuf valueSize keys)
    (next : r.file = encodeKey key ++ rest) (positive : key ≠ []) (short : key.length ≤ maxKeySize) :
    ∃ r', appendKv a valueSize r = (true, r') ∧ r'.file = rest ∧
      Holds r'.kvsBuf valueSize (keys ++ [key]) := by
  obtain ⟨buf, extend, ptr, pos, inside, kept⟩ := dynamicBufferExtend_spec a holds.ptr holds.inside
    (kvRequiredSize key.length valueSize)
  have copied := bytesAt_overwrite r.keyBuf.bytes 0 key
  obtain ⟨object, before⟩ := object_written buf.bytes r.kvsBuf.pos
    (lt_of_le_of_lt short (by decide)) fits copied
  unfold appendKv
  rw [next]
  simp only [fileDatasetReadKey_encodeKey positive short, extend]
  refine ⟨_, rfl, rfl, ptr, inside, ?_⟩
  change bytesAt _ 0 buf.pos = _
  rw [pos, bytesAt_add, Nat.zero_add, object, bytesAt_congr fun x _ lt => before x (by omega), kept,
    holds.bytes, List.flatMap_append, List.flatMap_singleton]

/-- A round that meets the empty key ends the loop. -/
theorem appendKv_empty (a : Allocator) (valueSize : ℕ) {r : Reading} {rest : List UInt8}
    (next : r.file = encodeKey [] ++ rest) : (appendKv a valueSize r).1 = false := by
  have failed := @fileDatasetReadKey_empty r.keyBuf rest
  rw [← next] at failed
  unfold appendKv
  rcases h : fileDatasetReadKey r.file r.keyBuf with ⟨ok, file, keyBuf⟩
  rw [h] at failed
  cases failed
  rfl

/-- A round that goes on has read a key. -/
theorem eq_of_appendKv {a : Allocator} {valueSize : ℕ} {r r' : Reading}
    (round : appendKv a valueSize r = (true, r')) :
    ∃ key, r.file = encodeKey key ++ r'.file ∧ key ≠ [] ∧ key.length ≤ maxKeySize := by
  unfold appendKv at round
  rcases h : fileDatasetReadKey r.file r.keyBuf with ⟨ok, file, keyBuf⟩
  rw [h] at round
  cases ok with
  | false => cases round
  | true =>
    obtain ⟨key, next, positive, short, -⟩ := eq_of_fileDatasetReadKey h
    simp only [Bool.not_true, Bool.false_eq_true, if_false, Prod.mk.injEq, true_and] at round
    subst round
    exact ⟨key, next, positive, short⟩

/-! ## The first loop -/

/-- **The keys of a loop that ends** were all read. -/
theorem eq_of_appendKvs {a : Allocator} {valueSize n : ℕ} {r r' : Reading}
    (loop : appendKvs a valueSize n r = (true, r')) :
    ∃ keys : List (List UInt8), r.file = keys.flatMap encodeKey ++ r'.file ∧ keys.length = n ∧
      ∀ key ∈ keys, key.length ≤ maxKeySize := by
  induction n generalizing r with
  | zero =>
    cases loop
    exact ⟨[], rfl, rfl, nofun⟩
  | succ n ih =>
    rw [appendKvs] at loop
    rcases h : appendKv a valueSize r with ⟨ok, next⟩
    rw [h] at loop
    cases ok with
    | false => cases loop
    | true =>
      obtain ⟨key, first, -, short⟩ := eq_of_appendKv h
      obtain ⟨keys, others, length, shorts⟩ := ih loop
      refine ⟨key :: keys, ?_, congrArg (· + 1) length, List.forall_mem_cons.mpr ⟨short, shorts⟩⟩
      rw [first, others, List.flatMap_cons, List.append_assoc]

section Loop

variable (a : Allocator) {valueSize : ℕ} {r : Reading} {keys rest : List (List UInt8)}

/-- **The loop** appends the objects of its keys, if none of them is empty. -/
theorem appendKvs_encode (fits : valueSize < 2 ^ 32) {done : List (List UInt8)}
    (holds : Holds r.kvsBuf valueSize done) (next : r.file = (keys ++ rest).flatMap encodeKey)
    (short : ∀ key ∈ keys, key.length ≤ maxKeySize) (positive : ∀ key ∈ keys, key ≠ []) :
    ∃ r', appendKvs a valueSize keys.length r = (true, r') ∧
      Holds r'.kvsBuf valueSize (done ++ keys) := by
  induction keys generalizing r done with
  | nil => exact ⟨r, rfl, by rwa [List.append_nil]⟩
  | cons key keys ih =>
    rw [List.cons_append, List.flatMap_cons] at next
    obtain ⟨r', round, file, holds'⟩ := appendKv_encodeKey a fits holds next
      (positive key List.mem_cons_self) (short key List.mem_cons_self)
    obtain ⟨r'', loop, holds''⟩ := ih holds' file (fun k mem => short k (List.mem_cons_of_mem _ mem))
      (fun k mem => positive k (List.mem_cons_of_mem _ mem))
    refine ⟨r'', ?_, by rwa [List.append_assoc] at holds''⟩
    rw [List.length_cons, appendKvs, round]
    exact loop

/-- **An empty key** ends it. -/
theorem appendKvs_empty (fits : valueSize < 2 ^ 32) {done : List (List UInt8)}
    (holds : Holds r.kvsBuf valueSize done) (next : r.file = (keys ++ rest).flatMap encodeKey)
    (short : ∀ key ∈ keys, key.length ≤ maxKeySize) (empty : [] ∈ keys) :
    (appendKvs a valueSize keys.length r).1 = false := by
  induction keys generalizing r done with
  | nil => cases empty
  | cons key keys ih =>
    rw [List.cons_append, List.flatMap_cons] at next
    rw [List.length_cons, appendKvs]
    by_cases first : key = []
    · subst first
      have failed := appendKv_empty a valueSize next
      rcases h : appendKv a valueSize r with ⟨ok, r'⟩
      rw [h] at failed
      cases failed
      rfl
    · obtain ⟨r', round, file, holds'⟩ := appendKv_encodeKey a fits holds next first
        (short key List.mem_cons_self)
      rw [round]
      exact ih holds' file (fun k mem => short k (List.mem_cons_of_mem _ mem))
        ((List.mem_cons.mp empty).resolve_left (Ne.symm first))

end Loop

/-! ## The second loop -/

/-- The bytes of an object are the object. -/
theorem isKv_of_bytesAt {mem : Memory} {kv valueSize : ℕ} {key : List UInt8}
    (short : key.length < 2 ^ 32) (fits : valueSize < 2 ^ 32)
    (bytes : bytesAt mem kv (kvRequiredSize key.length valueSize) = kvBytes valueSize key) :
    IsKv mem kv key valueSize := by
  rw [kvRequiredSize, show kvHeaderSize = 4 + 4 from rfl, bytesAt_add, bytesAt_add, bytesAt_add,
    kvBytes] at bytes
  obtain ⟨front, value⟩ := List.append_inj bytes (by simp)
  obtain ⟨sizes, keyBytes⟩ := List.append_inj front (by simp)
  obtain ⟨first, second⟩ := List.append_inj sizes (by simp)
  have keyLen : kvKeySize mem kv = key.length := toNat_load_of_bytesAt short first
  refine ⟨keyLen, toNat_load_of_bytesAt fits second, keyBytes, ?_⟩
  rw [kvValueBytes, keyLen, Nat.add_assoc]
  exact value

/-- **The pointers** are to the objects the buffer holds. -/
theorem pointersFrom_spec (buf : DynamicBuffer) {valueSize : ℕ} (fits : valueSize < 2 ^ 32)
    {keys : List (List UInt8)} (short : ∀ key ∈ keys, key.length ≤ maxKeySize) {p : ℕ}
    (bytes : bytesAt buf.bytes p (keys.flatMap (kvBytes valueSize)).length =
      keys.flatMap (kvBytes valueSize)) :
    pointersFrom buf keys.length p =
        (List.range keys.length).map (fun i => buf.ptr + (p + kvPosition keys valueSize i)) ∧
      ∀ i (h : i < keys.length),
        IsKv buf.bytes (p + kvPosition keys valueSize i) keys[i] valueSize := by
  induction keys generalizing p with
  | nil => exact ⟨rfl, nofun⟩
  | cons key keys ih =>
    rw [List.flatMap_cons, List.length_append, bytesAt_add, length_kvBytes] at bytes
    obtain ⟨first, others⟩ := List.append_inj bytes (by rw [length_bytesAt, length_kvBytes])
    have object := isKv_of_bytesAt (lt_of_le_of_lt (short key List.mem_cons_self) (by decide)) fits
      first
    have size : kvSize buf.bytes p = kvRequiredSize key.length valueSize := by
      rw [kvSize, object.keyLen, object.valueLen, kvRequiredSize]
    obtain ⟨pointers, objects⟩ := ih (fun k mem => short k (List.mem_cons_of_mem _ mem)) others
    have position (i : ℕ) : kvPosition (key :: keys) valueSize (i + 1) =
        kvRequiredSize key.length valueSize + kvPosition keys valueSize i := by
      rw [kvPosition, List.take_succ_cons, List.map_cons, List.sum_cons, kvPosition]
    refine ⟨?_, fun i h => ?_⟩
    · rw [List.length_cons, pointersFrom, size, pointers, List.range_succ_eq_map, List.map_cons,
        List.map_map]
      refine congrArg _ (List.map_congr_left fun i _ => ?_)
      change _ = buf.ptr + (p + kvPosition (key :: keys) valueSize (i + 1))
      rw [position, Nat.add_assoc p]
    · cases i with
      | zero => exact object
      | succ i =>
        rw [position, ← Nat.add_assoc]
        exact objects i (Nat.lt_of_succ_lt_succ h)

/-! ## The whole file -/

/-- The header of a file. -/
theorem initDataset_eq {n : ℕ} (count : n < 2 ^ 64) (total : ℕ) (body : List UInt8)
    (keysRequested : ℕ) :
    ∃ d, initDataset (leBytes 8 n ++ leBytes 8 total ++ body) keysRequested = some d ∧
      d.numKeys = min n keysRequested ∧ d.kvs = 0 ∧ d.context = body := by
  have word (x : ℕ) (rest : List UInt8) := @fread_one (fun _ => 0) (leBytes 8 x) rest
    (fun empty => by cases congrArg List.length empty)
  simp only [length_leBytes] at word
  rw [initDataset, List.append_assoc, word]
  simp only [word, load_overwrite_leBytes _ (show n < 256 ^ 8 from count)]
  rw [if_neg (not_not.mpr rfl), if_neg (not_not.mpr rfl)]
  refine ⟨_, rfl, ?_, rfl, rfl⟩
  change (if n > keysRequested then keysRequested else n) = min n keysRequested
  split <;> omega

/-- A file whose header is read has one. -/
theorem eq_of_initDataset {file : List UInt8} {keysRequested : ℕ} {d : Dataset}
    (init : initDataset file keysRequested = some d) :
    ∃ n total, n < 2 ^ 64 ∧ file = leBytes 8 n ++ leBytes 8 total ++ d.context ∧
      d.numKeys = min n keysRequested ∧ d.kvs = 0 := by
  unfold initDataset at init
  rcases first : fread (fun _ => 0) 8 1 file with ⟨items, mem, file'⟩
  simp only [first] at init
  split at init
  · cases init
  next one =>
  rcases second : fread (fun _ => 0) 8 1 file' with ⟨items', mem', file''⟩
  simp only [second] at init
  split at init
  · cases init
  next one' =>
  rw [not_not] at one one'
  subst one one'
  obtain ⟨count, eight, -, rfl, rfl⟩ := fread_one_eq first
  obtain ⟨total, eight', -, rfl, rfl⟩ := fread_one_eq second
  obtain rfl := Option.some.inj init
  refine ⟨_, (load 8 (overwrite (fun _ => 0) 0 total) 0).toNat,
    (load 8 (overwrite (fun _ => 0) 0 count) 0).isLt, ?_, ?_, rfl⟩
  · rw [leBytes_load _ eight, leBytes_load _ eight', List.append_assoc]
  · change (if _ > keysRequested then keysRequested else _) = _
    split <;> omega

/-- **A dataset of no empty key** is read. -/
theorem decoded_buildKvs (a : Allocator) {valueSize : ℕ} (fits : valueSize < 2 ^ 32)
    {keys rest : List (List UInt8)} {d : Dataset} (kvs : d.kvs = 0)
    (numKeys : d.numKeys = keys.length) (context : d.context = (keys ++ rest).flatMap encodeKey)
    (short : ∀ key ∈ keys, key.length ≤ maxKeySize) (positive : ∀ key ∈ keys, key ≠ []) :
    Decoded keys valueSize (buildKvs a d valueSize) := by
  obtain ⟨r, loop, holds⟩ := @appendKvs_encode a valueSize
    ⟨d.context, ⟨0, a.garbage 0⟩, dynamicBufferInit a 1⟩ keys rest fits []
    (holds_dynamicBufferInit a 1 valueSize) context short positive
  have bytes := holds.bytes
  rw [List.nil_append] at bytes
  have total := congrArg List.length bytes
  rw [length_bytesAt] at total
  rw [total] at bytes
  obtain ⟨pointers, objects⟩ := pointersFrom_spec r.kvsBuf fits short bytes
  simp only [Nat.zero_add] at pointers objects
  unfold buildKvs
  rw [if_neg (not_not.mpr kvs), numKeys]
  simp only [loop]
  exact ⟨holds.ptr, rfl, pointers, objects⟩

/-- **A dataset with an empty key** is not read. -/
theorem kvs_buildKvs_of_empty (a : Allocator) {valueSize : ℕ} (fits : valueSize < 2 ^ 32)
    {keys rest : List (List UInt8)} {d : Dataset} (kvs : d.kvs = 0)
    (numKeys : d.numKeys = keys.length) (context : d.context = (keys ++ rest).flatMap encodeKey)
    (short : ∀ key ∈ keys, key.length ≤ maxKeySize) (empty : [] ∈ keys) :
    (buildKvs a d valueSize).kvs = 0 := by
  have failed := @appendKvs_empty a valueSize ⟨d.context, ⟨0, a.garbage 0⟩, dynamicBufferInit a 1⟩
    keys rest fits [] (holds_dynamicBufferInit a 1 valueSize) context short empty
  unfold buildKvs
  rw [if_neg (not_not.mpr kvs), numKeys]
  rcases loop : appendKvs a valueSize keys.length
    ⟨d.context, ⟨0, a.garbage 0⟩, dynamicBufferInit a 1⟩ with ⟨ok, r⟩
  rw [loop] at failed
  cases failed
  simp only [loop]
  exact kvs

/-- **Which datasets are decoded.**  A file encodes keys of at most `MAX_KEY_SIZE` bytes.  For
any number of requested keys, the first of them, up to this number, are read into
consecutive objects with a pointer to each, exactly if none of these keys is empty.  A
file that is read at all consists of a header and of the keys that are asked for, each of
them whole and at most `MAX_KEY_SIZE` bytes long. -/
theorem dataset_decodes_iff (a : Allocator) (keysRequested : ℕ) (valueSize : Fin (2 ^ 31)) :
    (∀ keys : Keys,
      (∃ d, initDataset (encodeDataset keys) keysRequested = some d ∧
        Decoded (keys.list.take keysRequested) valueSize (buildKvs a d valueSize)) ↔
      ∀ key ∈ keys.list.take keysRequested, key ≠ []) ∧
    ∀ file d, initDataset file keysRequested = some d → (buildKvs a d valueSize).kvs ≠ 0 →
      ∃ (n total : ℕ) (keys : List (List UInt8)) (rest : List UInt8), n < 2 ^ 64 ∧
        file = leBytes 8 n ++ leBytes 8 total ++ (keys.flatMap encodeKey ++ rest) ∧
        keys.length = min n keysRequested ∧ ∀ key ∈ keys, key.length ≤ maxKeySize := by
  have fits : valueSize.val < 2 ^ 32 := lt_trans valueSize.isLt (by decide)
  refine ⟨fun keys => ?_, fun file d init built => ?_⟩
  · obtain ⟨d, init, numKeys, kvs, context⟩ := initDataset_eq keys.count
      (keys.list.map List.length).sum (keys.list.flatMap encodeKey) keysRequested
    have short : ∀ key ∈ keys.list.take keysRequested, key.length ≤ maxKeySize :=
      fun key mem => keys.short key (List.mem_of_mem_take mem)
    have count : d.numKeys = (keys.list.take keysRequested).length := by
      rw [numKeys, List.length_take, Nat.min_comm]
    rw [← List.take_append_drop keysRequested keys.list] at context
    constructor
    · rintro ⟨d', init', decoded⟩ key mem rfl
      obtain rfl := Option.some.inj (init.symm.trans init')
      exact decoded.kvs (kvs_buildKvs_of_empty a fits kvs count context short mem)
    · intro positive
      exact ⟨d, init, decoded_buildKvs a fits kvs count context short positive⟩
  · obtain ⟨n, total, count, bytes, numKeys, kvs⟩ := eq_of_initDataset init
    unfold buildKvs at built
    rw [if_neg (not_not.mpr kvs)] at built
    rcases loop : appendKvs a valueSize d.numKeys
      ⟨d.context, ⟨0, a.garbage 0⟩, dynamicBufferInit a 1⟩ with ⟨ok, r⟩
    cases ok with
    | false =>
      simp only [loop] at built
      exact absurd kvs built
    | true =>
      obtain ⟨keys, body, length, short⟩ := eq_of_appendKvs loop
      exact ⟨n, total, keys, r.file, count, body ▸ bytes, length.trans numKeys, short⟩

/-- The file of one empty key: `build_kvs` leaves no objects. -/
theorem dataset_empty_key_lost :
    ¬ ∃ d, initDataset (encodeDataset ⟨[[]], by decide, by decide⟩) 1 = some d ∧
      Decoded [[]] 8 (buildKvs ⟨fun _ => 4096, fun _ _ => 0, fun _ => by decide⟩ d 8) := by
  rintro ⟨d, init, decoded⟩
  obtain ⟨d', init', numKeys, kvs, context⟩ := initDataset_eq (show 1 < 2 ^ 64 by decide) 0
    (encodeKey []) 1
  obtain rfl := Option.some.inj (init.symm.trans init')
  exact decoded.kvs (@kvs_buildKvs_of_empty _ 8 (by decide) [[]] [] d kvs numKeys context
    (by decide) (by decide))

end CuckooTrie.Datasets
