import Mathlib.Data.List.Induction
import Mathlib.Data.List.Lex
import Mathlib.Data.List.Sort
import Mathlib.Data.Nat.Bitwise
import Mathlib.Tactic.Linarith
import Mathlib.Tactic.Ring

/-!
# Compile-time constants and status values

The constants of `config.h`, `cuckoo_trie.h` and `cuckoo_trie_internal.h` under
the default configuration (`MULTITHREADING` defined, four cells in a bucket,
five bits in a symbol, four tag bits), and the two families of status values:
the ones the API returns and the ones only internal functions return.
-/

namespace CuckooTrie

/-- `CUCKOO_BUCKET_SIZE`: cells in a bucket. -/
abbrev bucketSize : ℕ := 4

/-- `BITS_PER_SYMBOL`. -/
abbrev bitsPerSymbol : ℕ := 5

/-- `FANOUT`: symbols of a key other than the END symbol. -/
abbrev fanout : ℕ := 32

/-- `SYMBOL_END`. -/
abbrev symbolEnd : ℕ := 0

/-- `SYMBOL_MASK`. -/
abbrev symbolMask : ℕ := 31

/-- `MAX_JUMP_SYMBOLS`. -/
abbrev maxJumpSymbols : ℕ := 8

/-- `TAG_BITS`. -/
abbrev tagBits : ℕ := 4

/-- `MAX_KEY_BYTES`. -/
abbrev maxKeyBytes : ℕ := 256

/-- `MAX_KEY_SYMBOLS`: the symbols of the longest key, without the END symbol. -/
abbrev maxKeySymbols : ℕ := (maxKeyBytes * 8 + bitsPerSymbol - 1) / bitsPerSymbol

/-- `MAX_LOCKS`. -/
abbrev maxLocks : ℕ := maxKeySymbols + 3

/-- `MAX_VALID_COLOR`: valid colors are `0 .. 2 * CUCKOO_BUCKET_SIZE`, inclusive. -/
abbrev maxValidColor : ℕ := 8

/-- `INVALID_COLOR`: the parent color of the root and of the children of jump
nodes, and the color of an unused cell. -/
abbrev invalidColor : ℕ := 9

/-- `ROOT_COLOR`. -/
abbrev rootColor : ℕ := 0

/-- `ROOT_LAST_SYMBOL`. -/
abbrev rootLastSymbol : ℕ := 0

/-- `HASH_START_VALUE`. -/
abbrev hashStartValue : ℕ := 0

/-- `RELOCATE_QUEUE_SIZE`. -/
abbrev relocateQueueSize : ℕ := 1000

/-- The value `(uint32_t) -1` that ends the linked list of leaves. -/
abbrev endOfList : ℕ := 2 ^ 32 - 1

/-- The value `-1ULL` standing for "no primary bucket". -/
abbrev noBucket : ℕ := 2 ^ 64 - 1

/-- The values `SI_OK`, `SI_RETRY`, `SI_EXISTS` and `SI_FAIL` of internal functions. -/
inductive InternalStatus where
  | ok
  | retry
  | exist
  | fail
deriving DecidableEq, Repr

/-- The values `S_OK`, `S_ALREADYIN`, `S_OVERFLOW`, `S_KEYTOOLONG` and
`S_NOTFOUND` of the API. -/
inductive Status where
  | ok
  | alreadyIn
  | overflow
  | keyTooLong
  | notFound
deriving DecidableEq, Repr

end CuckooTrie
