import CuckooTrie.Config

/-!
# Key-value objects and symbol strings

`ct_kv` objects with the key comparison of `key_object.h`, and the encoding of a
key as a string of five-bit symbols (`get_string_symbol`), which ends with the
END symbol and is zero-padded to a whole number of symbols.
-/

namespace CuckooTrie

/-- A `ct_kv` object.  The trie stores pointers to these objects, so the address
is part of it; of the bytes only the key is ever read by the trie. -/
structure CtKv where
  address : ℕ
  key : List UInt8
deriving DecidableEq, Repr, Inhabited

/-- `memcmp` on two byte strings of one length: the difference of the first two
bytes that differ. -/
def memcmp : List UInt8 → List UInt8 → ℤ
  | a :: as, b :: bs => if a = b then memcmp as bs else (a.toNat : ℤ) - b.toNat
  | _, _ => 0

/-- `kv_key_compare_to`: the bytes of the common length first, then the sizes. -/
def kvKeyCompareTo (kv : CtKv) (bytes : List UInt8) : ℤ :=
  let minSize := if kv.key.length < bytes.length then kv.key.length else bytes.length
  let result := memcmp (kv.key.take minSize) (bytes.take minSize)
  if result ≠ 0 then result else (kv.key.length : ℤ) - bytes.length

/-- `kv_key_compare`. -/
def kvKeyCompare (kv1 kv2 : CtKv) : ℤ :=
  kvKeyCompareTo kv1 kv2.key

/-- `get_string_symbol`: the symbol of a key at an index, zero-padded if necessary. -/
def getStringSymbol (bytes : List UInt8) (symbolIdx : ℕ) : ℕ :=
  let symbolPos := symbolIdx * bitsPerSymbol
  let firstByteIdx := symbolPos / 8
  let offset := symbolPos % 8
  if firstByteIdx ≥ bytes.length then
    symbolEnd
  else
    let firstByte := (bytes.getD firstByteIdx 0).toNat
    let secondByte :=
      if firstByteIdx + 1 < bytes.length then (bytes.getD (firstByteIdx + 1) 0).toNat else 0
    let word := firstByte * 256 + secondByte
    ((word >>> (16 - bitsPerSymbol - offset)) &&& symbolMask) + 1

/-- `get_key_symbol`. -/
def getKeySymbol (kv : CtKv) (symbolIdx : ℕ) : ℕ :=
  getStringSymbol kv.key symbolIdx

/-- `num_key_symbols`: the symbols of a key, with one more for the END symbol. -/
def numKeySymbols (bytes : List UInt8) : ℕ :=
  (bytes.length * 8 + bitsPerSymbol - 1) / bitsPerSymbol + 1

/-- The whole symbol string of a key, the END symbol included. -/
def keySymbols (bytes : List UInt8) : List ℕ :=
  (List.range (numKeySymbols bytes)).map (getStringSymbol bytes)

end CuckooTrie
