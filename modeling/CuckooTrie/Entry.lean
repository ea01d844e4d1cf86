import CuckooTrie.Key

/-!
# Entries

The `ct_entry` union as a record: the common header, and the part that depends
on the type.  The bits of a jump node are kept as the list of their five-bit
groups, each one less than the symbol it stands for, and a bitmap as a number
whose bit `c` stands for child `c`.
-/

namespace CuckooTrie

/-- `ct_entry_locator`. -/
structure Locator where
  primaryBucket : ℕ
  tag : ℕ
  color : ℕ
deriving DecidableEq, Repr, Inhabited

/-- The type of an entry with the fields that only this type has. -/
inductive Body where
  | unused
  | leaf (key : CtKv) (nextLeaf : Locator)
  | bitmap (childBitmap maxChild : ℕ) (maxLeaf : Locator)
  | jump (jumpBits : List ℕ) (childColor : ℕ) (maxLeaf : Locator)
deriving DecidableEq, Repr, Inhabited

/-- A `ct_entry`. -/
structure Entry where
  parentColor : ℕ
  dirty : Bool
  secondary : Bool
  color : ℕ
  tag : ℕ
  lastSymbol : ℕ
  body : Body
deriving DecidableEq, Repr, Inhabited

/-- The contents `remove_entry_by_address` and `init_buckets` give to a free cell. -/
def unusedEntry : Entry where
  parentColor := invalidColor
  dirty := false
  secondary := false
  color := invalidColor
  tag := 0
  lastSymbol := 0
  body := .unused

namespace Body

/-- `entry_type(entry) != TYPE_UNUSED`. -/
def used : Body → Bool
  | .unused => false
  | _ => true

/-- `entry_type(entry) == TYPE_LEAF`. -/
def isLeaf : Body → Bool
  | .leaf _ _ => true
  | _ => false

/-- `entry_type(entry) == TYPE_BITMAP`. -/
def isBitmap : Body → Bool
  | .bitmap _ _ _ => true
  | _ => false

/-- `entry_type(entry) == TYPE_JUMP`. -/
def isJump : Body → Bool
  | .jump _ _ _ => true
  | _ => false

/-- `entry_kv`. -/
def kv : Body → CtKv
  | .leaf key _ => key
  | _ => default

/-- The field `next_leaf`; in the union it shares its bytes with `max_leaf`. -/
def nextLeaf : Body → Locator
  | .unused => default
  | .leaf _ next => next
  | .bitmap _ _ max => max
  | .jump _ _ max => max

/-- The field `max_leaf`. -/
def maxLeaf : Body → Locator := nextLeaf

/-- Store into `next_leaf`, which is a store into `max_leaf` for inner nodes. -/
def setNextLeaf (l : Locator) : Body → Body
  | .unused => .unused
  | .leaf key _ => .leaf key l
  | .bitmap bits maxChild _ => .bitmap bits maxChild l
  | .jump bits color _ => .jump bits color l

/-- Store into `max_leaf`. -/
def setMaxLeaf : Locator → Body → Body := setNextLeaf

/-- `entry_set_kv`. -/
def setKv (key : CtKv) : Body → Body
  | .leaf _ next => .leaf key next
  | b => b

/-- The field `child_bitmap`. -/
def childBitmap : Body → ℕ
  | .bitmap bits _ _ => bits
  | _ => 0

/-- The field `max_child`. -/
def maxChild : Body → ℕ
  | .bitmap _ maxChild _ => maxChild
  | _ => 0

/-- The five-bit groups of `jump_bits` below the jump size. -/
def jumpBits : Body → List ℕ
  | .jump bits _ _ => bits
  | _ => []

/-- `entry_child_color`. -/
def childColor : Body → ℕ
  | .jump _ color _ => color
  | _ => 0

/-- `entry_set_child_color`. -/
def setChildColor (color : ℕ) : Body → Body
  | .jump bits _ max => .jump bits color max
  | b => b

/-- `extend_jump_node`. -/
def extendJump (symbol : ℕ) : Body → Body
  | .jump bits color max => .jump (bits ++ [symbol - 1]) color max
  | b => b

end Body

namespace Entry

/-- `entry_jump_size`. -/
def jumpSize (e : Entry) : ℕ := e.body.jumpBits.length

/-- `get_jump_symbol`. -/
def jumpSymbol (e : Entry) (symbolIdx : ℕ) : ℕ := e.body.jumpBits.getD symbolIdx 0 + 1

/-- `get_bit` on the child bitmap. -/
def hasChild (e : Entry) (symbol : ℕ) : Bool := e.body.childBitmap.testBit symbol

/-- The entry as it is stored, up to the bucket of its pair that holds it. -/
def content (e : Entry) : Entry := { e with secondary := false }

end Entry

/-- `set_bit(child_bitmap, symbol, 1)` and `entry_set_child_bit`. -/
def setChildBit (bits symbol : ℕ) : ℕ := bits ||| 1 <<< symbol

@[simp] theorem testBit_setChildBit (bits symbol c : ℕ) :
    (setChildBit bits symbol).testBit c = (bits.testBit c || decide (c = symbol)) := by
  rw [setChildBit, Nat.testBit_or, Nat.one_shiftLeft, Nat.testBit_two_pow]
  simp only [eq_comm]

theorem setChildBit_ne_zero (bits symbol : ℕ) : setChildBit bits symbol ≠ 0 := by
  intro zero
  have bit : (setChildBit bits symbol).testBit symbol = true := by simp
  rw [zero, Nat.zero_testBit] at bit
  cases bit

/-- The greatest bit of a number. -/
theorem log2_eq_of_testBit {bits m : ℕ} (bit : bits.testBit m = true)
    (max : ∀ c, bits.testBit c = true → c ≤ m) : Nat.log2 bits = m := by
  have ne : bits ≠ 0 := by
    rintro rfl
    rw [Nat.zero_testBit] at bit
    cases bit
  refine (Nat.log2_eq_iff ne).mpr ⟨Nat.ge_two_pow_of_testBit bit, ?_⟩
  refine Nat.lt_pow_two_of_testBit bits fun c above => ?_
  by_contra set
  have := max c (by simpa using set)
  omega

theorem le_log2_of_testBit {bits c : ℕ} (bit : bits.testBit c = true) : c ≤ Nat.log2 bits := by
  have ne : bits ≠ 0 := by
    rintro rfl
    rw [Nat.zero_testBit] at bit
    cases bit
  exact (Nat.le_log2 ne).mpr (Nat.ge_two_pow_of_testBit bit)

/-- The greatest child after a child was added. -/
theorem log2_setChildBit {bits symbol : ℕ} (ne : bits ≠ 0) :
    Nat.log2 (setChildBit bits symbol) = max (Nat.log2 bits) symbol := by
  refine log2_eq_of_testBit ?_ fun c bit => ?_
  · rcases le_total (Nat.log2 bits) symbol with le | le
    · simp [max_eq_right le]
    · simp [max_eq_left le, Nat.testBit_log2 ne]
  · rw [testBit_setChildBit, Bool.or_eq_true, decide_eq_true_eq] at bit
    rcases bit with bit | rfl
    · exact le_max_of_le_left (le_log2_of_testBit bit)
    · exact le_max_right _ _

theorem log2_setChildBit_zero (symbol : ℕ) : Nat.log2 (setChildBit 0 symbol) = symbol :=
  log2_eq_of_testBit (by simp) fun c bit => by
    rw [testBit_setChildBit, Nat.zero_testBit, Bool.false_or, decide_eq_true_eq] at bit
    exact bit.le

/-- A set of children stays one when a symbol is added. -/
theorem setChildBit_lt {bits symbol : ℕ} (small : bits < 2 ^ 33) (h : symbol ≤ fanout) :
    setChildBit bits symbol < 2 ^ 33 := by
  refine Nat.or_lt_two_pow small ?_
  rw [Nat.one_shiftLeft]
  exact Nat.pow_lt_pow_right (by decide) (lt_of_le_of_lt h (by decide))

/-- `last_bit_before`: the greatest child below a bound. -/
def lastBitBefore (bits : ℕ) : ℕ → Option ℕ
  | 0 => none
  | e + 1 => if bits.testBit e then some e else lastBitBefore bits e

theorem lastBitBefore_eq_some {bits e c : ℕ} (h : lastBitBefore bits e = some c) :
    bits.testBit c = true ∧ c < e ∧ ∀ c' < e, bits.testBit c' = true → c' ≤ c := by
  induction e with
  | zero => cases h
  | succ e ih =>
    rw [lastBitBefore] at h
    split at h
    · next bit =>
      cases h
      exact ⟨bit, Nat.lt_succ_self _, fun c' lt _ => Nat.lt_succ_iff.mp lt⟩
    · next clear =>
      obtain ⟨bit, lt, max⟩ := ih h
      refine ⟨bit, Nat.lt_succ_of_lt lt, fun c' lt' bit' => ?_⟩
      rcases (Nat.lt_succ_iff.mp lt').lt_or_eq with less | rfl
      · exact max c' less bit'
      · exact absurd bit' clear

theorem lastBitBefore_eq_none {bits e : ℕ} (h : lastBitBefore bits e = none) :
    ∀ c < e, bits.testBit c = false := by
  induction e with
  | zero => exact fun c lt => absurd lt (Nat.not_lt_zero c)
  | succ e ih =>
    rw [lastBitBefore] at h
    split at h
    · cases h
    · next clear =>
      intro c lt
      rcases (Nat.lt_succ_iff.mp lt).lt_or_eq with less | rfl
      · exact ih h c less
      · simpa using clear

/-- `bitmap_child_before`. -/
def bitmapChildBefore (e : Entry) (symbol : ℕ) : Option ℕ := lastBitBefore e.body.childBitmap symbol

end CuckooTrie
