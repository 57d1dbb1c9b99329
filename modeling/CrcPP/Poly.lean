import Mathlib.Tactic.Common

/-!
# CrcPP.Poly

The polynomial classes of `inc/crc.h`: `PolyN<T, bitsize>` (network order) and
`Poly<T, bitsize>` (native order).

Both C++ classes wrap one value of an unsigned integer type `T` and convert
from and to it implicitly, so a polynomial is modelled by its `value`, a
`T.Val`. What differs between the classes are the member functions, and those
are what the templates `CRC<P>` and `CRCStream<P>` are instantiated with:
`PolyType T` is that set of members, and `PolyN T n` and `Poly T n` are its two
inhabitants, each written member by member as the source has it.

The classes are only well defined for some `bitsize`: `Poly` reads
`value >> (bitsize - 8)`, so it needs `8 ≤ bitsize`, and both need
`bitsize ≤ sizeof(T) * 8` (`BitOrder.Admits`).
-/

namespace CrcPP

/-- `uint8_t`. -/
abbrev Byte := BitVec 8

/-- The unsigned integer types the templates are instantiated with. -/
inductive DataType
  | uint8_t
  | uint16_t
  | uint32_t
  | uint64_t
  deriving Repr, DecidableEq

namespace DataType

/-- The width of the type in bits. -/
def bits : DataType → Nat
  | uint8_t => 8
  | uint16_t => 16
  | uint32_t => 32
  | uint64_t => 64

/-- `sizeof(T)`. -/
def sizeof : DataType → Nat
  | uint8_t => 1
  | uint16_t => 2
  | uint32_t => 4
  | uint64_t => 8

/-- A value of the type. -/
abbrev Val (T : DataType) := BitVec T.bits

theorem bits_eq (T : DataType) : T.bits = 8 * T.sizeof := by
  cases T <;> rfl

theorem eight_le_bits (T : DataType) : 8 ≤ T.bits := by
  cases T <;> decide

end DataType

variable {T : DataType}

/-- The conversion of a condition to `uint8_t`. -/
def uint8OfBool (b : Bool) : Byte := if b then 1 else 0

@[simp] theorem uint8OfBool_false : uint8OfBool false = 0 := rfl
@[simp] theorem uint8OfBool_true : uint8OfBool true = 1 := rfl

theorem uint8OfBool_xor (a b : Bool) :
    uint8OfBool (a ^^ b) = uint8OfBool a ^^^ uint8OfBool b := by
  cases a <;> cases b <;> rfl

@[simp] theorem uint8OfBool_ne_zero {b : Bool} : uint8OfBool b ≠ 0 ↔ b = true := by
  cases b <;> decide

@[simp] theorem uint8OfBool_eq_zero {b : Bool} : uint8OfBool b = 0 ↔ b = false := by
  cases b <;> decide

/-- The members of a polynomial class that the templates use of their
parameter `P`. `sethibyte` assigns the whole value, so it is modelled by the
value it leaves. -/
structure PolyType (T : DataType) where
  /-- `P::numbits`. -/
  numbits : Nat
  /-- The coefficient of the highest power, as 0 or 1. -/
  hibit : T.Val → Byte
  /-- The coefficients of the eight highest powers. -/
  hibyte : T.Val → Byte
  /-- The coefficient of `X^0`, as 0 or 1. -/
  lobit : T.Val → Byte
  /-- The polynomial with the given eight highest coefficients. -/
  sethibyte : Byte → T.Val
  /-- Multiplication by `X^n`, dropping what leaves at the top. -/
  shift : T.Val → Nat → T.Val

/-- A polynomial in network order: `PolyN<T, bitsize>`. -/
def PolyN (T : DataType) (bitsize : Nat) : PolyType T where
  numbits := bitsize
  hibit value := uint8OfBool (value &&& 1 != 0)
  hibyte value := (value &&& 0xFF).setWidth 8
  lobit value := uint8OfBool (value &&& ((1 : T.Val) <<< (bitsize - 1)) != 0)
  sethibyte data := data.setWidth T.bits
  shift value n := value >>> n

/-- A polynomial in "natural" order: `Poly<T, bitsize>`. -/
def Poly (T : DataType) (bitsize : Nat) : PolyType T where
  numbits := bitsize
  hibit value := uint8OfBool (value &&& ((1 : T.Val) <<< (bitsize - 1)) != 0)
  hibyte value := (value >>> (bitsize - 8)).setWidth 8
  lobit value := uint8OfBool (value &&& 1 != 0)
  sethibyte data := data.setWidth T.bits <<< (bitsize - 8)
  shift value n := value <<< n

/-- The two bit orders: which of the classes is meant. -/
inductive BitOrder
  | native
  | network
  deriving Repr, DecidableEq

namespace BitOrder

/-- The polynomial class of a bit order. -/
def polyType (o : BitOrder) (T : DataType) (bitsize : Nat) : PolyType T :=
  match o with
  | native => Poly T bitsize
  | network => PolyN T bitsize

/-- The widths at which the class is well defined. -/
def Admits (o : BitOrder) (T : DataType) (bitsize : Nat) : Prop :=
  match o with
  | native => 8 ≤ bitsize ∧ bitsize ≤ T.bits
  | network => 1 ≤ bitsize ∧ bitsize ≤ T.bits

instance (o : BitOrder) (T : DataType) (bitsize : Nat) : Decidable (o.Admits T bitsize) :=
  match o with
  | native => inferInstanceAs (Decidable (8 ≤ bitsize ∧ bitsize ≤ T.bits))
  | network => inferInstanceAs (Decidable (1 ≤ bitsize ∧ bitsize ≤ T.bits))

/-- The full-width classes `Poly<T>` and `PolyN<T>` are well defined. -/
theorem admits_bits (o : BitOrder) (T : DataType) : o.Admits T T.bits := by
  have := T.eight_le_bits
  cases o
  · exact ⟨this, Nat.le_refl _⟩
  · exact ⟨by omega, Nat.le_refl _⟩

theorem Admits.le_bits {o : BitOrder} {n : Nat} (h : o.Admits T n) : n ≤ T.bits := by
  cases o <;> exact h.2

theorem Admits.pos {o : BitOrder} {n : Nat} (h : o.Admits T n) : 1 ≤ n := by
  cases o
  · exact Nat.le_trans (by decide) h.1
  · exact h.1

end BitOrder

@[simp] theorem polyType_numbits (o : BitOrder) (n : Nat) :
    (o.polyType T n).numbits = n := by
  cases o <;> rfl

/-! ### The members, bit by bit -/

@[simp] theorem getLsbD_zero_val {w : Nat} (i : Nat) : (0 : BitVec w).getLsbD i = false :=
  BitVec.getLsbD_zero

/-- Testing a value against a one-bit mask reads that bit. -/
theorem and_one_shiftLeft_ne_zero {w : Nat} (v : BitVec w) {k : Nat} (hk : k < w) :
    (v &&& ((1 : BitVec w) <<< k) != 0) = v.getLsbD k := by
  have h : v &&& ((1 : BitVec w) <<< k) = if v.getLsbD k then BitVec.twoPow w k else 0#w := by
    rw [← BitVec.and_twoPow, BitVec.twoPow]
    rfl
  rw [h]
  cases v.getLsbD k
  · simp
  · rw [if_pos rfl, bne_iff_ne]
    intro hz
    have := congrArg (·.getLsbD k) hz
    simp [hk] at this

theorem and_one_ne_zero {w : Nat} (v : BitVec w) (hw : 0 < w) :
    (v &&& 1 != 0) = v.getLsbD 0 := by
  simpa using and_one_shiftLeft_ne_zero v hw

/-- The mask `0xFF` has its eight low bits set. -/
theorem getLsbD_0xFF {w : Nat} (hw : 8 ≤ w) (i : Nat) :
    (0xFF : BitVec w).getLsbD i = decide (i < 8) := by
  have h : (0xFF : BitVec w) = BitVec.ofNat w (2 ^ 8 - 1) := rfl
  rw [h, BitVec.getLsbD_ofNat, Nat.testBit_two_pow_sub_one]
  by_cases hi : i < 8
  · simp [hi, show i < w by omega]
  · simp [hi]

@[simp] theorem PolyN_hibit (n : Nat) (v : T.Val) :
    (PolyN T n).hibit v = uint8OfBool (v.getLsbD 0) := by
  have := T.eight_le_bits
  rw [← and_one_ne_zero v (by omega)]
  rfl

theorem PolyN_lobit {n : Nat} (hn : BitOrder.network.Admits T n) (v : T.Val) :
    (PolyN T n).lobit v = uint8OfBool (v.getLsbD (n - 1)) := by
  have := hn.1
  have := hn.2
  rw [← and_one_shiftLeft_ne_zero v (by omega : n - 1 < T.bits)]
  rfl

@[simp] theorem getLsbD_PolyN_hibyte (n : Nat) (v : T.Val) (i : Nat) :
    ((PolyN T n).hibyte v).getLsbD i = (decide (i < 8) && v.getLsbD i) := by
  simp only [PolyN, BitVec.getLsbD_setWidth, BitVec.getLsbD_and, getLsbD_0xFF T.eight_le_bits]
  cases decide (i < 8) <;> simp

@[simp] theorem getLsbD_PolyN_sethibyte (n : Nat) (d : Byte) (i : Nat) :
    ((PolyN T n).sethibyte d).getLsbD i = d.getLsbD i := by
  have := T.eight_le_bits
  simp only [PolyN, BitVec.getLsbD_setWidth]
  by_cases hi : i < 8
  · simp [show i < T.bits by omega]
  · rw [BitVec.getLsbD_of_ge d i (by omega), Bool.and_false]

@[simp] theorem getLsbD_PolyN_shift (n : Nat) (v : T.Val) (k i : Nat) :
    ((PolyN T n).shift v k).getLsbD i = v.getLsbD (k + i) := by
  simp only [PolyN, BitVec.getLsbD_ushiftRight]

theorem Poly_hibit {n : Nat} (hn : BitOrder.native.Admits T n) (v : T.Val) :
    (Poly T n).hibit v = uint8OfBool (v.getLsbD (n - 1)) := by
  have := hn.1
  have := hn.2
  rw [← and_one_shiftLeft_ne_zero v (by omega : n - 1 < T.bits)]
  rfl

@[simp] theorem Poly_lobit (n : Nat) (v : T.Val) :
    (Poly T n).lobit v = uint8OfBool (v.getLsbD 0) := by
  have := T.eight_le_bits
  rw [← and_one_ne_zero v (by omega)]
  rfl

@[simp] theorem getLsbD_Poly_hibyte (n : Nat) (v : T.Val) (i : Nat) :
    ((Poly T n).hibyte v).getLsbD i = (decide (i < 8) && v.getLsbD (n - 8 + i)) := by
  simp only [Poly, BitVec.getLsbD_setWidth, BitVec.getLsbD_ushiftRight]

@[simp] theorem getLsbD_Poly_sethibyte (n : Nat) (d : Byte) (i : Nat) :
    ((Poly T n).sethibyte d).getLsbD i =
      (decide (i < T.bits) && !decide (i < n - 8) && d.getLsbD (i - (n - 8))) := by
  have := T.eight_le_bits
  simp only [Poly, BitVec.getLsbD_shiftLeft, BitVec.getLsbD_setWidth]
  by_cases hi : i < T.bits
  · simp [show i - (n - 8) < T.bits by omega]
  · simp [hi]

@[simp] theorem getLsbD_Poly_shift (n : Nat) (v : T.Val) (k i : Nat) :
    ((Poly T n).shift v k).getLsbD i =
      (decide (i < T.bits) && !decide (i < k) && v.getLsbD (i - k)) := by
  simp only [Poly, BitVec.getLsbD_shiftLeft]

/-! The same by position: what a shift clears, and what it moves where. -/

theorem getLsbD_Poly_shift_of_lt (n : Nat) (v : T.Val) {k i : Nat} (h : i < k) :
    ((Poly T n).shift v k).getLsbD i = false := by
  rw [getLsbD_Poly_shift, decide_eq_true h, Bool.not_true, Bool.and_false, Bool.false_and]

theorem getLsbD_Poly_shift_add (n : Nat) (v : T.Val) {k i : Nat} (h : k + i < T.bits) :
    ((Poly T n).shift v k).getLsbD (k + i) = v.getLsbD i := by
  rw [getLsbD_Poly_shift, decide_eq_true h, decide_eq_false (Nat.not_lt.mpr (Nat.le_add_right k i)),
    Nat.add_sub_cancel_left]
  rfl

theorem getLsbD_Poly_sethibyte_of_lt {n : Nat} (d : Byte) {i : Nat} (h : i < n - 8) :
    ((Poly T n).sethibyte d).getLsbD i = false := by
  rw [getLsbD_Poly_sethibyte, decide_eq_true h, Bool.not_true, Bool.and_false, Bool.false_and]

theorem getLsbD_Poly_sethibyte_add {n : Nat} (d : Byte) {i : Nat} (h : n - 8 + i < T.bits) :
    ((Poly T n).sethibyte d).getLsbD (n - 8 + i) = d.getLsbD i := by
  rw [getLsbD_Poly_sethibyte, decide_eq_true h,
    decide_eq_false (Nat.not_lt.mpr (Nat.le_add_right (n - 8) i)), Nat.add_sub_cancel_left]
  rfl

/-- What a byte leaves when it is shifted out stands above the coefficients. -/
theorem getLsbD_Poly_shift_sethibyte_of_lt {n : Nat} (d : Byte) {i : Nat} (h : i < n) :
    ((Poly T n).shift ((Poly T n).sethibyte d) 8).getLsbD i = false := by
  rcases Nat.lt_or_ge i 8 with h8 | h8
  · exact getLsbD_Poly_shift_of_lt n _ h8
  · rw [getLsbD_Poly_shift, getLsbD_Poly_sethibyte_of_lt d (Nat.sub_lt_sub_right h8 h),
      Bool.and_false]

theorem getLsbD_Poly_hibyte_of_lt (n : Nat) (v : T.Val) {i : Nat} (h : i < 8) :
    ((Poly T n).hibyte v).getLsbD i = v.getLsbD (n - 8 + i) := by
  rw [getLsbD_Poly_hibyte, decide_eq_true h, Bool.true_and]

theorem getLsbD_PolyN_hibyte_of_lt (n : Nat) (v : T.Val) {i : Nat} (h : i < 8) :
    ((PolyN T n).hibyte v).getLsbD i = v.getLsbD i := by
  rw [getLsbD_PolyN_hibyte, decide_eq_true h, Bool.true_and]

end CrcPP
