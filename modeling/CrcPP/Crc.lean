import CrcPP.Poly
import Mathlib.Logic.Function.Iterate
import Mathlib.Tactic.IntervalCases

/-!
# CrcPP.Crc

The class template `CRC<P>` of `inc/crc.h`: the constructor with its table
generation, and the three ways to feed data into a register.

A `CRC P` carries what its constructor established as fields: the generator
passed the `lobit` test, and the table is the generated one. The source passes
the working register by reference; here each function returns the new register.
-/

namespace CrcPP

variable {T : DataType}

/-- The `std::logic_error` the constructor throws. -/
structure LogicError where
  what : String
  deriving Repr, DecidableEq

/-- One pass of the constructor's inner loop. -/
def tableStep (P : PolyType T) (generator crc : T.Val) : T.Val :=
  if P.hibit crc ≠ 0 then P.shift crc 1 ^^^ generator else P.shift crc 1

/-- The table entry of an index: the inner loop runs eight times. -/
def tableEntry (P : PolyType T) (generator : T.Val) (index : Byte) : T.Val :=
  (tableStep P generator)^[8] (P.sethibyte index)

/-- The constructor's outer loop. -/
def genTable (P : PolyType T) (generator : T.Val) : Vector T.Val 256 :=
  Vector.ofFn fun index => tableEntry P generator (BitVec.ofNat 8 index)

/-- An object of class `CRC<P>`. -/
structure CRC (P : PolyType T) where
  _generator : T.Val
  _table : Vector T.Val 256
  /-- The generator passed the constructor's test. -/
  lobit_generator : P.lobit _generator ≠ 0
  /-- The table was generated from it. -/
  table_eq : _table = genTable P _generator

namespace CRC

variable {P : PolyType T}

/-- The object the constructor builds from a generator that passes the test. -/
def ofGenerator (P : PolyType T) (generator : T.Val) (h : P.lobit generator ≠ 0) : CRC P where
  _generator := generator
  _table := genTable P generator
  lobit_generator := h
  table_eq := rfl

/-- The constructor. -/
def new (P : PolyType T) (generator : T.Val) : Except LogicError (CRC P) :=
  if h : P.lobit generator = 0 then
    .error ⟨"Coefficient X^0 of the generator polynomial must be 1"⟩
  else
    .ok (ofGenerator P generator h)

/-- Add a single byte to the calculation: `add(uint8_t, P&)`. -/
def add (c : CRC P) (data : Byte) (reg : T.Val) : T.Val :=
  P.shift reg 8 ^^^ c._table[(P.hibyte reg ^^^ data).toNat]

/-- Add bytes to the calculation: `add(uint8_t const*, unsigned int, P&)`. The
list is the `len` bytes `data` points to. -/
def addBytes (c : CRC P) : List Byte → T.Val → T.Val
  | [], reg => reg
  | data :: rest, reg => c.addBytes rest (c.add data reg)

/-- Add a single bit: `addbit(uint8_t, P&)`. -/
def addbit (c : CRC P) (bit : Byte) (reg : T.Val) : T.Val :=
  if bit ^^^ P.hibit reg ≠ 0 then P.shift reg 1 ^^^ c._generator else P.shift reg 1

/-- The loop `for (; i > 0; --i)` of `add(P const&, P&)`. -/
def addPolyBits (c : CRC P) : Nat → T.Val → T.Val → T.Val
  | 0, _, reg => reg
  | i + 1, work, reg => c.addPolyBits i (P.shift work 1) (c.addbit (P.hibit work) reg)

/-- The loop `for (; i > 7; i -= 8)` of `add(P const&, P&)`, and then the loop
over the bits that are left. -/
def addPolyBytes (c : CRC P) : Nat → T.Val → T.Val → T.Val
  | i + 8, work, reg => c.addPolyBytes i (P.shift work 8) (c.add (P.hibyte work) reg)
  | i, work, reg => c.addPolyBits i work reg

/-- Add `numbits` bits to the calculation: `add(P const&, P&)`. -/
def addPoly (c : CRC P) (data reg : T.Val) : T.Val :=
  c.addPolyBytes P.numbits data reg

/-- `generator()`. -/
def generator (c : CRC P) : T.Val := c._generator

/-- `table()`. -/
def table (c : CRC P) : Vector T.Val 256 := c._table

/-! ### The constructor -/

@[simp] theorem generator_ofGenerator {generator : T.Val} (h : P.lobit generator ≠ 0) :
    (ofGenerator P generator h)._generator = generator := rfl

/-- A generator is accepted exactly when its `X^0` coefficient is set. -/
theorem new_isOk_iff (P : PolyType T) (generator : T.Val) :
    (new P generator).isOk = true ↔ P.lobit generator ≠ 0 := by
  unfold new
  split
  · next h => exact iff_of_false Bool.false_ne_true (not_not_intro h)
  · next h => exact iff_of_true rfl h

/-- An object is determined by its generator. -/
theorem ext_generator {c d : CRC P} (h : c._generator = d._generator) : c = d := by
  obtain ⟨g, t, hg, ht⟩ := c
  obtain ⟨g', t', hg', ht'⟩ := d
  subst ht ht'
  obtain rfl : g = g' := h
  rfl

/-- Every object is what the constructor returns for its generator. -/
theorem new_generator (c : CRC P) : new P c._generator = .ok c := by
  have h : ofGenerator P c._generator c.lobit_generator = c := by
    apply ext_generator
    rw [generator_ofGenerator]
  rw [new, dif_neg c.lobit_generator, h]

/-- The constructor keeps the generator it is given. -/
theorem generator_of_new {generator : T.Val} {c : CRC P} (h : new P generator = .ok c) :
    c._generator = generator := by
  unfold new at h
  split at h
  · exact absurd h (by simp)
  · obtain rfl := Except.ok.inj h
    rfl

/-- Looking up an index finds the entry generated for it. -/
theorem table_get (c : CRC P) (index : Byte) :
    c._table[index.toNat] = tableEntry P c._generator index := by
  simp only [c.table_eq, genTable, Vector.getElem_ofFn, BitVec.ofNat_toNat, BitVec.setWidth_eq]

/-- The byte update in terms of the table's entries. -/
theorem add_eq (c : CRC P) (data : Byte) (reg : T.Val) :
    c.add data reg =
      P.shift reg 8 ^^^ tableEntry P c._generator (P.hibyte reg ^^^ data) := by
  rw [add, table_get]

theorem addPolyBytes_add_eight (c : CRC P) (i : Nat) (work reg : T.Val) :
    c.addPolyBytes (i + 8) work reg =
      c.addPolyBytes i (P.shift work 8) (c.add (P.hibyte work) reg) := rfl

theorem addPolyBytes_of_lt (c : CRC P) {i : Nat} (hi : i < 8) (work reg : T.Val) :
    c.addPolyBytes i work reg = c.addPolyBits i work reg := by
  interval_cases i <;> rfl

@[simp] theorem addBytes_nil (c : CRC P) (reg : T.Val) : c.addBytes [] reg = reg := rfl

@[simp] theorem addBytes_cons (c : CRC P) (b : Byte) (bs : List Byte) (reg : T.Val) :
    c.addBytes (b :: bs) reg = c.addBytes bs (c.add b reg) := rfl

/-- A range loop over a collection is the loop over its bytes. -/
theorem foldl_add (c : CRC P) (bs : List Byte) (reg : T.Val) :
    bs.foldl (fun reg byte => c.add byte reg) reg = c.addBytes bs reg := by
  induction bs generalizing reg with
  | nil => rfl
  | cons b bs ih => exact ih (c.add b reg)

theorem addBytes_append (c : CRC P) (as bs : List Byte) (reg : T.Val) :
    c.addBytes (as ++ bs) reg = c.addBytes bs (c.addBytes as reg) := by
  induction as generalizing reg with
  | nil => rfl
  | cons a as ih => exact ih (c.add a reg)

theorem addBytes_replicate_zero (c : CRC P) (k : Nat) (reg : T.Val) :
    c.addBytes (List.replicate k 0) reg = (c.add 0)^[k] reg := by
  induction k generalizing reg with
  | zero => rfl
  | succ k ih => exact ih (c.add 0 reg)

end CRC

/-! ### Generators in use -/

/-- CCITT-16 in native order: `CRC<Poly16> objMyCrc (0x1021)`. -/
def ccitt : CRC (Poly .uint16_t 16) := CRC.ofGenerator _ 0x1021 (by decide)

/-- CCITT-16 in network order: `CRC<Poly16N> objCRC_CCITT (0x8408)`. -/
def ccittN : CRC (PolyN .uint16_t 16) := CRC.ofGenerator _ 0x8408 (by decide)

/-- The generator of CAN: `CRC<Poly15> const canCrc(0x4599)`. -/
def canCrc : CRC (Poly .uint16_t 15) := CRC.ofGenerator _ 0x4599 (by decide)

end CrcPP
