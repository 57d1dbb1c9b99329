import CrcPP.Remainder

/-!
# CrcPP.Table

**The lookup table is the linear table of remainders.** The entry of an index is
the register that feeding the index to a zero register leaves
(`add_zero_register`). So in a full-width class it represents
`index * X^n mod (X^n + generator)` (`toPoly_table`), the index being read as a
polynomial of degree below 8 in the class's bit order.

Linearity and distinctness are properties of that remainder: reduction is
additive, and the generator's `X^0` term keeps `X^n` invertible, so a nonzero
polynomial of degree below 8 is not reduced to zero.
-/

namespace CrcPP

open Polynomial BitPoly BitOrder

variable {T : DataType}

namespace BitOrder

/-- A byte read as a polynomial of degree below 8. -/
noncomputable def bytePoly (o : BitOrder) (b : Byte) : (ZMod 2)[X] :=
  o.toPoly (T := .uint8_t) 8 b

theorem bytePoly_xor (o : BitOrder) (a b : Byte) :
    o.bytePoly (a ^^^ b) = o.bytePoly a + o.bytePoly b :=
  o.toPoly_xor (T := .uint8_t) 8 a b

/-- A byte is sent as a value of `uint8_t` is: from the highest coefficient down. -/
theorem byteBits_eq_polyBits (o : BitOrder) (b : Byte) :
    o.byteBits b = o.polyBits (T := .uint8_t) 8 b := by
  cases o with
  | native => rfl
  | network =>
      refine List.map_congr_left fun k hk => ?_
      have hk8 : k = 8 - 1 - (8 - 1 - k) := by
        have := List.mem_range.mp hk
        omega
      exact congrArg b.getLsbD hk8

/-- The bits of a value are its polynomial. -/
theorem bitsPoly_polyBits (o : BitOrder) (n : Nat) (v : T.Val) :
    bitsPoly (o.polyBits n v) = o.toPoly n v := by
  ext i
  rw [coeff_bitsPoly, toPoly, coeff_ofBits, List.getD_eq_getElem?_getD]
  by_cases hi : i < n
  · rw [if_pos hi, List.getElem?_reverse (by rwa [length_polyBits]), length_polyBits]
    simp only [polyBits, List.getElem?_map]
    rw [List.getElem?_range (by omega), Option.map_some, Option.getD_some,
      show n - 1 - (n - 1 - i) = i by omega]
  · rw [if_neg hi, List.getElem?_eq_none (by rw [List.length_reverse, length_polyBits]; omega)]
    rfl

theorem bitsPoly_byteBits (o : BitOrder) (b : Byte) : bitsPoly (o.byteBits b) = o.bytePoly b := by
  rw [byteBits_eq_polyBits]
  exact bitsPoly_polyBits (T := .uint8_t) o 8 b

end BitOrder

namespace CRC

/-- Feeding a byte to a zero register looks up its entry. -/
theorem add_zero_register {P : PolyType T} (hP : P.Lawful) (c : CRC P) (index : Byte) :
    c.add index 0 = c.table.get index.toFin := by
  have hhibyte : P.hibyte 0 = 0 := by
    have h := hP.hibyte_xor 0 0
    rwa [BitVec.xor_self, BitVec.xor_self] at h
  have hentry : c.table.get index.toFin = tableEntry P c._generator index := c.table_get index
  rw [add_eq, hhibyte, hP.shift_zero_val, hentry,
    show (0 : Byte) ^^^ index = index from BitVec.zero_xor]
  exact BitVec.zero_xor

/-- **A table entry is a remainder.** -/
theorem toPoly_table (o : BitOrder) (c : CRC (o.polyType T T.bits)) (index : Byte) :
    o.toPoly T.bits (c.table.get index.toFin) =
      (o.bytePoly index * X ^ T.bits) %ₘ
        (X ^ T.bits + o.toPoly T.bits c._generator) := by
  have hn := o.admits_bits T
  have hstep := c.toPoly_add hn index 0
  have hmodulus : c.modulus = X ^ T.bits + o.toPoly T.bits c._generator := by
    rw [modulus_eq, regBits_bits]
  rw [c.add_zero_register (polyType_lawful hn), toPoly_zero,
    SerialDivision.run_eq c.monic_modulus (by
      rw [degree_zero]
      exact bot_lt_iff_ne_bot.mpr (degree_ne_bot.mpr c.monic_modulus.ne_zero)),
    zero_mul, zero_add, natDegree_modulus, regBits_bits, hmodulus] at hstep
  rw [hstep, ← bitsPoly_byteBits, bitsPoly]

theorem table_xor (o : BitOrder) (c : CRC (o.polyType T T.bits)) (i j : Byte) :
    c.table.get (i ^^^ j).toFin = c.table.get i.toFin ^^^ c.table.get j.toFin := by
  apply o.toPoly_injective T
  rw [toPoly_xor, toPoly_table, toPoly_table, toPoly_table, ← add_modByMonic, ← add_mul,
    ← bytePoly_xor]

theorem table_injective (o : BitOrder) (c : CRC (o.polyType T T.bits)) :
    Function.Injective fun index : Byte => c.table.get index.toFin := by
  intro i j h
  have hentry : o.toPoly T.bits (c.table.get (i ^^^ j).toFin) = 0 := by
    rw [c.table_xor o, show c.table.get i.toFin = c.table.get j.toFin from h, toPoly_xor,
      add_self]
  -- the difference of the indices is a multiple of the modulus, of a lower degree
  have hn := o.admits_bits T
  have hmodulus : X ^ T.bits + o.toPoly T.bits c._generator = c.modulus := by
    rw [modulus_eq, regBits_bits]
  rw [toPoly_table, hmodulus, modByMonic_eq_zero_iff_dvd c.monic_modulus,
    SerialDivision.dvd_mul_X_pow_iff (by
      rw [← hmodulus]
      exact isUnit_coeff_zero hn c)] at hentry
  have hdegree : (o.bytePoly (i ^^^ j)).degree < c.modulus.degree := by
    have h8 : ((8 : Nat) : WithBot Nat) ≤ (T.bits : WithBot Nat) := by
      exact_mod_cast T.eight_le_bits
    rw [degree_eq_natDegree c.monic_modulus.ne_zero, natDegree_modulus, regBits_bits]
    exact lt_of_lt_of_le (degree_toPoly_lt o 8 _) h8
  have hzero := eq_zero_of_dvd_of_degree_lt hentry hdegree
  have hindex : i ^^^ j = 0 :=
    o.toPoly_injective .uint8_t (hzero.trans (o.toPoly_zero (T := .uint8_t) 8).symm)
  exact xor_eq_zero_iff.mp hindex

/-- **The lookup table is the linear table of remainders**, with pairwise
different entries, in every full-width class. -/
theorem table_remainders (o : BitOrder) (T : DataType) (c : CRC (o.polyType T T.bits)) :
    (∀ index : Byte, o.toPoly T.bits (c.table.get index.toFin) =
      (o.bytePoly index * X ^ T.bits) %ₘ
        (X ^ T.bits + o.toPoly T.bits c._generator)) ∧
    (∀ i j : Byte, c.table.get (i ^^^ j).toFin = c.table.get i.toFin ^^^ c.table.get j.toFin) ∧
    Function.Injective fun index : Byte => c.table.get index.toFin :=
  ⟨c.toPoly_table o, c.table_xor o, c.table_injective o⟩

end CRC

end CrcPP
