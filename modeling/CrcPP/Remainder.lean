import CrcPP.Gf2.BitPoly
import CrcPP.Check

/-!
# CrcPP.Remainder

**The register is a polynomial remainder.** The abstract model of a CRC is
`SerialDivision`: a polynomial over GF(2) that takes the message bits one by one
and stays reduced modulo `X^n + generator`. This module shows that the code's
register refines it, for every call a stream accepts (`toPoly_run_crc`), and
reads off what `crc()` computes (`toPoly_crc_insertions`).

How many bits of a register take part is where the two orders differ. In native
order they are the `n` low ones: what is shifted above them never comes back. In
network order every bit of `T` takes part, whatever `bitsize` says, since the
members other than `lobit` do not look at it and a bit above the coefficients is
shifted down into them. `regBits` is that number, and all of this module but the
last part is about registers read with it; at full width it is `n` again.
-/

namespace CrcPP

open Polynomial BitPoly

variable {T : DataType}

namespace BitOrder

/-- The polynomial a value represents, read with `n` coefficients. -/
noncomputable def toPoly (o : BitOrder) (n : Nat) (v : T.Val) : (ZMod 2)[X] :=
  ofBits n (o.coeff n v)

/-- The polynomial of a bit sequence, the bit sent first being the highest
coefficient. -/
noncomputable def bitsPoly (bits : List Bool) : (ZMod 2)[X] :=
  SerialDivision.message (bits.map bit)

/-- How many coefficients of a register take part in a calculation. -/
def regBits (o : BitOrder) (T : DataType) (n : Nat) : Nat :=
  match o with
  | native => n
  | network => T.bits

@[simp] theorem regBits_bits (o : BitOrder) (T : DataType) : o.regBits T T.bits = T.bits := by
  cases o <;> rfl

theorem Admits.regBits_pos {o : BitOrder} {n : Nat} (hn : o.Admits T n) :
    0 < o.regBits T n := by
  have := T.eight_le_bits
  cases o with
  | native => exact hn.pos
  | network => exact Nat.lt_of_lt_of_le (by decide) this

@[simp] theorem toPoly_xor (o : BitOrder) (n : Nat) (v w : T.Val) :
    o.toPoly n (v ^^^ w) = o.toPoly n v + o.toPoly n w := by
  rw [toPoly, toPoly, toPoly, ← ofBits_xor]
  exact ofBits_congr fun i _ => o.coeff_xor n v w i

theorem toPoly_eq_zero {o : BitOrder} {n : Nat} {v : T.Val}
    (h : ∀ k < n, o.coeff n v k = false) : o.toPoly n v = 0 := by
  ext i
  rw [toPoly, coeff_ofBits, coeff_zero]
  split
  · rw [h i ‹_›]; rfl
  · rfl

@[simp] theorem toPoly_zero (o : BitOrder) (n : Nat) : o.toPoly n (0 : T.Val) = 0 := by
  refine toPoly_eq_zero fun k _ => ?_
  cases o <;> exact getLsbD_zero_val _

theorem degree_toPoly_lt (o : BitOrder) (n : Nat) (v : T.Val) : (o.toPoly n v).degree < n :=
  degree_ofBits_lt n _

/-- At full width a value is its polynomial. -/
theorem toPoly_injective (o : BitOrder) (T : DataType) :
    Function.Injective (o.toPoly T.bits (T := T)) := by
  intro v w h
  refine o.eq_of_coeff fun k hk => ?_
  have hcoeff := congrArg (fun p => p.coeff k) h
  simp only [toPoly, coeff_ofBits, if_pos hk] at hcoeff
  exact bit_injective hcoeff

theorem bitsPoly_concat (bits : List Bool) (b : Bool) :
    bitsPoly (bits ++ [b]) = X * bitsPoly bits + C (bit b) := by
  rw [bitsPoly, List.map_append]
  exact SerialDivision.message_concat _ _

/-- The coefficient of `X^i` is the bit that is followed by `i` others. -/
theorem coeff_bitsPoly (bits : List Bool) (i : Nat) :
    (bitsPoly bits).coeff i = bit (bits.reverse.getD i false) := by
  rw [bitsPoly, SerialDivision.coeff_message, ← List.map_reverse, List.getD_eq_getElem?_getD,
    List.getD_eq_getElem?_getD, List.getElem?_map]
  cases bits.reverse[i]? <;> rfl

theorem bitsPoly_replicate_false (k : Nat) : bitsPoly (List.replicate k false) = 0 := by
  induction k with
  | zero => rfl
  | succ k ih => rw [List.replicate_succ', bitsPoly_concat, ih, mul_zero, bit_false, C_0, add_zero]

end BitOrder

open BitOrder

namespace CRC

variable {o : BitOrder} {n : Nat}

/-- The modulus a register is reduced by: `X^n + generator`, read with the
coefficients that take part. -/
noncomputable def modulus (c : CRC (o.polyType T n)) : (ZMod 2)[X] :=
  BitPoly.modulus (o.regBits T n) (o.coeff (o.regBits T n) c._generator)

theorem modulus_eq (c : CRC (o.polyType T n)) :
    c.modulus = X ^ o.regBits T n + o.toPoly (o.regBits T n) c._generator := rfl

theorem monic_modulus (c : CRC (o.polyType T n)) : c.modulus.Monic := BitPoly.monic_modulus _ _

theorem natDegree_modulus (c : CRC (o.polyType T n)) :
    c.modulus.natDegree = o.regBits T n := BitPoly.natDegree_modulus _ _

theorem degree_toPoly_lt_modulus (c : CRC (o.polyType T n)) (v : T.Val) :
    (o.toPoly (o.regBits T n) v).degree < c.modulus.degree :=
  degree_ofBits_lt_modulus _ _ _

/-- What the constructor's test is for: the generator has its `X^0` term. -/
theorem coeff_zero_generator (hn : o.Admits T n) (c : CRC (o.polyType T n)) :
    (o.toPoly n c._generator).coeff 0 = 1 := by
  have hlobit := c.lobit_generator
  rw [lobit_eq hn, uint8OfBool_ne_zero] at hlobit
  rw [toPoly, coeff_ofBits, if_pos (Nat.lt_of_succ_le hn.pos), hlobit, bit_true]

theorem isUnit_coeff_zero (hn : o.Admits T n) (c : CRC (o.polyType T n)) :
    IsUnit ((X ^ n + o.toPoly n c._generator).coeff 0) := by
  rw [coeff_add, coeff_X_pow, if_neg (Nat.ne_of_lt hn.pos), coeff_zero_generator hn, zero_add]
  exact isUnit_one

/-! ### The refinement -/

/-- The feedback bit is the highest coefficient. -/
theorem hibit_eq (hn : o.Admits T n) (v : T.Val) :
    (o.polyType T n).hibit v =
      uint8OfBool (o.coeff (o.regBits T n) v (o.regBits T n - 1)) := by
  cases o with
  | native => exact Poly_hibit hn v
  | network =>
      simp only [polyType, PolyN_hibit, regBits, BitOrder.coeff, Nat.sub_self]

/-- `shift(1)` moves every coefficient up by one. -/
theorem coeff_shift_one (v : T.Val) (hn : o.Admits T n) {k : Nat} (hk : k < o.regBits T n) :
    o.coeff (o.regBits T n) ((o.polyType T n).shift v 1) k =
      shiftUp (o.coeff (o.regBits T n) v) k := by
  cases o with
  | native =>
      have := hn.2
      have hkn : k < n := hk
      simp only [polyType, BitOrder.coeff, shiftUp]
      cases k with
      | zero => exact getLsbD_Poly_shift_of_lt n v Nat.one_pos
      | succ k =>
          rw [if_neg (Nat.succ_ne_zero k), Nat.add_sub_cancel, Nat.add_comm,
            getLsbD_Poly_shift_add n v (by omega)]
  | network =>
      have hkT : k < T.bits := hk
      simp only [polyType, BitOrder.coeff, getLsbD_PolyN_shift, shiftUp, regBits]
      cases k with
      | zero =>
          rw [if_pos rfl]
          exact BitVec.getLsbD_of_ge v _ (by omega)
      | succ k =>
          rw [if_neg (Nat.succ_ne_zero k), Nat.add_sub_cancel,
            show 1 + (T.bits - 1 - (k + 1)) = T.bits - 1 - k by omega]

/-- **A bit step divides.** -/
theorem toPoly_addbit (hn : o.Admits T n) (c : CRC (o.polyType T n)) (b : Bool) (reg : T.Val) :
    o.toPoly (o.regBits T n) (c.addbit (uint8OfBool b) reg) =
      SerialDivision.step c.modulus (o.toPoly (o.regBits T n) reg) (bit b) := by
  rw [toPoly, toPoly, modulus, ← ofBits_feedback hn.regBits_pos]
  refine ofBits_congr fun k hk => ?_
  have hshift := coeff_shift_one reg hn hk
  rw [addbit, hibit_eq hn, ← uint8OfBool_xor, BitPoly.feedback]
  cases b ^^ o.coeff (o.regBits T n) reg (o.regBits T n - 1)
  · rw [if_neg (by decide), hshift, Bool.false_and, Bool.xor_false]
  · rw [if_pos (by decide), coeff_xor, hshift, Bool.true_and]

theorem toPoly_addBits (hn : o.Admits T n) (c : CRC (o.polyType T n)) (bits : List Bool)
    (reg : T.Val) :
    o.toPoly (o.regBits T n) (c.addBits bits reg) =
      SerialDivision.run c.modulus (o.toPoly (o.regBits T n) reg) (bits.map bit) := by
  induction bits generalizing reg with
  | nil => rfl
  | cons b bits ih =>
      rw [addBits_cons, ih, c.toPoly_addbit hn]
      rfl

/-- What a byte leaves above the coefficients does not take part. -/
theorem toPoly_shift_sethibyte (hn : o.Admits T n) (d : Byte) :
    o.toPoly (o.regBits T n) ((o.polyType T n).shift ((o.polyType T n).sethibyte d) 8) = 0 := by
  cases o with
  | native =>
      refine toPoly_eq_zero fun k hk => ?_
      exact getLsbD_Poly_shift_sethibyte_of_lt d hk
  | network =>
      rw [show (network.polyType T n).shift ((network.polyType T n).sethibyte d) 8 = 0 from
        PolyN_byteExact T n d]
      exact network.toPoly_zero _

/-- A byte step divides by the byte's eight bits. -/
theorem toPoly_add (hn : o.Admits T n) (c : CRC (o.polyType T n)) (b : Byte) (reg : T.Val) :
    o.toPoly (o.regBits T n) (c.add b reg) =
      SerialDivision.run c.modulus (o.toPoly (o.regBits T n) reg) ((o.byteBits b).map bit) := by
  rw [c.add_eq_addBits_xor hn, toPoly_xor, toPoly_shift_sethibyte hn, add_zero,
    c.toPoly_addBits hn]

theorem toPoly_addBytes (hn : o.Admits T n) (c : CRC (o.polyType T n)) (bs : List Byte)
    (reg : T.Val) :
    o.toPoly (o.regBits T n) (c.addBytes bs reg) =
      SerialDivision.run c.modulus (o.toPoly (o.regBits T n) reg)
        ((o.bytesBits bs).map bit) := by
  induction bs generalizing reg with
  | nil => rfl
  | cons b bs ih =>
      rw [addBytes_cons, ih, c.toPoly_add hn, bytesBits_cons, List.map_append,
        SerialDivision.run_append]

/-- The word loop, at any point of its count. -/
theorem toPoly_addPolyBytes (hn : o.Admits T n) (c : CRC (o.polyType T n)) (i : Nat)
    (work reg : T.Val) :
    o.toPoly (o.regBits T n) (c.addPolyBytes i work reg) =
      SerialDivision.run c.modulus (o.toPoly (o.regBits T n) reg)
        ((outBits (o.polyType T n) i work).map bit) := by
  have hP := polyType_lawful hn
  induction i using Nat.strong_induction_on generalizing work reg with
  | _ i ih =>
      rcases Nat.lt_or_ge i 8 with h8 | h8
      · rw [c.addPolyBytes_of_lt h8, c.addPolyBits_eq hP, c.toPoly_addBits hn]
      · obtain ⟨i, rfl⟩ := Nat.exists_eq_add_of_le' h8
        rw [addPolyBytes_add_eight, ih i (by omega), c.toPoly_add hn, Nat.add_comm i 8,
          outBits_add hP, outBits_hibyte hn, List.map_append, SerialDivision.run_append]

theorem toPoly_addPoly (hn : o.Admits T n) (c : CRC (o.polyType T n)) (p reg : T.Val) :
    o.toPoly (o.regBits T n) (c.addPoly p reg) =
      SerialDivision.run c.modulus (o.toPoly (o.regBits T n) reg)
        ((o.polyBits n p).map bit) := by
  rw [addPoly, c.toPoly_addPolyBytes hn, polyType_numbits, outBits_numbits hn]

end CRC

namespace CRCStream

variable {o : BitOrder} {n : Nat}

theorem toPoly_feed_crc (hn : o.Admits T n) (s : CRCStream (o.polyType T n)) (f : Feed T) :
    o.toPoly (o.regBits T n) (s.feed f)._crc =
      SerialDivision.run s._algorithm.modulus (o.toPoly (o.regBits T n) s._crc)
        ((f.bits o n).map bit) := by
  cases f with
  | insert i =>
      rw [feed, insert_eq]
      exact s._algorithm.toPoly_addBytes hn i.data s._crc
  | poly p => exact s._algorithm.toPoly_addPoly hn p s._crc
  | bit b => exact s._algorithm.toPoly_addbit hn b s._crc

/-- **Refinement.** In any run that starts from the preset register, the register
represents the remainder that serial division makes of the bits fed since the
last preset. -/
theorem toPoly_run_crc (hn : o.Admits T n) (s : CRCStream (o.polyType T n))
    (hs : s._crc = s._preset) (ops : List (StreamOp T)) :
    o.toPoly (o.regBits T n) (s.run ops)._crc =
      SerialDivision.run s._algorithm.modulus (o.toPoly (o.regBits T n) s._preset)
        ((StreamOp.pending o n ops).map bit) := by
  induction ops using List.reverseRecOn with
  | nil => rw [run_nil, hs]; rfl
  | append_singleton ops op ih =>
      have hsetup := sameSetup_run s ops
      rw [run_concat, StreamOp.pending_concat]
      cases op with
      | feed f =>
          rw [exec, toPoly_feed_crc hn, hsetup.algorithm, ih, StreamOp.pendingStep,
            List.map_append, SerialDivision.run_append]
      | reset =>
          rw [exec, reset, hsetup.preset]
          rfl

/-- The same, as one reduction. -/
theorem toPoly_run_crc_eq (hn : o.Admits T n) (s : CRCStream (o.polyType T n))
    (hs : s._crc = s._preset) (ops : List (StreamOp T)) :
    o.toPoly (o.regBits T n) (s.run ops)._crc =
      (o.toPoly (o.regBits T n) s._preset * X ^ (StreamOp.pending o n ops).length +
        bitsPoly (StreamOp.pending o n ops) * X ^ o.regBits T n) %ₘ s._algorithm.modulus := by
  rw [toPoly_run_crc hn s hs,
    SerialDivision.run_eq s._algorithm.monic_modulus (s._algorithm.degree_toPoly_lt_modulus _),
    List.length_map, s._algorithm.natDegree_modulus, bitsPoly]

/-! ### Messages of bytes at full width -/

/-- The register after processing bytes in a full-width class. -/
theorem toPoly_process_crc (o : BitOrder) (s : CRCStream (o.polyType T T.bits))
    (m : List Byte) :
    o.toPoly T.bits (s.process m)._crc =
      (o.toPoly T.bits s._preset * X ^ (8 * m.length) +
        bitsPoly (o.bytesBits m) * X ^ T.bits) %ₘ
          (X ^ T.bits + o.toPoly T.bits s._algorithm._generator) := by
  have h := toPoly_run_crc_eq (o.admits_bits T) s.reset rfl [.feed (.insert (.bytes m))]
  have hpending : StreamOp.pending o T.bits [StreamOp.feed (T := T) (.insert (.bytes m))] =
      o.bytesBits m := rfl
  rw [hpending, CRC.modulus_eq, regBits_bits, length_bytesBits] at h
  exact h

/-- **`crc()` is the polynomial remainder.** In a full-width class, after `reset()`
and any byte insertions, with `m` the bytes they feed, `crc()` represents
`((preset * X^(8L) + m * X^n) mod (X^n + generator)) + invert`. -/
theorem toPoly_crc_insertions (o : BitOrder) (T : DataType)
    (s : CRCStream (o.polyType T T.bits)) (ins : List ByteInsertion) :
    o.toPoly T.bits (s.reset.feedAll (ins.map Feed.insert)).crc =
      (o.toPoly T.bits s._preset * X ^ (8 * (ins.flatMap ByteInsertion.data).length) +
        bitsPoly (o.bytesBits (ins.flatMap ByteInsertion.data)) * X ^ T.bits) %ₘ
          (X ^ T.bits + o.toPoly T.bits s._algorithm._generator) +
        o.toPoly T.bits s._invert := by
  have hfeed : ∀ (ins : List ByteInsertion) (t : CRCStream (o.polyType T T.bits)),
      t.feedAll (ins.map Feed.insert) = t.insertBytes (ins.flatMap ByteInsertion.data) := by
    intro ins
    induction ins with
    | nil => intro t; rfl
    | cons i ins ih =>
        intro t
        rw [List.map_cons, feedAll_cons, ih, feed, insert_eq]
        simp only [insertBytes, CRC.foldl_add, List.flatMap_cons, CRC.addBytes_append]
  have hinvert : (s.process (ins.flatMap ByteInsertion.data))._invert = s._invert := by
    rw [process_eq]
  rw [hfeed]
  change o.toPoly T.bits (s.process (ins.flatMap ByteInsertion.data)).crc = _
  rw [crc, toPoly_xor, hinvert, toPoly_process_crc]

end CRCStream

end CrcPP
