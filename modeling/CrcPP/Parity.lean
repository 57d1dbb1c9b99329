import CrcPP.Burst
import CrcPP.Table

/-!
# CrcPP.Parity

**Odd-weight errors are caught when the generator allows it.** A polynomial over
GF(2) takes at 1 the parity of its number of terms. When `X^n + generator` has an
even number of them, all its multiples have, so an error with an odd number of
set bits is no multiple (`BitPoly.not_dvd_of_odd_card`) and `check` fails on it.
-/

namespace CrcPP

open Polynomial BitPoly BitOrder

variable {T : DataType}

/-- The number of set bits of a byte sequence. -/
def setBits (bs : List Byte) : Nat :=
  (bs.map fun b => (List.range 8).countP b.getLsbD).sum

namespace BitOrder

theorem count_true_byteBits (o : BitOrder) (b : Byte) :
    (o.byteBits b).count true = (List.range 8).countP b.getLsbD := by
  have hmap : ∀ f : Nat → Bool, ((List.range 8).map f).count true = (List.range 8).countP f := by
    intro f
    rw [List.count, List.countP_map]
    refine List.countP_congr fun k _ => ?_
    simp
  cases o with
  | native =>
      rw [byteBits, hmap]
      -- the same eight positions, counted from the other end
      have hreverse : (List.range 8).map (7 - ·) = (List.range 8).reverse := by decide
      have hcount := congrArg (List.countP b.getLsbD) hreverse
      rwa [List.countP_map, List.countP_reverse] at hcount
  | network => exact hmap b.getLsbD

/-- In either order a sequence transmits its set bits. -/
theorem count_true_bytesBits (o : BitOrder) (bs : List Byte) :
    (o.bytesBits bs).count true = setBits bs := by
  induction bs with
  | nil => rfl
  | cons b bs ih =>
      rw [bytesBits_cons, List.count_append, ih, count_true_byteBits]
      rfl

/-- A bit sequence has as many set bits as its polynomial has terms, modulo 2. -/
theorem eval_one_bitsPoly (bits : List Bool) :
    (bitsPoly bits).eval 1 = (bits.count true : ZMod 2) := by
  induction bits using List.reverseRecOn with
  | nil => simp [bitsPoly]
  | append_singleton bits b ih =>
      rw [bitsPoly_concat, eval_add, eval_mul, eval_X, one_mul, ih, eval_C, List.count_append,
        Nat.cast_add]
      cases b <;> simp

theorem odd_card_bitsPoly {bits : List Bool} (h : Odd (bits.count true)) :
    Odd (bitsPoly bits).support.card := by
  rw [← ZMod.natCast_eq_one_iff_odd, ← eval_one_eq_card, eval_one_bitsPoly]
  exact ZMod.natCast_eq_one_iff_odd.mpr h

/-- `X^n + generator` has an even number of terms when the generator has an odd
number of coefficients set. -/
theorem even_card_modulus {o : BitOrder} {n : Nat} {v : T.Val}
    (h : Odd ((o.polyBits n v).count true)) :
    Even (X ^ n + o.toPoly n v : (ZMod 2)[X]).support.card := by
  rw [← ZMod.natCast_eq_zero_iff_even, ← eval_one_eq_card, eval_add, eval_pow, eval_X, one_pow,
    ← bitsPoly_polyBits, eval_one_bitsPoly, ZMod.natCast_eq_one_iff_odd.mpr h]
  decide

/-- And an odd one when the generator has an even number. -/
theorem odd_card_modulus {o : BitOrder} {n : Nat} {v : T.Val}
    (h : Even ((o.polyBits n v).count true)) :
    Odd (X ^ n + o.toPoly n v : (ZMod 2)[X]).support.card := by
  rw [← ZMod.natCast_eq_one_iff_odd, ← eval_one_eq_card, eval_add, eval_pow, eval_X, one_pow,
    ← bitsPoly_polyBits, eval_one_bitsPoly, ZMod.natCast_eq_zero_iff_even.mpr h, add_zero]

end BitOrder

namespace CRCStream

/-- **Odd-weight errors are always caught** when `X^n + generator` has an even
number of terms: changing an odd number of bits of an accepted sequence makes
`check` fail. -/
theorem check_odd_weight (o : BitOrder) (T : DataType)
    (stream : CRCStream (o.polyType T T.bits))
    (heven : Even (X ^ T.bits +
      o.toPoly T.bits stream._algorithm._generator : (ZMod 2)[X]).support.card)
    (c e : List Byte) (hlen : e.length = c.length) (hc : (stream.check c).1 = true)
    (hodd : Odd (setBits e)) :
    (stream.check (c.zipWith (· ^^^ ·) e)).1 = false := by
  rw [← Bool.not_eq_true]
  intro hce
  have hdvd := (check_xor_iff_dvd stream hlen hc).mp hce
  rw [CRC.modulus_eq, regBits_bits] at hdvd
  rw [← o.count_true_bytesBits] at hodd
  exact not_dvd_of_odd_card heven (odd_card_bitsPoly hodd) hdvd

/-- Three wrong bits in a CCITT-16 codeword. -/
theorem check_odd_weight_ccitt :
    ((newDefault ccitt).check
      (([0x31, 0x38, 0x7D] : List Byte).zipWith (· ^^^ ·) [0x01, 0x80, 0x10])).1 = false := by
  have hcheck : ((newDefault ccitt).check [0x31, 0x38, 0x7D]).1 = true :=
    (check_eq_addBits .native (newDefault ccitt) _).trans (by decide +kernel)
  exact check_odd_weight .native .uint16_t (newDefault ccitt) (even_card_modulus (by decide))
    [0x31, 0x38, 0x7D] [0x01, 0x80, 0x10] rfl hcheck (by decide)

end CRCStream

end CrcPP
