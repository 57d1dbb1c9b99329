import CrcPP.AnyWidth
import CrcPP.Parity
import CrcPP.Superposition

/-!
# CrcPP.ZeroBytes

**What zero bytes do to a register.** Two questions about preset and inversion come down to
the registers that zero bytes take back to themselves.

One is which parameters are one algorithm. The generator shows in the CRCs of messages of
one byte, and preset and inversion can be exchanged for others when a zero byte leaves the
difference alone (`crc_eq_iff`). The other is when lost or inserted zero bytes are noticed:
unless they take the register in front of them back to itself (`crc_zeros_iff`).

With an odd number of terms in `X^n + generator`, one zero byte, or any power of two of them,
leaves no register alone but 0 (`iterate_add_zero_eq_self_iff`). Then the CRCs determine all
three parameters (`crc_eq_iff_of_odd`), and only at the register 0 such a number of zero bytes
can get lost (`crc_zeros_iff_of_odd`).
-/

namespace CrcPP

open Polynomial BitPoly BitOrder

variable {T : DataType} {o : BitOrder} {n : Nat}

/-- Two terms of an equation change sides. -/
theorem xor_eq_xor_of_xor_eq {w : Nat} {a b c d : BitVec w} (h : a ^^^ c = b ^^^ d) :
    a ^^^ b = c ^^^ d := by
  rw [eq_xor_of_xor_eq h, show b ^^^ d ^^^ c ^^^ b = c ^^^ d ^^^ b ^^^ b by ac_rfl, xor_xor_cancel]

/-- The byte of which only the last bit that is sent is set. -/
def BitOrder.lastBit : BitOrder → Byte
  | native => 0x01
  | network => 0x80

namespace CRC

/-- Feeding that byte to a clear register adds the generator. What `sethibyte` leaves above
the coefficients does not depend on the generator. -/
theorem add_lastBit (hn : o.Admits T n) (c : CRC (o.polyType T n)) :
    c.add o.lastBit 0 =
      c._generator ^^^ (o.polyType T n).shift
        ((o.polyType T n).sethibyte ((o.polyType T n).hibyte 0 ^^^ o.lastBit)) 8 := by
  have hP := polyType_lawful hn
  have hbits : o.byteBits o.lastBit = List.replicate 7 false ++ [true] := by
    cases o <;> decide
  have hzero : c.addbit 0 0 = 0 := by
    have h := c.addbit_zero_xor hP 0 0
    rwa [BitVec.xor_self, BitVec.xor_self] at h
  rw [c.add_eq_addBits_xor hn, hbits, addBits_append, addBits_replicate_false,
    Function.iterate_fixed hzero, addBits_cons, addBits_nil, uint8OfBool_true, c.addbit_one hP,
    hzero, show (0 : T.Val) ^^^ c._generator = c._generator from BitVec.zero_xor]

/-- A byte and the register contribute separately. -/
theorem add_eq_xor (hn : o.Admits T n) (c : CRC (o.polyType T n)) (b : Byte) (reg : T.Val) :
    c.add b reg = c.add b 0 ^^^ c.add 0 reg := by
  rw [← c.add_sum hn, show b ^^^ (0 : Byte) = b from BitVec.xor_zero,
    show (0 : T.Val) ^^^ reg = reg from BitVec.zero_xor]

/-- With an odd number of terms in the divisor, a power of two of zero bytes leaves no
register alone but 0. -/
theorem iterate_add_zero_eq_self_iff (c : CRC (o.polyType T T.bits))
    (hodd : Odd c.divisor.support.card) (i : Nat) {reg : T.Val} :
    (c.add 0)^[2 ^ i] reg = reg ↔ reg = 0 := by
  have hP := polyType_lossless o T
  have hzero : c.add 0 0 = 0 := by
    have h := c.add_sum (o.admits_bits T) 0 0 0 0
    rwa [BitVec.xor_self, BitVec.xor_self, BitVec.xor_self] at h
  constructor
  · intro h
    rw [c.add_zero_eq_iterate hP, ← Function.iterate_mul] at h
    have hpoly := toPoly_iterate_addbit_zero (o.admits_bits T) (fits_bits o c._generator)
      (8 * 2 ^ i) (fits_bits o reg)
    rw [h, show 8 * 2 ^ i = 2 ^ (3 + i) by rw [pow_add]; rfl] at hpoly
    refine toPoly_injective o T ?_
    rw [toPoly_zero]
    exact eq_zero_of_mul_X_pow_modByMonic c.monic_divisor hodd (c.degree_toPoly_lt_divisor reg)
      hpoly.symm
  · rintro rfl
    exact Function.iterate_fixed hzero _

end CRC

namespace CRCStream

/-! ### One algorithm -/

/-- Two messages of one byte tell generators apart. -/
theorem algorithm_eq_of_crc_eq (hn : o.Admits T n) {c d : CRC (o.polyType T n)} {p v q w : T.Val}
    (h : ∀ data, ((new c p v).process data).crc = ((new d q w).process data).crc) : c = d := by
  have hzero : c.add 0 p ^^^ d.add 0 q = v ^^^ w := xor_eq_xor_of_xor_eq (h [0])
  have hlast : c.add o.lastBit p ^^^ d.add o.lastBit q = v ^^^ w :=
    xor_eq_xor_of_xor_eq (h [o.lastBit])
  have hclear : c.add o.lastBit 0 ^^^ d.add o.lastBit 0 = 0 := by
    rw [← hzero, c.add_eq_xor hn, d.add_eq_xor hn] at hlast
    rw [← BitVec.xor_left_inj (c.add 0 p ^^^ d.add 0 q),
      show (0 : T.Val) ^^^ (c.add 0 p ^^^ d.add 0 q) = c.add 0 p ^^^ d.add 0 q
        from BitVec.zero_xor]
    exact Eq.trans (by ac_rfl) hlast
  rw [xor_eq_zero_iff, c.add_lastBit hn, d.add_lastBit hn, BitVec.xor_left_inj] at hclear
  exact CRC.ext_generator hclear

/-- The empty message and one zero byte tell presets and inversions apart. -/
theorem preset_xor_of_crc_eq (hn : o.Admits T n) {c : CRC (o.polyType T n)} {p v q w : T.Val}
    (h : ∀ data, ((new c p v).process data).crc = ((new c q w).process data).crc) :
    p ^^^ q = v ^^^ w ∧ c.add 0 (p ^^^ q) = p ^^^ q := by
  have hnil : p ^^^ q = v ^^^ w := xor_eq_xor_of_xor_eq (h [])
  have hzero : c.add 0 p ^^^ c.add 0 q = v ^^^ w := xor_eq_xor_of_xor_eq (h [0])
  have hsum := c.add_sum hn 0 0 p q
  rw [show (0 : Byte) ^^^ 0 = 0 from BitVec.xor_self, hzero, ← hnil] at hsum
  exact ⟨hnil, hsum⟩

/-- A difference of the presets that zero bytes leave alone is made up for by the inversion. -/
theorem crc_eq_of_preset_xor (hn : o.Admits T n) (c : CRC (o.polyType T n)) {p v q w : T.Val}
    (hsum : p ^^^ q = v ^^^ w) (hfixed : c.add 0 (p ^^^ q) = p ^^^ q) (data : List Byte) :
    ((new c p v).process data).crc = ((new c q w).process data).crc := by
  simp only [crc, process_eq]
  change c.addBytes data p ^^^ v = c.addBytes data q ^^^ w
  rw [addBytes_eq_xor hn c data p q, Function.iterate_fixed hfixed, hsum,
    show ∀ x : T.Val, x ^^^ (v ^^^ w) ^^^ v = x ^^^ w ^^^ v ^^^ v by intros; ac_rfl,
    xor_xor_cancel]

/-- **Which parameters are one algorithm.** Two streams of a class give all messages the same
CRC exactly when their generators are the same, their presets differ as their inversions
do, and a zero byte leaves this difference alone. -/
theorem crc_eq_iff (hn : o.Admits T n) (c d : CRC (o.polyType T n)) (p v q w : T.Val) :
    (∀ data, ((new c p v).process data).crc = ((new d q w).process data).crc) ↔
      c._generator = d._generator ∧ p ^^^ q = v ^^^ w ∧ c.add 0 (p ^^^ q) = p ^^^ q := by
  constructor
  · intro h
    obtain rfl := algorithm_eq_of_crc_eq hn h
    exact ⟨rfl, preset_xor_of_crc_eq hn h⟩
  · rintro ⟨hgenerator, hsum, hfixed⟩
    obtain rfl := CRC.ext_generator hgenerator
    exact crc_eq_of_preset_xor hn c hsum hfixed

/-- CCITT-16 with its preset and with another one. The difference is `X^16 + X^12 + X^5 + 1`
divided by `X + 1`. -/
theorem crc_eq_ccitt :
    ((new ccitt 0xFFFF 0).process [0x31, 0x32]).crc =
      ((new ccitt 0x0FE0 0xF01F).process [0x31, 0x32]).crc :=
  (crc_eq_iff (o := native) (by decide) ccitt ccitt 0xFFFF 0 0x0FE0 0xF01F).mpr
    ⟨rfl, by decide, by decide +kernel⟩ [0x31, 0x32]

/-- **When the CRCs determine the parameters.** In a full-width class, with an odd number of
terms in `X^n + generator`, no two parameters are one algorithm. -/
theorem crc_eq_iff_of_odd (c d : CRC (o.polyType T T.bits))
    (hodd : Odd (X ^ T.bits + o.toPoly T.bits c._generator : (ZMod 2)[X]).support.card)
    (p v q w : T.Val) :
    (∀ data, ((new c p v).process data).crc = ((new d q w).process data).crc) ↔
      c._generator = d._generator ∧ p = q ∧ v = w := by
  constructor
  · intro h
    obtain rfl := algorithm_eq_of_crc_eq (o.admits_bits T) h
    obtain ⟨hsum, hfixed⟩ := preset_xor_of_crc_eq (o.admits_bits T) h
    have hzero := (c.iterate_add_zero_eq_self_iff hodd 0).mp hfixed
    exact ⟨rfl, xor_eq_zero_iff.mp hzero, xor_eq_zero_iff.mp (hsum.symm.trans hzero)⟩
  · rintro ⟨hgenerator, rfl, rfl⟩
    obtain rfl := CRC.ext_generator hgenerator
    exact fun _ => rfl

/-- SAE J1850 is not the same with preset and inversion 0. -/
theorem exists_crc_ne_j1850 :
    ∃ data,
      ((new (CRC.ofGenerator (Poly .uint8_t 8) 0x1D (by decide)) 0xFF 0xFF).process data).crc ≠
        ((new (CRC.ofGenerator (Poly .uint8_t 8) 0x1D (by decide)) 0 0).process data).crc := by
  by_contra! h
  have hpreset := ((crc_eq_iff_of_odd (o := native)
    (CRC.ofGenerator (Poly .uint8_t 8) 0x1D (by decide))
    (CRC.ofGenerator (Poly .uint8_t 8) 0x1D (by decide))
    (odd_card_modulus (by decide)) 0xFF 0xFF 0 0).mp h).2.1
  exact absurd hpreset (by decide)

/-! ### Lost and inserted zeros -/

/-- **Lost and inserted zero bytes.** Sequences that differ in how many zero bytes stand at
a place have the same CRC exactly when as many as one has more take the register in front of
them back to itself. -/
theorem crc_zeros_iff (stream : CRCStream (o.polyType T T.bits)) (a b : List Byte)
    (j k : Nat) :
    (stream.process (a ++ List.replicate (j + k) 0 ++ b)).crc =
        (stream.process (a ++ List.replicate j 0 ++ b)).crc ↔
      (stream._algorithm.add 0)^[k] (stream.process a)._crc = (stream.process a)._crc := by
  have hP := polyType_lossless o T
  have hprocess : ∀ i, (stream.process (a ++ List.replicate i 0 ++ b)).crc =
      stream._algorithm.addBytes b ((stream._algorithm.add 0)^[i] (stream.process a)._crc) ^^^
        stream._invert := by
    intro i
    simp only [crc, process_eq, CRC.addBytes_append, CRC.addBytes_replicate_zero]
  rw [hprocess, hprocess, BitVec.xor_left_inj, (stream._algorithm.addBytes_injective hP b).eq_iff,
    Function.iterate_add_apply, ((stream._algorithm.add_zero_injective hP).iterate j).eq_iff]

/-- **When they are noticed.** In a full-width class, with an odd number of terms in
`X^n + generator`, a power of two of lost or inserted zero bytes changes the CRC wherever
they stand, unless the register in front of them is 0. -/
theorem crc_zeros_iff_of_odd (stream : CRCStream (o.polyType T T.bits))
    (hodd : Odd (X ^ T.bits +
      o.toPoly T.bits stream._algorithm._generator : (ZMod 2)[X]).support.card)
    (a b : List Byte) (j i : Nat) :
    (stream.process (a ++ List.replicate (j + 2 ^ i) 0 ++ b)).crc =
        (stream.process (a ++ List.replicate j 0 ++ b)).crc ↔
      (stream.process a)._crc = 0 := by
  rw [crc_zeros_iff]
  exact stream._algorithm.iterate_add_zero_eq_self_iff hodd i

/-- Four zero bytes in front of a message, with SAE J1850. -/
theorem crc_zeros_ne_j1850 :
    ((newDefault (CRC.ofGenerator (Poly .uint8_t 8) 0x1D (by decide))).process
        [0, 0, 0, 0, 0x31]).crc ≠
      ((newDefault (CRC.ofGenerator (Poly .uint8_t 8) 0x1D (by decide))).process [0x31]).crc := by
  intro h
  have hpreset := (crc_zeros_iff_of_odd (o := native)
    (newDefault (CRC.ofGenerator (Poly .uint8_t 8) 0x1D (by decide)))
    (odd_card_modulus (by decide)) [] [0x31] 0 2).mp h
  exact absurd hpreset (by decide)

end CRCStream

end CrcPP
