import CrcPP.Remainder

/-!
# CrcPP.NarrowNetwork

**Narrow polynomials in network order**, `PolyN<T, n>` with `1 ≤ n ≤ W` for a type
`T` of `W` bits.

Here the register moves down, so what a step drops is gone for good, and a
register that starts below `2^n` stays there (`run_crc_lt`). Everything the
full-width classes promise follows (`narrow_network`).

The same move brings the bits from `n` on down into the CRC. With such bits
in it a register is one of full width, reduced modulo
`X^(W-n) * (X^n + generator)` (`modulus_eq_mul`), and that is what the all-ones
default preset does (`newDefault_agrees_iff`).
-/

namespace CrcPP

open Polynomial BitPoly BitOrder

variable {T : DataType} {n : Nat}

/-! ### The register stays below `2^n` -/

theorem toNat_PolyN_shift (v : T.Val) (k : Nat) :
    ((PolyN T n).shift v k).toNat = v.toNat / 2 ^ k := by
  unfold PolyN
  rw [BitVec.toNat_ushiftRight, Nat.shiftRight_eq_div_pow]

/-- Moving a value up by `n` leaves nothing when it was below `2^n`. -/
theorem PolyN_shift_eq_zero {v : T.Val} (h : v.toNat < 2 ^ n) : (PolyN T n).shift v n = 0 := by
  apply BitVec.eq_of_toNat_eq
  rw [toNat_PolyN_shift, Nat.div_eq_of_lt h]
  rfl

namespace CRC

variable {c : CRC (PolyN T n)}

theorem addbit_lt (hg : c._generator.toNat < 2 ^ n) (b : Byte) {reg : T.Val}
    (h : reg.toNat < 2 ^ n) : (c.addbit b reg).toNat < 2 ^ n := by
  have hshift : ((PolyN T n).shift reg 1).toNat < 2 ^ n := by
    rw [toNat_PolyN_shift]
    exact Nat.lt_of_le_of_lt (Nat.div_le_self _ _) h
  unfold addbit
  split
  · rw [BitVec.toNat_xor]
    exact Nat.xor_lt_two_pow hshift hg
  · exact hshift

theorem addBits_lt (hg : c._generator.toNat < 2 ^ n) (bits : List Bool) {reg : T.Val}
    (h : reg.toNat < 2 ^ n) : (c.addBits bits reg).toNat < 2 ^ n := by
  induction bits generalizing reg with
  | nil => exact h
  | cons b bits ih => exact ih (addbit_lt hg _ h)

end CRC

namespace CRCStream

/-- One call keeps the register below `2^n`. -/
theorem exec_crc_lt (hn : network.Admits T n) {s : CRCStream (PolyN T n)}
    (hg : s._algorithm._generator.toNat < 2 ^ n) (hp : s._preset.toNat < 2 ^ n)
    (h : s._crc.toNat < 2 ^ n) (op : StreamOp T) : (s.exec op)._crc.toNat < 2 ^ n := by
  cases op with
  | feed f =>
      have hfeed : (s.feed f)._crc = s._algorithm.addBits (f.bits network n) s._crc :=
        feed_crc (o := network) hn (PolyN_byteExact T n) s f
      rw [exec, hfeed]
      exact CRC.addBits_lt hg _ h
  | reset => exact hp

theorem run_crc_lt (hn : network.Admits T n) {s : CRCStream (PolyN T n)}
    (hg : s._algorithm._generator.toNat < 2 ^ n) (hp : s._preset.toNat < 2 ^ n)
    (h : s._crc.toNat < 2 ^ n) (ops : List (StreamOp T)) : (s.run ops)._crc.toNat < 2 ^ n := by
  induction ops using List.reverseRecOn with
  | nil => exact h
  | append_singleton ops op ih =>
      have hsetup := sameSetup_run s ops
      rw [run_concat]
      refine exec_crc_lt hn ?_ ?_ ih op
      · rwa [hsetup.algorithm]
      · rwa [hsetup.preset]

/-- A byte insertion is the `addBit` calls of its bits. -/
theorem insert_eq_feedAll_bits (hn : network.Admits T n) (s : CRCStream (PolyN T n))
    (i : ByteInsertion) :
    s.insert i = s.feedAll ((network.bytesBits i.data).map Feed.bit) := by
  have hbits : ∀ (bits : List Bool) (t : CRCStream (PolyN T n)),
      t.feedAll (bits.map Feed.bit) = { t with _crc := t._algorithm.addBits bits t._crc } := by
    intro bits
    induction bits with
    | nil => intro t; rfl
    | cons b bits ih => intro t; exact ih _
  have hbytes : s._algorithm.addBytes i.data s._crc =
      s._algorithm.addBits (network.bytesBits i.data) s._crc :=
    CRC.addBytes_eq_addBits (o := network) hn (PolyN_byteExact T n) s._algorithm i.data s._crc
  rw [hbits, insert_eq, hbytes]

/-- **Narrow network-order streams.** With the generator and the preset below
`2^n`, every run leaves a register below `2^n`; a byte insertion is the `addBit`
calls of its bits, each byte's least significant bit first; and after `reset`
and any message, inserting the stream's own `crc()` makes `good` true. -/
theorem narrow_network (T : DataType) (n : Nat) (hn : network.Admits T n) (c : CRC (PolyN T n))
    (hg : c._generator.toNat < 2 ^ n) (p v : T.Val) (hp : p.toNat < 2 ^ n)
    (ops : List (StreamOp T)) :
    let s := (CRCStream.new c p v).run ops
    s._crc.toNat < 2 ^ n ∧
      (∀ i : ByteInsertion, s.insert i = s.feedAll ((network.bytesBits i.data).map Feed.bit)) ∧
      ∀ msg : List (Feed T),
        ((s.reset.feedAll msg).insertPoly (s.reset.feedAll msg).crc).good = true := by
  intro s
  have hrun : ∀ ops, ((CRCStream.new c p v).run ops)._crc.toNat < 2 ^ n :=
    fun ops => run_crc_lt (s := CRCStream.new c p v) hn hg hp hp ops
  refine ⟨hrun ops, insert_eq_feedAll_bits hn s, ?_⟩
  intro msg
  have hlt : (s.reset.feedAll msg)._crc.toNat < 2 ^ n := by
    have h := hrun (ops ++ .reset :: msg.map .feed)
    rwa [run, List.foldl_append, ← run, ← run, run_reset_feeds] at h
  rw [good_insertPoly_crc (PolyN_lawful n)]
  exact PolyN_shift_eq_zero hlt

/-- `X^3 + X + 1`, narrower than a byte. -/
def crc3 : CRC (PolyN .uint8_t 3) := CRC.ofGenerator _ 0x06 (by decide)

theorem narrow_network_crc3 :
    ((new crc3 0x07 0x07).run
      [.feed (.insert (.byte 0x31)), .feed (.bit true)])._crc.toNat < 2 ^ 3 :=
  (narrow_network .uint8_t 3 (by decide) crc3 (by decide) 0x07 0x07 (by decide)
    [.feed (.insert (.byte 0x31)), .feed (.bit true)]).1

end CRCStream

/-! ### Bits from `n` on -/

/-- The bits below `n` are the highest coefficients of the whole register. -/
theorem toPoly_bits_of_lt (hn : network.Admits T n) {v : T.Val} (h : v.toNat < 2 ^ n) :
    network.toPoly T.bits v = X ^ (T.bits - n) * network.toPoly n v := by
  have hle := hn.le_bits
  ext k
  rw [coeff_X_pow_mul', toPoly, toPoly, coeff_ofBits, coeff_ofBits, BitOrder.coeff, BitOrder.coeff]
  rcases Nat.lt_or_ge k (T.bits - n) with hk | hk
  · -- a bit from `n` on
    rw [if_neg (Nat.not_le.mpr hk), if_pos (by omega), bit_eq_zero]
    exact Nat.testBit_lt_two_pow (h.trans_le (Nat.pow_le_pow_right (by decide) (by omega)))
  · rw [if_pos hk, show n - 1 - (k - (T.bits - n)) = T.bits - 1 - k by omega]
    exact if_congr (by omega) rfl rfl

/-- The registers agree below `n` when their difference has no coefficient there. -/
theorem lowAgree_iff_coeff (hn : network.Admits T n) (v w : T.Val) :
    LowAgree n v w ↔
      ∀ k, T.bits - n ≤ k → (network.toPoly T.bits (v ^^^ w)).coeff k = 0 := by
  have hle := hn.le_bits
  rw [lowAgree_iff]
  constructor
  · intro h k hk
    rw [toPoly, coeff_ofBits]
    split
    · rw [bit_eq_zero, coeff_xor, BitOrder.coeff, BitOrder.coeff, h _ (by omega), Bool.xor_self]
    · rfl
  · intro h i hi
    have hbit := h (T.bits - 1 - i) (by omega)
    rw [toPoly, coeff_ofBits, if_pos (by omega), bit_eq_zero, coeff_xor, BitOrder.coeff,
      BitOrder.coeff, show T.bits - 1 - (T.bits - 1 - i) = i by omega] at hbit
    exact bne_eq_false_iff_eq.mp hbit

namespace CRC

variable (c : CRC (PolyN T n))

/-- A generator below `2^n` is a multiple of `X^(W-n)`. -/
theorem modulus_eq_mul (hn : network.Admits T n) (hg : c._generator.toNat < 2 ^ n) :
    modulus (o := network) c =
      X ^ (T.bits - n) * (X ^ n + network.toPoly n c._generator) := by
  rw [mul_add, ← pow_add, Nat.sub_add_cancel hn.le_bits, ← toPoly_bits_of_lt hn hg]
  exact modulus_eq (o := network) c

/-- What the same bytes make of two registers. -/
theorem toPoly_addBytes_xor (hn : network.Admits T n) (bs : List Byte) (v w : T.Val) :
    network.toPoly T.bits (c.addBytes bs v ^^^ c.addBytes bs w) =
      (network.toPoly T.bits (v ^^^ w) * X ^ (8 * bs.length)) %ₘ modulus (o := network) c := by
  have hrun : ∀ v : T.Val, network.toPoly T.bits (c.addBytes bs v) =
      SerialDivision.run (modulus (o := network) c) (network.toPoly T.bits v)
        ((network.bytesBits bs).map bit) := toPoly_addBytes (o := network) hn c bs
  have hsub := SerialDivision.run_sub_run (monic_modulus (o := network) c)
    (degree_toPoly_lt_modulus (o := network) c v) (degree_toPoly_lt_modulus (o := network) c w)
    ((network.bytesBits bs).map bit)
  rw [List.length_map, length_bytesBits, CharTwo.sub_eq_add, CharTwo.sub_eq_add] at hsub
  rw [toPoly_xor, toPoly_xor, hrun, hrun]
  exact hsub

end CRC

/-- The ones the default preset has from `n` on. -/
theorem toPoly_preset_xor (hn : network.Admits T n) :
    network.toPoly T.bits (~~~(0 : T.Val) ^^^ BitVec.ofNat T.bits (2 ^ n - 1)) =
      ∑ i ∈ Finset.range (T.bits - n), X ^ i := by
  have hle := hn.le_bits
  ext k
  rw [toPoly, coeff_ofBits, coeff_xor, finsetSum_coeff]
  simp only [BitOrder.coeff, coeff_X_pow, Finset.sum_ite_eq, Finset.mem_range]
  rcases Nat.lt_or_ge k T.bits with hk | hk
  · rw [if_pos hk, getLsbD_not_zero (by omega), getLsbD_ones n (by omega)]
    rcases Nat.lt_or_ge k (T.bits - n) with hkn | hkn
    · rw [if_pos hkn, decide_eq_false (by omega)]
      rfl
    · rw [if_neg (Nat.not_lt.mpr hkn), decide_eq_true (by omega)]
      rfl
  · rw [if_neg (Nat.not_lt.mpr hk), if_neg (by omega)]

namespace CRCStream

/-- **When the default preset is harmless.** The one-argument constructor and the
one given `n` ones agree on the low `n` bits of `crc()` after `m` exactly when
`X^n + generator` divides the sum of the first `k` powers of `X`, `k` being the
smaller of the number of bits in `m` and the number of unused bits. -/
theorem newDefault_agrees_iff (T : DataType) (n : Nat) (hn : network.Admits T n)
    (c : CRC (PolyN T n)) (hg : c._generator.toNat < 2 ^ n) (m : List Byte) :
    let ones := BitVec.ofNat T.bits (2 ^ n - 1)
    LowAgree n ((newDefault c).insertBytes m).crc ((new c ones ones).insertBytes m).crc ↔
      X ^ n + network.toPoly n c._generator ∣
        ∑ i ∈ Finset.range (min (8 * m.length) (T.bits - n)), X ^ i := by
  intro ones
  have hones : LowAgree n (~~~(0 : T.Val)) ones := lowAgree_ones hn.2
  have hdefault : ((newDefault c).insertBytes m).crc = c.addBytes m (~~~0) ^^^ ~~~0 := by
    rw [crc, insertBytes, CRC.foldl_add]
    rfl
  have hgiven : ((new c ones ones).insertBytes m).crc = c.addBytes m ones ^^^ ones := by
    rw [crc, insertBytes, CRC.foldl_add]
    rfl
  -- the inversions agree on the low bits, so it is about the registers
  have hregs : LowAgree n ((newDefault c).insertBytes m).crc ((new c ones ones).insertBytes m).crc ↔
      LowAgree n (c.addBytes m (~~~0)) (c.addBytes m ones) := by
    rw [hdefault, hgiven]
    constructor
    · intro h
      simpa only [xor_xor_cancel] using h.xor hones
    · intro h
      exact h.xor hones
  have hG : (X ^ n + network.toPoly n c._generator).Monic :=
    monic_X_pow_add (network.degree_toPoly_lt n _)
  rw [hregs, lowAgree_iff_coeff hn, c.toPoly_addBytes_xor hn, toPoly_preset_xor hn,
    c.modulus_eq_mul hn hg, SerialDivision.coeff_modByMonic_X_pow_mul_eq_zero_iff hG,
    SerialDivision.ones_mul_X_pow_divByMonic,
    SerialDivision.dvd_mul_X_pow_iff (CRC.isUnit_coeff_zero (o := network) hn c)]

/-- The generator `X^2 + 1` of a CRC of 4 bits in network order. -/
def nibbleCrcN : CRC (PolyN .uint32_t 4) := CRC.ofGenerator _ 0xA (by decide)

theorem toPoly_nibbleCrcN : network.toPoly 4 nibbleCrcN._generator = X ^ 2 + 1 := by
  have hcoeff : network.coeff 4 nibbleCrcN._generator 0 = true ∧
      network.coeff 4 nibbleCrcN._generator 1 = false ∧
      network.coeff 4 nibbleCrcN._generator 2 = true ∧
      network.coeff 4 nibbleCrcN._generator 3 = false := by decide
  obtain ⟨h0, h1, h2, h3⟩ := hcoeff
  simp only [toPoly, ofBits, Finset.sum_range_succ, Finset.sum_range_zero, h0, h1, h2, h3,
    bit_true, bit_false]
  simp [add_comm]

/-- After three bytes of 24 bits the two constructors agree: `X^4 + X^2 + 1` divides the sum of
the first six powers of `X`, and so that of the first 24. -/
theorem newDefault_agrees_nibble :
    LowAgree 4 ((newDefault nibbleCrcN).insertBytes [0x31, 0x32, 0x33]).crc
      ((new nibbleCrcN 0xF 0xF).insertBytes [0x31, 0x32, 0x33]).crc := by
  have hbits : min (8 * [(0x31 : Byte), 0x32, 0x33].length) (DataType.uint32_t.bits - 4) = 24 := rfl
  refine (newDefault_agrees_iff .uint32_t 4 (by decide) nibbleCrcN (by decide)
    [0x31, 0x32, 0x33]).mpr ⟨(X + 1) * (1 + X ^ 6 + X ^ 12 + X ^ 18), ?_⟩
  rw [toPoly_nibbleCrcN, hbits]
  simp only [Finset.sum_range_succ, Finset.sum_range_zero]
  ring

/-- The generator of CAN in network order. -/
def canCrcN : CRC (PolyN .uint16_t 15) := CRC.ofGenerator _ 0x4CD1 (by decide)

/-- After a byte in CAN they do not. -/
theorem not_newDefault_agrees_can :
    canCrcN._generator.toNat < 2 ^ 15 ∧
      ¬ LowAgree 15 ((newDefault canCrcN).insertBytes [0x31]).crc
        ((new canCrcN (BitVec.ofNat 16 (2 ^ 15 - 1)) (BitVec.ofNat 16 (2 ^ 15 - 1))).insertBytes
          [0x31]).crc := by
  decide +kernel

end CRCStream

end CrcPP
