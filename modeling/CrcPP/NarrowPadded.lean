import CrcPP.NarrowGood

/-!
# CrcPP.NarrowPadded

**`good(extrabits)` on narrow polynomials in native order.** The receiver of a
byte-padded codeword runs whole bytes through the table, and `good(extrabits)`
replays the same bits with single steps at the end. The coefficients come out
equal, but the two leave different bits above them. Which ones is worked out in
`getLsbD_byteDrift_high`, and `goodExtra_padded_iff` says when there are none: it
depends on the inversion and the generator only.
-/

namespace CrcPP

open Polynomial BitPoly BitOrder

variable {T : DataType} {n : Nat}

/-! ### Bytes against bits -/

namespace CRC

variable (c : CRC (Poly T n))

/-- Bits that stand above the coefficients are only moved up. -/
theorem iterate_addbit_zero_of_low (hn : native.Admits T n) {v : T.Val}
    (h : LowClear n v) (k : Nat) :
    (c.addbit 0)^[k] v = (Poly T n).shift v k := by
  have := hn.1
  refine c.iterate_addbit_zero_of_hibit (Poly_lawful hn) fun j _ => ?_
  rw [Poly_hibit hn, getLsbD_Poly_shift, h (n - 1 - j) (by omega), Bool.and_false]
  rfl

/-- What `k` zero bytes leave differently from `8 * k` zero bits. -/
def byteDrift (e : T.Val) (k : Nat) : T.Val :=
  (c.add 0)^[k] e ^^^ (c.addbit 0)^[8 * k] e

theorem byteDrift_zero (e : T.Val) : c.byteDrift e 0 = 0 := BitVec.xor_self

/-- One more byte moves the drift up and adds the top byte the register had. -/
theorem byteDrift_succ (hn : native.Admits T n) (e : T.Val) (k : Nat)
    (hlow : LowClear n (c.byteDrift e k)) :
    c.byteDrift e (k + 1) =
      (Poly T n).shift (c.byteDrift e k) 8 ^^^
        (Poly T n).shift ((Poly T n).sethibyte ((Poly T n).hibyte ((c.add 0)^[k] e))) 8 := by
  have hP := Poly_lawful hn
  rw [← c.iterate_addbit_zero_of_low hn hlow 8, byteDrift, byteDrift, c.iterate_addbit_zero_xor hP,
    Function.iterate_succ_apply', c.add_zero_eq hP, ← Function.iterate_add_apply, Nat.mul_succ,
    Nat.add_comm (8 * k) 8]
  ac_rfl

/-- The drift does not reach the coefficients. -/
theorem lowClear_byteDrift (hn : native.Admits T n) (e : T.Val) (k : Nat) :
    LowClear n (c.byteDrift e k) := by
  induction k with
  | zero =>
      rw [c.byteDrift_zero]
      exact fun i _ => getLsbD_zero_val i
  | succ k ih =>
      rw [c.byteDrift_succ hn e k ih]
      exact (ih.shift 8).xor (lowClear_shift_sethibyte _)

/-- **Byte steps against bit steps.** Above the coefficients, the drift after `k`
bytes consists of the top bytes the register had before each of them, the last
one lowest. -/
theorem getLsbD_byteDrift_high (hn : native.Admits T n) (e : T.Val) (k : Nat) {t : Nat}
    (ht : n + t < T.bits) (hk : t < 8 * k) :
    (c.byteDrift e k).getLsbD (n + t) =
      ((Poly T n).hibyte ((c.add 0)^[k - 1 - t / 8] e)).getLsbD (t % 8) := by
  have h8 := hn.1
  induction k generalizing t with
  | zero => exact absurd hk (Nat.not_lt_zero t)
  | succ k ih =>
      rw [c.byteDrift_succ hn e k (c.lowClear_byteDrift hn e k), BitVec.getLsbD_xor,
        show n + t = 8 + (n - 8 + t) by omega, getLsbD_Poly_shift_add n _ (by omega),
        getLsbD_Poly_shift_add n _ (by omega), getLsbD_Poly_sethibyte_add _ (by omega)]
      rcases Nat.lt_or_ge t 8 with h | h
      · -- the new byte
        rw [c.lowClear_byteDrift hn e k _ (by omega), Bool.false_xor, Nat.div_eq_of_lt h,
          Nat.mod_eq_of_lt h, Nat.sub_zero, Nat.add_sub_cancel]
      · -- an old one, moved up
        obtain ⟨t, rfl⟩ := Nat.exists_eq_add_of_le h
        rw [BitVec.getLsbD_of_ge _ _ h, Bool.xor_false, show n - 8 + (8 + t) = n + t by omega,
          ih (by omega) (by omega), Nat.add_mod_left, Nat.add_div_left t (by decide),
          show k + 1 - 1 - (t / 8).succ = k - 1 - t / 8 by omega]

/-- There is no drift when none of the top bytes had one of its bits set. -/
theorem byteDrift_eq_zero_iff (hn : native.Admits T n) (e : T.Val) (k : Nat)
    (hk : T.bits - n ≤ 8 * k) :
    c.byteDrift e k = 0 ↔
      ∀ i < T.bits - n,
        ((Poly T n).hibyte ((c.add 0)^[k - 1 - i / 8] e)).getLsbD (i % 8) = false := by
  constructor
  · intro h i hi
    rw [← c.getLsbD_byteDrift_high hn e k (by omega) (by omega), h, getLsbD_zero_val]
  · intro h
    refine BitVec.eq_of_getLsbD_eq fun i hi => ?_
    rw [getLsbD_zero_val]
    rcases Nat.lt_or_ge i n with hin | hin
    · exact c.lowClear_byteDrift hn e k i hin
    · obtain ⟨t, rfl⟩ := Nat.exists_eq_add_of_le hin
      rw [c.getLsbD_byteDrift_high hn e k hi (by omega)]
      exact h t (by omega)

/-- Feeding zero bytes to a register multiplies its polynomial by a power of `X`. -/
theorem toPoly_iterate_add_zero (hn : native.Admits T n) (e : T.Val) (k : Nat) :
    native.toPoly n ((c.add 0)^[k] e) =
      (native.toPoly n e * X ^ (8 * k)) %ₘ (X ^ n + BitOrder.native.toPoly n c._generator) := by
  have hrun := toPoly_addBytes (o := native) hn c (List.replicate k 0) e
  rw [SerialDivision.run_eq (monic_modulus (o := native) c)
    (degree_toPoly_lt_modulus (o := native) c e), ← bitsPoly, bytesBits_replicate_zero,
    bitsPoly_replicate_false, zero_mul, add_zero, List.length_map,
    List.length_replicate] at hrun
  rw [← addBytes_replicate_zero]
  exact hrun

end CRC

theorem Poly_shift_bits (n : Nat) (v : T.Val) : (Poly T n).shift v T.bits = 0 := by
  refine BitVec.eq_of_getLsbD_eq fun i hi => ?_
  rw [getLsbD_Poly_shift_of_lt n v hi, getLsbD_zero_val]

namespace CRCStream

/-- The register of a byte-padded codeword: zero bytes fed to the inversion value,
whatever the message was. -/
theorem process_padded_crc (hn : native.Admits T n) (s : CRCStream (Poly T n)) (m : List Byte) :
    ((s.process m).process (m ++ (s.process m).result.c_str))._crc =
      (s._algorithm.add 0)^[T.sizeof] s._invert := by
  have hxor := s._algorithm.addBytes_resultBytes_xor (Poly_lawful hn) T.sizeof (s.process m).crc
    (s.process m)._crc
  have hsum : (s.process m)._crc ^^^ (s.process m).crc = s._invert := by
    rw [crc, ← BitVec.xor_assoc, BitVec.xor_self, BitVec.zero_xor, process_eq]
  rw [hsum, ← T.bits_eq, Poly_shift_bits] at hxor
  rw [← hxor]
  simp only [process_eq, CRC.addBytes_append, result, CRCResult.c_str, CRCResult.new]
  exact BitVec.xor_zero.symm

/-- The register `good(extrabits)` replays: zero bits, once the whole bytes of the
inversion value are used up. -/
theorem goodExtra_iff (hn : native.Admits T n) (s : CRCStream (Poly T n)) :
    s.goodExtra (T.bits - n) = true ↔
      s._crc = (s._algorithm.addbit 0)^[8 * (T.sizeof - n / 8)]
        ((s._algorithm.add 0)^[n / 8] s._invert) := by
  have hP := Poly_lawful hn
  have h := s._algorithm.addPoly_xor hP s._invert 0
  rw [show (0 : T.Val) ^^^ s._invert = s._invert from BitVec.zero_xor] at h
  -- the bits the inversion value leaves above its coefficients are moved out
  have hout : (s._algorithm.addbit 0)^[T.bits - n] ((Poly T n).shift s._invert n) = 0 := by
    rw [s._algorithm.iterate_addbit_zero_of_low hn, hP.shift_shift, Nat.add_sub_cancel' hn.le_bits,
      Poly_shift_bits]
    exact fun i hi => getLsbD_Poly_shift_of_lt n _ hi
  have hbits : T.bits - n + n % 8 = 8 * (T.sizeof - n / 8) := by
    have := T.bits_eq
    have := hn.le_bits
    omega
  rw [goodExtra, beq_iff_eq, eq_xor_of_xor_eq h, show (Poly T n).numbits = n from rfl,
    s._algorithm.iterate_addbit_zero_xor hP, hout, CRC.advance,
    show (Poly T n).numbits = n from rfl, ← Function.iterate_add_apply, hbits]
  exact iff_of_eq (congrArg _ BitVec.xor_zero)

/-- A byte-padded codeword is accepted when the bytes drift no bits from the replay. -/
theorem goodExtra_padded_iff_byteDrift (hn : native.Admits T n) (s : CRCStream (Poly T n))
    (m : List Byte) :
    let t := s.process m
    (t.process (m ++ t.result.c_str)).goodExtra (T.bits - n) = true ↔
      s._algorithm.byteDrift ((s._algorithm.add 0)^[n / 8] s._invert) (T.sizeof - n / 8) = 0 := by
  intro t
  have hsizeof : n / 8 ≤ T.sizeof := by
    have := T.bits_eq
    have := hn.le_bits
    omega
  have hbytes : (s._algorithm.add 0)^[T.sizeof] s._invert =
      (s._algorithm.add 0)^[T.sizeof - n / 8] ((s._algorithm.add 0)^[n / 8] s._invert) := by
    rw [← Function.iterate_add_apply, Nat.sub_add_cancel hsizeof]
  have hcrc : (t.process (m ++ t.result.c_str))._crc =
      (s._algorithm.add 0)^[T.sizeof - n / 8] ((s._algorithm.add 0)^[n / 8] s._invert) :=
    (process_padded_crc hn s m).trans hbytes
  have hsetup : (t.process (m ++ t.result.c_str))._algorithm = s._algorithm ∧
      (t.process (m ++ t.result.c_str))._invert = s._invert := by
    simp only [t, process_eq, and_self]
  rw [goodExtra_iff hn, hcrc, hsetup.1, hsetup.2, ← xor_eq_zero_iff]
  rfl

/-- **When a byte-padded codeword is accepted.** Processing a message together with
the `sizeof(T)` bytes of its own `result()` makes `good(W - n)` true exactly when
none of the bits is set that the top byte drops off while the inversion value is
moved out byte by byte. They depend on the inversion and the generator only. -/
theorem goodExtra_padded_iff (T : DataType) (n : Nat) (hn : native.Admits T n)
    (s : CRCStream (Poly T n)) (m : List Byte) :
    let t := s.process m
    (t.process (m ++ t.result.c_str)).goodExtra (T.bits - n) = true ↔
      ∀ i < T.bits - n,
        ((native.toPoly n s._invert * X ^ (T.bits - 8 - 8 * (i / 8))) %ₘ
          (X ^ n + BitOrder.native.toPoly n s._algorithm._generator)).coeff
            (n - 8 + i % 8) = 0 := by
  intro t
  have h8 := hn.1
  have hW := T.bits_eq
  have hle := hn.le_bits
  have hdrift := s._algorithm.byteDrift_eq_zero_iff hn ((s._algorithm.add 0)^[n / 8] s._invert)
    (T.sizeof - n / 8) (by omega)
  refine ((goodExtra_padded_iff_byteDrift hn s m).trans hdrift).trans ?_
  refine forall₂_congr fun i hi => ?_
  have htop : n - 8 + i % 8 < n := by omega
  have hpow : 8 * (T.sizeof - n / 8 - 1 - i / 8 + n / 8) = T.bits - 8 - 8 * (i / 8) := by omega
  rw [getLsbD_Poly_hibyte_of_lt n _ (Nat.mod_lt i (by decide)), ← bit_eq_zero,
    ← coeff_toPoly_native _ htop, ← Function.iterate_add_apply,
    s._algorithm.toPoly_iterate_add_zero hn, hpow]

/-- With the inversion `0x0055` a padded CAN codeword is accepted: the bit that its top byte
would drop is clear. -/
theorem goodExtra_padded_can :
    (((new canCrc 0 0x0055).process [0x31]).process
      ([0x31] ++ ((new canCrc 0 0x0055).process [0x31]).result.c_str)).goodExtra 1 = true ∧
    ((native.toPoly 15 (new canCrc 0 0x0055)._invert * X ^ 8) %ₘ
      (X ^ 15 + BitOrder.native.toPoly 15 canCrc._generator)).coeff 7 = 0 := by
  have hgood : (((new canCrc 0 0x0055).process [0x31]).process
      ([0x31] ++ ((new canCrc 0 0x0055).process [0x31]).result.c_str)).goodExtra 1 = true := by
    decide +kernel
  exact ⟨hgood, (goodExtra_padded_iff .uint16_t 15 (by decide) (new canCrc 0 0x0055) [0x31]).mp
    hgood 0 (by decide)⟩

/-- With the inversion `0x7FFF` it is not. -/
theorem not_goodExtra_padded_can :
    canCrc._generator.toNat < 2 ^ 15 ∧
      (((new canCrc 0 0x7FFF).process [0x31]).process
        ([0x31] ++ ((new canCrc 0 0x7FFF).process [0x31]).result.c_str)).goodExtra 1 = false := by
  decide +kernel

end CRCStream

end CrcPP