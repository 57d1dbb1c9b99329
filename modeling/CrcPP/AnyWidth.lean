import CrcPP.NarrowNetwork
import CrcPP.Table

/-!
# CrcPP.AnyWidth

**The CRC of `n` bits, in whatever class.** In native order a class `Poly<T, n>` calculates
with the low `n` bits and drags others along; in network order `PolyN<T, n>` calculates
with all bits of `T`, of which those from `n` on have to be clear. Seen as polynomials with
`n` coefficients both divide by `X^n + generator` (`toPoly_run_eq`), and neither the type
nor the order appears in the result (`crc_representation`).

So whatever the width, a word that `good` accepts behind a message is the CRC of the
message (`good_sound`).
-/

namespace CrcPP

open Polynomial BitPoly BitOrder

variable {T : DataType} {o : BitOrder} {n : Nat}

/-- A value that a class of width `n` can use: in network order no bit from `n` on is set. -/
def BitOrder.Fits (o : BitOrder) (n : Nat) (v : T.Val) : Prop :=
  match o with
  | native => True
  | network => v.toNat < 2 ^ n

instance (o : BitOrder) (n : Nat) (v : T.Val) : Decidable (o.Fits n v) :=
  match o with
  | .native => inferInstanceAs (Decidable True)
  | .network => inferInstanceAs (Decidable (v.toNat < 2 ^ n))

theorem fits_bits (o : BitOrder) (v : T.Val) : o.Fits T.bits v := by
  cases o with
  | native => trivial
  | network => exact v.isLt

/-- The coefficients a class calculates with are the `n` ones of the value, moved up. -/
theorem toPoly_regBits (hn : o.Admits T n) {v : T.Val} (hv : o.Fits n v) :
    o.toPoly (o.regBits T n) v = X ^ (o.regBits T n - n) * o.toPoly n v := by
  cases o with
  | native => rw [regBits, Nat.sub_self, pow_zero, one_mul]
  | network => exact toPoly_bits_of_lt hn hv

namespace CRC

/-- `X^n + generator`. -/
noncomputable def divisor (c : CRC (o.polyType T n)) : (ZMod 2)[X] :=
  X ^ n + o.toPoly n c._generator

variable (c : CRC (o.polyType T n))

theorem monic_divisor : c.divisor.Monic := monic_X_pow_add (degree_toPoly_lt o n _)

theorem natDegree_divisor : c.divisor.natDegree = n := BitPoly.natDegree_modulus n _

theorem degree_toPoly_lt_divisor (v : T.Val) : (o.toPoly n v).degree < c.divisor.degree :=
  degree_ofBits_lt_modulus n _ _

theorem modulus_eq_divisor (hn : o.Admits T n) (hg : o.Fits n c._generator) :
    c.modulus = X ^ (o.regBits T n - n) * c.divisor := by
  have hle : n ≤ o.regBits T n := by
    cases o with
    | native => exact Nat.le_refl n
    | network => exact hn.le_bits
  rw [modulus_eq, toPoly_regBits hn hg, divisor, mul_add, ← pow_add, Nat.sub_add_cancel hle]

/-- What a class does to the coefficients it calculates with, it does to the `n` ones. -/
theorem toPoly_eq_run (hn : o.Admits T n) (hg : o.Fits n c._generator) {reg reg' : T.Val}
    (hreg : o.Fits n reg) (hreg' : o.Fits n reg') {bits : List Bool}
    (h : o.toPoly (o.regBits T n) reg' =
      SerialDivision.run c.modulus (o.toPoly (o.regBits T n) reg) (bits.map bit)) :
    o.toPoly n reg' = SerialDivision.run c.divisor (o.toPoly n reg) (bits.map bit) := by
  rw [c.modulus_eq_divisor hn hg, toPoly_regBits hn hreg, toPoly_regBits hn hreg',
    SerialDivision.run_X_pow_mul c.monic_divisor] at h
  exact mul_left_cancel₀ (monic_X_pow _).ne_zero h

end CRC

/-! ### Nothing leaves the width -/

theorem CRC.fits_addBits {c : CRC (o.polyType T n)} (hg : o.Fits n c._generator)
    (bits : List Bool) {reg : T.Val} (hreg : o.Fits n reg) : o.Fits n (c.addBits bits reg) := by
  cases o with
  | native => trivial
  | network => exact addBits_lt hg bits hreg

theorem CRC.fits_addPoly (hn : o.Admits T n) {c : CRC (o.polyType T n)}
    (hg : o.Fits n c._generator) (w : T.Val) {reg : T.Val} (hreg : o.Fits n reg) :
    o.Fits n (c.addPoly w reg) := by
  cases o with
  | native => trivial
  | network =>
      have hbits : c.addPoly w reg = c.addBits (network.polyBits n w) reg :=
        CRC.addPoly_eq_addBits (o := network) hn (PolyN_byteExact T n) c w reg
      rw [hbits]
      exact CRC.addBits_lt hg _ hreg

theorem CRCStream.fits_run (hn : o.Admits T n) {s : CRCStream (o.polyType T n)}
    (hg : o.Fits n s._algorithm._generator) (hp : o.Fits n s._preset) (hs : o.Fits n s._crc)
    (ops : List (StreamOp T)) : o.Fits n (s.run ops)._crc := by
  cases o with
  | native => trivial
  | network => exact run_crc_lt hn hg hp hs ops

/-- Values with the same coefficients, in any two classes. -/
theorem toPoly_eq_iff {o' : BitOrder} {T' : DataType} {v : T.Val} {w : T'.Val} :
    o.toPoly n v = o'.toPoly n w ↔ ∀ k < n, o.coeff n v k = o'.coeff n w k := by
  constructor
  · intro h k hk
    have hcoeff := congrArg (fun p => p.coeff k) h
    simp only [toPoly, coeff_ofBits, if_pos hk] at hcoeff
    exact bit_injective hcoeff
  · exact fun h => ofBits_congr h

namespace CRCStream

variable {c : CRC (o.polyType T n)}

end CRCStream

/-! ### What `good` accepts -/

namespace CRC

variable {c : CRC (o.polyType T n)}

theorem isUnit_coeff_zero_divisor (hn : o.Admits T n) (c : CRC (o.polyType T n)) :
    IsUnit (c.divisor.coeff 0) := isUnit_coeff_zero hn c

/-- A word that is fed meets the register at the top, and both are moved up. -/
theorem toPoly_addPoly_eq (hn : o.Admits T n) (hg : o.Fits n c._generator) (w : T.Val)
    {reg : T.Val} (hreg : o.Fits n reg) :
    o.toPoly n (c.addPoly w reg) =
      ((o.toPoly n reg + o.toPoly n w) * X ^ n) %ₘ c.divisor := by
  rw [c.toPoly_eq_run hn hg hreg (fits_addPoly hn hg w hreg) (c.toPoly_addPoly hn w reg),
    SerialDivision.run_eq c.monic_divisor (c.degree_toPoly_lt_divisor reg), c.natDegree_divisor,
    List.length_map, length_polyBits, add_mul, ← bitsPoly_polyBits o n w]
  rfl

/-- Two words leave one register when they differ as the registers in front of them do. -/
theorem toPoly_addPoly_inj (hn : o.Admits T n) (hg : o.Fits n c._generator) {v w : T.Val}
    {reg reg' : T.Val} (hreg : o.Fits n reg) (hreg' : o.Fits n reg') :
    o.toPoly n (c.addPoly v reg) = o.toPoly n (c.addPoly w reg') ↔
      o.toPoly n (reg ^^^ v) = o.toPoly n (reg' ^^^ w) := by
  rw [toPoly_addPoly_eq hn hg v hreg, toPoly_addPoly_eq hn hg w hreg', ← toPoly_xor, ← toPoly_xor]
  exact SerialDivision.mul_X_pow_modByMonic_inj c.monic_divisor (isUnit_coeff_zero_divisor hn c)
    (c.degree_toPoly_lt_divisor _) (c.degree_toPoly_lt_divisor _) n

end CRC

/-- Values that fit are told apart by their coefficients. -/
theorem eq_of_fits {v w : T.Val} (h : o = .network ∨ n = T.bits) (hn : o.Admits T n)
    (hv : o.Fits n v) (hw : o.Fits n w) (hcoeff : ∀ k < n, o.coeff n v k = o.coeff n w k) :
    v = w := by
  obtain rfl | rfl := h
  · refine BitVec.eq_of_getLsbD_eq fun i _ => ?_
    rcases Nat.lt_or_ge i n with hi | hi
    · have hk := hcoeff (n - 1 - i) (by omega)
      rwa [BitOrder.coeff, BitOrder.coeff, show n - 1 - (n - 1 - i) = i by omega] at hk
    · have hpow := Nat.pow_le_pow_right (show 0 < 2 by decide) hi
      rw [BitVec.getLsbD, BitVec.getLsbD, Nat.testBit_lt_two_pow (hv.trans_le hpow),
        Nat.testBit_lt_two_pow (hw.trans_le hpow)]
  · exact o.eq_of_coeff hcoeff

namespace CRCStream

variable {s : CRCStream (o.polyType T n)}

/-- A word that `good` accepts is the CRC. -/
theorem coeff_eq_of_good (hn : o.Admits T n) (hg : o.Fits n s._algorithm._generator)
    (hcrc : o.Fits n s._crc) (w : T.Val) (h : (s.insertPoly w).good = true) :
    ∀ k < n, o.coeff n w k = o.coeff n s.crc k := by
  have hreg : s._algorithm.addPoly w s._crc = s._algorithm.addPoly s._invert 0 := by
    simpa [good, insertPoly] using h
  have hzero : o.Fits n (0 : T.Val) := by
    cases o with
    | native => trivial
    | network => exact Nat.two_pow_pos n
  have hsum := (CRC.toPoly_addPoly_inj hn hg hcrc hzero).mp (congrArg (o.toPoly n) hreg)
  rw [toPoly_xor, toPoly_xor, toPoly_zero] at hsum
  rw [← toPoly_eq_iff, crc, toPoly_xor]
  linear_combination hsum - BitPoly.add_self (o.toPoly n s._crc)

/-- In network order, and at full width, `good` accepts the CRC too. -/
theorem good_of_coeff_eq (h : o = .network ∨ n = T.bits) (hn : o.Admits T n)
    (hcrc : o.Fits n s._crc) (hinvert : o.Fits n s._invert) {w : T.Val} (hw : o.Fits n w)
    (hcoeff : ∀ k < n, o.coeff n w k = o.coeff n s.crc k) : (s.insertPoly w).good = true := by
  have hfits : o.Fits n s.crc := by
    cases o with
    | native => trivial
    | network =>
        rw [crc, BitOrder.Fits, BitVec.toNat_xor]
        exact Nat.xor_lt_two_pow hcrc hinvert
  rw [eq_of_fits h hn hw hfits hcoeff, good_insertPoly_crc (polyType_lawful hn)]
  obtain rfl | rfl := h
  · exact PolyN_shift_eq_zero hcrc
  · exact (polyType_lossless o T).shift_numbits _

/-- **`good` never accepts a wrong CRC**, at any width: after any run, a word that passes
has the coefficients of `crc()`. In network order, and at full width, it accepts every word
that has them. -/
theorem good_sound (hn : o.Admits T n) (c : CRC (o.polyType T n)) (hg : o.Fits n c._generator)
    {p v : T.Val} (hp : o.Fits n p) (hv : o.Fits n v) (ops : List (StreamOp T)) (w : T.Val) :
    let s := (new c p v).run ops
    ((s.insertPoly w).good = true → ∀ k < n, o.coeff n w k = o.coeff n s.crc k) ∧
      (o = .network ∨ n = T.bits → o.Fits n w →
        (∀ k < n, o.coeff n w k = o.coeff n s.crc k) → (s.insertPoly w).good = true) := by
  intro s
  have hsetup := sameSetup_run (new c p v) ops
  have hcrc : o.Fits n s._crc := fits_run (s := new c p v) hn hg hp hp ops
  have hgen : o.Fits n s._algorithm._generator := by
    rw [hsetup.algorithm]
    exact hg
  have hinvert : o.Fits n s._invert := by
    rw [hsetup.invert]
    exact hv
  exact ⟨coeff_eq_of_good hn hgen hcrc w, fun h hw => good_of_coeff_eq h hn hcrc hinvert hw⟩

/-- CAN in network order, after a byte and a bit: the word `0x1CA3` passes, so it is the CRC, and
since it is the CRC, it passes. -/
theorem good_sound_can :
    let s := (new canCrcN 0x7FFF 0).run [.feed (.insert (.byte 0x31)), .feed (.bit true)]
    (∀ k < 15, network.coeff 15 (T := .uint16_t) 0x1CA3 k = network.coeff 15 s.crc k) ∧
      (s.insertPoly 0x1CA3).good = true := by
  intro s
  have hsound := good_sound (o := network) (T := .uint16_t) (n := 15) (by decide) canCrcN
    (by decide) (p := 0x7FFF) (v := 0) (by decide) (by decide)
    [.feed (.insert (.byte 0x31)), .feed (.bit true)] 0x1CA3
  exact ⟨hsound.1 (by decide +kernel), hsound.2 (.inl rfl) (by decide) (by decide +kernel)⟩

end CRCStream

/-! ### Padding -/

namespace CRC

theorem addBits_replicate_false (c : CRC (o.polyType T n)) (k : Nat) (reg : T.Val) :
    c.addBits (List.replicate k false) reg = (c.addbit 0)^[k] reg := by
  induction k generalizing reg with
  | zero => rfl
  | succ k ih => exact ih _

variable {c : CRC (o.polyType T n)}

/-- Zero bits move a register up. -/
theorem toPoly_iterate_addbit_zero (hn : o.Admits T n) (hg : o.Fits n c._generator) (k : Nat)
    {reg : T.Val} (hreg : o.Fits n reg) :
    o.toPoly n ((c.addbit 0)^[k] reg) = (o.toPoly n reg * X ^ k) %ₘ c.divisor := by
  rw [← addBits_replicate_false,
    c.toPoly_eq_run hn hg hreg (fits_addBits hg _ hreg) (c.toPoly_addBits hn _ reg),
    SerialDivision.run_eq c.monic_divisor (c.degree_toPoly_lt_divisor reg), List.length_map,
    List.length_replicate, ← bitsPoly, bitsPoly_replicate_false, zero_mul, add_zero]

/-- They keep registers apart. -/
theorem iterate_addbit_zero_inj (h : o = .network ∨ n = T.bits) (hn : o.Admits T n)
    (hg : o.Fits n c._generator) (k : Nat) {v w : T.Val} (hv : o.Fits n v) (hw : o.Fits n w) :
    (c.addbit 0)^[k] v = (c.addbit 0)^[k] w ↔ v = w := by
  constructor
  · intro heq
    have hpoly := congrArg (o.toPoly n) heq
    rw [toPoly_iterate_addbit_zero hn hg k hv, toPoly_iterate_addbit_zero hn hg k hw,
      SerialDivision.mul_X_pow_modByMonic_inj c.monic_divisor (isUnit_coeff_zero_divisor hn c)
        (c.degree_toPoly_lt_divisor v) (c.degree_toPoly_lt_divisor w), toPoly_eq_iff] at hpoly
    exact eq_of_fits h hn hv hw hpoly
  · rintro rfl
    rfl

end CRC

theorem outBits_zero (hn : o.Admits T n) (k : Nat) :
    outBits (o.polyType T n) k 0 = List.replicate k false := by
  have hP := polyType_lawful hn
  have hhibit : (o.polyType T n).hibit 0 = 0 := by
    have h := hP.hibit_xor 0 0
    rwa [BitVec.xor_self, BitVec.xor_self] at h
  induction k with
  | zero => rfl
  | succ k ih =>
      rw [outBits, hP.shift_zero_val, ih, hhibit]
      rfl

/-- The bytes of a narrow word in network order: its bits, and zeros. -/
theorem bytesBits_c_str_of_lt (hn : network.Admits T n) {w : T.Val} (hw : w.toNat < 2 ^ n) :
    network.bytesBits (CRCResult.new (PolyN T n) w).c_str =
      network.polyBits n w ++ List.replicate (T.bits - n) false := by
  have hbytes := bytesBits_resultBytes (o := network) hn T.sizeof w
  have hsplit := outBits_add (polyType_lawful (o := network) hn) n (T.bits - n) w
  have hshift : (network.polyType T n).shift w n = 0 := PolyN_shift_eq_zero hw
  rw [outBits_numbits (o := network) hn, hshift, outBits_zero (o := network) hn,
    Nat.add_sub_cancel' hn.le_bits] at hsplit
  rw [← T.bits_eq] at hbytes
  exact hbytes.trans hsplit

namespace CRCStream

/-- `good` at a narrow width in network order. -/
theorem good_insertPoly_network {s : CRCStream (PolyN T n)} (hn : network.Admits T n)
    (hg : s._algorithm._generator.toNat < 2 ^ n) (hcrc : s._crc.toNat < 2 ^ n)
    (hinvert : s._invert.toNat < 2 ^ n) {w : T.Val} (hw : w.toNat < 2 ^ n) :
    (s.insertPoly w).good = true ↔ w = s.crc := by
  have hfits : s.crc.toNat < 2 ^ n := by
    rw [crc, BitVec.toNat_xor]
    exact Nat.xor_lt_two_pow hcrc hinvert
  constructor
  · intro h
    exact eq_of_fits (o := network) (.inl rfl) hn hw hfits
      (coeff_eq_of_good (o := network) hn hg hcrc w h)
  · rintro rfl
    exact good_of_coeff_eq (o := network) (.inl rfl) hn hcrc hinvert hfits fun _ _ => rfl

/-- Feeding the bytes of a narrow word is inserting it, and zero bits behind it. -/
theorem process_append_c_str {s : CRCStream (PolyN T n)} (hn : network.Admits T n) (m : List Byte)
    {w : T.Val} (hw : w.toNat < 2 ^ n) :
    (s.process (m ++ (CRCResult.new (PolyN T n) w).c_str))._crc =
      (s._algorithm.addbit 0)^[T.bits - n] ((s.process m).insertPoly w)._crc := by
  have hx := PolyN_byteExact T n
  have hbytes : ∀ (bs : List Byte) (reg : T.Val), s._algorithm.addBytes bs reg =
      s._algorithm.addBits (network.bytesBits bs) reg :=
    CRC.addBytes_eq_addBits (o := network) hn hx s._algorithm
  have hpoly : ∀ reg : T.Val, s._algorithm.addPoly w reg =
      s._algorithm.addBits (network.polyBits n w) reg :=
    CRC.addPoly_eq_addBits (o := network) hn hx s._algorithm w
  have hzeros : ∀ reg : T.Val, s._algorithm.addBits (List.replicate (T.bits - n) false) reg =
      (s._algorithm.addbit 0)^[T.bits - n] reg :=
    CRC.addBits_replicate_false (o := network) s._algorithm (T.bits - n)
  simp only [process_eq, insertPoly]
  rw [CRC.addBytes_append, hbytes (CRCResult.c_str _), bytesBits_c_str_of_lt hn hw,
    CRC.addBits_append, hzeros, hpoly]

/-- **Padded codewords.** In network order `good(extrabits)` accepts a message with the
bytes of a narrow word behind it, zeros filling the last ones up, exactly when the word is
the message's CRC. -/
theorem goodExtra_padded_network (T : DataType) (n : Nat) (hn : network.Admits T n)
    (c : CRC (PolyN T n)) (hg : c._generator.toNat < 2 ^ n) {p v : T.Val}
    (hp : p.toNat < 2 ^ n) (hv : v.toNat < 2 ^ n) (ops : List (StreamOp T)) (m : List Byte)
    {w : T.Val} (hw : w.toNat < 2 ^ n) :
    let s := (new c p v).run ops
    (s.process (m ++ (CRCResult.new (PolyN T n) w).c_str)).goodExtra (T.bits - n) = true ↔
      w = (s.process m).crc := by
  intro s
  have hsetup := sameSetup_run (new c p v) ops
  have hgen : s._algorithm._generator.toNat < 2 ^ n := by
    rw [hsetup.algorithm]
    exact hg
  have hinvert : s._invert.toNat < 2 ^ n := by
    rw [hsetup.invert]
    exact hv
  have hcrc : (s.process m)._crc.toNat < 2 ^ n := by
    have hbytes : s._algorithm.addBytes m s._preset =
        s._algorithm.addBits (network.bytesBits m) s._preset :=
      CRC.addBytes_eq_addBits (o := network) hn (PolyN_byteExact T n) s._algorithm m s._preset
    rw [process_eq, hbytes]
    refine CRC.addBits_lt hgen _ ?_
    rw [hsetup.preset]
    exact hp
  have hzero : (0 : T.Val).toNat < 2 ^ n := Nat.two_pow_pos n
  have hword := CRC.fits_addPoly (o := network) hn hgen w hcrc
  have hgood := CRC.fits_addPoly (o := network) hn hgen s._invert hzero
  -- the same zero bits follow on both sides
  have hinj :=
    CRC.iterate_addbit_zero_inj (o := network) (.inl rfl) hn hgen (T.bits - n) hword hgood
  have hiff := good_insertPoly_network (s := s.process m) hn hgen hcrc hinvert hw
  rw [good, beq_iff_eq] at hiff
  rw [goodExtra, beq_iff_eq, process_append_c_str hn m hw]
  exact hinj.trans hiff

/-- CAN in network order, with an inversion: the 15 bits of the CRC and one of padding. -/
theorem goodExtra_padded_network_can :
    (((new canCrcN 0x7FFF 0x7FFF).run [.feed (.bit true)]).process
        ([0x31] ++ (CRCResult.new (PolyN .uint16_t 15) 0x46B8).c_str)).goodExtra 1 = true ∧
      0x46B8 = (((new canCrcN 0x7FFF 0x7FFF).run [.feed (.bit true)]).process [0x31]).crc := by
  have hcrc : 0x46B8 =
      (((new canCrcN 0x7FFF 0x7FFF).run [.feed (.bit true)]).process [0x31]).crc := by
    decide +kernel
  exact ⟨(goodExtra_padded_network .uint16_t 15 (by decide) canCrcN (by decide) (by decide)
    (by decide) [.feed (.bit true)] [0x31] (by decide)).mpr hcrc, hcrc⟩

end CRCStream

end CrcPP
