import CrcPP.Remainder

/-!
# CrcPP.NarrowGood

**`good` on narrow polynomials in native order.** `good` compares registers as
values of `T`, with the bits above the `n` coefficients, and the source never
masks those. Inserting the CRC behind a message moves the low `W - n` bits of the
message's register up there, so the codeword is accepted exactly when they are
clear.

Which of them are clear is followed along the message (`Follows`): as far down as
the register is clear no multiple of the generator was added, and that the byte
steps and the bit steps agree on. In terms of the input, the multiples of the
generator that the division adds must not reach down there
(`good_codeword_iff`).
-/

namespace CrcPP

open Polynomial BitPoly BitOrder

variable {T : DataType} {n : Nat}

/-! ### Clear low bits -/

/-- The low `j` bits are clear. -/
def LowClear (j : Nat) (v : T.Val) : Prop := ∀ i < j, v.getLsbD i = false

theorem LowClear.mono {j k : Nat} {v : T.Val} (h : LowClear k v) (hjk : j ≤ k) : LowClear j v :=
  fun i hi => h i (Nat.lt_of_lt_of_le hi hjk)

theorem LowClear.xor {j : Nat} {v w : T.Val} (hv : LowClear j v) (hw : LowClear j w) :
    LowClear j (v ^^^ w) := by
  intro i hi
  rw [BitVec.getLsbD_xor, hv i hi, hw i hi]
  rfl

theorem LowClear.shift {j : Nat} {v : T.Val} (h : LowClear j v) (k : Nat) :
    LowClear j ((Poly T n).shift v k) := by
  intro i hi
  rw [getLsbD_Poly_shift, h (i - k) (by omega), Bool.and_false]

/-- Shifting up by `n` leaves nothing of a value whose low `W - n` bits are clear. -/
theorem Poly_shift_eq_zero_iff (v : T.Val) :
    (Poly T n).shift v n = 0 ↔ LowClear (T.bits - n) v := by
  constructor
  · intro h i hi
    have hbit := congrArg (·.getLsbD (n + i)) h
    rwa [getLsbD_Poly_shift_add n v (by omega), getLsbD_zero_val] at hbit
  · intro h
    refine BitVec.eq_of_getLsbD_eq fun i hi => ?_
    rw [getLsbD_zero_val]
    rcases Nat.lt_or_ge i n with hin | hin
    · exact getLsbD_Poly_shift_of_lt n v hin
    · rw [getLsbD_Poly_shift, h (i - n) (by omega), Bool.and_false]

theorem lowClear_shift_one {j : Nat} (hj : j < T.bits) (v : T.Val) :
    LowClear (j + 1) ((Poly T n).shift v 1) ↔ LowClear j v := by
  constructor
  · intro h i hi
    have hbit := h (1 + i) (by omega)
    rwa [getLsbD_Poly_shift_add n v (by omega)] at hbit
  · intro h i hi
    cases i with
    | zero => exact getLsbD_Poly_shift_of_lt n v Nat.one_pos
    | succ i =>
        rw [getLsbD_Poly_shift, Nat.add_sub_cancel, h i (Nat.lt_of_succ_lt_succ hi), Bool.and_false]

theorem Poly_sethibyte_zero (n : Nat) : (Poly T n).sethibyte 0 = 0 := by
  refine BitVec.eq_of_getLsbD_eq fun i _ => ?_
  rw [getLsbD_Poly_sethibyte, getLsbD_zero_val, getLsbD_zero_val, Bool.and_false]

/-- The bits of a register's polynomial. -/
theorem coeff_toPoly_native (v : T.Val) {i : Nat} (hi : i < n) :
    (native.toPoly n v).coeff i = bit (v.getLsbD i) := by
  rw [toPoly, coeff_ofBits, if_pos hi]
  rfl

namespace CRC

variable (c : CRC (Poly T n))

/-- **What a clear register says about the step before**: a bit step leaves one
more low bit clear than there was exactly when it does not add the generator. -/
theorem lowClear_addbit_iff (hn : native.Admits T n) {j : Nat} (hj : j < T.bits) (b : Bool)
    (reg : T.Val) :
    LowClear (j + 1) (c.addbit (uint8OfBool b) reg) ↔
      (b ^^ reg.getLsbD (n - 1)) = false ∧ LowClear j reg := by
  have hlobit := c.lobit_generator
  rw [Poly_lobit, uint8OfBool_ne_zero] at hlobit
  rw [addbit, Poly_hibit hn, ← uint8OfBool_xor]
  cases b ^^ reg.getLsbD (n - 1) with
  | false =>
      rw [if_neg (by decide), lowClear_shift_one hj]
      exact (and_iff_right rfl).symm
  | true =>
      rw [if_pos (by decide)]
      refine iff_of_false (fun h => ?_) (fun h => Bool.noConfusion h.1)
      -- the generator's `X^0` term fills bit 0
      have h0 := h 0 (Nat.succ_pos j)
      rw [BitVec.getLsbD_xor, getLsbD_Poly_shift_of_lt n reg Nat.one_pos, hlobit] at h0
      exact Bool.noConfusion h0

/-- Bits that leave the low end clear are the ones the register had on top. -/
theorem eq_outBits_of_lowClear (hn : native.Admits T n) (bits : List Bool) {j : Nat}
    (hj : j + bits.length ≤ T.bits) {reg : T.Val}
    (h : LowClear (j + bits.length) (c.addBits bits reg)) :
    bits = outBits (Poly T n) bits.length reg ∧ LowClear j reg := by
  induction bits generalizing j reg with
  | nil => exact ⟨rfl, h⟩
  | cons b bits ih =>
      rw [List.length_cons, ← Nat.add_assoc, Nat.add_right_comm] at h hj
      obtain ⟨hbits, hclear⟩ := ih hj h
      obtain ⟨hfb, hlow⟩ := (c.lowClear_addbit_iff hn (by omega) b reg).mp hclear
      have hhibit : (Poly T n).hibit reg = uint8OfBool b := by
        rw [Poly_hibit hn, bne_eq_false_iff_eq.mp hfb]
      have hshift : c.addbit (uint8OfBool b) reg = (Poly T n).shift reg 1 := by
        rw [addbit, hhibit, show uint8OfBool b ^^^ uint8OfBool b = 0 from BitVec.xor_self,
          if_neg (by decide)]
      refine ⟨?_, hlow⟩
      rw [List.length_cons, outBits, hhibit, ← hshift, ← hbits]
      cases b <;> rfl

/-- What `sethibyte` and `shift` leave of a byte stands above the coefficients. -/
theorem lowClear_shift_sethibyte (d : Byte) :
    LowClear n ((Poly T n).shift ((Poly T n).sethibyte d) 8) :=
  fun _ hi => getLsbD_Poly_shift_sethibyte_of_lt d hi

/-- A byte step leaves as many low bits clear as its eight bit steps do. -/
theorem lowClear_add_iff (hn : native.Admits T n) (b : Byte) (reg : T.Val) {j : Nat} :
    LowClear j (c.add b reg) ↔ LowClear j (c.addBits (native.byteBits b) reg) := by
  have h8 := hn.1
  have hxor := add_eq_addBits_xor (o := native) hn c b reg
  change c.add b reg = c.addBits (native.byteBits b) reg ^^^
    (Poly T n).shift ((Poly T n).sethibyte ((Poly T n).hibyte reg ^^^ b)) 8 at hxor
  have hextra := lowClear_shift_sethibyte (T := T) (n := n) ((Poly T n).hibyte reg ^^^ b)
  have hlow : ∀ i < n, (c.add b reg).getLsbD i =
      (c.addBits (native.byteBits b) reg).getLsbD i := by
    intro i hi
    rw [hxor, BitVec.getLsbD_xor, hextra i hi, Bool.xor_false]
  rcases Nat.lt_or_ge n j with hj | hj
  · -- clear beyond the coefficients: then the byte was the top one, and nothing is left of it
    have key : LowClear 8 (c.addBits (native.byteBits b) reg) →
        c.add b reg = c.addBits (native.byteBits b) reg := by
      intro h
      obtain ⟨hbits, -⟩ := c.eq_outBits_of_lowClear hn (native.byteBits b) (j := 0)
        (by rw [length_byteBits]; exact T.eight_le_bits) (by rwa [length_byteBits])
      have hbyte : b = (Poly T n).hibyte reg := by
        apply native.byteBits_injective
        rw [hbits, length_byteBits]
        exact outBits_hibyte (o := native) hn reg
      rw [hxor, ← hbyte, show b ^^^ b = 0 from BitVec.xor_self, Poly_sethibyte_zero,
        (Poly_lawful hn).shift_zero_val]
      exact BitVec.xor_zero
    constructor
    · intro h
      rwa [← key]
      intro i hi
      rw [← hlow i (by omega)]
      exact h i (by omega)
    · intro h
      rwa [key (h.mono (by omega))]
  · exact forall₂_congr fun i hi => by rw [hlow i (by omega)]

/-! ### Following a message -/

/-- The dividend that a preset and the bits fed after it make. -/
noncomputable def dividend (n : Nat) (preset : T.Val) (bits : List Bool) : (ZMod 2)[X] :=
  native.toPoly n preset * X ^ bits.length + bitsPoly bits * X ^ n

/-- What the register would be without an end at the top: the preset, moved up, and
the multiples of the generator that were added. -/
noncomputable def unmasked (preset : T.Val) (bits : List Bool) : (ZMod 2)[X] :=
  native.toPoly n preset * X ^ bits.length +
    dividend n preset bits /ₘ (X ^ n + BitOrder.native.toPoly n c._generator) *
      native.toPoly n c._generator

/-- The register after `bits`: its coefficients are the remainder, and its low bits
are clear as far as those of the unmasked register. -/
structure Follows (preset : T.Val) (bits : List Bool) (reg : T.Val) : Prop where
  remainder : native.toPoly n reg =
    dividend n preset bits %ₘ (X ^ n + BitOrder.native.toPoly n c._generator)
  lowClear : ∀ j ≤ T.bits, LowClear j reg ↔ X ^ j ∣ c.unmasked preset bits

theorem dividend_concat (preset : T.Val) (bits : List Bool) (b : Bool) :
    dividend n preset (bits ++ [b]) = X * dividend n preset bits + C (bit b) * X ^ n := by
  rw [dividend, dividend, bitsPoly_concat, List.length_append, List.length_singleton, pow_succ]
  ring

variable {c} {preset reg : T.Val} {bits : List Bool}

theorem Follows.addbit (hn : native.Admits T n) (h : c.Follows preset bits reg) (b : Bool) :
    c.Follows preset (bits ++ [b]) (c.addbit (uint8OfBool b) reg) := by
  have hmonic : (X ^ n + BitOrder.native.toPoly n c._generator).Monic :=
    monic_modulus (o := native) c
  have hdegree : (X ^ n + BitOrder.native.toPoly n c._generator).natDegree = n :=
    natDegree_modulus (o := native) c
  -- the digit that this bit adds to the quotient
  have hdigit : (X * native.toPoly n reg + C (bit b) * X ^ n) /ₘ
      (X ^ n + BitOrder.native.toPoly n c._generator) = C (bit (b ^^ reg.getLsbD (n - 1))) := by
    have hdiv := ofBits_feedback_div hn.pos (native.coeff n c._generator) (native.coeff n reg) b
    rwa [BitPoly.natDegree_modulus] at hdiv
  have hunmasked : c.unmasked preset (bits ++ [b]) = X * c.unmasked preset bits +
      C (bit (b ^^ reg.getLsbD (n - 1))) * native.toPoly n c._generator := by
    have hquot := SerialDivision.divByMonic_concat hmonic (dividend n preset bits) (bit b)
    rw [hdegree, ← h.remainder, hdigit] at hquot
    rw [unmasked, unmasked, dividend_concat, hquot, List.length_append, List.length_singleton,
      pow_succ]
    ring
  have hlobit : IsUnit ((native.toPoly n c._generator).coeff 0) := by
    rw [coeff_zero_generator (o := native) hn c]
    exact isUnit_one
  constructor
  · have hstep := toPoly_addbit (o := native) hn c b reg
    have hmod := SerialDivision.step_modByMonic (X ^ n + BitOrder.native.toPoly n c._generator)
      (dividend n preset bits) (bit b)
    rw [← h.remainder, hdegree, ← dividend_concat] at hmod
    exact hstep.trans hmod
  · intro j hj
    cases j with
    | zero => exact iff_of_true (fun i hi => absurd hi (Nat.not_lt_zero i)) (one_dvd _)
    | succ j =>
        rw [hunmasked, SerialDivision.X_pow_succ_dvd_iff hlobit, bit_eq_zero,
          c.lowClear_addbit_iff hn hj, h.lowClear j (Nat.le_of_succ_le hj)]

theorem Follows.addBits (hn : native.Admits T n) (h : c.Follows preset bits reg)
    (fed : List Bool) : c.Follows preset (bits ++ fed) (c.addBits fed reg) := by
  induction fed generalizing bits reg with
  | nil => rwa [List.append_nil]
  | cons b fed ih =>
      rw [List.append_cons]
      exact ih (h.addbit hn b)

/-- A byte step follows its eight bits. -/
theorem Follows.add (hn : native.Admits T n) (h : c.Follows preset bits reg) (b : Byte) :
    c.Follows preset (bits ++ BitOrder.native.byteBits b) (c.add b reg) := by
  have hbits := h.addBits hn (native.byteBits b)
  constructor
  · rw [← hbits.remainder]
    exact (toPoly_add (o := native) hn c b reg).trans
      (toPoly_addBits (o := native) hn c (native.byteBits b) reg).symm
  · intro j hj
    rw [c.lowClear_add_iff hn b reg]
    exact hbits.lowClear j hj

theorem Follows.addBytes (hn : native.Admits T n) (h : c.Follows preset bits reg)
    (bs : List Byte) :
    c.Follows preset (bits ++ BitOrder.native.bytesBits bs) (c.addBytes bs reg) := by
  induction bs generalizing bits reg with
  | nil => rwa [bytesBits_nil, List.append_nil]
  | cons b bs ih =>
      rw [bytesBits_cons, ← List.append_assoc]
      exact ih (h.add hn b)

/-- The word loop, at any point of its count. -/
theorem Follows.addPolyBytes (hn : native.Admits T n) (i : Nat) (work : T.Val)
    (h : c.Follows preset bits reg) :
    c.Follows preset (bits ++ outBits (Poly T n) i work) (c.addPolyBytes i work reg) := by
  have hP := Poly_lawful hn
  induction i using Nat.strong_induction_on generalizing bits work reg with
  | _ i ih =>
      rcases Nat.lt_or_ge i 8 with h8 | h8
      · rw [c.addPolyBytes_of_lt h8, c.addPolyBits_eq hP]
        exact h.addBits hn _
      · obtain ⟨i, rfl⟩ := Nat.exists_eq_add_of_le' h8
        have hbyte : outBits (Poly T n) 8 work = native.byteBits ((Poly T n).hibyte work) :=
          outBits_hibyte (o := native) hn work
        rw [addPolyBytes_add_eight, Nat.add_comm i 8, outBits_add hP, hbyte, ← List.append_assoc]
        exact ih i (by omega) _ (h.add hn _)

/-- Before anything is fed. -/
theorem Follows.nil (hp : preset.toNat < 2 ^ n) :
    c.Follows preset [] preset := by
  have hdividend : dividend n preset [] = native.toPoly n preset := by
    rw [dividend, List.length_nil, pow_zero, mul_one]
    exact (congrArg _ (zero_mul _)).trans (add_zero _)
  have hdeg : (native.toPoly n preset).degree <
      (X ^ n + BitOrder.native.toPoly n c._generator).degree :=
    degree_toPoly_lt_modulus (o := native) c preset
  have hmonic : (X ^ n + BitOrder.native.toPoly n c._generator).Monic :=
    monic_modulus (o := native) c
  have hunmasked : c.unmasked preset [] = native.toPoly n preset := by
    rw [unmasked, hdividend, (divByMonic_eq_zero_iff hmonic).mpr hdeg, zero_mul, add_zero,
      List.length_nil, pow_zero, mul_one]
  constructor
  · rw [hdividend, (modByMonic_eq_self_iff hmonic).mpr hdeg]
  · intro j _
    rw [hunmasked, X_pow_dvd_iff]
    refine forall₂_congr fun i _ => ?_
    rcases Nat.lt_or_ge i n with hin | hin
    · rw [coeff_toPoly_native preset hin, bit_eq_zero]
    · rw [toPoly, coeff_ofBits, if_neg (Nat.not_lt.mpr hin)]
      exact iff_of_true
        (Nat.testBit_lt_two_pow (hp.trans_le (Nat.pow_le_pow_right (by decide) hin))) rfl

end CRC

namespace CRCStream

theorem follows_feed (hn : native.Admits T n) {s : CRCStream (Poly T n)} {preset : T.Val}
    {bits : List Bool} (h : s._algorithm.Follows preset bits s._crc) (f : Feed T) :
    s._algorithm.Follows preset (bits ++ f.bits native n) (s.feed f)._crc := by
  cases f with
  | insert i =>
      rw [feed, insert_eq]
      exact h.addBytes hn i.data
  | poly p =>
      have hword := h.addPolyBytes hn n p
      rwa [show outBits (Poly T n) n p = native.polyBits n p from
        outBits_numbits (o := native) hn p] at hword
  | bit b => exact h.addbit hn b

theorem follows_feedAll (hn : native.Admits T n) {s : CRCStream (Poly T n)} {preset : T.Val}
    {bits : List Bool} (h : s._algorithm.Follows preset bits s._crc) (fs : List (Feed T)) :
    s._algorithm.Follows preset (bits ++ fs.flatMap (Feed.bits native n)) (s.feedAll fs)._crc := by
  induction fs generalizing s bits with
  | nil => rwa [List.flatMap_nil, List.append_nil]
  | cons f fs ih =>
      have hfeed := follows_feed hn h f
      rw [List.flatMap_cons, ← List.append_assoc, feedAll_cons]
      rw [← (sameSetup_feed s f).algorithm] at hfeed ⊢
      exact ih hfeed

/-- From `reset` on the register follows the message. -/
theorem follows_reset_feedAll (hn : native.Admits T n) (stream : CRCStream (Poly T n))
    (hp : stream._preset.toNat < 2 ^ n) (msg : List (Feed T)) :
    stream._algorithm.Follows stream._preset (msg.flatMap (Feed.bits native n))
      (stream.reset.feedAll msg)._crc :=
  follows_feedAll hn (s := stream.reset) (CRC.Follows.nil hp) msg

/-! ### `good` -/

theorem good_codeword_iff_lowClear (hn : native.Admits T n) (s : CRCStream (Poly T n)) :
    (s.insertPoly s.crc).good = true ↔ LowClear (T.bits - n) s._crc := by
  rw [good_insertPoly_crc (Poly_lawful hn)]
  exact Poly_shift_eq_zero_iff s._crc

/-- **When a correct narrow codeword is accepted.** After `reset`, from a preset below
`2^n`, and any message, inserting the stream's own `crc()` makes `good` true exactly
when `X^(W-n)` divides what the register would be without an end at the top: the
preset moved up, and the generator times the quotient of the division. -/
theorem good_codeword_iff (T : DataType) (n : Nat) (hn : native.Admits T n)
    (stream : CRCStream (Poly T n)) (hp : stream._preset.toNat < 2 ^ n) (msg : List (Feed T)) :
    let s := stream.reset.feedAll msg
    let bits := msg.flatMap (Feed.bits native n)
    let p := native.toPoly n stream._preset
    let g := native.toPoly n stream._algorithm._generator
    (s.insertPoly s.crc).good = true ↔
      X ^ (T.bits - n) ∣
        p * X ^ bits.length +
          (p * X ^ bits.length + bitsPoly bits * X ^ n) /ₘ (X ^ n + g) * g := by
  intro s bits p g
  rw [good_codeword_iff_lowClear hn]
  exact (follows_reset_feedAll hn stream hp msg).lowClear _ (Nat.sub_le T.bits n)

/-- A CAN codeword that is accepted: after the byte 3 the register is `0x0B32`, and what was
added to it on the way is a multiple of `X`. -/
theorem good_codeword_can :
    let s := (new canCrc 0 0x7FFF).reset.feedAll [.insert (.byte 0x03)]
    let bits := [Feed.insert (.byte 0x03)].flatMap (Feed.bits (T := .uint16_t) native 15)
    let p := native.toPoly 15 (new canCrc 0 0x7FFF)._preset
    let g := native.toPoly 15 canCrc._generator
    s._crc = 0x0B32 ∧ (s.insertPoly s.crc).good = true ∧
      X ^ 1 ∣ p * X ^ bits.length +
        (p * X ^ bits.length + bitsPoly bits * X ^ 15) /ₘ (X ^ 15 + g) * g := by
  intro s bits p g
  have hgood : (s.insertPoly s.crc).good = true := by decide +kernel
  exact ⟨by decide +kernel, hgood,
    (good_codeword_iff .uint16_t 15 (by decide) (new canCrc 0 0x7FFF) (by decide)
      [.insert (.byte 0x03)]).mp hgood⟩

/-- A CAN codeword that is not: after a single set bit the register is the
generator. -/
theorem not_good_codeword_can :
    canCrc._generator.toNat < 2 ^ 15 ∧
      (((new canCrc 0 0).reset.feedAll [.bit true]).insertPoly
        ((new canCrc 0 0).reset.feedAll [.bit true]).crc).good = false := by
  decide +kernel

/-- Where the bits above the coefficients are no more than these, acceptance is a
property of the remainder: its lowest coefficients have to be zero. -/
theorem good_codeword_iff_coeff (hn : native.Admits T n) (hW : T.bits ≤ 2 * n)
    (stream : CRCStream (Poly T n)) (hp : stream._preset.toNat < 2 ^ n) (msg : List (Feed T)) :
    let s := stream.reset.feedAll msg
    let bits := msg.flatMap (Feed.bits native n)
    (s.insertPoly s.crc).good = true ↔
      ∀ i < T.bits - n,
        (CRC.dividend n stream._preset bits %ₘ
          (X ^ n + BitOrder.native.toPoly n stream._algorithm._generator)).coeff i = 0 := by
  intro s bits
  rw [good_codeword_iff_lowClear hn, ← (follows_reset_feedAll hn stream hp msg).remainder]
  refine forall₂_congr fun i hi => ?_
  rw [coeff_toPoly_native s._crc (by omega), bit_eq_zero]

end CRCStream

end CrcPP
