import CrcPP.Check

/-!
# CrcPP.Convergence

**The constructor accepts exactly the generators for which nothing is lost.**

With an `X^0` term in the generator, every update of a register can be undone:
the bit step (`addbit_injective`), the byte step through the table
(`add_injective`) and so the run over a message (`addBytes_injective`). Without
it the two registers that a bit step shifts up to the generator and clears to
zero collide (`not_injective_bitUpdate`).
-/

namespace CrcPP

variable {T : DataType} {P : PolyType T}

/-- The update `addbit` makes, for a generator that need not be accepted. -/
def bitUpdate (P : PolyType T) (generator : T.Val) (bit : Byte) (reg : T.Val) : T.Val :=
  if bit ^^^ P.hibit reg ≠ 0 then P.shift reg 1 ^^^ generator else P.shift reg 1

theorem CRC.addbit_eq_bitUpdate (c : CRC P) : c.addbit = bitUpdate P c._generator := rfl

/-! ### Accepted generators -/

namespace CRC

/-- A set data bit adds the generator to what a zero bit does. -/
theorem addbit_one (hP : P.Lawful) (c : CRC P) (reg : T.Val) :
    c.addbit 1 reg = c.addbit 0 reg ^^^ c._generator := by
  rw [addbit, addbit]
  rcases hP.hibit_cases reg with h | h
  · rw [h, if_pos (by decide), if_neg (by decide)]
  · rw [h, if_neg (by decide), if_pos (by decide), xor_xor_cancel]

theorem addbit_injective (hP : P.Lossless) (c : CRC P) (b : Bool) :
    Function.Injective (c.addbit (uint8OfBool b)) := by
  cases b with
  | false => exact c.addbit_zero_injective hP
  | true =>
      intro v w h
      simp only [uint8OfBool_true, c.addbit_one hP.toLawful] at h
      apply c.addbit_zero_injective hP
      rw [eq_xor_of_xor_eq h, xor_xor_cancel]

theorem add_injective (hP : P.Lossless) (c : CRC P) (data : Byte) :
    Function.Injective (c.add data) := by
  -- the byte is mixed in from the top, then a zero byte is fed
  have hadd : ∀ reg, c.add data reg = c.add 0 (reg ^^^ P.sethibyte data) := by
    intro reg
    have h := c.add_xor hP.toLawful (P.sethibyte data) reg
    rw [hP.hibyte_sethibyte, hP.shift_sethibyte] at h
    exact BitVec.xor_zero.symm.trans h
  intro v w h
  rw [hadd, hadd] at h
  have hmixed := c.add_zero_injective hP h
  rw [eq_xor_of_xor_eq hmixed, xor_xor_cancel]

theorem addBytes_injective (hP : P.Lossless) (c : CRC P) (bs : List Byte) :
    Function.Injective (c.addBytes bs) := by
  induction bs with
  | nil => exact Function.injective_id
  | cons b bs ih => exact ih.comp (c.add_injective hP b)

end CRC

/-! ### Rejected generators -/

/-- A value without an `X^0` term is another one shifted up, and its top
coefficient can be chosen. -/
theorem exists_shift_eq (o : BitOrder) {v : T.Val}
    (h : (o.polyType T T.bits).lobit v = 0) :
    ∃ u, (o.polyType T T.bits).hibit u = 1 ∧ (o.polyType T T.bits).shift u 1 = v := by
  have hT := T.eight_le_bits
  have hn := o.admits_bits T
  cases o with
  | native =>
      have h0 : v.getLsbD 0 = false := by
        simpa only [BitOrder.polyType, Poly_lobit, uint8OfBool_eq_zero] using h
      refine ⟨v >>> 1 ||| BitVec.twoPow T.bits (T.bits - 1), ?_, ?_⟩
      · simp only [BitOrder.polyType]
        rw [Poly_hibit hn, BitVec.getLsbD_or, BitVec.getLsbD_twoPow,
          decide_eq_true (by omega : T.bits - 1 < T.bits), decide_eq_true rfl, Bool.and_true,
          Bool.or_true, uint8OfBool_true]
      · refine BitVec.eq_of_getLsbD_eq fun i hi => ?_
        simp only [BitOrder.polyType]
        cases i with
        | zero => rw [getLsbD_Poly_shift_of_lt _ _ Nat.one_pos, h0]
        | succ i =>
            rw [Nat.add_comm i 1, getLsbD_Poly_shift_add _ _ (by omega), BitVec.getLsbD_or,
              BitVec.getLsbD_ushiftRight, BitVec.getLsbD_twoPow,
              decide_eq_false (by omega : ¬ T.bits - 1 = i), Bool.and_false, Bool.or_false]
  | network =>
      have h0 : v.getLsbD (T.bits - 1) = false := by
        simpa only [BitOrder.polyType, PolyN_lobit hn, uint8OfBool_eq_zero] using h
      refine ⟨v <<< 1 ||| 1, ?_, ?_⟩
      · simp only [BitOrder.polyType, PolyN_hibit, BitVec.getLsbD_or]
        rw [show (1 : T.Val).getLsbD 0 = true by cases T <;> rfl, Bool.or_true, uint8OfBool_true]
      · refine BitVec.eq_of_getLsbD_eq fun i hi => ?_
        have hone : (1 : T.Val).getLsbD (1 + i) = false := by
          rw [show (1 : T.Val) = BitVec.twoPow T.bits 0 by cases T <;> rfl, BitVec.getLsbD_twoPow,
            decide_eq_false (by omega : ¬ 0 = 1 + i), Bool.and_false]
        simp only [BitOrder.polyType, getLsbD_PolyN_shift]
        rw [BitVec.getLsbD_or, hone, Bool.or_false, BitVec.getLsbD_shiftLeft,
          Nat.add_sub_cancel_left]
        rcases Nat.lt_or_ge (1 + i) T.bits with hlt | hge
        · simp [hlt]
        · obtain rfl : i = T.bits - 1 := by omega
          rw [h0, Bool.and_false]

/-- Without an `X^0` term in the generator two registers collide. -/
theorem not_injective_bitUpdate (o : BitOrder) {generator : T.Val}
    (h : (o.polyType T T.bits).lobit generator = 0) (b : Bool) :
    ¬ Function.Injective (bitUpdate (o.polyType T T.bits) generator (uint8OfBool b)) := by
  intro hinj
  have hP := (polyType_lossless o T).toLawful
  obtain ⟨u, hu, hshift⟩ := exists_shift_eq o h
  have hzero : (o.polyType T T.bits).hibit 0 = 0 := by
    have h := hP.hibit_xor 0 0
    rwa [BitVec.xor_self, BitVec.xor_self] at h
  have hcollide : bitUpdate (o.polyType T T.bits) generator (uint8OfBool b) u =
      bitUpdate (o.polyType T T.bits) generator (uint8OfBool b) 0 := by
    rw [bitUpdate, bitUpdate, hu, hshift, hzero, hP.shift_zero_val]
    cases b with
    | false =>
        rw [if_pos (by decide), if_neg (by decide)]
        exact BitVec.xor_self
    | true =>
        rw [if_neg (by decide), if_pos (by decide)]
        exact BitVec.zero_xor.symm
  rw [hinj hcollide, hzero] at hu
  exact absurd hu (by decide)

/-- **What the constructor's test decides.** In a full-width class it accepts a
generator exactly when the bit update with that generator is injective, for
either data bit. With an accepted one no message makes two registers meet, and
two streams with different presets never end in the same register. -/
theorem new_isOk_iff_injective (o : BitOrder) (T : DataType) :
    (∀ (generator : T.Val) (b : Bool),
      (CRC.new (o.polyType T T.bits) generator).isOk = true ↔
        Function.Injective
          (bitUpdate (o.polyType T T.bits) generator (uint8OfBool b))) ∧
    (∀ (c : CRC (o.polyType T T.bits)) (bs : List Byte), Function.Injective (c.addBytes bs)) ∧
    ∀ (c : CRC (o.polyType T T.bits)) (invert : T.Val → T.Val) (bs : List Byte),
      Function.Injective fun preset =>
        ((CRCStream.new c preset (invert preset)).process bs)._crc := by
  have hP := polyType_lossless o T
  refine ⟨?_, fun c bs => c.addBytes_injective hP bs, ?_⟩
  · intro generator b
    rw [CRC.new_isOk_iff]
    constructor
    · intro h
      exact (CRC.ofGenerator _ generator h).addbit_injective hP b
    · intro hinj h
      exact not_injective_bitUpdate o h b hinj
  · intro c invert bs p q h
    simp only [CRCStream.process_eq] at h
    exact c.addBytes_injective hP bs h

end CrcPP
