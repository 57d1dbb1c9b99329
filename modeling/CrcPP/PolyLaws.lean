import CrcPP.Poly

/-!
# CrcPP.PolyLaws

The **laws of a polynomial class**: what the CRC computation needs of its
template parameter.

`Lawful` says that the members are linear over GF(2) and that `hibit` and
`hibyte` read what `shift` moves out next. Both classes obey it at every width
they admit (`polyType_lawful`). `Lossless` adds that a value is nothing but its
`numbits` coefficients. Only the full-width classes have that
(`polyType_lossless`): in a narrower one there is room in `T` for bits that are
no coefficient, and the source never clears them.

Everything proved from these laws alone holds for both bit orders at once.
-/

namespace CrcPP

variable {T : DataType}

/-- The members are linear, and `hibit` and `hibyte` read what `shift` moves
out. -/
structure PolyType.Lawful (P : PolyType T) : Prop where
  hibit_cases : ∀ v, P.hibit v = 0 ∨ P.hibit v = 1
  hibit_xor : ∀ v w, P.hibit (v ^^^ w) = P.hibit v ^^^ P.hibit w
  hibyte_xor : ∀ v w, P.hibyte (v ^^^ w) = P.hibyte v ^^^ P.hibyte w
  hibyte_sethibyte : ∀ d, P.hibyte (P.sethibyte d) = d
  shift_xor : ∀ v w k, P.shift (v ^^^ w) k = P.shift v k ^^^ P.shift w k
  shift_zero : ∀ v, P.shift v 0 = v
  shift_shift : ∀ v j k, P.shift (P.shift v j) k = P.shift v (j + k)
  /-- The next eight bits to leave are those of `hibyte`. -/
  hibit_shift_of_hibyte : ∀ v k, P.hibyte v = 0 → k < 8 → P.hibit (P.shift v k) = 0

/-- The classes whose values are exactly their `numbits` coefficients. -/
structure PolyType.Lossless (P : PolyType T) : Prop extends P.Lawful where
  shift_numbits : ∀ v, P.shift v P.numbits = 0
  shift_sethibyte : ∀ d, P.shift (P.sethibyte d) 8 = 0
  lobit_xor : ∀ v w, P.lobit (v ^^^ w) = P.lobit v ^^^ P.lobit w
  lobit_shift : ∀ v, P.lobit (P.shift v 1) = 0
  eq_zero_of_shift : ∀ v, P.hibit v = 0 → P.shift v 1 = 0 → v = 0

theorem PolyN_lawful (n : Nat) : (PolyN T n).Lawful where
  hibit_cases v := by
    rw [PolyN_hibit]
    cases v.getLsbD 0 <;> simp
  hibit_xor v w := by
    simp only [PolyN_hibit, BitVec.getLsbD_xor, uint8OfBool_xor]
  hibyte_xor v w := by
    refine BitVec.eq_of_getLsbD_eq fun i _ => ?_
    simp only [getLsbD_PolyN_hibyte, BitVec.getLsbD_xor, Bool.and_xor_distrib_left]
  hibyte_sethibyte d := by
    refine BitVec.eq_of_getLsbD_eq fun i hi => ?_
    rw [getLsbD_PolyN_hibyte_of_lt n _ hi, getLsbD_PolyN_sethibyte]
  shift_xor v w k := by
    refine BitVec.eq_of_getLsbD_eq fun i _ => ?_
    simp only [getLsbD_PolyN_shift, BitVec.getLsbD_xor]
  shift_zero v := by
    refine BitVec.eq_of_getLsbD_eq fun i _ => ?_
    simp only [getLsbD_PolyN_shift, Nat.zero_add]
  shift_shift v j k := by
    refine BitVec.eq_of_getLsbD_eq fun i _ => ?_
    simp only [getLsbD_PolyN_shift, Nat.add_assoc]
  hibit_shift_of_hibyte v k h hk := by
    have hbit := congrArg (·.getLsbD k) h
    rw [getLsbD_PolyN_hibyte_of_lt n v hk, getLsbD_zero_val] at hbit
    rw [PolyN_hibit, getLsbD_PolyN_shift, Nat.add_zero, hbit, uint8OfBool_false]

theorem Poly_lawful {n : Nat} (hn : BitOrder.native.Admits T n) : (Poly T n).Lawful where
  hibit_cases v := by
    rw [Poly_hibit hn]
    cases v.getLsbD (n - 1) <;> simp
  hibit_xor v w := by
    simp only [Poly_hibit hn, BitVec.getLsbD_xor, uint8OfBool_xor]
  hibyte_xor v w := by
    refine BitVec.eq_of_getLsbD_eq fun i _ => ?_
    simp only [getLsbD_Poly_hibyte, BitVec.getLsbD_xor, Bool.and_xor_distrib_left]
  hibyte_sethibyte d := by
    refine BitVec.eq_of_getLsbD_eq fun i hi => ?_
    have := hn.1
    have := hn.2
    rw [getLsbD_Poly_hibyte_of_lt n _ hi, getLsbD_Poly_sethibyte_add d (by omega)]
  shift_xor v w k := by
    refine BitVec.eq_of_getLsbD_eq fun i _ => ?_
    simp only [getLsbD_Poly_shift, BitVec.getLsbD_xor, Bool.and_xor_distrib_left]
  shift_zero v := by
    refine BitVec.eq_of_getLsbD_eq fun i hi => ?_
    rw [← Nat.zero_add i] at hi ⊢
    rw [getLsbD_Poly_shift_add n v hi, Nat.zero_add]
  shift_shift v j k := by
    refine BitVec.eq_of_getLsbD_eq fun i hi => ?_
    by_cases hk : i < k
    · rw [getLsbD_Poly_shift_of_lt n _ hk, getLsbD_Poly_shift_of_lt n _ (by omega)]
    · obtain ⟨i, rfl⟩ := Nat.exists_eq_add_of_le (Nat.not_lt.mp hk)
      rw [getLsbD_Poly_shift_add n _ hi]
      by_cases hj : i < j
      · rw [getLsbD_Poly_shift_of_lt n _ hj, getLsbD_Poly_shift_of_lt n _ (by omega)]
      · obtain ⟨i, rfl⟩ := Nat.exists_eq_add_of_le (Nat.not_lt.mp hj)
        rw [← Nat.add_assoc, Nat.add_comm k j] at hi ⊢
        rw [getLsbD_Poly_shift_add n _ hi, getLsbD_Poly_shift_add n _ (by omega)]
  hibit_shift_of_hibyte v k h hk := by
    have := hn.1
    have := hn.2
    have hbit := congrArg (·.getLsbD (7 - k)) h
    rw [getLsbD_Poly_hibyte_of_lt n v (by omega), getLsbD_zero_val,
      show n - 8 + (7 - k) = n - 1 - k by omega] at hbit
    rw [Poly_hibit hn, getLsbD_Poly_shift, hbit, Bool.and_false, uint8OfBool_false]

/-- In network order a byte is shifted out at the bottom and leaves nothing. -/
theorem PolyN_shift_sethibyte (n : Nat) (d : Byte) :
    (PolyN T n).shift ((PolyN T n).sethibyte d) 8 = 0 := by
  refine BitVec.eq_of_getLsbD_eq fun i _ => ?_
  rw [getLsbD_PolyN_shift, getLsbD_PolyN_sethibyte, getLsbD_zero_val]
  exact BitVec.getLsbD_of_ge d _ (Nat.le_add_right 8 i)

/-- Both classes obey the laws at every width they admit. -/
theorem polyType_lawful {o : BitOrder} {n : Nat} (hn : o.Admits T n) :
    (o.polyType T n).Lawful := by
  cases o
  · exact Poly_lawful hn
  · exact PolyN_lawful n

theorem PolyN_lossless (T : DataType) : (PolyN T T.bits).Lossless where
  toLawful := PolyN_lawful T.bits
  shift_numbits v := by
    refine BitVec.eq_of_getLsbD_eq fun i _ => ?_
    rw [getLsbD_PolyN_shift, getLsbD_zero_val]
    exact BitVec.getLsbD_of_ge v _ (Nat.le_add_right T.bits i)
  shift_sethibyte := PolyN_shift_sethibyte T.bits
  lobit_xor v w := by
    simp only [PolyN_lobit (BitOrder.admits_bits .network T), BitVec.getLsbD_xor, uint8OfBool_xor]
  lobit_shift v := by
    have := T.eight_le_bits
    rw [PolyN_lobit (BitOrder.admits_bits .network T), getLsbD_PolyN_shift,
      BitVec.getLsbD_of_ge v _ (by omega), uint8OfBool_false]
  eq_zero_of_shift v h0 h1 := by
    refine BitVec.eq_of_getLsbD_eq fun i _ => ?_
    rw [getLsbD_zero_val]
    cases i with
    | zero => simpa only [PolyN_hibit, uint8OfBool_eq_zero] using h0
    | succ i =>
        have hbit := congrArg (·.getLsbD i) h1
        simpa only [getLsbD_PolyN_shift, getLsbD_zero_val, Nat.add_comm 1 i] using hbit

theorem Poly_lossless (T : DataType) : (Poly T T.bits).Lossless where
  toLawful := Poly_lawful (BitOrder.admits_bits .native T)
  shift_numbits v := by
    refine BitVec.eq_of_getLsbD_eq fun i hi => ?_
    rw [show (Poly T T.bits).numbits = T.bits from rfl, getLsbD_Poly_shift_of_lt T.bits v hi,
      getLsbD_zero_val]
  shift_sethibyte d := by
    refine BitVec.eq_of_getLsbD_eq fun i hi => ?_
    rw [getLsbD_Poly_shift_sethibyte_of_lt d hi, getLsbD_zero_val]
  lobit_xor v w := by
    simp only [Poly_lobit, BitVec.getLsbD_xor, uint8OfBool_xor]
  lobit_shift v := by
    simp [Poly_lobit]
  eq_zero_of_shift v h0 h1 := by
    refine BitVec.eq_of_getLsbD_eq fun i hi => ?_
    rw [getLsbD_zero_val]
    rcases Nat.lt_or_ge (1 + i) T.bits with h | h
    · have hbit := congrArg (·.getLsbD (1 + i)) h1
      rwa [getLsbD_Poly_shift_add T.bits v h, getLsbD_zero_val] at hbit
    · obtain rfl : i = T.bits - 1 := by omega
      simpa only [Poly_hibit (BitOrder.admits_bits .native T), uint8OfBool_eq_zero] using h0

/-- The full-width classes keep nothing above their coefficients. -/
theorem polyType_lossless (o : BitOrder) (T : DataType) : (o.polyType T T.bits).Lossless := by
  cases o
  · exact Poly_lossless T
  · exact PolyN_lossless T

end CrcPP
