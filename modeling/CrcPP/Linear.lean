import CrcPP.PolyLaws
import CrcPP.Stream

/-!
# CrcPP.Linear

The **algebra of feeding**, for any polynomial class that obeys the laws.

Feeding a word mixes the data into the register from the top, one piece after
the other, while both move up. The one observation behind this module is that
their sum does not see the mixing: feeding the piece `work` has on top, and
moving `work` up along with the register, turns `reg ^^^ work` into what feeding
*zero* would have made of it (`addbit_xor`, `add_xor`). Whatever is fed, `reg` and
`work` end up related to the zero-fed `reg ^^^ work` (`addPoly_xor`), and feeding
zero is linear.

The table-driven byte step agrees with eight bit steps up to one term
(`add_zero_eq`), the bits that `sethibyte` and `shift` leave above the
coefficients. A lossless class has no room for them (`PolyType.Lossless`).
-/

namespace CrcPP

variable {T : DataType} {P : PolyType T}

theorem xor_xor_cancel {w : Nat} (a b : BitVec w) : a ^^^ b ^^^ b = a := by
  rw [BitVec.xor_assoc, BitVec.xor_self, BitVec.xor_zero]

/-- Moving a term of a sum to the other side. -/
theorem eq_xor_of_xor_eq {w : Nat} {a b c : BitVec w} (h : a ^^^ b = c) : a = c ^^^ b := by
  rw [← h, xor_xor_cancel]

theorem xor_eq_zero_iff {w : Nat} {a b : BitVec w} : a ^^^ b = 0 ↔ a = b := by
  constructor
  · intro h
    have := eq_xor_of_xor_eq h
    rwa [show (0 : BitVec w) = 0#w from rfl, BitVec.zero_xor] at this
  · rintro rfl
    exact BitVec.xor_self

namespace PolyType.Lawful

theorem shift_zero_val (hP : P.Lawful) (k : Nat) : P.shift 0 k = 0 := by
  have h := hP.shift_xor 0 0 k
  rwa [BitVec.xor_self, BitVec.xor_self] at h

end PolyType.Lawful

namespace CRC

variable (c : CRC P)

/-! ### Bit steps -/

/-- The table is generated by feeding zero bits. -/
theorem tableStep_eq_addbit : tableStep P c._generator = c.addbit 0 := by
  funext reg
  rw [tableStep, addbit, show (0 : Byte) ^^^ P.hibit reg = P.hibit reg from BitVec.zero_xor]

/-- Feeding the bit `work` has on top is feeding zero to the sum. -/
theorem addbit_xor (hP : P.Lawful) (work reg : T.Val) :
    c.addbit (P.hibit work) reg ^^^ P.shift work 1 = c.addbit 0 (reg ^^^ work) := by
  rw [← tableStep_eq_addbit, tableStep, addbit, hP.hibit_xor, hP.shift_xor,
    BitVec.xor_comm (P.hibit work)]
  split
  · ac_rfl
  · rfl

/-- Feeding a zero bit is linear. -/
theorem addbit_zero_xor (hP : P.Lawful) (v w : T.Val) :
    c.addbit 0 (v ^^^ w) = c.addbit 0 v ^^^ c.addbit 0 w := by
  rw [← tableStep_eq_addbit]
  simp only [tableStep, hP.hibit_xor, hP.shift_xor]
  -- the generator is added on one side, on both (where it cancels), or on none
  rcases hP.hibit_cases v with hv | hv <;> rcases hP.hibit_cases w with hw | hw
  · simp [hv, hw]
  · simp [hv, hw, BitVec.xor_assoc]
  · simp only [hv, hw]
    rw [if_pos (by decide), if_pos (by decide), if_neg (by decide)]
    ac_rfl
  · simp only [hv, hw]
    rw [if_neg (by decide), if_pos (by decide)]
    calc P.shift v 1 ^^^ P.shift w 1
        = P.shift v 1 ^^^ P.shift w 1 ^^^ c._generator ^^^ c._generator :=
          (xor_xor_cancel _ _).symm
      _ = P.shift v 1 ^^^ c._generator ^^^ (P.shift w 1 ^^^ c._generator) := by ac_rfl

theorem iterate_addbit_zero_xor (hP : P.Lawful) (k : Nat) (v w : T.Val) :
    (c.addbit 0)^[k] (v ^^^ w) = (c.addbit 0)^[k] v ^^^ (c.addbit 0)^[k] w := by
  induction k generalizing v w with
  | zero => rfl
  | succ k ih => rw [Function.iterate_succ_apply, c.addbit_zero_xor hP, ih]; rfl

/-- With nothing on top, a step only moves the register up. -/
theorem addbit_zero_of_hibit {v : T.Val} (h : P.hibit v = 0) :
    c.addbit 0 v = P.shift v 1 := by
  rw [← tableStep_eq_addbit, tableStep, if_neg (not_not_intro h)]

theorem iterate_addbit_zero_of_hibit (hP : P.Lawful) {k : Nat} {v : T.Val}
    (h : ∀ j < k, P.hibit (P.shift v j) = 0) : (c.addbit 0)^[k] v = P.shift v k := by
  induction k with
  | zero => exact (hP.shift_zero v).symm
  | succ k ih =>
      rw [Function.iterate_succ_apply', ih fun j hj => h j (Nat.lt_succ_of_lt hj),
        c.addbit_zero_of_hibit (h k (Nat.lt_succ_self k)), hP.shift_shift]

/-! ### Byte steps -/

/-- **The byte step against eight bit steps.** Feeding a zero byte through the
table is feeding eight zero bits, plus what the top byte leaves behind when it
is moved out. -/
theorem add_zero_eq (hP : P.Lawful) (e : T.Val) :
    c.add 0 e = (c.addbit 0)^[8] e ^^^ P.shift (P.sethibyte (P.hibyte e)) 8 := by
  -- split the register into its top byte, which the table covers, and the rest
  have hrest : P.hibyte (e ^^^ P.sethibyte (P.hibyte e)) = 0 := by
    rw [hP.hibyte_xor, hP.hibyte_sethibyte]
    exact BitVec.xor_self
  have hmove := c.iterate_addbit_zero_of_hibit hP
    fun j hj => hP.hibit_shift_of_hibyte _ j hrest hj
  rw [c.iterate_addbit_zero_xor hP, hP.shift_xor] at hmove
  rw [add_eq, tableEntry, tableStep_eq_addbit,
    show P.hibyte e ^^^ (0 : Byte) = P.hibyte e from BitVec.xor_zero]
  rw [eq_xor_of_xor_eq hmove]
  calc P.shift e 8 ^^^ (c.addbit 0)^[8] (P.sethibyte (P.hibyte e))
      = P.shift e 8 ^^^ (c.addbit 0)^[8] (P.sethibyte (P.hibyte e)) ^^^
          P.shift (P.sethibyte (P.hibyte e)) 8 ^^^ P.shift (P.sethibyte (P.hibyte e)) 8 :=
        (xor_xor_cancel _ _).symm
    _ = P.shift e 8 ^^^ P.shift (P.sethibyte (P.hibyte e)) 8 ^^^
          (c.addbit 0)^[8] (P.sethibyte (P.hibyte e)) ^^^
          P.shift (P.sethibyte (P.hibyte e)) 8 := by ac_rfl

/-- Feeding the byte `work` has on top is feeding zero to the sum. -/
theorem add_xor (hP : P.Lawful) (work reg : T.Val) :
    c.add (P.hibyte work) reg ^^^ P.shift work 8 = c.add 0 (reg ^^^ work) := by
  rw [add_eq, add_eq, hP.hibyte_xor, hP.shift_xor,
    show P.hibyte reg ^^^ P.hibyte work ^^^ (0 : Byte) = P.hibyte reg ^^^ P.hibyte work
      from BitVec.xor_zero]
  ac_rfl

/-! ### Words -/

theorem addPolyBits_xor (hP : P.Lawful) (k : Nat) (work reg : T.Val) :
    c.addPolyBits k work reg ^^^ P.shift work k = (c.addbit 0)^[k] (reg ^^^ work) := by
  induction k generalizing work reg with
  | zero => rw [addPolyBits, hP.shift_zero]; rfl
  | succ k ih =>
      rw [addPolyBits, Nat.add_comm, ← hP.shift_shift, ih, c.addbit_xor hP, Nat.add_comm 1 k]
      rfl

/-- What `add(P const&, P&)` makes of a register when the word is zero: whole
bytes first, then the bits that are left. -/
def advance (e : T.Val) : T.Val :=
  (c.addbit 0)^[P.numbits % 8] ((c.add 0)^[P.numbits / 8] e)

theorem addPolyBytes_xor (hP : P.Lawful) (i : Nat) (work reg : T.Val) :
    c.addPolyBytes i work reg ^^^ P.shift work i =
      (c.addbit 0)^[i % 8] ((c.add 0)^[i / 8] (reg ^^^ work)) := by
  induction i using Nat.strong_induction_on generalizing work reg with
  | _ i ih =>
      rcases Nat.lt_or_ge i 8 with h8 | h8
      · rw [c.addPolyBytes_of_lt h8, c.addPolyBits_xor hP, Nat.mod_eq_of_lt h8,
          Nat.div_eq_of_lt h8]
        rfl
      · obtain ⟨i, rfl⟩ := Nat.exists_eq_add_of_le' h8
        rw [addPolyBytes_add_eight, Nat.add_comm i 8, ← hP.shift_shift, ih i (by omega),
          c.add_xor hP, Nat.add_comm 8 i, Nat.add_mod_right, Nat.add_div_right i (by decide)]
        rfl

/-- **Feeding a word** to a register, in terms of feeding zero to their sum. -/
theorem addPoly_xor (hP : P.Lawful) (work reg : T.Val) :
    c.addPoly work reg ^^^ P.shift work P.numbits = c.advance (reg ^^^ work) :=
  c.addPolyBytes_xor hP P.numbits work reg

/-- Feeding the bytes of a word, in terms of feeding zero to its sum with the
register. -/
theorem addBytes_resultBytes_xor (hP : P.Lawful) (k : Nat)
    (w reg : T.Val) :
    c.addBytes (resultBytes P k w) reg ^^^ P.shift w (8 * k) =
      (c.add 0)^[k] (reg ^^^ w) := by
  induction k generalizing w reg with
  | zero => rw [Nat.mul_zero, hP.shift_zero]; rfl
  | succ k ih =>
      rw [resultBytes, addBytes_cons, Nat.mul_succ, Nat.add_comm, ← hP.shift_shift, ih,
        c.add_xor hP]
      rfl

end CRC

end CrcPP
