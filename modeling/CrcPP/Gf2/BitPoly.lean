import CrcPP.Gf2.SerialDivision
import Mathlib.Algebra.Field.ZMod
import Mathlib.Algebra.CharP.Lemmas
import Mathlib.Algebra.CharP.Two
import Mathlib.Algebra.Polynomial.FieldDivision
import Mathlib.RingTheory.PrincipalIdealDomain
import Mathlib.Tactic.LinearCombination

/-!
# CrcPP.Gf2.BitPoly

**Bits as polynomials over GF(2).** `ofBits n f` is the polynomial of degree
below `n` whose coefficient at `X ^ i` is the bit `f i`, and `modulus n g` is
the monic polynomial `X ^ n + ofBits n g`.

The module relates two descriptions of the same division step: the shift
register with feedback, which moves bits (`feedback`), and
`SerialDivision.step`, which divides polynomials (`ofBits_feedback`). Nothing
here knows how a register stores its bits: `f` is just a function of the
exponent.
-/

namespace BitPoly

open Polynomial

/-- The element of GF(2) a bit stands for. -/
def bit (b : Bool) : ZMod 2 := if b then 1 else 0

@[simp] theorem bit_false : bit false = 0 := rfl
@[simp] theorem bit_true : bit true = 1 := rfl

@[simp] theorem bit_xor (a b : Bool) : bit (a ^^ b) = bit a + bit b := by
  cases a <;> cases b <;> decide

theorem bit_and (a b : Bool) : bit (a && b) = bit a * bit b := by
  cases a <;> cases b <;> decide

@[simp] theorem bit_eq_zero {b : Bool} : bit b = 0 ↔ b = false := by
  cases b <;> decide

theorem bit_injective : Function.Injective bit := by decide

/-- The polynomial of degree below `n` with the coefficients `f`. -/
noncomputable def ofBits (n : Nat) (f : Nat → Bool) : (ZMod 2)[X] :=
  ∑ i ∈ Finset.range n, C (bit (f i)) * X ^ i

theorem coeff_ofBits (n : Nat) (f : Nat → Bool) (i : Nat) :
    (ofBits n f).coeff i = if i < n then bit (f i) else 0 := by
  simp only [ofBits, finsetSum_coeff, coeff_C_mul_X_pow, Finset.sum_ite_eq, Finset.mem_range]

theorem degree_ofBits_lt (n : Nat) (f : Nat → Bool) : (ofBits n f).degree < n := by
  rw [degree_lt_iff_coeff_zero]
  intro i hi
  rw [coeff_ofBits, if_neg (by omega)]

theorem ofBits_congr {n : Nat} {f g : Nat → Bool} (h : ∀ i < n, f i = g i) :
    ofBits n f = ofBits n g := by
  ext i
  rw [coeff_ofBits, coeff_ofBits]
  split
  · rw [h i ‹_›]
  · rfl

theorem ofBits_xor (n : Nat) (f g : Nat → Bool) :
    ofBits n (fun i => f i ^^ g i) = ofBits n f + ofBits n g := by
  ext i
  rw [coeff_add, coeff_ofBits, coeff_ofBits, coeff_ofBits]
  split <;> simp

/-- Addition is its own inverse over GF(2). -/
theorem add_self (p : (ZMod 2)[X]) : p + p = 0 := CharTwo.add_self_eq_zero p

/-! ### The modulus -/

/-- The monic polynomial of degree `n` with the lower coefficients `g`. -/
noncomputable def modulus (n : Nat) (g : Nat → Bool) : (ZMod 2)[X] := X ^ n + ofBits n g

theorem monic_modulus (n : Nat) (g : Nat → Bool) : (modulus n g).Monic :=
  monic_X_pow_add (degree_ofBits_lt n g)

theorem degree_modulus (n : Nat) (g : Nat → Bool) : (modulus n g).degree = n := by
  have h : (ofBits n g).degree < (X ^ n : (ZMod 2)[X]).degree := by
    simpa only [degree_X_pow] using degree_ofBits_lt n g
  rw [modulus, degree_add_eq_left_of_degree_lt h, degree_X_pow]

@[simp] theorem natDegree_modulus (n : Nat) (g : Nat → Bool) : (modulus n g).natDegree = n :=
  natDegree_eq_of_degree_eq_some (degree_modulus n g)

theorem degree_ofBits_lt_modulus (n : Nat) (f g : Nat → Bool) :
    (ofBits n f).degree < (modulus n g).degree := by
  rw [degree_modulus]
  exact degree_ofBits_lt n f

/-! ### The feedback step -/

/-- Move the bits up by one exponent; the bit at exponent `0` becomes clear. -/
def shiftUp (f : Nat → Bool) (i : Nat) : Bool := if i = 0 then false else f (i - 1)

/-- One step of the shift register: the bits move up, and the generator is
added when the bit that leaves at the top differs from the bit `b` that comes in. -/
def feedback (n : Nat) (g f : Nat → Bool) (b : Bool) (i : Nat) : Bool :=
  shiftUp f i ^^ ((b ^^ f (n - 1)) && g i)

/-- Multiplying by `X` moves the bits up and drops the top one off at `X ^ n`. -/
theorem X_mul_ofBits {n : Nat} (hn : 0 < n) (f : Nat → Bool) :
    X * ofBits n f = ofBits n (shiftUp f) + C (bit (f (n - 1))) * X ^ n := by
  ext i
  rw [coeff_add, coeff_C_mul_X_pow, coeff_ofBits]
  cases i with
  | zero => simp [shiftUp, hn, hn.ne]
  | succ i =>
      rw [coeff_X_mul, coeff_ofBits]
      rcases Nat.lt_trichotomy (i + 1) n with h | h | h
      · simp [shiftUp, h, h.ne, Nat.lt_of_succ_lt h]
      · subst h
        simp
      · simp [show ¬ i < n by omega, show ¬ i + 1 < n by omega, h.ne']

/-- The division identity of a feedback step: its quotient digit is the bit that
decides about adding the generator. -/
theorem ofBits_feedback_add {n : Nat} (hn : 0 < n) (g f : Nat → Bool) (b : Bool) :
    ofBits n (feedback n g f b) + modulus n g * C (bit (b ^^ f (n - 1))) =
      X * ofBits n f + C (bit b) * X ^ (modulus n g).natDegree := by
  have hq : ofBits n (fun i => (b ^^ f (n - 1)) && g i) =
      C (bit (b ^^ f (n - 1))) * ofBits n g := by
    ext i
    rw [coeff_C_mul, coeff_ofBits, coeff_ofBits]
    split <;> simp [bit_and]
  rw [show feedback n g f b = fun i => shiftUp f i ^^ ((b ^^ f (n - 1)) && g i) from rfl,
    ofBits_xor, hq, X_mul_ofBits hn, natDegree_modulus, modulus, bit_xor, C_add]
  linear_combination add_self ((C (bit b) + C (bit (f (n - 1)))) * ofBits n g)

/-- **The feedback step divides**: on polynomials it is one step of serial
division by the modulus. -/
theorem ofBits_feedback {n : Nat} (hn : 0 < n) (g f : Nat → Bool) (b : Bool) :
    ofBits n (feedback n g f b) =
      SerialDivision.step (modulus n g) (ofBits n f) (bit b) :=
  (div_modByMonic_unique _ _ (monic_modulus n g)
    ⟨ofBits_feedback_add hn g f b, degree_ofBits_lt_modulus n _ g⟩).2.symm

/-- The quotient digit of a feedback step. -/
theorem ofBits_feedback_div {n : Nat} (hn : 0 < n) (g f : Nat → Bool) (b : Bool) :
    (X * ofBits n f + C (bit b) * X ^ (modulus n g).natDegree) /ₘ modulus n g =
      C (bit (b ^^ f (n - 1))) :=
  (div_modByMonic_unique _ _ (monic_modulus n g)
    ⟨ofBits_feedback_add hn g f b, degree_ofBits_lt_modulus n _ g⟩).1

/-! ### Parity -/

/-- The value at 1 is the number of terms, modulo 2. -/
theorem eval_one_eq_card (p : (ZMod 2)[X]) : p.eval 1 = (p.support.card : ZMod 2) := by
  have hterm : ∀ i ∈ p.support, p.coeff i * 1 ^ i = 1 := by
    intro i hi
    have hcases : ∀ a : ZMod 2, a ≠ 0 → a = 1 := by decide
    rw [one_pow, mul_one]
    exact hcases _ (mem_support_iff.mp hi)
  rw [eval_eq_sum, sum_def, Finset.sum_congr rfl hterm, Finset.sum_const, nsmul_one]

/-- A polynomial with an odd number of terms is no multiple of one with an even
number of terms. -/
theorem not_dvd_of_odd_card {p q : (ZMod 2)[X]} (hp : Even p.support.card)
    (hq : Odd q.support.card) : ¬ p ∣ q := by
  rintro ⟨r, rfl⟩
  have h := eval_one_eq_card (p * r)
  rw [eval_mul, eval_one_eq_card p, ZMod.natCast_eq_zero_iff_even.mpr hp, zero_mul,
    ZMod.natCast_eq_one_iff_odd.mpr hq] at h
  exact zero_ne_one h

/-- With an odd number of terms in the modulus, multiplication by `X ^ 2 ^ k` fixes no
remainder but 0: what it changes is a multiple of `(X + 1) ^ 2 ^ k`, which is coprime to the
modulus. -/
theorem eq_zero_of_mul_X_pow_modByMonic {M p : (ZMod 2)[X]} (hM : M.Monic)
    (hodd : Odd M.support.card) (hp : p.degree < M.degree) {k : Nat}
    (h : (p * X ^ 2 ^ k) %ₘ M = p) : p = 0 := by
  have hroot : ¬ (X - C 1 ∣ M) := by
    intro hdvd
    have heval := dvd_iff_isRoot.mp hdvd
    rw [IsRoot, eval_one_eq_card, ZMod.natCast_eq_one_iff_odd.mpr hodd] at heval
    exact one_ne_zero heval
  have hcoprime : IsCoprime M ((X - C 1) ^ 2 ^ k) :=
    ((irreducible_X_sub_C (1 : ZMod 2)).coprime_iff_not_dvd.mpr hroot).symm.pow_right
  have hdvd : M ∣ (X - C 1) ^ 2 ^ k * p := by
    rw [sub_pow_char_pow, ← C_pow, one_pow, C_1, ← modByMonic_eq_zero_iff_dvd hM, sub_mul,
      one_mul, mul_comm, sub_modByMonic, h, (modByMonic_eq_self_iff hM).mpr hp, sub_self]
  exact eq_zero_of_dvd_of_degree_lt (hcoprime.dvd_of_dvd_mul_left hdvd) hp

end BitPoly
