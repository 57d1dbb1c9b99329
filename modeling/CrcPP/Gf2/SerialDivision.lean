import Mathlib.Algebra.Polynomial.Div
import Mathlib.RingTheory.Coprime.Lemmas

/-!
# CrcPP.Gf2.SerialDivision

**Serial polynomial division.** A shift register with feedback takes the
coefficients of a dividend one at a time, highest first, and keeps the running
remainder modulo a fixed monic polynomial `M`. Everything here is about
polynomials over an arbitrary commutative ring; no register layout, width or
byte order appears.

The register is *pre-multiplied*: a coefficient enters at `X ^ M.natDegree`
instead of at `X ^ 0`, so after a dividend `m` the register holds
`m * X ^ M.natDegree` modulo `M` and no trailing zeros have to be fed
(`run_eq`).

When the constant coefficient of `M` is a unit, `X` is invertible modulo `M`.
That is the whole reason why a step loses no information and why a short burst
is never a multiple of `M` (`not_dvd_of_burst`).
-/

namespace SerialDivision

open Polynomial

variable {R : Type*} [CommRing R]

/-- One division step: move the register up by one power of `X`, let the
coefficient `b` in at the top, and reduce. -/
noncomputable def step (M r : R[X]) (b : R) : R[X] :=
  (X * r + C b * X ^ M.natDegree) %ₘ M

/-- Feed a list of coefficients, first element first. -/
noncomputable def run (M r : R[X]) (bs : List R) : R[X] := bs.foldl (step M) r

/-- The polynomial a list of coefficients denotes, its first element being the
highest coefficient. -/
noncomputable def message (bs : List R) : R[X] := bs.foldl (fun m b => X * m + C b) 0

@[simp] theorem run_nil (M r : R[X]) : run M r [] = r := rfl

theorem run_append (M r : R[X]) (as bs : List R) :
    run M r (as ++ bs) = run M (run M r as) bs :=
  List.foldl_append

theorem run_concat (M r : R[X]) (bs : List R) (b : R) :
    run M r (bs ++ [b]) = step M (run M r bs) b := by
  simp [run]

/-! ### The message polynomial -/

@[simp] theorem message_nil : message ([] : List R) = 0 := rfl

theorem message_concat (bs : List R) (b : R) :
    message (bs ++ [b]) = X * message bs + C b := by
  simp [message]

/-- The coefficients of a message are its list read backwards. -/
theorem coeff_message (bs : List R) (i : Nat) :
    (message bs).coeff i = bs.reverse.getD i 0 := by
  induction bs using List.reverseRecOn generalizing i with
  | nil => simp
  | append_singleton bs b ih =>
      rw [message_concat, List.reverse_append]
      cases i with
      | zero => simp
      | succ i => simp [ih]

/-- Adding two messages of one length coefficientwise adds their polynomials. -/
theorem message_zipWith_add (as bs : List R) (h : as.length = bs.length) :
    message (as.zipWith (· + ·) bs) = message as + message bs := by
  -- the accumulators of the three folds stay related, so the start is generalised
  have key : ∀ (as bs : List R), as.length = bs.length → ∀ p q : R[X],
      (as.zipWith (· + ·) bs).foldl (fun m b => X * m + C b) (p + q) =
        as.foldl (fun m b => X * m + C b) p + bs.foldl (fun m b => X * m + C b) q := by
    intro as
    induction as with
    | nil =>
        intro bs h p q
        obtain rfl : bs = [] := List.length_eq_zero_iff.mp h.symm
        rfl
    | cons a as ih =>
        intro bs h p q
        cases bs with
        | nil => simp at h
        | cons b bs =>
            simp only [List.zipWith_cons_cons, List.foldl_cons]
            rw [← ih bs (by simpa using h), C_add]
            congr 1
            ring
  simpa [message] using key as bs h 0 0

/-! ### The run is one reduction -/

/-- Reducing a factor first does not change the remainder. -/
theorem mul_modByMonic_right (M p q : R[X]) : p * (q %ₘ M) %ₘ M = p * q %ₘ M := by
  by_cases hM : M.Monic
  · refine modByMonic_eq_of_dvd_sub hM ?_
    rw [← mul_sub]
    exact Dvd.dvd.mul_left (dvd_modByMonic_sub q M) p
  · simp only [modByMonic_eq_of_not_monic _ hM]

/-- **The register after a run** is the remainder of the start value and the
message, both moved up to where they stand when the run ends. -/
theorem run_eq {M : R[X]} (hM : M.Monic) {r : R[X]} (hr : r.degree < M.degree)
    (bs : List R) :
    run M r bs = (r * X ^ bs.length + message bs * X ^ M.natDegree) %ₘ M := by
  nontriviality R
  induction bs using List.reverseRecOn with
  | nil => simpa using ((modByMonic_eq_self_iff hM).mpr hr).symm
  | append_singleton bs b ih =>
      rw [run_concat, ih, step, add_modByMonic, mul_modByMonic_right, ← add_modByMonic,
        message_concat]
      congr 1
      rw [List.length_append, List.length_singleton, pow_succ]
      ring

/-- A step from a remainder is a remainder of the longer dividend. -/
theorem step_modByMonic (M D : R[X]) (b : R) :
    step M (D %ₘ M) b = (X * D + C b * X ^ M.natDegree) %ₘ M := by
  rw [step, add_modByMonic, mul_modByMonic_right, ← add_modByMonic]

/-- The quotient of the longer dividend, with the digit that the step brings out. -/
theorem divByMonic_concat {M : R[X]} (hM : M.Monic) (D : R[X]) (b : R) :
    (X * D + C b * X ^ M.natDegree) /ₘ M =
      X * (D /ₘ M) + (X * (D %ₘ M) + C b * X ^ M.natDegree) /ₘ M := by
  nontriviality R
  have hD := modByMonic_add_div D M
  have hE := modByMonic_add_div (X * (D %ₘ M) + C b * X ^ M.natDegree) M
  have hsum : (X * (D %ₘ M) + C b * X ^ M.natDegree) %ₘ M +
        M * (X * (D /ₘ M) + (X * (D %ₘ M) + C b * X ^ M.natDegree) /ₘ M) =
      X * D + C b * X ^ M.natDegree := by
    calc (X * (D %ₘ M) + C b * X ^ M.natDegree) %ₘ M +
          M * (X * (D /ₘ M) + (X * (D %ₘ M) + C b * X ^ M.natDegree) /ₘ M)
        = (X * (D %ₘ M) + C b * X ^ M.natDegree) %ₘ M +
            M * ((X * (D %ₘ M) + C b * X ^ M.natDegree) /ₘ M) + X * (M * (D /ₘ M)) := by ring
      _ = X * (D %ₘ M + M * (D /ₘ M)) + C b * X ^ M.natDegree := by
          rw [hE]
          ring
      _ = X * D + C b * X ^ M.natDegree := by rw [hD]
  exact (div_modByMonic_unique _ _ hM ⟨hsum, degree_modByMonic_lt _ hM⟩).1

/-- Two runs over one list differ by their start values, moved up. -/
theorem run_sub_run {M : R[X]} (hM : M.Monic) {r r' : R[X]} (hr : r.degree < M.degree)
    (hr' : r'.degree < M.degree) (bs : List R) :
    run M r bs - run M r' bs = ((r - r') * X ^ bs.length) %ₘ M := by
  rw [run_eq hM hr, run_eq hM hr', ← sub_modByMonic, add_sub_add_right_eq_sub, sub_mul]

/-- A power of `X` comes out of a remainder. -/
theorem X_pow_mul_modByMonic {M : R[X]} (hM : M.Monic) (a : Nat) (p : R[X]) :
    (X ^ a * p) %ₘ (X ^ a * M) = X ^ a * (p %ₘ M) := by
  nontriviality R
  have hX : (X ^ a : R[X]).Monic := monic_X_pow a
  have hsum : X ^ a * (p %ₘ M) + X ^ a * M * (p /ₘ M) = X ^ a * p := by
    rw [mul_assoc, ← mul_add, modByMonic_add_div]
  have hdeg : (X ^ a * (p %ₘ M)).degree < (X ^ a * M).degree := by
    rw [mul_comm, mul_comm _ M, hX.degree_mul, hX.degree_mul, degree_X_pow]
    exact WithBot.add_lt_add_right (WithBot.natCast_ne_bot a) (degree_modByMonic_lt p hM)
  exact (div_modByMonic_unique _ _ (hX.mul hM) ⟨hsum, hdeg⟩).2

/-- A register that is moved up by `a` powers is divided by a modulus that is moved up as
far. -/
theorem run_X_pow_mul {M : R[X]} (hM : M.Monic) (a : Nat) (r : R[X]) (bs : List R) :
    run (X ^ a * M) (X ^ a * r) bs = X ^ a * run M r bs := by
  nontriviality R
  induction bs generalizing r with
  | nil => rfl
  | cons b bs ih =>
      have hstep : step (X ^ a * M) (X ^ a * r) b = X ^ a * step M r b := by
        rw [step, step, (monic_X_pow a).natDegree_mul hM, natDegree_X_pow,
          ← X_pow_mul_modByMonic hM]
        congr 1
        ring
      rw [run, run, List.foldl_cons, List.foldl_cons, hstep]
      exact ih _

/-- Above `X ^ a`, a remainder modulo `X ^ a * G` is the remainder modulo `G` of
what the dividend has there: it vanishes when `G` divides that part. -/
theorem coeff_modByMonic_X_pow_mul_eq_zero_iff {G : R[X]} (hG : G.Monic) (a : Nat) (p : R[X]) :
    (∀ k, a ≤ k → (p %ₘ (X ^ a * G)).coeff k = 0) ↔ G ∣ p /ₘ X ^ a := by
  nontriviality R
  have hX : (X ^ a : R[X]).Monic := monic_X_pow a
  rw [← degree_lt_iff_coeff_zero]
  constructor
  · intro hdeg
    have hsum : p %ₘ (X ^ a * G) + X ^ a * (G * (p /ₘ (X ^ a * G))) = p := by
      rw [← mul_assoc]
      exact modByMonic_add_div p _
    rw [← degree_X_pow (R := R) a] at hdeg
    rw [(div_modByMonic_unique _ _ hX ⟨hsum, hdeg⟩).1]
    exact dvd_mul_right G _
  · rintro ⟨q, hq⟩
    have hsum : p %ₘ X ^ a + X ^ a * G * q = p := by
      rw [mul_assoc, ← hq]
      exact modByMonic_add_div p _
    have hdeg := degree_modByMonic_lt p hX
    have hle : (X ^ a : R[X]).degree ≤ (X ^ a * G).degree := by
      rw [hG.degree_mul]
      exact le_add_of_nonneg_right (zero_le_degree_iff.mpr hG.ne_zero)
    rw [(div_modByMonic_unique _ _ (hX.mul hG) ⟨hsum, hdeg.trans_le hle⟩).2]
    rwa [degree_X_pow] at hdeg

/-- A block of `a` ones moved up by `l`, cut at `X ^ a`: `a` ones remain above the
cut, or only `l` when it was moved less than its length. -/
theorem ones_mul_X_pow_divByMonic (a l : Nat) :
    ((∑ i ∈ Finset.range a, X ^ i) * X ^ l : R[X]) /ₘ X ^ a =
      (∑ i ∈ Finset.range (min l a), X ^ i) * X ^ (l - a) := by
  nontriviality R
  have hX : (X ^ a : R[X]).Monic := monic_X_pow a
  rcases Nat.le_total a l with h | h
  · rw [Nat.min_eq_right h]
    obtain ⟨d, rfl⟩ := Nat.exists_eq_add_of_le h
    have hprod : ((∑ i ∈ Finset.range a, X ^ i) * X ^ (a + d) : R[X]) =
        X ^ a * ((∑ i ∈ Finset.range a, X ^ i) * X ^ d) := by ring
    rw [hprod, Nat.add_sub_cancel_left, mul_divByMonic_cancel_left _ hX]
  · rw [Nat.min_eq_left h, Nat.sub_eq_zero_of_le h, pow_zero, mul_one]
    obtain ⟨d, rfl⟩ := Nat.exists_eq_add_of_le h
    -- the ones from `l` to `l + d` stay below the cut
    have hlow : (∑ i ∈ Finset.range d, X ^ (l + i) : R[X]).degree <
        (X ^ (l + d) : R[X]).degree := by
      rw [degree_X_pow, degree_lt_iff_coeff_zero]
      intro k hk
      rw [finsetSum_coeff]
      refine Finset.sum_eq_zero fun i hi => ?_
      rw [coeff_X_pow, if_neg]
      have := Finset.mem_range.mp hi
      omega
    have hsum : (∑ i ∈ Finset.range d, X ^ (l + i)) + X ^ (l + d) * (∑ i ∈ Finset.range l, X ^ i) =
        ((∑ i ∈ Finset.range (l + d), X ^ i) * X ^ l : R[X]) := by
      -- both sides are the ones from `l` to `l + (l + d)`
      have hcut := Finset.sum_range_add (fun i => (X ^ i : R[X])) l d
      have hleft := Finset.sum_range_add (fun i => (X ^ i : R[X])) l (l + d)
      have hright := Finset.sum_range_add (fun i => (X ^ i : R[X])) (l + d) l
      calc (∑ i ∈ Finset.range d, X ^ (l + i)) + X ^ (l + d) * (∑ i ∈ Finset.range l, X ^ i)
          = (∑ i ∈ Finset.range d, X ^ (l + i)) + ∑ i ∈ Finset.range l, X ^ (l + d + i) := by
            rw [Finset.mul_sum]
            simp only [pow_add]
        _ = (∑ i ∈ Finset.range (l + (l + d)), X ^ i) - ∑ i ∈ Finset.range l, X ^ i := by
            rw [Nat.add_comm l (l + d), hright, hcut]
            ring
        _ = (∑ i ∈ Finset.range (l + d), X ^ i) * X ^ l := by
            rw [hleft, add_sub_cancel_left, Finset.sum_mul]
            simp only [pow_add, mul_comm (X ^ l)]
    exact (div_modByMonic_unique _ _ hX ⟨hsum, hlow⟩).1

/-! ### A unit at `X ^ 0` makes `X` invertible -/

theorem isCoprime_X_pow {M : R[X]} (h0 : IsUnit (M.coeff 0)) (k : Nat) :
    IsCoprime M (X ^ k) := by
  refine IsCoprime.pow_right ?_
  obtain ⟨u, hu⟩ := h0
  refine ⟨C (↑u⁻¹ : R), -(C (↑u⁻¹ : R) * M.divX), ?_⟩
  calc C (↑u⁻¹ : R) * M + -(C (↑u⁻¹ : R) * M.divX) * X
      = C (↑u⁻¹ : R) * (M - M.divX * X) := by ring
    _ = C (↑u⁻¹ : R) * C (M.coeff 0) := by
        rw [sub_eq_iff_eq_add'.mpr (divX_mul_X_add M).symm]
    _ = 1 := by rw [← C_mul, ← hu, Units.inv_mul, C_1]

/-- Powers of `X` can be cancelled from a multiple of `M`. -/
theorem dvd_mul_X_pow_iff {M : R[X]} (h0 : IsUnit (M.coeff 0)) (p : R[X]) (k : Nat) :
    M ∣ p * X ^ k ↔ M ∣ p :=
  ⟨(isCoprime_X_pow h0 k).dvd_of_dvd_mul_right, fun h => h.mul_right _⟩

/-- Remainders stay different when they are moved up. -/
theorem mul_X_pow_modByMonic_inj {M : R[X]} (hM : M.Monic) (h0 : IsUnit (M.coeff 0)) {p q : R[X]}
    (hp : p.degree < M.degree) (hq : q.degree < M.degree) (k : Nat) :
    (p * X ^ k) %ₘ M = (q * X ^ k) %ₘ M ↔ p = q := by
  constructor
  · intro h
    have hdvd : M ∣ (p - q) * X ^ k := by
      rw [← modByMonic_eq_zero_iff_dvd hM, sub_mul, sub_modByMonic, h, sub_self]
    rw [dvd_mul_X_pow_iff h0] at hdvd
    by_contra hne
    exact hM.not_dvd_of_degree_lt (sub_ne_zero.mpr hne)
      ((degree_sub_le p q).trans_lt (max_lt hp hq)) hdvd
  · rintro rfl
    rfl

/-- Adding a multiple of `g` fills `X ^ 0`, so the low powers stay clear only
when none is added. -/
theorem X_pow_succ_dvd_iff {g : R[X]} (h0 : IsUnit (g.coeff 0)) (F : R[X]) (a : R) (j : Nat) :
    X ^ (j + 1) ∣ X * F + C a * g ↔ a = 0 ∧ X ^ j ∣ F := by
  constructor
  · intro h
    have hcoeff := X_pow_dvd_iff.mp h
    have ha : a = 0 := by
      have h00 := hcoeff 0 (Nat.succ_pos j)
      rw [coeff_add, mul_coeff_zero, coeff_X_zero, zero_mul, zero_add, coeff_C_mul] at h00
      exact h0.mul_left_eq_zero.mp h00
    refine ⟨ha, X_pow_dvd_iff.mpr fun d hd => ?_⟩
    have hd' := hcoeff (d + 1) (Nat.succ_lt_succ hd)
    rwa [ha, C_0, zero_mul, add_zero, coeff_X_mul] at hd'
  · rintro ⟨rfl, hF⟩
    rw [C_0, zero_mul, add_zero, pow_succ']
    exact mul_dvd_mul_left X hF

/-- **Bursts are not multiples.** A nonzero polynomial whose coefficients all
lie in a window of `M.natDegree` consecutive powers is not divisible by `M`. -/
theorem not_dvd_of_burst {M : R[X]} (hM : M.Monic) (h0 : IsUnit (M.coeff 0))
    {p : R[X]} (hp : p ≠ 0) {k : Nat} (hlow : ∀ i < k, p.coeff i = 0)
    (hhigh : ∀ i, k + M.natDegree ≤ i → p.coeff i = 0) : ¬ M ∣ p := by
  intro hdvd
  obtain ⟨q, rfl⟩ := X_pow_dvd_iff.mpr hlow
  have hq : q ≠ 0 := right_ne_zero_of_mul hp
  have : Nontrivial R := Nontrivial.of_polynomial_ne hq
  have hdeg : q.degree < M.degree := by
    rw [degree_eq_natDegree hM.ne_zero, degree_lt_iff_coeff_zero]
    intro i hi
    have h := hhigh (i + k) (by omega)
    rwa [coeff_X_pow_mul] at h
  rw [mul_comm, dvd_mul_X_pow_iff h0] at hdvd
  exact hM.not_dvd_of_degree_lt hq hdeg hdvd

/-- **The next longer bursts.** Of the polynomials whose coefficients lie in a window of one
power more, only the multiples of `M` itself, moved up to the window, are divisible by it. -/
theorem dvd_iff_of_window {M : R[X]} (hM : M.Monic) (h0 : IsUnit (M.coeff 0)) {p : R[X]} {k : Nat}
    (hlow : ∀ i < k, p.coeff i = 0) (hhigh : ∀ i, k + M.natDegree < i → p.coeff i = 0) :
    M ∣ p ↔ ∃ a, p = C a * M * X ^ k := by
  constructor
  · intro hdvd
    obtain ⟨q, rfl⟩ := X_pow_dvd_iff.mpr hlow
    have hdeg : q.natDegree ≤ M.natDegree := by
      rw [natDegree_le_iff_coeff_eq_zero]
      intro i hi
      have h := hhigh (i + k) (by omega)
      rwa [coeff_X_pow_mul] at h
    rw [mul_comm, dvd_mul_X_pow_iff h0] at hdvd
    refine ⟨q.leadingCoeff, ?_⟩
    rw [← eq_leadingCoeff_mul_of_monic_of_dvd_of_natDegree_le hM hdvd hdeg, mul_comm]
  · rintro ⟨a, rfl⟩
    exact (Dvd.intro_left (C a) rfl).mul_right _

end SerialDivision
