import CrcPP.CRCInfo
import CrcPP.Mirror
import CrcPP.Remainder
import CrcPP.Text.PowerSum

/-!
# CrcPP.PolyText

**`writePoly` names exactly the generator polynomial.** The countdown keeps the
exponent `i` in step with the coefficient under `hibit()`, which after `n-1-i`
shifts is the one of `X^i` in either bit order. So the text is the sum of the
powers of `X^n + generator` (`writePoly_eq`), of which `PowerSum` knows how to read
it back.
-/

namespace CrcPP

open Polynomial BitPoly BitOrder

variable {T : DataType} {o : BitOrder} {n : Nat}

/-- The exponents from `i` down to 1 whose coefficient is set. -/
def powers (f : Nat → Bool) : Nat → List Nat
  | 0 => []
  | i + 1 => if f (i + 1) then (i + 1) :: powers f i else powers f i

/-- The exponents of `X^n + generator`, from the highest down. -/
def exponents (n : Nat) (f : Nat → Bool) : List Nat := n :: (powers f (n - 1) ++ [0])

theorem mem_powers {f : Nat → Bool} {i k : Nat} :
    k ∈ powers f i ↔ 1 ≤ k ∧ k ≤ i ∧ f k = true := by
  induction i with
  | zero => simp only [powers, List.not_mem_nil, false_iff]; omega
  | succ i ih =>
      rw [powers]
      split
      · next h =>
          rw [List.mem_cons, ih]
          constructor
          · rintro (rfl | ⟨h1, h2, h3⟩)
            · exact ⟨by omega, Nat.le_refl _, h⟩
            · exact ⟨h1, by omega, h3⟩
          · rintro ⟨h1, h2, h3⟩
            rcases Nat.lt_or_ge i k with hk | hk
            · exact Or.inl (by omega)
            · exact Or.inr ⟨h1, hk, h3⟩
      · next h =>
          rw [ih]
          constructor
          · rintro ⟨h1, h2, h3⟩
            exact ⟨h1, by omega, h3⟩
          · rintro ⟨h1, h2, h3⟩
            refine ⟨h1, ?_, h3⟩
            rcases Nat.lt_or_ge i k with hk | hk
            · obtain rfl : k = i + 1 := by omega
              exact absurd h3 h
            · exact hk

theorem pairwise_powers (f : Nat → Bool) (i : Nat) : (powers f i).Pairwise (· > ·) := by
  induction i with
  | zero => exact List.Pairwise.nil
  | succ i ih =>
      rw [powers]
      split
      · exact List.pairwise_cons.mpr ⟨fun k hk => by have := mem_powers.mp hk; omega, ih⟩
      · exact ih

theorem mem_exponents {f : Nat → Bool} {k : Nat} :
    k ∈ exponents n f ↔ k = n ∨ (1 ≤ k ∧ k ≤ n - 1 ∧ f k = true) ∨ k = 0 := by
  rw [exponents, List.mem_cons, List.mem_append, mem_powers, List.mem_singleton]

theorem pairwise_exponents (f : Nat → Bool) (hn : 0 < n) :
    (exponents n f).Pairwise (· > ·) := by
  refine List.pairwise_cons.mpr ⟨?_, List.pairwise_append.mpr
    ⟨pairwise_powers f (n - 1), List.pairwise_singleton _ _, ?_⟩⟩
  · intro k hk
    rw [List.mem_append, mem_powers, List.mem_singleton] at hk
    omega
  · intro k hk j hj
    have := mem_powers.mp hk
    rw [List.mem_singleton] at hj
    omega

theorem powers_congr {f g : Nat → Bool} {i : Nat} (h : ∀ k ≤ i, f k = g k) :
    powers f i = powers g i := by
  induction i with
  | zero => rfl
  | succ i ih => rw [powers, powers, h (i + 1) (Nat.le_refl _), ih fun k hk => h k (by omega)]

namespace CRCInfo

/-- The loop of `writePoly` writes the powers that are left. -/
theorem writePolyLoop_mk (hn : o.Admits T n) (g : T.Val) {i : Nat} (hi : i < n)
    (t : List Char) (c : Char) :
    writePolyLoop (o.polyType T n) i ((o.polyType T n).shift g (n - 1 - i)) ⟨t, .dec, c, 0⟩ =
      ⟨t ++ PowerSum.renderTail (powers (o.coeff n g) i), .dec, c, 0⟩ := by
  induction i generalizing t with
  | zero => rw [writePolyLoop, powers, PowerSum.renderTail, List.flatMap_nil, List.append_nil]
  | succ i ih =>
      -- the coefficient on top is the one of `X^(i+1)`
      have hbit := hibit_shift_eq hn g (by omega : n - 1 - (i + 1) < n)
      rw [show n - 1 - (n - 1 - (i + 1)) = i + 1 by omega] at hbit
      rw [writePolyLoop, hbit, (polyType_lawful hn).shift_shift,
        show n - 1 - (i + 1) + 1 = n - 1 - i by omega, powers]
      cases o.coeff n g (i + 1) with
      | false =>
          rw [if_neg (by decide), if_neg (by decide)]
          exact ih (by omega) t
      | true =>
          rw [if_pos (by decide), if_pos rfl, PowerSum.renderTail_cons]
          cases i with
          | zero =>
              rw [if_neg (by omega), OStream.str_mk, ih (by omega)]
              simp only [List.append_assoc]
              rfl
          | succ i =>
              rw [if_pos (by omega), OStream.str_mk, OStream.str_mk, OStream.num_mk, ih (by omega)]
              simp only [List.append_assoc]
              rfl

/-- **What `writePoly` writes**, on a stream with no width pending. -/
theorem writePoly_eq (hn : o.Admits T n) (h1 : 1 < n) (info : CRCInfo (o.polyType T n))
    (t : List Char) (b : OStream.Base) (c : Char) :
    info.writePoly ⟨t, b, c, 0⟩ =
      ⟨t ++ PowerSum.render (exponents n (o.coeff n info._algorithm._generator)),
        .dec, c, 0⟩ := by
  have hloop := writePolyLoop_mk hn info._algorithm._generator (by omega : n - 1 < n)
    (t ++ "X^".toList ++ Nat.toDigits 10 n) c
  rw [Nat.sub_self, (polyType_lawful hn).shift_zero] at hloop
  obtain ⟨m, rfl⟩ : ∃ m, n = m + 2 := ⟨n - 2, by omega⟩
  simp only [writePoly, OStream.dec_mk, OStream.str_mk, OStream.num_mk, polyType_numbits,
    CRC.generator, OStream.Base.radix, hloop]
  rw [exponents, PowerSum.render, PowerSum.renderTail_append]
  simp only [List.append_assoc]
  rfl

/-- The text `writePoly` writes to a stream in a given format state. -/
def polyText {P : PolyType T} (info : CRCInfo P) (b : OStream.Base) (fill : Char) : List Char :=
  (info.writePoly ⟨[], b, fill, 0⟩).text

theorem polyText_eq (hn : o.Admits T n) (h1 : 1 < n) (info : CRCInfo (o.polyType T n))
    (b : OStream.Base) (fill : Char) :
    info.polyText b fill =
      PowerSum.render (exponents n (o.coeff n info._algorithm._generator)) := by
  rw [polyText, writePoly_eq hn h1, List.nil_append]

end CRCInfo

/-! ### The exponents are those of the generator polynomial -/

theorem coeff_zero_of_accepted (hn : o.Admits T n) (c : CRC (o.polyType T n)) :
    o.coeff n c._generator 0 = true := by
  have hlobit := c.lobit_generator
  rwa [lobit_eq hn, uint8OfBool_ne_zero] at hlobit

/-- The exponents written are those with a nonzero coefficient. -/
theorem mem_exponents_iff (hn : o.Admits T n) (c : CRC (o.polyType T n)) (k : Nat) :
    k ∈ exponents n (o.coeff n c._generator) ↔
      (X ^ n + o.toPoly n c._generator : (ZMod 2)[X]).coeff k ≠ 0 := by
  have hpos := hn.pos
  rw [mem_exponents, coeff_add, coeff_X_pow, toPoly, coeff_ofBits]
  rcases Nat.lt_trichotomy k n with hk | rfl | hk
  · rw [if_neg (by omega), if_pos hk, zero_add, Ne, bit_eq_zero, Bool.not_eq_false]
    constructor
    · rintro (h | ⟨-, -, h⟩ | rfl)
      · omega
      · exact h
      · exact coeff_zero_of_accepted hn c
    · intro h
      rcases Nat.eq_zero_or_pos k with h0 | h0
      · exact Or.inr (Or.inr h0)
      · exact Or.inr (Or.inl ⟨h0, by omega, h⟩)
  · rw [if_pos rfl, if_neg (by omega), add_zero]
    exact iff_of_true (Or.inl rfl) one_ne_zero
  · rw [if_neg (by omega), if_neg (by omega), add_zero]
    refine iff_of_false ?_ (not_not_intro rfl)
    rintro (h | h | h) <;> omega

/-- The exponents determine the coefficients. -/
theorem coeff_eq_of_exponents_eq {o' : BitOrder} {T' : DataType} {n' : Nat}
    (hn : o.Admits T n) (hn' : o'.Admits T' n') {c : CRC (o.polyType T n)}
    {d : CRC (o'.polyType T' n')}
    (h : exponents n' (o'.coeff n' d._generator) = exponents n (o.coeff n c._generator)) :
    n' = n ∧ ∀ k < n, o'.coeff n' d._generator k = o.coeff n c._generator k := by
  obtain rfl : n' = n := (List.cons.inj h).1
  refine ⟨rfl, fun k hk => ?_⟩
  rcases Nat.eq_zero_or_pos k with rfl | h0
  · rw [coeff_zero_of_accepted hn', coeff_zero_of_accepted hn]
  · have hmem : ∀ f, k ∈ exponents n' f ↔ f k = true := by
      intro f
      rw [mem_exponents]
      constructor
      · rintro (h | ⟨-, -, h⟩ | h)
        · omega
        · exact h
        · omega
      · intro h
        exact Or.inr (Or.inl ⟨h0, by omega, h⟩)
    rw [Bool.eq_iff_iff, ← hmem, ← hmem, h]

/-- The value whose low `n` bits are those of `v` in reverse. -/
def reverseBits (n : Nat) (v : T.Val) : T.Val := (v.setWidth n).reverse.setWidth T.bits

/-- In network order the reversed value has the coefficients of the value. -/
theorem coeff_reverseBits (hn : n ≤ T.bits) (v : T.Val) {k : Nat} (hk : k < n) :
    network.coeff n (reverseBits n v) k = native.coeff n v k := by
  simp only [BitOrder.coeff, reverseBits, BitVec.getLsbD_setWidth]
  rw [decide_eq_true (by omega), Bool.true_and, getLsbD_reverse_eq _ (by omega),
    show n - 1 - (n - 1 - k) = k by omega, BitVec.getLsbD_setWidth, decide_eq_true hk,
    Bool.true_and]

/-- **`writePoly` names exactly the generator polynomial.** Its text reads as a
sum with strictly decreasing exponents, exactly those with a nonzero coefficient
in `X^n + generator`. The text determines the coefficients, and the reversed
generator in network order prints the text of the one in native order. -/
theorem writePoly_names_generator (hn : o.Admits T n) (h1 : 1 < n)
    (c : CRC (o.polyType T n)) :
    (∀ b fill, ∃ es, PowerSum.parse ((CRCInfo.mk c).polyText b fill) = some es ∧
      es.Pairwise (· > ·) ∧
      ∀ k, k ∈ es ↔ (X ^ n + o.toPoly n c._generator : (ZMod 2)[X]).coeff k ≠ 0) ∧
    (∀ (o' : BitOrder) (T' : DataType) (n' : Nat) (d : CRC (o'.polyType T' n')) (b b' fill fill'),
      o'.Admits T' n' → 1 < n' →
        (CRCInfo.mk d).polyText b' fill' = (CRCInfo.mk c).polyText b fill →
          n' = n ∧ ∀ k < n, o'.coeff n' d._generator k = o.coeff n c._generator k) ∧
    (o = .native → ∃ d : CRC (PolyN T n),
      CRC.new (PolyN T n) (reverseBits n c._generator) = .ok d ∧
        ∀ b fill, (CRCInfo.mk d).polyText b fill = (CRCInfo.mk c).polyText b fill) := by
  refine ⟨?_, ?_, ?_⟩
  · intro b fill
    refine ⟨exponents n (o.coeff n c._generator), ?_, pairwise_exponents _ hn.pos,
      mem_exponents_iff hn c⟩
    rw [CRCInfo.polyText_eq hn h1]
    exact PowerSum.parse_render _ _
  · intro o' T' n' d b b' fill fill' hn' h1' h
    rw [CRCInfo.polyText_eq hn h1, CRCInfo.polyText_eq hn' h1'] at h
    exact coeff_eq_of_exponents_eq hn hn' (PowerSum.render_injective h)
  · rintro rfl
    have hnet : network.Admits T n := ⟨hn.pos, hn.le_bits⟩
    have hlobit : (PolyN T n).lobit (reverseBits n c._generator) ≠ 0 := by
      have h := lobit_eq hnet (reverseBits n c._generator)
      rw [coeff_reverseBits hn.le_bits _ hn.pos, coeff_zero_of_accepted hn c] at h
      rw [show PolyN T n = network.polyType T n from rfl, h]
      decide
    refine ⟨CRC.ofGenerator _ _ hlobit, dif_neg hlobit, fun b fill => ?_⟩
    refine (CRCInfo.polyText_eq (o := .network) hnet h1 _ b fill).trans
      (Eq.trans ?_ (CRCInfo.polyText_eq hn h1 _ b fill).symm)
    have hpowers : powers (network.coeff n (reverseBits n c._generator)) (n - 1) =
        powers (native.coeff n c._generator) (n - 1) :=
      powers_congr fun k hk => coeff_reverseBits hn.le_bits _ (by omega)
    exact congrArg (fun es => PowerSum.render (n :: (es ++ [0]))) hpowers

/-- The text of CCITT-16. -/
theorem writePoly_ccitt :
    ∃ es, PowerSum.parse ((CRCInfo.mk ccitt).polyText .dec ' ') = some es ∧
      es.Pairwise (· > ·) ∧
      ∀ k, k ∈ es ↔
        (X ^ 16 + BitOrder.native.toPoly 16 ccitt._generator : (ZMod 2)[X]).coeff k ≠ 0 :=
  (writePoly_names_generator (o := .native) (T := .uint16_t) (n := 16) (by decide) (by decide)
    ccitt).1 .dec ' '

end CrcPP
