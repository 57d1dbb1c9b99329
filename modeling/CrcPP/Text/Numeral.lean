import Mathlib.Tactic.Common
import Mathlib.Tactic.IntervalCases

/-!
# CrcPP.Text.Numeral

**Numerals in positional notation**: reading back what `Nat.toDigits` writes, in
any base up to 16, with or without leading zeros.
-/

namespace Numeral

/-- The value of a digit. -/
def digitVal (c : Char) : Option Nat :=
  if '0' ≤ c ∧ c ≤ '9' then some (c.toNat - '0'.toNat)
  else if 'a' ≤ c ∧ c ≤ 'f' then some (c.toNat - 'a'.toNat + 10)
  else if 'A' ≤ c ∧ c ≤ 'F' then some (c.toNat - 'A'.toNat + 10)
  else none

/-- Read digits from the left, behind those that make `acc`. -/
def readFrom (b : Nat) : Nat → List Char → Option Nat
  | acc, [] => some acc
  | acc, c :: cs =>
    match digitVal c with
    | some d => if d < b then readFrom b (b * acc + d) cs else none
    | none => none

/-- Read a numeral: at least one digit, and nothing but digits of the base. -/
def read (b : Nat) (cs : List Char) : Option Nat :=
  if cs = [] then none else readFrom b 0 cs

theorem digitVal_digitChar {d : Nat} (h : d < 16) : digitVal d.digitChar = some d := by
  interval_cases d <;> rfl

/-- The characters of a numeral are digits of its base. -/
theorem exists_digit_of_mem_toDigits {b n : Nat} (hb : 1 < b) {c : Char}
    (h : c ∈ Nat.toDigits b n) : ∃ d < b, c = d.digitChar := by
  induction n using Nat.strong_induction_on with
  | _ n ih =>
      rcases Nat.lt_or_ge n b with hn | hn
      · rw [Nat.toDigits_of_lt_base hn, List.mem_singleton] at h
        exact ⟨n, hn, h⟩
      · rw [Nat.toDigits_of_base_le hb hn, List.mem_append, List.mem_singleton] at h
        rcases h with h | h
        · exact ih (n / b) (Nat.div_lt_self (by omega) hb) h
        · exact ⟨n % b, Nat.mod_lt n (by omega), h⟩

/-- What holds of the sixteen digits holds of every character of a numeral. -/
theorem forall_mem_toDigits {b n : Nat} (hb : 1 < b) (hb16 : b ≤ 16) {p : Char → Prop}
    (hp : ∀ d < 16, p d.digitChar) : ∀ c ∈ Nat.toDigits b n, p c := by
  intro c hc
  obtain ⟨d, hd, rfl⟩ := exists_digit_of_mem_toDigits hb hc
  exact hp d (Nat.lt_of_lt_of_le hd hb16)

/-- The same for a numeral with leading zeros. -/
theorem forall_mem_leftpad {b n : Nat} (hb : 1 < b) (hb16 : b ≤ 16) (k : Nat) {p : Char → Prop}
    (hp : ∀ d < 16, p d.digitChar) : ∀ c ∈ (Nat.toDigits b n).leftpad k '0', p c := by
  intro c hc
  rw [List.leftpad, List.mem_append] at hc
  rcases hc with hc | hc
  · rw [List.eq_of_mem_replicate hc]
    exact hp 0 (by decide)
  · exact forall_mem_toDigits hb hb16 hp c hc

theorem readFrom_append (b acc : Nat) (xs ys : List Char) :
    readFrom b acc (xs ++ ys) = (readFrom b acc xs).bind fun acc => readFrom b acc ys := by
  induction xs generalizing acc with
  | nil => rfl
  | cons c xs ih =>
      rw [List.cons_append, readFrom, readFrom]
      cases digitVal c with
      | none => rfl
      | some d =>
          simp only
          split
          · exact ih (b * acc + d)
          · rfl

theorem readFrom_digitChar {b d : Nat} (hb16 : b ≤ 16) (hd : d < b) (acc : Nat) :
    readFrom b acc [d.digitChar] = some (b * acc + d) := by
  rw [readFrom, digitVal_digitChar (by omega)]
  simp only [if_pos hd, readFrom]

/-- **Reading back**: a numeral has the value it was written for. -/
theorem readFrom_toDigits {b : Nat} (hb : 1 < b) (hb16 : b ≤ 16) (n : Nat) :
    readFrom b 0 (Nat.toDigits b n) = some n := by
  induction n using Nat.strong_induction_on with
  | _ n ih =>
      rcases Nat.lt_or_ge n b with hn | hn
      · rw [Nat.toDigits_of_lt_base hn, readFrom_digitChar hb16 hn, Nat.mul_zero, Nat.zero_add]
      · rw [Nat.toDigits_of_base_le hb hn, readFrom_append,
          ih (n / b) (Nat.div_lt_self (by omega) hb), Option.bind_some,
          readFrom_digitChar hb16 (Nat.mod_lt n (by omega)), Nat.div_add_mod]

theorem readFrom_replicate_zero {b : Nat} (hb : 1 < b) (k : Nat) :
    readFrom b 0 (List.replicate k '0') = some 0 := by
  induction k with
  | zero => rfl
  | succ k ih =>
      rw [List.replicate_succ, readFrom, show digitVal '0' = some 0 from rfl]
      simp only [if_pos (Nat.zero_lt_of_lt hb), Nat.mul_zero, Nat.add_zero, ih]

theorem readFrom_leftpad {b : Nat} (hb : 1 < b) (hb16 : b ≤ 16) (k n : Nat) :
    readFrom b 0 ((Nat.toDigits b n).leftpad k '0') = some n := by
  rw [List.leftpad, readFrom_append, readFrom_replicate_zero hb, Option.bind_some,
    readFrom_toDigits hb hb16]

theorem read_toDigits {b : Nat} (hb : 1 < b) (hb16 : b ≤ 16) (n : Nat) :
    read b (Nat.toDigits b n) = some n := by
  rw [read, if_neg Nat.toDigits_ne_nil, readFrom_toDigits hb hb16]

theorem leftpad_toDigits_ne_nil (b n k : Nat) : (Nat.toDigits b n).leftpad k '0' ≠ [] := by
  rw [List.leftpad]
  exact List.append_ne_nil_of_right_ne_nil _ Nat.toDigits_ne_nil

/-- Leading zeros do not change the value. -/
theorem read_leftpad {b : Nat} (hb : 1 < b) (hb16 : b ≤ 16) (k n : Nat) :
    read b ((Nat.toDigits b n).leftpad k '0') = some n := by
  rw [read, if_neg (leftpad_toDigits_ne_nil b n k), readFrom_leftpad hb hb16]

end Numeral
