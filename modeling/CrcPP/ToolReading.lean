import CrcPP.ToolHex
import CrcPP.ToolOptions

/-!
# CrcPP.ToolReading

**`toHex` takes any text.** It reads the hex digits among the first characters, complains
about every other one there, and complains about the characters behind them
(`toHex_mk`). With the budgets that the tool gives it nothing is shifted out of the value
(`toHex_any`).
-/

namespace CrcPP

/-- The value of the hex digits in a text, which may contain anything else. -/
def digitsValue (p : List Char) : Nat :=
  (p.filterMap Numeral.digitVal).foldl (fun v d => 16 * v + d) 0

/-- What is written about a character that should be a hex digit. -/
def digitComplaint (c : Char) : List Char :=
  if (Numeral.digitVal c).isSome then [] else "invalid hex char: '".toList ++ [c] ++ ['\n']

/-- What is written about the characters behind the first `maxBytes` ones. -/
def lengthComplaint (maxBytes : Nat) (extra : List Char) : List Char :=
  if extra = [] then []
  else "hex expression should be ".toList ++ Nat.toDigits 10 maxBytes ++
    " bytes only. Extra chars: '".toList ++ extra ++ "' ignored.".toList ++ ['\n']

/-- What `toHex` writes. -/
def hexComplaints (p : List Char) (maxBytes : Nat) : List Char :=
  (p.take maxBytes).flatMap digitComplaint ++ lengthComplaint maxBytes (p.drop maxBytes)

theorem digitVal_lt {c : Char} {d : Nat} (h : Numeral.digitVal c = some d) : d < 16 := by
  have hle : ∀ {a b : Char}, a ≤ b → a.toNat ≤ b.toNat := fun h => UInt32.le_iff_toNat_le.mp h
  rw [Numeral.digitVal] at h
  split_ifs at h with h09 haf hAF
  · have hlast := hle h09.2
    obtain rfl := Option.some.inj h
    simp only [show '0'.toNat = 48 from rfl, show '9'.toNat = 57 from rfl] at hlast ⊢
    omega
  · have hlast := hle haf.2
    obtain rfl := Option.some.inj h
    simp only [show 'a'.toNat = 97 from rfl, show 'f'.toNat = 102 from rfl] at hlast ⊢
    omega
  · have hlast := hle hAF.2
    obtain rfl := Option.some.inj h
    simp only [show 'A'.toNat = 65 from rfl, show 'F'.toNat = 70 from rfl] at hlast ⊢
    omega

theorem toHexLoop_other (maxBytes left : Nat) {c : Char} (h : Numeral.digitVal c = none)
    (p : List Char) (hexData : BitVec 64) (t : List Char) (fill : Char) :
    toHexLoop maxBytes (left + 1) (c :: p) hexData ⟨t, .dec, fill, 0⟩ =
      toHexLoop maxBytes left p hexData ⟨t ++ digitComplaint c, .dec, fill, 0⟩ := by
  rw [digitComplaint, h, if_neg (by simp)]
  rw [Numeral.digitVal] at h
  rw [toHexLoop]
  split_ifs at h ⊢ with h09 haf hAF
  rw [OStream.str_mk, OStream.put_mk, OStream.endl_mk]
  simp only [List.append_assoc]

/-- The loop, behind digits of the value `acc`. -/
theorem toHexLoop_mk (maxBytes left acc : Nat) (p t : List Char) (fill : Char) :
    toHexLoop maxBytes left p (BitVec.ofNat 64 acc) ⟨t, .dec, fill, 0⟩ =
      (BitVec.ofNat 64 (((p.take left).filterMap Numeral.digitVal).foldl
          (fun v d => 16 * v + d) acc),
        ⟨t ++ ((p.take left).flatMap digitComplaint ++ lengthComplaint maxBytes (p.drop left)),
          .dec, fill, 0⟩) := by
  induction p generalizing left acc t with
  | nil => cases left <;> simp [toHexLoop, lengthComplaint]
  | cons c p ih =>
      cases left with
      | zero => simp [toHexLoop, lengthComplaint, OStream.Base.radix]
      | succ left =>
          rw [List.take_succ_cons, List.drop_succ_cons, List.flatMap_cons, List.filterMap_cons]
          cases hd : Numeral.digitVal c with
          | none =>
              rw [toHexLoop_other maxBytes left hd, ih]
              simp only [List.append_assoc]
          | some d =>
              have hquiet : digitComplaint c = [] := by simp [digitComplaint, hd]
              rw [toHexLoop_digit maxBytes left hd, shiftLeft_or_digit acc (digitVal_lt hd), ih,
                hquiet, List.nil_append]
              rfl

theorem toHex_mk (p : List Char) (maxBytes : Nat) (t : List Char) (fill : Char) :
    toHex p maxBytes ⟨t, .dec, fill, 0⟩ =
      (BitVec.ofNat 64 (digitsValue (p.take maxBytes)),
        ⟨t ++ hexComplaints p maxBytes, .dec, fill, 0⟩) :=
  toHexLoop_mk maxBytes maxBytes 0 p t fill

theorem hexValue_eq (p : List Char) (maxBytes : Nat) :
    hexValue p maxBytes = BitVec.ofNat 64 (digitsValue (p.take maxBytes)) := by
  rw [hexValue, OStream.new, toHex_mk]

theorem foldl_digits_lt {ds : List Nat} (hds : ∀ d ∈ ds, d < 16) {k acc : Nat}
    (hacc : acc < 16 ^ k) : ds.foldl (fun v d => 16 * v + d) acc < 16 ^ (k + ds.length) := by
  induction ds generalizing k acc with
  | nil => exact hacc
  | cons d ds ih =>
      have hd := hds d List.mem_cons_self
      have hstep : 16 * acc + d < 16 ^ (k + 1) := by
        rw [pow_succ]
        omega
      rw [List.foldl_cons, List.length_cons, show k + (ds.length + 1) = k + 1 + ds.length by omega]
      exact ih (fun d hd => hds d (List.mem_cons_of_mem _ hd)) hstep

theorem digitsValue_lt (p : List Char) : digitsValue p < 16 ^ p.length := by
  have hds : ∀ d ∈ p.filterMap Numeral.digitVal, d < 16 := by
    intro d hd
    obtain ⟨c, -, hc⟩ := List.mem_filterMap.mp hd
    exact digitVal_lt hc
  have h := foldl_digits_lt (k := 0) hds (Nat.lt_of_lt_of_eq Nat.zero_lt_one (pow_zero 16).symm)
  rw [Nat.zero_add] at h
  exact h.trans_le (Nat.pow_le_pow_right (by decide) (List.length_filterMap_le _ _))

/-- Nothing is written when every character is read as a digit. -/
theorem hexComplaints_eq_nil_iff (p : List Char) (maxBytes : Nat) :
    hexComplaints p maxBytes = [] ↔
      p.length ≤ maxBytes ∧ ∀ c ∈ p, (Numeral.digitVal c).isSome = true := by
  have hdigit : ∀ c, digitComplaint c = [] ↔ (Numeral.digitVal c).isSome = true := by
    intro c
    rw [digitComplaint]
    split <;> simp_all
  have hlength : ∀ extra, lengthComplaint maxBytes extra = [] ↔ extra = [] := by
    intro extra
    rw [lengthComplaint]
    split <;> simp_all
  rw [hexComplaints, List.append_eq_nil_iff, hlength, List.drop_eq_nil_iff, List.flatMap_eq_nil_iff,
    and_comm]
  refine and_congr_right fun hlen => ?_
  rw [List.take_of_length_le hlen]
  simp only [hdigit]

/-- **`toHex` on any text**, with a budget of up to 16 characters: the digits among them make
the value, whatever stands between them, and nothing is shifted out. It complains
unless the text is digits only and fits. -/
theorem toHex_any (p t : List Char) (fill : Char) {maxBytes : Nat} (h : maxBytes ≤ 16) :
    (toHex p maxBytes ⟨t, .dec, fill, 0⟩).1.toNat = digitsValue (p.take maxBytes) ∧
      (toHex p maxBytes ⟨t, .dec, fill, 0⟩).2 = ⟨t ++ hexComplaints p maxBytes, .dec, fill, 0⟩ ∧
      (hexComplaints p maxBytes = [] ↔
        p.length ≤ maxBytes ∧ ∀ c ∈ p, (Numeral.digitVal c).isSome = true) := by
  have hlt : digitsValue (p.take maxBytes) < 2 ^ 64 := by
    have hlen : (p.take maxBytes).length ≤ 16 := (List.length_take_le _ _).trans h
    have hpow := Nat.pow_le_pow_right (show 0 < 16 by decide) hlen
    exact (digitsValue_lt _).trans_le (hpow.trans (by decide))
  rw [toHex_mk]
  refine ⟨?_, rfl, hexComplaints_eq_nil_iff p maxBytes⟩
  rw [BitVec.toNat_ofNat, Nat.mod_eq_of_lt hlt]

/-- A byte with a slip of the pen. -/
theorem toHex_any_byte :
    (toHex "x4142".toList 4 ⟨[], .dec, ' ', 0⟩).1.toNat = digitsValue ("x4142".toList.take 4) ∧
      (toHex "x4142".toList 4 ⟨[], .dec, ' ', 0⟩).2 =
        ⟨[] ++ hexComplaints "x4142".toList 4, .dec, ' ', 0⟩ ∧
      (hexComplaints "x4142".toList 4 = [] ↔
        "x4142".toList.length ≤ 4 ∧ ∀ c ∈ "x4142".toList, (Numeral.digitVal c).isSome = true) :=
  toHex_any "x4142".toList [] ' ' (by decide)

end CrcPP
