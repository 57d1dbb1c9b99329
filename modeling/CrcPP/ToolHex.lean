import CrcPP.PolyText
import CrcPP.Tool

/-!
# CrcPP.ToolHex

**`toHex` undoes the tool's hex printers.** `HexDump` pads by hand and `describe`
through the stream, but both write numerals of a fixed number of digits
(`byteToken`, `describe_mk`). `toHex` collects digits with shifts, which is reading
in base 16 as long as there are no more digits than its budget
(`toHexLoop_of_readFrom`).
-/

namespace CrcPP

open Words BitOrder

variable {T : DataType}

/-! ### Reading digits -/

/-- A further digit is shifted in. -/
theorem shiftLeft_or_digit (acc : Nat) {d : Nat} (hd : d < 16) :
    BitVec.ofNat 64 acc <<< 4 ||| BitVec.ofNat 64 d = BitVec.ofNat 64 (16 * acc + d) := by
  have hsum : 16 * acc + d = acc <<< 4 ||| d := by
    rw [← Nat.shiftLeft_add_eq_or_of_lt hd, Nat.shiftLeft_eq, Nat.mul_comm]
  rw [hsum]
  refine BitVec.eq_of_getLsbD_eq fun i hi => ?_
  simp only [BitVec.getLsbD_or, BitVec.getLsbD_shiftLeft, BitVec.getLsbD_ofNat, Nat.testBit_or,
    Nat.testBit_shiftLeft, hi, decide_true, Bool.true_and]
  by_cases h4 : i < 4
  · simp [h4]
  · simp [h4, Nat.not_lt.mp h4, show i - 4 < 64 by omega]

/-- One digit: the three ranges of characters are those of the digits. -/
theorem toHexLoop_digit (maxBytes left : Nat) {c : Char} {d : Nat}
    (h : Numeral.digitVal c = some d) (p : List Char) (hexData : BitVec 64) (cerr : OStream) :
    toHexLoop maxBytes (left + 1) (c :: p) hexData cerr =
      toHexLoop maxBytes left p (hexData <<< 4 ||| BitVec.ofNat 64 d) cerr := by
  rw [Numeral.digitVal] at h
  rw [toHexLoop]
  split_ifs at h ⊢ with h09 haf hAF
  · rw [Option.some.inj h]
  · rw [Option.some.inj h]
  · rw [Option.some.inj h]

/-- Within its budget `toHex` reads hexadecimal numerals, without a complaint. -/
theorem toHexLoop_of_readFrom (maxBytes : Nat) (cerr : OStream) {p : List Char} {left acc v : Nat}
    (hlen : p.length ≤ left) (h : Numeral.readFrom 16 acc p = some v) :
    toHexLoop maxBytes left p (BitVec.ofNat 64 acc) cerr = (BitVec.ofNat 64 v, cerr) := by
  induction p generalizing left acc with
  | nil =>
      obtain rfl : acc = v := Option.some.inj h
      cases left <;> rfl
  | cons c p ih =>
      obtain ⟨left, rfl⟩ : ∃ k, left = k + 1 := ⟨left - 1, by rw [List.length_cons] at hlen; omega⟩
      have hlen' : p.length ≤ left := by rw [List.length_cons] at hlen; omega
      rw [Numeral.readFrom] at h
      cases hd : Numeral.digitVal c with
      | none =>
          rw [hd] at h
          cases h
      | some d =>
          rw [hd] at h
          dsimp only at h
          by_cases hlt : d < 16
          · rw [if_pos hlt] at h
            rw [toHexLoop_digit maxBytes left hd, shiftLeft_or_digit acc hlt]
            exact ih hlen' h
          · rw [if_neg hlt] at h
            cases h

/-- A numeral padded to `k` digits reads back with a budget of `k`. -/
theorem toHex_leftpad {k v : Nat} (hk : 0 < k) (hv : v < 16 ^ k) (cerr : OStream) :
    toHex ((Nat.toDigits 16 v).leftpad k '0') k cerr = (BitVec.ofNat 64 v, cerr) := by
  have hread := Numeral.readFrom_leftpad (b := 16) (by decide) (by decide) k v
  refine toHexLoop_of_readFrom k cerr ?_ hread
  have := (Nat.length_toDigits_le_iff (b := 16) (by decide) hk).mpr hv
  rw [List.length_leftpad]
  omega

/-! ### The hex dump -/

/-- The two digits of a byte. -/
def byteToken (b : Byte) : List Char := (Nat.toDigits 16 b.toNat).leftpad 2 '0'

/-- The separator in front of the byte with index `i`. -/
def dumpSep (i : Nat) : List Char :=
  if i > 0 then if i % 16 = 0 then ['\n'] else if i % 8 = 0 then ['\t'] else [] else []

/-- The text of a dump from index `i` on. -/
def dumpText : Nat → List Byte → List Char
  | _, [] => []
  | i, b :: rest => dumpSep i ++ ' ' :: byteToken b ++ dumpText (i + 1) rest

/-- Padding by hand makes two digits. -/
theorem padded_byte (b : Byte) :
    (if b.toNat < 0x10 then " 0".toList ++ Nat.toDigits 16 b.toNat
      else " ".toList ++ Nat.toDigits 16 b.toNat) = ' ' :: byteToken b := by
  revert b
  decide +kernel

theorem hexDumpLoop_mk (i : Nat) (bs : List Byte) (t : List Char) (fill : Char) :
    hexDumpLoop i bs ⟨t, .hex, fill, 0⟩ = ⟨t ++ dumpText i bs, .hex, fill, 0⟩ := by
  induction bs generalizing i t with
  | nil => rw [hexDumpLoop, dumpText, List.append_nil]
  | cons b bs ih =>
      have hsep : (if i > 0 then
          if i % 16 = 0 then (⟨t, .hex, fill, 0⟩ : OStream).endl
          else if i % 8 = 0 then (⟨t, .hex, fill, 0⟩ : OStream).str "\t"
          else ⟨t, .hex, fill, 0⟩
        else ⟨t, .hex, fill, 0⟩) = ⟨t ++ dumpSep i, .hex, fill, 0⟩ := by
        rw [dumpSep]
        split
        · split
          · rfl
          · split
            · exact OStream.str_mk _ _ _ _
            · rw [List.append_nil]
        · rw [List.append_nil]
      have hvalue : ∀ t, (if b.toNat < 0x10 then
            ((⟨t, .hex, fill, 0⟩ : OStream).str " 0").num b.toNat
          else ((⟨t, .hex, fill, 0⟩ : OStream).str " ").num b.toNat) =
            ⟨t ++ ' ' :: byteToken b, .hex, fill, 0⟩ := by
        intro t
        rw [← padded_byte b]
        split
        · rw [OStream.str_mk, OStream.num_mk, List.append_assoc, OStream.Base.radix]
        · rw [OStream.str_mk, OStream.num_mk, List.append_assoc, OStream.Base.radix]
      unfold hexDumpLoop
      dsimp only
      rw [hsep, hvalue, ih, dumpText]
      simp only [List.append_assoc]

/-- **What `HexDump` writes**, on a stream with no width pending. -/
theorem hexDump_mk (bs : List Byte) (t : List Char) (b : OStream.Base) (fill : Char) :
    hexDump bs ⟨t, b, fill, 0⟩ = ⟨t ++ dumpText 0 bs, .dec, fill, 0⟩ := by
  rw [hexDump, OStream.hex_mk, hexDumpLoop_mk, OStream.dec_mk]

theorem byteToken_ne_nil (b : Byte) : byteToken b ≠ [] :=
  Numeral.leftpad_toDigits_ne_nil 16 b.toNat 2

theorem byteToken_plain (b : Byte) : ∀ c ∈ byteToken b, c.isWhitespace = false :=
  Numeral.forall_mem_leftpad (by decide) (by decide) 2 (p := fun c => c.isWhitespace = false)
    (by decide)

theorem head_dumpText (i : Nat) (bs : List Byte) :
    ∀ c ∈ (dumpText i bs).head?, c.isWhitespace = true := by
  cases bs with
  | nil => simp [dumpText]
  | cons b bs =>
      have hcons : ∀ (c : Char) (l : List Char), c.isWhitespace = true →
          ∀ d ∈ (c :: l).head?, d.isWhitespace = true := by
        intro c l hc d hd
        exact Option.some.inj hd ▸ hc
      rw [dumpText, dumpSep]
      split
      · split
        · exact hcons '\n' _ rfl
        · split
          · exact hcons '\t' _ rfl
          · exact hcons ' ' _ rfl
      · exact hcons ' ' _ rfl

/-- The words of a dump are its bytes' digits. -/
theorem words_dumpText (i : Nat) (bs : List Byte) :
    words (dumpText i bs) = bs.map byteToken := by
  induction bs generalizing i with
  | nil => rfl
  | cons b bs ih =>
      have hsep : words (dumpSep i) = [] := by
        rw [dumpSep]
        split
        · split
          · rfl
          · split <;> rfl
        · rfl
      rw [dumpText, words_append (head_dumpText (i + 1) bs), ih,
        words_append_space (by rfl), hsep,
        words_of_plain (byteToken_ne_nil b) (byteToken_plain b)]
      rfl

/-- A byte reads back from its two digits. -/
theorem toHex_byteToken (b : Byte) (cerr : OStream) :
    toHex (byteToken b) 2 cerr = (b.setWidth 64, cerr) := by
  rw [byteToken, toHex_leftpad (by decide) b.isLt, BitVec.ofNat_toNat]

/-! ### The values in a description -/

/-- Whether a character is a hexadecimal digit. -/
def isHexDigit (c : Char) : Bool := (Numeral.digitVal c).isSome

/-- The digits behind each `0x` of a text. -/
def hexFields : List Char → List (List Char)
  | [] => []
  | c :: rest =>
    if c = '0' ∧ rest.head? = some 'x' then rest.tail.takeWhile isHexDigit :: hexFields rest
    else hexFields rest

/-- A text without an `x` has no field, unless an `x` follows. -/
theorem hexFields_append {xs ys : List Char} (hxs : 'x' ∉ xs) (hys : ys.head? ≠ some 'x') :
    hexFields (xs ++ ys) = hexFields ys := by
  induction xs with
  | nil => rfl
  | cons c xs ih =>
      rw [List.mem_cons, not_or] at hxs
      -- what follows `c` does not start with an `x`
      have hhead : (xs ++ ys).head? ≠ some 'x' := by
        cases xs with
        | nil => exact hys
        | cons d xs =>
            intro h
            exact hxs.2 (Option.some.inj h ▸ List.mem_cons_self)
      rw [List.cons_append, hexFields, if_neg fun h => hhead h.2, ih hxs.2]

/-- Digits behind a `0x` make a field. -/
theorem hexFields_field {ds ys : List Char} (hds : ∀ c ∈ ds, isHexDigit c = true)
    (hys : ∀ c ∈ ys.head?, isHexDigit c = false ∧ c ≠ 'x') :
    hexFields ('0' :: 'x' :: (ds ++ ys)) = ds :: hexFields ys := by
  have hx : 'x' ∉ ds := fun h => absurd (hds 'x' h) (by decide)
  have hhead : ys.head? ≠ some 'x' := fun h => (hys 'x' h).2 rfl
  have htake : (ds ++ ys).takeWhile isHexDigit = ds := by
    rw [List.takeWhile_append_of_pos hds]
    cases ys with
    | nil => simp
    | cons c ys =>
        rw [List.takeWhile_cons_of_neg (by rw [(hys c rfl).1]; decide), List.append_nil]
  have hrest : hexFields ('x' :: (ds ++ ys)) = hexFields ys := by
    rw [hexFields, if_neg fun h => absurd h.1 (by decide), hexFields_append hx hhead]
  rw [hexFields, if_pos ⟨rfl, rfl⟩, List.tail_cons, htake, hrest]

/-- The digits `describe` writes for a value. -/
def valueDigits (T : DataType) (v : T.Val) : List Char :=
  (Nat.toDigits 16 v.toNat).leftpad (T.sizeof * 2) '0'

theorem valueDigits_isHexDigit (v : T.Val) : ∀ c ∈ valueDigits T v, isHexDigit c = true :=
  Numeral.forall_mem_leftpad (by decide) (by decide) _ (p := fun c => isHexDigit c = true)
    (by decide)

/-- The digits of a value read back as the value. -/
theorem toHex_valueDigits (v : T.Val) (cerr : OStream) :
    toHex (valueDigits T v) (T.sizeof * 2) cerr = (v.setWidth 64, cerr) := by
  have hv : v.toNat < 16 ^ (T.sizeof * 2) := by
    have h16 : 16 ^ (T.sizeof * 2) = 2 ^ T.bits := by cases T <;> rfl
    rw [h16]
    exact v.isLt
  rw [valueDigits, toHex_leftpad (by cases T <;> decide) hv, BitVec.ofNat_toNat]

/-- No value of a data type is wider than 64 bits. -/
theorem bits_le_64 (T : DataType) : T.bits ≤ 64 := by
  cases T <;> decide

theorem setWidth_setWidth_64 (v : T.Val) : (v.setWidth 64).setWidth T.bits = v := by
  rw [BitVec.setWidth_setWidth_of_le v (bits_le_64 T), BitVec.setWidth_eq]

theorem toNat_setWidth_64 (v : T.Val) : (v.setWidth 64).toNat = v.toNat := by
  rw [BitVec.toNat_setWidth]
  exact Nat.mod_eq_of_lt
    (Nat.lt_of_lt_of_le v.isLt (Nat.pow_le_pow_right (by decide) (bits_le_64 T)))

variable {o : BitOrder} {n : Nat}

/-- What a description says in front of the values. -/
def describeHead (info : CRCInfo (o.polyType T n)) : List Char :=
  PowerSum.render (exponents n (o.coeff n info._algorithm._generator)) ++
    (" in ".toList ++ ((if info.isNative then "native" else "network").toList ++
      (" order".toList ++ " = ".toList)))

/-- **What `describe` writes**, on a stream with no width pending. -/
theorem describe_mk (hn : o.Admits T n) (h1 : 1 < n) (f : CRCFactory (o.polyType T n))
    (c : CRC (o.polyType T n)) (t : List Char) (b : OStream.Base) (fill : Char) :
    (CRCTest.ofCRC f c).describe ⟨t, b, fill, 0⟩ =
      ⟨t ++ (describeHead ⟨c⟩ ++
        ('0' :: 'x' :: (valueDigits T f.theGenerator ++ (", preset ".toList ++
          ('0' :: 'x' :: (valueDigits T f.thePreset ++ (", invert ".toList ++
            ('0' :: 'x' :: valueDigits T f.theInvert)))))))), .hex, '0', 0⟩ := by
  have hgenerator : " = 0x".toList = " = ".toList ++ ['0', 'x'] := rfl
  have hpreset : ", preset 0x".toList = ", preset ".toList ++ ['0', 'x'] := rfl
  have hinvert : ", invert 0x".toList = ", invert ".toList ++ ['0', 'x'] := rfl
  unfold CRCTest.describe CRCTest.ofCRC describeHead valueDigits
  dsimp only
  rw [CRCInfo.writePoly_eq hn h1]
  simp only [OStream.str_mk, OStream.hex_mk, OStream.setfill_mk, OStream.num_setw,
    OStream.Base.radix, CRCFactory.generator, CRCFactory.preset, CRCFactory.invert,
    toNat_setWidth_64, hgenerator, hpreset, hinvert]
  -- what the literals are does not matter: only the brackets differ
  generalize " in ".toList = s1
  generalize " order".toList = s2
  generalize " = ".toList = s3
  generalize ", preset ".toList = s4
  generalize ", invert ".toList = s5
  simp only [List.append_assoc, List.cons_append, List.nil_append]

/-- The fields of a description are the digits of its three values. -/
theorem hexFields_describe (info : CRCInfo (o.polyType T n)) (g p i : T.Val) :
    hexFields (describeHead info ++
      ('0' :: 'x' :: (valueDigits T g ++ (", preset ".toList ++
        ('0' :: 'x' :: (valueDigits T p ++ (", invert ".toList ++
          ('0' :: 'x' :: valueDigits T i)))))))) =
      [valueDigits T g, valueDigits T p, valueDigits T i] := by
  have hhead : 'x' ∉ describeHead info := by
    refine List.not_mem_append (fun h => ?_) ?_
    · exact PowerSum.forall_mem_render _ (p := fun c => c ≠ 'x') (by decide) (by decide)
        (by decide) (by decide) (by decide) _ h rfl
    · cases info.isNative <;> simp
  have hlast : hexFields ('0' :: 'x' :: (valueDigits T i ++ [])) = [valueDigits T i] :=
    hexFields_field (valueDigits_isHexDigit i) (by simp)
  rw [List.append_nil] at hlast
  have hcomma : ∀ (s ys : List Char), s.head? = some ',' →
      ∀ c ∈ (s ++ ys).head?, isHexDigit c = false ∧ c ≠ 'x' := by
    intro s ys hs c hc
    rw [List.head?_append, hs, Option.some_or] at hc
    obtain rfl := Option.some.inj hc
    decide
  have hx : ∀ ys : List Char, ('0' :: ys).head? ≠ some 'x' := fun ys h => by
    exact absurd (Option.some.inj h) (by decide)
  rw [hexFields_append hhead (hx _),
    hexFields_field (valueDigits_isHexDigit g) (hcomma _ _ rfl),
    hexFields_append (by simp) (hx _),
    hexFields_field (valueDigits_isHexDigit p) (hcomma _ _ rfl),
    hexFields_append (by simp) (hx _), hlast]

/-- A created test holds an accepted generator's algorithm. -/
theorem exists_of_createTest {f : ICRCTestFactory} {t : CRCTest f.P} (h : f.createTest = .ok t) :
    ∃ c, CRC.new f.P f.theFactory.theGenerator = .ok c ∧ t = CRCTest.ofCRC f.theFactory c := by
  rw [ICRCTestFactory.createTest, CRCTest.new_eq] at h
  cases hc : CRC.new f.P f.theFactory.theGenerator with
  | error e =>
      rw [hc] at h
      exact absurd h (by simp [Except.map])
  | ok c =>
      rw [hc] at h
      exact ⟨c, rfl, (Except.ok.inj h).symm⟩

/-- **`toHex` undoes the tool's hex printers.** The words of a hex dump read back as
the bytes, and the fields of a description read back, through the setters of any
factory of the class, as the values that were described. -/
theorem toHex_undoes_printers :
    (∀ (bs : List Byte) (b : OStream.Base) (fill : Char) (cerr : OStream),
      (words (hexDump bs ⟨[], b, fill, 0⟩).text).map (fun w => (toHex w 2 cerr).1) =
        bs.map (·.setWidth 64)) ∧
    ∀ (f : ICRCTestFactory) (t : CRCTest f.P), f.createTest = .ok t →
      ∀ (b : OStream.Base) (fill : Char), ∃ g p i,
        hexFields (t.describe ⟨[], b, fill, 0⟩).text = [g, p, i] ∧
          ∀ (f₀ : CRCFactory f.P) (cerr : OStream),
            ((f₀.setGenerator (toHex g (f.numBytes * 2) cerr).1).setPreset
              (toHex p (f.numBytes * 2) cerr).1).setInvert
                (toHex i (f.numBytes * 2) cerr).1 = f.theFactory := by
  constructor
  · intro bs b fill cerr
    rw [hexDump_mk, List.nil_append, words_dumpText, List.map_map]
    exact List.map_congr_left fun byte _ => congrArg Prod.fst (toHex_byteToken byte cerr)
  · intro f t ht b fill
    obtain ⟨c, -, rfl⟩ := exists_of_createTest ht
    have h1 : 1 < f.T.bits := Nat.lt_of_lt_of_le (by decide) f.T.eight_le_bits
    refine ⟨valueDigits f.T f.theFactory.theGenerator, valueDigits f.T f.theFactory.thePreset,
      valueDigits f.T f.theFactory.theInvert, ?_, ?_⟩
    · rw [describe_mk (f.order.admits_bits f.T) h1, List.nil_append]
      exact hexFields_describe _ _ _ _
    · intro f₀ cerr
      rw [ICRCTestFactory.numBytes, toHex_valueDigits, toHex_valueDigits, toHex_valueDigits]
      simp only [CRCFactory.setGenerator, CRCFactory.setPreset, CRCFactory.setInvert,
        setWidth_setWidth_64]

/-- The description of the HEC algorithm. -/
theorem toHex_undoes_printers_hec :
    ∃ t, (initialFactories .hec).createTest = .ok t ∧
      ∃ g p i, hexFields (t.describe .new).text = [g, p, i] ∧
        ∀ (f₀ : CRCFactory (initialFactories .hec).P) (cerr : OStream),
          ((f₀.setGenerator (toHex g 2 cerr).1).setPreset (toHex p 2 cerr).1).setInvert
            (toHex i 2 cerr).1 = (initialFactories .hec).theFactory :=
  ⟨_, rfl, toHex_undoes_printers.2 (initialFactories .hec) _ rfl .dec ' '⟩

end CrcPP
