import CrcPP.PolyText
import CrcPP.Text.CArray

/-!
# CrcPP.TableText

**What a C compiler makes of the table `writeTable` writes.** The format state is
followed through the function: `writePoly` leaves the stream in decimal, `std::hex`
and the fill character are set once in front of the declaration, and the width
holds for one value each. So the values come out with all their digits, and the
initialiser list reads as the table (`parse_tableText`).

The width in the name of the element type is written after `std::hex`, too. Only
8 has the same numeral in both bases: for every wider type the element type is
`uint10_t`, `uint20_t` or `uint40_t` (`writeTable_parses_iff`).
-/

namespace CrcPP

open BitOrder CArray

variable {T : DataType}

/-- The standard name of the unsigned type of `w` bits, `w` in decimal. -/
def uintType (w : Nat) : List Char := "uint".toList ++ Nat.toDigits 10 w ++ "_t".toList

namespace CRCInfo

/-! ### The text -/

/-- The name `writeTable` gives to the element type. -/
def elementType (T : DataType) : List Char :=
  "uint".toList ++ Nat.toDigits 16 (fieldWidth T * 4) ++ "_t".toList

/-- The line of the declaration and the line with the brace. -/
def declarationText (T : DataType) : List Char :=
  "const uint".toList ++ (Nat.toDigits 16 (fieldWidth T * 4) ++
    ("_t crcTable[] =".toList ++ (['\n'] ++ ("\x7b".toList ++ ['\n']))))

/-- What stands behind the value of an entry. -/
def entryEnd (i : Fin 256) : List Char :=
  (if i.val ≠ 255 then ", ".toList else []) ++ (if i.val % 8 = 7 then ['\n'] else [])

/-- An entry with its indentation and what follows it. -/
def entryText {P : PolyType T} (info : CRCInfo P) (ulong : Nat) (i : Fin 256) : List Char :=
  (if i.val % 8 = 0 then "    ".toList else []) ++
    (literal (fieldWidth T) (unsignedLong ulong (info._algorithm.table.get i)) ++ entryEnd i)

/-- The text `writeTable` writes to a stream in a given format state. -/
def tableText {P : PolyType T} (info : CRCInfo P) (ulong : Nat) (b : OStream.Base)
    (fill : Char) : List Char :=
  (info.writeTable ulong ⟨[], b, fill, 0⟩).text

theorem writeEntry_mk {P : PolyType T} (info : CRCInfo P) (ulong : Nat) (t : List Char)
    (i : Fin 256) :
    info.writeEntry ulong ⟨t, .hex, '0', 0⟩ i =
      ⟨t ++ info.entryText ulong i, .hex, '0', 0⟩ := by
  unfold writeEntry
  dsimp only
  rw [OStream.ite_str_mk, OStream.str_mk, OStream.num_setw, OStream.ite_str_mk,
    OStream.ite_endl_mk, entryText, entryEnd]
  simp only [List.append_assoc]
  rfl

/-- The loop writes one entry after the other. -/
theorem foldl_writeEntry {P : PolyType T} (info : CRCInfo P) (ulong : Nat) (is : List (Fin 256))
    (t : List Char) :
    is.foldl (info.writeEntry ulong) ⟨t, .hex, '0', 0⟩ =
      ⟨t ++ is.flatMap (info.entryText ulong), .hex, '0', 0⟩ := by
  induction is generalizing t with
  | nil => rw [List.foldl_nil, List.flatMap_nil, List.append_nil]
  | cons i is ih =>
      rw [List.foldl_cons, writeEntry_mk, ih, List.flatMap_cons, List.append_assoc]

/-- The comment with the polynomial. -/
def polyComment {o : BitOrder} {n : Nat} (info : CRCInfo (o.polyType T n)) : List Char :=
  "// CRC Table for poly ".toList ++
    PowerSum.render (exponents n (o.coeff n info._algorithm._generator))

/-- The comment with the bit order. -/
def orderComment {P : PolyType T} (info : CRCInfo P) : List Char :=
  "// Bit order: ".toList ++ (if info.isNative then "native (lsb is lowest coefficient)"
    else "network (lsb is highest coefficient)").toList

/-- The comment with the generator's value. -/
def valueComment {P : PolyType T} (info : CRCInfo P) (ulong : Nat) : List Char :=
  "// Representation of poly in that bit order: 0x".toList ++
    (Nat.toDigits 16 (unsignedLong ulong info._algorithm._generator)).leftpad (fieldWidth T) '0'

variable {o : BitOrder} {n : Nat}

/-- The declaration, the entries and the closing brace. -/
def definitionText {P : PolyType T} (info : CRCInfo P) (ulong : Nat) : List Char :=
  declarationText T ++
    ((List.finRange 256).flatMap (info.entryText ulong) ++ ("\x7d;".toList ++ ['\n']))

/-- **What `writeTable` writes**: three comment lines and the definition. -/
theorem tableText_eq (hn : o.Admits T n) (h1 : 1 < n) (info : CRCInfo (o.polyType T n))
    (ulong : Nat) (b : OStream.Base) (fill : Char) :
    info.tableText ulong b fill =
      info.polyComment ++ '\n' :: (info.orderComment ++ '\n' ::
        (info.valueComment ulong ++ '\n' :: info.definitionText ulong)) := by
  rw [tableText, writeTable, writeTableHead, OStream.str_mk, writePoly_eq hn h1]
  simp only [OStream.endl_mk, OStream.str_mk, OStream.hex_mk, OStream.setfill_mk,
    OStream.num_setw, OStream.num_mk, foldl_writeEntry, OStream.dec_mk, OStream.Base.radix,
    CRC.generator, List.nil_append]
  unfold polyComment orderComment valueComment definitionText declarationText
  -- what the literals are does not matter: only the brackets differ
  generalize "// CRC Table for poly ".toList = head
  generalize "// Bit order: ".toList = order
  generalize "// Representation of poly in that bit order: 0x".toList = value
  generalize "const uint".toList = const
  generalize "_t crcTable[] =".toList = name
  generalize "\x7b".toList = lbrace
  generalize "\x7d;".toList = rbrace
  simp only [List.append_assoc, List.nil_append, List.cons_append]

/-! ### Without its comments -/

theorem newline_not_mem_digits {k v : Nat} :
    '\n' ∉ (Nat.toDigits 16 v).leftpad k '0' := fun h =>
  Numeral.forall_mem_leftpad (by decide) (by decide) k (p := fun c => c ≠ '\n') (by decide) _ h rfl

theorem newline_not_mem_polyComment (info : CRCInfo (o.polyType T n)) :
    '\n' ∉ info.polyComment := by
  refine List.not_mem_append (by simp) fun h => ?_
  · exact PowerSum.forall_mem_render _ (p := fun c => c ≠ '\n') (by decide) (by decide)
      (by decide) (by decide) (by decide) _ h rfl

theorem newline_not_mem_orderComment {P : PolyType T} (info : CRCInfo P) :
    '\n' ∉ info.orderComment := by
  unfold orderComment
  cases info.isNative
  · simp
  · simp

theorem newline_not_mem_valueComment {P : PolyType T} (info : CRCInfo P) (ulong : Nat) :
    '\n' ∉ info.valueComment ulong := by
  exact List.not_mem_append (by simp) newline_not_mem_digits

theorem slash_not_mem_entryText {P : PolyType T} (info : CRCInfo P) (ulong : Nat)
    (i : Fin 256) : '/' ∉ info.entryText ulong i := by
  rw [entryText, List.mem_append, List.mem_append, not_or, not_or]
  refine ⟨?_, ?_, ?_⟩
  · split <;> decide
  · intro h
    exact forall_mem_literal _ _ (p := fun c => c ≠ '/') (by decide) (by decide) _ h rfl
  · rw [entryEnd, List.mem_append, not_or]
    constructor <;> split <;> decide

theorem slash_not_mem_definitionText {P : PolyType T} (info : CRCInfo P) (ulong : Nat) :
    '/' ∉ info.definitionText ulong := by
  rw [definitionText, List.mem_append, List.mem_append, List.mem_flatMap, not_or, not_or]
  refine ⟨?_, ?_, by decide⟩
  · cases T <;> decide +kernel
  · rintro ⟨i, -, h⟩
    exact info.slash_not_mem_entryText ulong i h

/-- Removing the comments leaves the definition. -/
theorem dropComments_tableText (hn : o.Admits T n) (h1 : 1 < n) (info : CRCInfo (o.polyType T n))
    (ulong : Nat) (b : OStream.Base) (fill : Char) :
    dropComments (info.tableText ulong b fill) = info.definitionText ulong ++ ['\n'] := by
  have hpoly : isComment info.polyComment = true := isComment_append rfl _
  have horder : isComment info.orderComment = true := isComment_append rfl _
  have hvalue : isComment (info.valueComment ulong) = true :=
    isComment_append rfl _
  rw [tableText_eq hn h1, dropComments_line info.newline_not_mem_polyComment,
    dropComments_line info.newline_not_mem_orderComment,
    dropComments_line (info.newline_not_mem_valueComment ulong),
    dropComments_of_not_mem (info.slash_not_mem_definitionText ulong)]
  rw [if_pos hpoly, if_pos horder, if_pos hvalue, List.nil_append, List.nil_append,
    List.nil_append]

/-! ### As tokens -/

/-- The tokens of the declaration. -/
theorem tokens_declarationText (T : DataType) :
    tokens (declarationText T) =
      ["const".toList, elementType T, "crcTable".toList, ['['], [']'], ['='], ['{']] := by
  cases T <;> rfl

/-- The literal of an entry. -/
def entryLiteral {P : PolyType T} (info : CRCInfo P) (ulong : Nat) (i : Fin 256) : List Char :=
  literal (fieldWidth T) (unsignedLong ulong (info._algorithm.table.get i))

/-- A comma and a space, a line break, or both stand behind a value. -/
theorem entryEnd_cases (i : Fin 256) :
    i.val ≠ 255 ∧ entryEnd i = [',', ' '] ∨ i.val ≠ 255 ∧ entryEnd i = [',', ' ', '\n'] ∨
      i.val = 255 ∧ entryEnd i = ['\n'] := by
  have hcomma : ", ".toList = [',', ' '] := rfl
  rw [entryEnd, hcomma]
  by_cases hlast : i.val = 255
  · exact .inr (.inr ⟨hlast, by rw [hlast]; rfl⟩)
  · rw [if_pos hlast]
    by_cases hline : i.val % 8 = 7
    · exact .inr (.inl ⟨hlast, by rw [if_pos hline]; rfl⟩)
    · exact .inl ⟨hlast, by rw [if_neg hline]; rfl⟩

/-- The tokens of an entry in front of more text. -/
theorem tokens_entryText {P : PolyType T} (info : CRCInfo P) (ulong : Nat) (i : Fin 256)
    (rest : List Char) :
    tokens (info.entryText ulong i ++ rest) =
      info.entryLiteral ulong i :: (tokens (entryEnd i) ++ tokens rest) := by
  have hindent : ∀ p : Prop, [Decidable p] →
      tokens (if p then "    ".toList else []) = [] ∧
        ∀ c ∈ (if p then "    ".toList else []).getLast?, isSep c = true := by
    intro p _
    split
    · exact ⟨rfl, (Option.all_eq_true _ _).mp rfl⟩
    · exact ⟨rfl, fun c hc => by cases hc⟩
  have hlast : ∀ c ∈ (entryEnd i).getLast?, isSep c = true := by
    intro c hc
    obtain ⟨-, h⟩ | ⟨-, h⟩ | ⟨-, h⟩ := entryEnd_cases i <;> rw [h] at hc <;>
      exact Option.some.inj hc ▸ rfl
  have hhead : ∀ c ∈ (entryEnd i ++ rest).head?, isSep c = true := by
    intro c hc
    obtain ⟨-, h⟩ | ⟨-, h⟩ | ⟨-, h⟩ := entryEnd_cases i <;> rw [h] at hc <;>
      exact Option.some.inj hc ▸ rfl
  rw [entryText, List.append_assoc, tokens_append_of_last (hindent _).2, (hindent _).1,
    List.nil_append, List.append_assoc, tokens_append hhead, tokens_literal,
    tokens_append_of_last hlast]
  rfl

/-- The tokens of entries before the last one. -/
theorem tokens_entries {P : PolyType T} (info : CRCInfo P) (ulong : Nat) (is : List (Fin 255))
    (rest : List Char) :
    tokens ((is.map Fin.castSucc).flatMap (info.entryText ulong) ++ rest) =
      (is.flatMap fun i => [info.entryLiteral ulong i.castSucc, [',']]) ++ tokens rest := by
  have hend : ∀ i : Fin 255, tokens (entryEnd i.castSucc) = [[',']] := by
    intro i
    obtain ⟨-, h⟩ | ⟨-, h⟩ | ⟨h, -⟩ := entryEnd_cases i.castSucc
    · rw [h]
      rfl
    · rw [h]
      rfl
    · exact absurd h (Nat.ne_of_lt i.isLt)
  induction is with
  | nil => rfl
  | cons i is ih =>
      rw [List.map_cons, List.flatMap_cons, List.append_assoc, tokens_entryText, ih, hend]
      rfl

/-- The tokens of the whole definition. -/
theorem tokens_definitionText {P : PolyType T} (info : CRCInfo P) (ulong : Nat) :
    tokens (info.definitionText ulong ++ ['\n']) =
      ["const".toList, elementType T, "crcTable".toList, ['['], [']'], ['='], ['{']] ++
        (((List.finRange 255).flatMap fun i => [info.entryLiteral ulong i.castSucc, [',']]) ++
          [info.entryLiteral ulong (Fin.last 255), ['}'], [';']]) := by
  have hlast : ∀ c ∈ (declarationText T).getLast?, isSep c = true :=
    (Option.all_eq_true _ _).mp (by cases T <;> rfl)
  have hend : tokens (entryEnd (Fin.last 255)) = [] := rfl
  have hclose : tokens ("\x7d;".toList ++ ['\n'] ++ ['\n']) = [['}'], [';']] := rfl
  rw [definitionText, List.append_assoc, tokens_append_of_last hlast, tokens_declarationText,
    List.finRange_succ_last, List.flatMap_append, List.append_assoc, List.append_assoc,
    tokens_entries, List.flatMap_singleton, tokens_entryText, hend, hclose]
  rfl

/-! ### As a definition -/

/-- The values of the table in index order. -/
def tableValues {P : PolyType T} (info : CRCInfo P) : List Nat :=
  (List.finRange 256).map fun i => (info._algorithm.table.get i).toNat

theorem unsignedLong_eq {ulong : Nat} (h : T.bits ≤ ulong) (v : T.Val) :
    unsignedLong ulong v = v.toNat :=
  Nat.mod_eq_of_lt (Nat.lt_of_lt_of_le v.isLt (Nat.pow_le_pow_right (by decide) h))

/-- **What a compiler reads**: an array of the written element type with the
values of the table. -/
theorem parse_tableText (hn : o.Admits T n) (h1 : 1 < n) (info : CRCInfo (o.polyType T n))
    {ulong : Nat} (hulong : T.bits ≤ ulong) (b : OStream.Base) (fill : Char) :
    parse (dropComments (info.tableText ulong b fill)) =
      some ⟨elementType T, "crcTable".toList, info.tableValues⟩ := by
  have htype : isIdentifier (elementType T) = true := by cases T <;> rfl
  have hname : isIdentifier "crcTable".toList = true := rfl
  have hinit := parseInitialiser_literals (fieldWidth T)
    (fun i : Fin 256 => unsignedLong ulong (info._algorithm.table.get i))
    ((List.finRange 255).map Fin.castSucc) (Fin.last 255)
  rw [← List.finRange_succ_last, List.flatMap_map] at hinit
  have hvalues : (List.finRange 256).map
      (fun i : Fin 256 => unsignedLong ulong (info._algorithm.table.get i)) = info.tableValues :=
    List.map_congr_left fun i _ => unsignedLong_eq hulong _
  rw [dropComments_tableText hn h1, parse, tokens_definitionText]
  simp only [List.cons_append, List.nil_append]
  rw [parseTokens, if_pos ⟨rfl, htype, hname, rfl, rfl, rfl, rfl⟩]
  refine (congrArg _ hinit).trans ?_
  rw [hvalues]
  rfl

end CRCInfo

/-- Hexadecimal and decimal agree on the width for 8 bits only. -/
theorem elementType_eq_iff (T : DataType) :
    CRCInfo.elementType T = uintType T.bits ↔ T = .uint8_t := by
  cases T <;> decide +kernel

/-- **When the table compiles back.** The definition `writeTable` writes has the
element type `uintW_t`, `W` in decimal, and the values of the table exactly when the
values have 8 bits. -/
theorem writeTable_parses_iff (o : BitOrder) (T : DataType) (c : CRC (o.polyType T T.bits))
    (ulong : Nat) (hulong : T.bits ≤ ulong) (b : OStream.Base) (fill : Char) :
    (∃ d, parse (dropComments ((CRCInfo.mk c).tableText ulong b fill)) = some d ∧
      d.type = uintType T.bits ∧
        d.values = (List.finRange 256).map fun i => (c.table.get i).toNat) ↔ T = .uint8_t := by
  have h1 : 1 < T.bits := Nat.lt_of_lt_of_le (by decide) T.eight_le_bits
  rw [CRCInfo.parse_tableText (o.admits_bits T) h1 _ hulong, ← elementType_eq_iff]
  constructor
  · rintro ⟨d, hd, htype, -⟩
    rw [← Option.some.inj hd] at htype
    exact htype
  · intro h
    exact ⟨_, rfl, h, rfl⟩

/-- The table of an 8-bit CRC compiles. -/
theorem writeTable_crc8 :
    ∃ d, parse (dropComments
        ((CRCInfo.mk (CRC.ofGenerator (Poly .uint8_t 8) 0x07 (by decide))).tableText 64 .dec
          ' ')) = some d ∧
      d.type = uintType 8 ∧
        d.values = (List.finRange 256).map fun i =>
          ((CRC.ofGenerator (Poly .uint8_t 8) 0x07 (by decide)).table.get i).toNat :=
  (writeTable_parses_iff .native .uint8_t (CRC.ofGenerator _ 0x07 (by decide)) 64 (by decide)
    .dec ' ').mpr rfl

/-- The table of CCITT-16 is written with elements of type `uint10_t`. -/
theorem not_writeTable_ccitt :
    ¬ ∃ d, parse (dropComments ((CRCInfo.mk ccitt).tableText 64 .dec ' ')) = some d ∧
      d.type = uintType 16 ∧
        d.values = (List.finRange 256).map fun i => (ccitt.table.get i).toNat := by
  rintro ⟨d, hd, htype, -⟩
  have hread := CRCInfo.parse_tableText (o := .native) (T := .uint16_t) (n := 16) (by decide)
    (by decide) ⟨ccitt⟩ (show 16 ≤ 64 by decide) .dec ' '
  rw [← Option.some.inj (hread.symm.trans hd)] at htype
  exact absurd htype (by decide +kernel)

end CrcPP
