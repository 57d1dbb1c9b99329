import CrcPP.Text.Numeral
import CrcPP.Text.Words

/-!
# CrcPP.Text.CArray

**Array definitions in C source text.** The fragment is what a generated table
needs: whole-line `//` comments, identifiers, one-character punctuators and
hexadecimal literals, put together to

    const TYPE NAME[] = { LITERAL, LITERAL, ... };

The lexer sets punctuators off by spaces and then splits at whitespace, so the two
facts about it are those about `Words.words`: a text splits at a separator, and a
text without separators is one token.
-/

namespace CArray

open Words

/-! ### Comment lines -/

/-- The lines of a text. -/
def lines (text : List Char) : List (List Char) := text.splitOnP (· == '\n')

/-- The text made of these lines. -/
def unlines (ls : List (List Char)) : List Char := ls.flatMap fun l => l ++ ['\n']

/-- Whether a line is nothing but a `//` comment. -/
def isComment (line : List Char) : Bool := ['/', '/'].isPrefixOf line

theorem isComment_append {l : List Char} (h : isComment l = true) (m : List Char) :
    isComment (l ++ m) = true :=
  List.isPrefixOf_iff_prefix.mpr
    ((List.isPrefixOf_iff_prefix.mp h).trans (List.prefix_append l m))

/-- Remove the comment lines. -/
def dropComments (text : List Char) : List Char :=
  unlines ((lines text).filter fun l => !isComment l)

theorem unlines_lines (text : List Char) : unlines (lines text) = text ++ ['\n'] := by
  induction text with
  | nil => rfl
  | cons c text ih =>
      rw [lines, List.splitOnP_cons_eq_if_modifyHead]
      split
      · next h =>
          obtain rfl := beq_iff_eq.mp h
          exact congrArg ('\n' :: ·) ih
      · next h =>
          obtain ⟨l, ls, hl⟩ := List.exists_cons_of_ne_nil
            (List.splitOnP_ne_nil (· == '\n') text)
          rw [lines, hl] at ih
          rw [hl, List.modifyHead_cons]
          exact congrArg (c :: ·) ih

/-- A line in front of the rest of the text. -/
theorem dropComments_line {l : List Char} (hl : '\n' ∉ l) (rest : List Char) :
    dropComments (l ++ '\n' :: rest) =
      (if isComment l then [] else l ++ ['\n']) ++ dropComments rest := by
  have hplain : ∀ c ∈ l, (c == '\n') = false := by
    intro c hc
    exact beq_eq_false_iff_ne.mpr fun h => hl (h ▸ hc)
  have hsplit : lines (l ++ '\n' :: rest) = lines l ++ lines rest :=
    List.splitOnP_append_cons l rest (beq_self_eq_true '\n')
  have hline : lines l = [l] := List.splitOnP_eq_singleton hplain
  rw [dropComments, hsplit, hline, List.singleton_append, List.filter_cons]
  cases isComment l <;> rfl

/-- A text without a slash has no comment line. -/
theorem dropComments_of_not_mem {text : List Char} (h : '/' ∉ text) :
    dropComments text = text ++ ['\n'] := by
  have hkeep : (lines text).filter (fun l => !isComment l) = lines text := by
    rw [List.filter_eq_self]
    intro l hl
    match l with
    | [] => rfl
    | c :: l =>
        have hc : c ∈ unlines (lines text) :=
          List.mem_flatMap.mpr ⟨c :: l, hl, List.mem_append_left _ List.mem_cons_self⟩
        rw [unlines_lines, List.mem_append, List.mem_singleton] at hc
        have hne : ('/' == c) = false := by
          refine beq_eq_false_iff_ne.mpr ?_
          rintro rfl
          rcases hc with hc | hc
          · exact h hc
          · exact absurd hc (by decide)
        rw [isComment, List.isPrefixOf, hne]
        rfl
  rw [dropComments, hkeep, unlines_lines]

/-! ### Tokens -/

/-- The one-character punctuators. -/
def isPunct (c : Char) : Bool := c ∈ ['[', ']', '{', '}', '=', ',', ';']

/-- What separates two tokens. -/
def isSep (c : Char) : Bool := c.isWhitespace || isPunct c

/-- Set punctuators off by spaces. -/
def spaced (text : List Char) : List Char :=
  text.flatMap fun c => if isPunct c then [' ', c, ' '] else [c]

/-- The tokens of a text. -/
def tokens (text : List Char) : List (List Char) := words (spaced text)

theorem spaced_append (xs ys : List Char) : spaced (xs ++ ys) = spaced xs ++ spaced ys :=
  List.flatMap_append

theorem spaced_of_plain {w : List Char} (h : ∀ c ∈ w, isSep c = false) : spaced w = w := by
  induction w with
  | nil => rfl
  | cons c w ih =>
      have hc := h c List.mem_cons_self
      rw [isSep, Bool.or_eq_false_iff] at hc
      rw [spaced, List.flatMap_cons, hc.2, if_neg Bool.false_ne_true]
      exact congrArg (c :: ·) (ih fun d hd => h d (List.mem_cons_of_mem c hd))

/-- A text splits in front of a separator. -/
theorem tokens_append {xs ys : List Char} (h : ∀ c ∈ ys.head?, isSep c = true) :
    tokens (xs ++ ys) = tokens xs ++ tokens ys := by
  rw [tokens, spaced_append]
  refine words_append ?_
  cases ys with
  | nil => simp [spaced]
  | cons c ys =>
      have hc := h c rfl
      rw [spaced, List.flatMap_cons]
      split
      · intro d hd
        obtain rfl := Option.some.inj hd
        rfl
      · next hp =>
          intro d hd
          obtain rfl := Option.some.inj hd
          rw [isSep, Bool.or_eq_true] at hc
          exact hc.resolve_right hp

/-- A text splits behind a separator. -/
theorem tokens_append_of_last {xs ys : List Char} (h : ∀ c ∈ xs.getLast?, isSep c = true) :
    tokens (xs ++ ys) = tokens xs ++ tokens ys := by
  rw [tokens, spaced_append]
  refine words_append_of_last ?_
  induction xs using List.reverseRecOn with
  | nil => simp [spaced]
  | append_singleton xs c _ =>
      have hc := h c (by rw [List.getLast?_append]; rfl)
      rw [spaced_append, spaced, spaced, List.flatMap_singleton]
      split
      · intro d hd
        rw [List.getLast?_append] at hd
        obtain rfl := Option.some.inj hd
        rfl
      · next hp =>
          intro d hd
          rw [List.getLast?_append] at hd
          obtain rfl := Option.some.inj hd
          rw [isSep, Bool.or_eq_true] at hc
          exact hc.resolve_right hp

/-- A text without separators is one token. -/
theorem tokens_of_plain {w : List Char} (hne : w ≠ []) (h : ∀ c ∈ w, isSep c = false) :
    tokens w = [w] := by
  rw [tokens, spaced_of_plain h]
  refine words_of_plain hne fun c hc => ?_
  have := h c hc
  rw [isSep, Bool.or_eq_false_iff] at this
  exact this.1

/-! ### Definitions -/

/-- Whether a token is an identifier. -/
def isIdentifier : List Char → Bool
  | [] => false
  | c :: cs => (c.isAlpha || c == '_') && cs.all fun d => d.isAlphanum || d == '_'

/-- A hexadecimal literal. -/
def parseLiteral : List Char → Option Nat
  | '0' :: 'x' :: digits => Numeral.read 16 digits
  | '0' :: 'X' :: digits => Numeral.read 16 digits
  | _ => none

/-- The literals of an initialiser list, to the end of the definition. -/
def parseInitialiser : List (List Char) → Option (List Nat)
  | literal :: sep :: rest =>
    (parseLiteral literal).bind fun v =>
      if sep = [','] then (parseInitialiser rest).map fun vs => v :: vs
      else if sep = ['}'] ∧ rest = [[';']] then some [v]
      else none
  | _ => none

/-- The definition of a constant array. -/
structure Definition where
  type : List Char
  name : List Char
  values : List Nat
  deriving Repr, DecidableEq

/-- Read a definition from its tokens. -/
def parseTokens : List (List Char) → Option Definition
  | const :: type :: name :: lbracket :: rbracket :: eq :: lbrace :: rest =>
    if const = "const".toList ∧ isIdentifier type ∧ isIdentifier name ∧
        lbracket = ['['] ∧ rbracket = [']'] ∧ eq = ['='] ∧ lbrace = ['{'] then
      (parseInitialiser rest).map fun values => ⟨type, name, values⟩
    else none
  | _ => none

/-- Read a definition from source text. -/
def parse (text : List Char) : Option Definition := parseTokens (tokens text)

/-- A hexadecimal literal of at least `k` digits. -/
def literal (k v : Nat) : List Char := '0' :: 'x' :: (Nat.toDigits 16 v).leftpad k '0'

theorem parseLiteral_literal (k v : Nat) : parseLiteral (literal k v) = some v :=
  Numeral.read_leftpad (by decide) (by decide) k v

/-- What holds of the digits and of the `x` holds of every character of a literal. -/
theorem forall_mem_literal (k v : Nat) {p : Char → Prop} (hx : p 'x')
    (hp : ∀ d < 16, p d.digitChar) : ∀ c ∈ literal k v, p c := by
  intro c hc
  rw [literal, List.mem_cons, List.mem_cons] at hc
  rcases hc with rfl | rfl | hc
  · exact hp 0 (by decide)
  · exact hx
  · exact Numeral.forall_mem_leftpad (by decide) (by decide) k hp c hc

theorem literal_plain (k v : Nat) : ∀ c ∈ literal k v, isSep c = false :=
  forall_mem_literal k v (p := fun c => isSep c = false) rfl (by decide)

theorem tokens_literal (k v : Nat) : tokens (literal k v) = [literal k v] :=
  tokens_of_plain (List.cons_ne_nil _ _) (literal_plain k v)

/-- The tokens of an initialiser list read as its values. -/
theorem parseInitialiser_literals {ι : Type} (k : Nat) (value : ι → Nat) (is : List ι) (last : ι) :
    parseInitialiser ((is.flatMap fun i => [literal k (value i), [',']]) ++
        [literal k (value last), ['}'], [';']]) =
      some ((is ++ [last]).map value) := by
  induction is with
  | nil =>
      rw [List.flatMap_nil, List.nil_append, parseInitialiser, parseLiteral_literal,
        Option.bind_some, if_neg (by decide), if_pos (by decide)]
      rfl
  | cons i is ih =>
      rw [List.flatMap_cons, List.append_assoc, List.cons_append, List.cons_append,
        List.nil_append, parseInitialiser, parseLiteral_literal, Option.bind_some, if_pos rfl, ih]
      rfl

end CArray
