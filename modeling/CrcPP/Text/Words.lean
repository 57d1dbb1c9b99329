import Mathlib.Data.List.Induction
import Mathlib.Tactic.Common

/-!
# CrcPP.Text.Words

**Splitting a text at whitespace.** Everything about `words` follows from two
equations: a text splits at a whitespace character (`words_append_space`), and a
text without whitespace is one word (`words_of_plain`).
-/

namespace Words

/-- The words of a text: its maximal runs without whitespace. -/
def words (text : List Char) : List (List Char) :=
  (text.splitOnP Char.isWhitespace).filter (· ≠ [])

@[simp] theorem words_nil : words [] = [] := rfl

theorem words_append_space {c : Char} (hc : c.isWhitespace = true) (xs ys : List Char) :
    words (xs ++ c :: ys) = words xs ++ words ys := by
  rw [words, List.splitOnP_append_cons xs ys hc, List.filter_append]
  rfl

theorem words_space_cons {c : Char} (hc : c.isWhitespace = true) (ys : List Char) :
    words (c :: ys) = words ys := words_append_space hc [] ys

theorem words_append_singleton {c : Char} (hc : c.isWhitespace = true) (xs : List Char) :
    words (xs ++ [c]) = words xs := by
  rw [words_append_space hc, words_nil, List.append_nil]

/-- A text without whitespace is one word. -/
theorem words_of_plain {w : List Char} (hne : w ≠ []) (h : ∀ c ∈ w, c.isWhitespace = false) :
    words w = [w] := by
  rw [words, List.splitOnP_eq_singleton h]
  simp [hne]

/-- A word in front of a whitespace character. -/
theorem words_plain_append {w : List Char} (hne : w ≠ []) (h : ∀ c ∈ w, c.isWhitespace = false)
    {c : Char} (hc : c.isWhitespace = true) (ys : List Char) :
    words (w ++ c :: ys) = w :: words ys := by
  rw [words_append_space hc, words_of_plain hne h, List.singleton_append]

/-- A text splits in front of a whitespace character, too. -/
theorem words_append {xs ys : List Char} (h : ∀ c ∈ ys.head?, c.isWhitespace = true) :
    words (xs ++ ys) = words xs ++ words ys := by
  cases ys with
  | nil => rw [List.append_nil, words_nil, List.append_nil]
  | cons c ys =>
      have hc := h c rfl
      rw [words_append_space hc, words_space_cons hc]

/-- A text splits behind a whitespace character, too. -/
theorem words_append_of_last {xs ys : List Char}
    (h : ∀ c ∈ xs.getLast?, c.isWhitespace = true) :
    words (xs ++ ys) = words xs ++ words ys := by
  induction xs using List.reverseRecOn with
  | nil => rw [List.nil_append, words_nil, List.nil_append]
  | append_singleton xs c _ =>
      have hc := h c (by rw [List.getLast?_append]; rfl)
      rw [List.append_assoc, List.singleton_append, words_append_space hc,
        words_append_singleton hc]

end Words
