import Mathlib.Data.List.Forall2
import Mathlib.Data.List.TakeWhile
import Mathlib.Tactic.Common

/-!
# CrcPP.Text.CommandLine

The **grammar of a command line** with options: which words are options, which are
their arguments, and where the operands begin. Options are letters, several of which
may stand in one word, or long names; either kind may take an argument, in the same
word or in the next one. The first word that is neither an option nor an argument of
one is the first operand, unless a separator `--` stands in front of it.

`parse` reads a command line, word by word. `Spells` says in how many ways the same
options can be written, and `parse_spells` that reading undoes writing.
-/

namespace CommandLine

/-- A word of a command line. -/
abbrev Word := List Char

/-- Whether a long option takes an argument. -/
inductive Arity
  | none
  | required
  | optional
  deriving Repr, DecidableEq

/-- The options a program knows. -/
structure Grammar (ι : Type*) where
  /-- The option of a letter, and whether it takes an argument. -/
  short : Char → Option (ι × Bool)
  /-- The option of a long name. -/
  long : Word → Option (ι × Arity)

/-- What is read: an option, with its argument if it takes one, or an error. -/
inductive Item (ι : Type*)
  | opt (o : ι) (arg : Option Word)
  | unknown
  | missing
  deriving Repr, DecidableEq

/-- What follows the letters of a word: further words, or nothing but operands. -/
inductive Rest
  | more (ws : List Word)
  | operands (ws : List Word)
  deriving Repr, DecidableEq

/-- What a word is, by its dashes. -/
inductive Kind
  | operand
  | separator
  | long (text : Word)
  | letters (cs : List Char)
  deriving Repr, DecidableEq

/-- A dash on its own is read as a letter. -/
def kind : Word → Kind
  | ['-'] => .letters ['-']
  | ['-', '-'] => .separator
  | '-' :: '-' :: text => .long text
  | '-' :: cs => .letters cs
  | _ => .operand

variable {ι : Type*} (G : Grammar ι)

/-- The letters of the word `w`, in front of the words `ws`. A dash that is no option
ends the options, and leaves its word as an operand. -/
def letters (w : Word) : List Char → List Word → List (Item ι) × Rest
  | [], ws => ([], .more ws)
  | c :: cs, ws =>
    match G.short c with
    | none =>
      if c = '-' then ([], .operands (w :: ws))
      else (.unknown :: (letters w cs ws).1, (letters w cs ws).2)
    | some (o, false) => (.opt o none :: (letters w cs ws).1, (letters w cs ws).2)
    | some (o, true) =>
      match cs, ws with
      | [], [] => ([.missing], .more [])
      | [], v :: ws => ([.opt o (some v)], .more ws)
      | c :: cs, ws => ([.opt o (some (c :: cs))], .more ws)

/-- A long option in front of the words `ws`: its name ends at the first `=`. -/
def longOption (text : Word) (ws : List Word) : Item ι × List Word :=
  match G.long (text.takeWhile (· ≠ '=')) with
  | none => (.unknown, ws)
  | some (o, .none) => (.opt o none, ws)
  | some (o, arity) =>
    match text.dropWhile (· ≠ '='), ws with
    | _ :: value, ws => (.opt o (some value), ws)
    | [], v :: ws => (.opt o (some v), ws)
    | [], [] => (if arity = .required then .missing else .opt o none, [])

section Letters

variable {G} {c : Char} {o : ι} (w : Word) (cs : List Char) (ws : List Word)

@[simp] theorem letters_nil : letters G w [] ws = ([], .more ws) := rfl

theorem letters_dash (h : G.short '-' = none) :
    letters G w ('-' :: cs) ws = ([], .operands (w :: ws)) := by
  rw [letters, h]
  exact if_pos rfl

theorem letters_unknown (h : G.short c = none) (hc : c ≠ '-') :
    letters G w (c :: cs) ws = (.unknown :: (letters G w cs ws).1, (letters G w cs ws).2) := by
  rw [letters, h]
  exact if_neg hc

theorem letters_flag (h : G.short c = some (o, false)) :
    letters G w (c :: cs) ws = (.opt o none :: (letters G w cs ws).1, (letters G w cs ws).2) := by
  rw [letters, h]

theorem letters_attached (h : G.short c = some (o, true)) (hne : cs ≠ []) :
    letters G w (c :: cs) ws = ([.opt o (some cs)], .more ws) := by
  obtain ⟨d, cs, rfl⟩ := List.exists_cons_of_ne_nil hne
  rw [letters, h]

theorem letters_separate (h : G.short c = some (o, true)) (v : Word) :
    letters G w [c] (v :: ws) = ([.opt o (some v)], .more ws) := by
  rw [letters, h]

theorem letters_missing (h : G.short c = some (o, true)) :
    letters G w [c] [] = ([.missing], .more []) := by
  rw [letters, h]

end Letters

section LongOption

variable {G} {text : Word} {o : ι} {arity : Arity} (ws : List Word)

theorem longOption_unknown (h : G.long (text.takeWhile (· ≠ '=')) = none) :
    longOption G text ws = (.unknown, ws) := by
  rw [longOption, h]

theorem longOption_flag (h : G.long (text.takeWhile (· ≠ '=')) = some (o, .none)) :
    longOption G text ws = (.opt o none, ws) := by
  rw [longOption, h]

variable (h : G.long (text.takeWhile (· ≠ '=')) = some (o, arity)) (harity : arity ≠ .none)

include h harity

theorem longOption_attached {c : Char} {value : Word}
    (htext : text.dropWhile (· ≠ '=') = c :: value) :
    longOption G text ws = (.opt o (some value), ws) := by
  rw [longOption, h, htext]
  cases arity with
  | none => exact absurd rfl harity
  | required => rfl
  | optional => rfl

theorem longOption_separate (htext : text.dropWhile (· ≠ '=') = []) (v : Word) :
    longOption G text (v :: ws) = (.opt o (some v), ws) := by
  rw [longOption, h, htext]
  cases arity with
  | none => exact absurd rfl harity
  | required => rfl
  | optional => rfl

theorem longOption_end (htext : text.dropWhile (· ≠ '=') = []) :
    longOption G text [] = (if arity = .required then .missing else .opt o none, []) := by
  rw [longOption, h, htext]
  cases arity with
  | none => exact absurd rfl harity
  | required => rfl
  | optional => rfl

end LongOption

theorem length_letters {w : Word} {cs : List Char} {ws ws' : List Word}
    (h : (letters G w cs ws).2 = .more ws') : ws'.length ≤ ws.length := by
  induction cs with
  | nil =>
      obtain rfl := Rest.more.inj h
      exact Nat.le_refl _
  | cons c cs ih =>
      rw [letters] at h
      split at h
      · split at h
        · cases h
        · exact ih h
      · exact ih h
      · split at h
        · obtain rfl := Rest.more.inj h
          exact Nat.le_refl _
        · obtain rfl := Rest.more.inj h
          exact Nat.le_succ _
        · obtain rfl := Rest.more.inj h
          exact Nat.le_refl _

theorem length_longOption (text : Word) (ws : List Word) :
    (longOption G text ws).2.length ≤ ws.length := by
  rw [longOption]
  split
  · exact Nat.le_refl _
  · exact Nat.le_refl _
  · split
    · exact Nat.le_refl _
    · exact Nat.le_succ _
    · exact Nat.le_refl _

/-- **Read a command line**: its items, and its operands. -/
def parse : List Word → List (Item ι) × List Word
  | [] => ([], [])
  | w :: ws =>
    match kind w with
    | .operand => ([], w :: ws)
    | .separator => ([], ws)
    | .long text =>
      ((longOption G text ws).1 :: (parse (longOption G text ws).2).1,
        (parse (longOption G text ws).2).2)
    | .letters cs =>
      match _h : (letters G w cs ws).2 with
      | .more ws' => ((letters G w cs ws).1 ++ (parse ws').1, (parse ws').2)
      | .operands ops => ((letters G w cs ws).1, ops)
termination_by ws => ws.length
decreasing_by
  · exact Nat.lt_succ_of_le (length_longOption G text ws)
  · exact Nat.lt_succ_of_le (length_letters G ‹_›)

/-! ### Reading one word -/

theorem parse_nil : parse G [] = ([], []) := by
  rw [parse]

theorem parse_operand {w : Word} (h : kind w = .operand) (ws : List Word) :
    parse G (w :: ws) = ([], w :: ws) := by
  rw [parse, h]

theorem parse_separator {w : Word} (h : kind w = .separator) (ws : List Word) :
    parse G (w :: ws) = ([], ws) := by
  rw [parse, h]

theorem parse_long {w text : Word} (h : kind w = .long text) (ws : List Word) :
    parse G (w :: ws) =
      ((longOption G text ws).1 :: (parse G (longOption G text ws).2).1,
        (parse G (longOption G text ws).2).2) := by
  rw [parse, h]

/-- Go on behind the letters of a word. -/
def resume (read : List (Item ι) × Rest) : List (Item ι) × List Word :=
  match read.2 with
  | .more ws => (read.1 ++ (parse G ws).1, (parse G ws).2)
  | .operands ops => (read.1, ops)

theorem parse_letters {w : Word} {cs : List Char} (h : kind w = .letters cs) (ws : List Word) :
    parse G (w :: ws) = resume G (letters G w cs ws) := by
  rw [parse, h]
  dsimp only
  rw [resume]
  split
  · next ws' h' => rw [h']
  · next ops h' => rw [h']

@[simp] theorem resume_more (items : List (Item ι)) (ws : List Word) :
    resume G (items, .more ws) = (items ++ (parse G ws).1, (parse G ws).2) := rfl

theorem resume_append (items : List (Item ι)) (read : List (Item ι) × Rest) :
    resume G (items ++ read.1, read.2) =
      (items ++ (resume G read).1, (resume G read).2) := by
  obtain ⟨items', rest⟩ := read
  cases rest with
  | more ws => rw [resume_more, resume_more, List.append_assoc]
  | operands ops => rfl

/-- **Induction along a command line**: what holds of the reading behind a word holds of
the reading from the word on. -/
theorem parse_induction {motive : List Word → List (Item ι) × List Word → Prop}
    (nil : motive [] ([], []))
    (operand : ∀ w ws, kind w = .operand → motive (w :: ws) ([], w :: ws))
    (separator : ∀ w ws, kind w = .separator → motive (w :: ws) ([], ws))
    (long : ∀ w text ws, kind w = .long text →
      motive (longOption G text ws).2 (parse G (longOption G text ws).2) →
      motive (w :: ws) ((longOption G text ws).1 :: (parse G (longOption G text ws).2).1,
        (parse G (longOption G text ws).2).2))
    (letters : ∀ w cs ws, kind w = .letters cs →
      (∀ ws', (letters G w cs ws).2 = .more ws' → motive ws' (parse G ws')) →
      motive (w :: ws) (resume G (letters G w cs ws)))
    (ws : List Word) : motive ws (parse G ws) := by
  induction h : ws.length using Nat.strong_induction_on generalizing ws with
  | _ n ih =>
      subst h
      cases ws with
      | nil =>
          rw [parse_nil]
          exact nil
      | cons w ws =>
          cases hw : kind w with
          | operand =>
              rw [parse_operand G hw]
              exact operand w ws hw
          | separator =>
              rw [parse_separator G hw]
              exact separator w ws hw
          | long text =>
              rw [parse_long G hw]
              exact long w text ws hw
                (ih _ (Nat.lt_succ_of_le (length_longOption G text ws)) _ rfl)
          | letters cs =>
              rw [parse_letters G hw]
              exact letters w cs ws hw fun ws' hr =>
                ih _ (Nat.lt_succ_of_le (length_letters G hr)) _ rfl

/-! ### Writing a command line -/

variable {G}

theorem kind_letters {cs : List Char} (hne : cs ≠ []) (hdash : cs.head? ≠ some '-') :
    kind ('-' :: cs) = .letters cs := by
  cases cs with
  | nil => exact absurd rfl hne
  | cons c cs =>
      have hc : c ≠ '-' := fun h => hdash (h ▸ rfl)
      simp [kind, hc]

theorem kind_long {text : Word} (hne : text ≠ []) : kind ('-' :: '-' :: text) = .long text := by
  cases text with
  | nil => exact absurd rfl hne
  | cons c cs => rfl

theorem kind_operand {w : Word} (h : w.head? ≠ some '-') : kind w = .operand := by
  cases w with
  | nil => rfl
  | cons c cs =>
      have hc : c ≠ '-' := fun hc => h (hc ▸ rfl)
      simp [kind, hc]

/-- A word with two dashes in front of a text. -/
theorem eq_of_kind_long {w text : Word} (h : kind w = .long text) :
    w = '-' :: '-' :: text ∧ text ≠ [] := by
  unfold kind at h
  split at h
  · cases h
  · cases h
  · next hne =>
      obtain rfl := Kind.long.inj h
      exact ⟨rfl, fun hnil => hne (hnil ▸ rfl)⟩
  · cases h
  · cases h

theorem eq_of_kind_separator {w : Word} (h : kind w = .separator) : w = ['-', '-'] := by
  unfold kind at h
  split at h
  · cases h
  · rfl
  · cases h
  · cases h
  · cases h

theorem ne_nil_of_kind_letters {w : Word} {cs : List Char} (h : kind w = .letters cs) :
    cs ≠ [] := by
  unfold kind at h
  split at h
  · obtain rfl := Kind.letters.inj h
    exact List.cons_ne_nil _ _
  · cases h
  · cases h
  · next hne _ _ =>
      obtain rfl := Kind.letters.inj h
      exact fun hnil => hne (hnil ▸ rfl)
  · cases h

/-- The letters of options without argument, in front of others. -/
theorem letters_flags {cs : List Char} {os : List ι}
    (h : List.Forall₂ (fun c o => G.short c = some (o, false)) cs os) (w : Word)
    (tail : List Char) (ws : List Word) :
    letters G w (cs ++ tail) ws =
      (os.map (.opt · none) ++ (letters G w tail ws).1, (letters G w tail ws).2) := by
  induction h with
  | nil => rfl
  | cons hc _ ih =>
      rw [List.cons_append, letters, hc]
      dsimp only
      rw [ih]
      rfl

/-- The words that spell some options: letters without argument and at most one with an
argument, or a long name. -/
inductive Spelling (G : Grammar ι) : List (Item ι) → List Word → Prop
  | letters {cs : List Char} {os : List ι} :
      List.Forall₂ (fun c o => G.short c = some (o, false)) cs os → cs ≠ [] →
      cs.head? ≠ some '-' → Spelling G (os.map (.opt · none)) ['-' :: cs]
  | attached {cs : List Char} {os : List ι} {c : Char} {o : ι} {value : Word} :
      List.Forall₂ (fun c o => G.short c = some (o, false)) cs os → G.short c = some (o, true) →
      (cs ++ [c]).head? ≠ some '-' → value ≠ [] →
      Spelling G (os.map (.opt · none) ++ [.opt o (some value)]) ['-' :: (cs ++ c :: value)]
  | separate {cs : List Char} {os : List ι} {c : Char} {o : ι} (value : Word) :
      List.Forall₂ (fun c o => G.short c = some (o, false)) cs os → G.short c = some (o, true) →
      (cs ++ [c]).head? ≠ some '-' →
      Spelling G (os.map (.opt · none) ++ [.opt o (some value)]) ['-' :: (cs ++ [c]), value]
  | long {name : Word} {o : ι} :
      G.long name = some (o, .none) → '=' ∉ name → name ≠ [] →
      Spelling G [.opt o none] ['-' :: '-' :: name]
  | longAttached {name : Word} {o : ι} {arity : Arity} (value : Word) :
      G.long name = some (o, arity) → arity ≠ .none → '=' ∉ name →
      Spelling G [.opt o (some value)] ['-' :: '-' :: (name ++ '=' :: value)]
  | longSeparate {name : Word} {o : ι} {arity : Arity} (value : Word) :
      G.long name = some (o, arity) → arity ≠ .none → '=' ∉ name → name ≠ [] →
      Spelling G [.opt o (some value)] ['-' :: '-' :: name, value]

/-- The words that spell some options, one after the other. -/
inductive Spells (G : Grammar ι) : List (Item ι) → List Word → Prop
  | nil : Spells G [] []
  | cons {is js : List (Item ι)} {ws vs : List Word} :
      Spelling G is ws → Spells G js vs → Spells G (is ++ js) (ws ++ vs)

theorem Spells.single {is : List (Item ι)} {ws : List Word} (h : Spelling G is ws) :
    Spells G is ws := by
  have hcons := Spells.cons h .nil
  rwa [List.append_nil, List.append_nil] at hcons

/-- A name on its own, and one with a value behind it. -/
theorem takeWhile_name {name : Word} (hname : '=' ∉ name) :
    (name.takeWhile (· ≠ '=') = name ∧ name.dropWhile (· ≠ '=') = []) ∧
      ∀ value, (name ++ '=' :: value).takeWhile (· ≠ '=') = name ∧
        (name ++ '=' :: value).dropWhile (· ≠ '=') = '=' :: value := by
  have hmem : ∀ c ∈ name, (decide (c ≠ '=')) = true := by
    intro c hc
    exact decide_eq_true fun h => hname (h ▸ hc)
  refine ⟨⟨List.takeWhile_eq_self_iff.mpr hmem, List.dropWhile_eq_nil_iff.mpr hmem⟩, ?_⟩
  intro value
  rw [List.takeWhile_append_of_pos hmem, List.takeWhile_cons_of_neg (by simp), List.append_nil,
    List.dropWhile_append_of_pos hmem, List.dropWhile_cons_of_neg (by simp)]
  exact ⟨rfl, rfl⟩

/-- Reading undoes one spelling. -/
theorem parse_spelling {is : List (Item ι)} {ws : List Word} (h : Spelling G is ws)
    (rest : List Word) : parse G (ws ++ rest) = (is ++ (parse G rest).1, (parse G rest).2) := by
  cases h with
  | @letters cs os hflags hne hdash =>
      have hl := letters_flags hflags ('-' :: cs) [] rest
      rw [List.append_nil, letters_nil, List.append_nil] at hl
      rw [List.singleton_append, parse_letters G (kind_letters hne hdash), hl, resume_more]
  | @attached cs os c o value hflags hc hdash hne =>
      have hl := letters_flags hflags ('-' :: (cs ++ c :: value)) (c :: value) rest
      rw [letters_attached _ _ _ hc hne] at hl
      have hdash' : (cs ++ c :: value).head? ≠ some '-' := by
        cases cs with
        | nil => exact hdash
        | cons => exact hdash
      rw [List.singleton_append, parse_letters G (kind_letters (by simp) hdash'), hl, resume_more]
  | @separate cs os c o value hflags hc hdash =>
      have hl := letters_flags hflags ('-' :: (cs ++ [c])) [c] (value :: rest)
      rw [letters_separate _ _ hc] at hl
      rw [List.cons_append, List.singleton_append,
        parse_letters G (kind_letters (by simp) hdash), hl, resume_more]
  | @long name o ho hname hne =>
      obtain ⟨⟨htake, -⟩, -⟩ := takeWhile_name hname
      rw [List.singleton_append, parse_long G (kind_long hne),
        longOption_flag rest (by rwa [htake])]
      rfl
  | @longAttached name o arity value ho harity hname =>
      obtain ⟨-, hvalue⟩ := takeWhile_name hname
      obtain ⟨htake, hdrop⟩ := hvalue value
      rw [List.singleton_append, parse_long G (kind_long (by simp)),
        longOption_attached rest (by rwa [htake]) harity hdrop]
      rfl
  | @longSeparate name o arity value ho harity hname hne =>
      obtain ⟨⟨htake, hdrop⟩, -⟩ := takeWhile_name hname
      rw [List.cons_append, List.singleton_append, parse_long G (kind_long hne),
        longOption_separate rest (by rwa [htake]) harity hdrop]
      rfl

/-- **Reading undoes writing.** Options in any spelling, in front of other words, are read
first. -/
theorem parse_spells {is : List (Item ι)} {ws : List Word} (h : Spells G is ws)
    (rest : List Word) : parse G (ws ++ rest) = (is ++ (parse G rest).1, (parse G rest).2) := by
  induction h with
  | nil => rfl
  | cons hs _ ih =>
      rw [List.append_assoc, parse_spelling hs, ih]
      simp only [List.append_assoc]

/-- Operands that do not begin with a dash need no separator. -/
theorem parse_spells_operands {is : List (Item ι)} {ws : List Word} (h : Spells G is ws)
    {ops : List Word} (hops : ∀ w ∈ ops.head?, w.head? ≠ some '-') :
    parse G (ws ++ ops) = (is, ops) := by
  have hparse : parse G ops = ([], ops) := by
    cases ops with
    | nil => exact parse_nil G
    | cons w ops => exact parse_operand G (kind_operand (hops w rfl)) ops
  rw [parse_spells h, hparse, List.append_nil]

/-- Behind a separator operands may be anything. -/
theorem parse_spells_separator {is : List (Item ι)} {ws : List Word} (h : Spells G is ws)
    (ops : List Word) : parse G (ws ++ ['-', '-'] :: ops) = (is, ops) := by
  rw [parse_spells h, parse_separator G rfl, List.append_nil]

/-! ### What is read -/

variable (G)

/-- What holds of the items of single words holds of all items. -/
theorem forall_mem_parse {p : Item ι → Prop}
    (hletters : ∀ w cs ws, ∀ i ∈ (letters G w cs ws).1, p i)
    (hlong : ∀ text ws, p (longOption G text ws).1) (ws : List Word) :
    ∀ i ∈ (parse G ws).1, p i := by
  refine parse_induction G (motive := fun _ read => ∀ i ∈ read.1, p i) ?_ ?_ ?_ ?_ ?_ ws
  · intro i hi
    cases hi
  · intro w ws _ i hi
    cases hi
  · intro w ws _ i hi
    cases hi
  · intro w text ws _ ih i hi
    obtain rfl | hi := List.mem_cons.mp hi
    · exact hlong text ws
    · exact ih i hi
  · intro w cs ws _ ih i hi
    rw [resume] at hi
    split at hi
    · next ws' hr =>
        obtain hi | hi := List.mem_append.mp hi
        · exact hletters w cs ws i hi
        · exact ih ws' hr i hi
    · exact hletters w cs ws i hi

/-- An option is read without an argument when it takes none, or when it may go without. -/
theorem of_mem_parse_opt_none {ws : List Word} {o : ι} (h : .opt o none ∈ (parse G ws).1) :
    (∃ c, G.short c = some (o, false)) ∨
      ∃ name arity, G.long name = some (o, arity) ∧ arity ≠ .required := by
  have hall := forall_mem_parse G (p := fun i => ∀ o, i = .opt o none →
    (∃ c, G.short c = some (o, false)) ∨
      ∃ name arity, G.long name = some (o, arity) ∧ arity ≠ .required) ?_ ?_ ws
  · exact hall _ h o rfl
  · intro w cs ws i hi o ho
    subst ho
    induction cs with
    | nil => cases hi
    | cons c cs ih =>
        rw [letters] at hi
        split at hi
        · split at hi
          · cases hi
          · exact ih (List.mem_of_ne_of_mem (by simp) hi)
        · next o' hc =>
            obtain heq | hi := List.mem_cons.mp hi
            · obtain rfl := (Item.opt.inj heq).1
              exact .inl ⟨c, hc⟩
            · exact ih hi
        · split at hi <;> simp at hi
  · intro text ws o ho
    rw [longOption] at ho
    split at ho
    · cases ho
    · next o' ho' =>
        obtain rfl := (Item.opt.inj ho).1
        exact .inr ⟨_, _, ho', by simp⟩
    · next o' arity hne ho' =>
        split at ho
        · cases ho
        · cases ho
        · split at ho
          · cases ho
          · next harity =>
              obtain rfl := (Item.opt.inj ho).1
              exact .inr ⟨_, _, ho', harity⟩

/-! ### How many items there are -/

theorem length_items_letters (w : Word) (cs : List Char) (ws : List Word) :
    (letters G w cs ws).1.length ≤ cs.length := by
  induction cs with
  | nil => exact Nat.le_refl 0
  | cons c cs ih =>
      rw [letters]
      split
      · split
        · exact Nat.zero_le _
        · exact Nat.succ_le_succ ih
      · exact Nat.succ_le_succ ih
      · split <;> exact Nat.succ_le_succ (Nat.zero_le _)

theorem length_kind_letters {w : Word} {cs : List Char} (h : kind w = .letters cs) :
    cs.length ≤ w.length := by
  unfold kind at h
  split at h
  · obtain rfl := Kind.letters.inj h
    exact Nat.le_refl 1
  · cases h
  · cases h
  · obtain rfl := Kind.letters.inj h
    exact Nat.le_succ _
  · cases h

/-- The number of characters on a command line. -/
def size (ws : List Word) : Nat := ws.flatten.length

@[simp] theorem size_cons (w : Word) (ws : List Word) : size (w :: ws) = w.length + size ws := by
  simp [size]

theorem size_letters {w : Word} {cs : List Char} {ws ws' : List Word}
    (h : (letters G w cs ws).2 = .more ws') : size ws' ≤ size ws := by
  induction cs with
  | nil =>
      obtain rfl := Rest.more.inj h
      exact Nat.le_refl _
  | cons c cs ih =>
      rw [letters] at h
      split at h
      · split at h
        · cases h
        · exact ih h
      · exact ih h
      · split at h
        · obtain rfl := Rest.more.inj h
          exact Nat.le_refl _
        · obtain rfl := Rest.more.inj h
          rw [size_cons]
          exact Nat.le_add_left _ _
        · obtain rfl := Rest.more.inj h
          exact Nat.le_refl _

theorem size_longOption (text : Word) (ws : List Word) :
    size (longOption G text ws).2 ≤ size ws := by
  rw [longOption]
  split
  · exact Nat.le_refl _
  · exact Nat.le_refl _
  · split
    · exact Nat.le_refl _
    · rw [size_cons]
      exact Nat.le_add_left _ _
    · exact Nat.le_refl _

/-- Every item takes a character at least. -/
theorem length_parse_le (ws : List Word) : (parse G ws).1.length ≤ size ws := by
  refine parse_induction G (motive := fun ws read => read.1.length ≤ size ws) ?_ ?_ ?_ ?_ ?_ ws
  · exact Nat.le_refl 0
  · intro w ws _
    exact Nat.zero_le _
  · intro w ws _
    exact Nat.zero_le _
  · intro w text ws hw ih
    have hsize := size_longOption G text ws
    have hpos : 0 < w.length := by
      cases w with
      | nil => cases hw
      | cons => exact Nat.succ_pos _
    rw [List.length_cons, size_cons]
    omega
  · intro w cs ws hw ih
    have hitems := length_items_letters G w cs ws
    have hlen := length_kind_letters hw
    rw [resume, size_cons]
    split
    · next ws' hr =>
        have hrest := ih ws' hr
        have hsize := size_letters G hr
        rw [List.length_append]
        omega
    · exact (hitems.trans hlen).trans (Nat.le_add_right _ _)

end CommandLine
