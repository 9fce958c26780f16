/- Hints are read from their text. -/

import TypeInference.Hint.Print

namespace TypeInference

open List

namespace Hint

variable {c : Char} {signs : List Token} {es : List Expr} {index e : Expr} {head : String}

inductive Bracket where
  | round | square
deriving DecidableEq, Repr

inductive Token where
  | word (text : String)
  | quoted (text : String)
  | comma
  | opening (bracket : Bracket)
  | closing (bracket : Bracket)
deriving DecidableEq, Repr

/-- Letters, digits and underscores. Non-ASCII characters are letters. -/
def isWordChar (c : Char) : Bool := c.isAlphanum || c == '_' || Nat.ble 128 c.toNat

/-- The token that a character is. A blank is none. -/
def sign? : Char → Option (List Token)
  | ' ' => some []
  | ',' => some [.comma]
  | '(' => some [.opening .round]
  | ')' => some [.closing .round]
  | '[' => some [.opening .square]
  | ']' => some [.closing .square]
  | _ => none

/-- What has been read of a token, reversed. -/
inductive Lexeme where
  | nothing
  | word (letters : List Char)
  | quoted (letters : List Char)

namespace Lexeme

/-- The tokens that a character is, and what it begins. -/
def start (c : Char) : Option (List Token × Lexeme) :=
  if isWordChar c then some ([], .word [c])
  else if c = '\'' then some ([], .quoted [])
  else (sign? c).map fun tokens => (tokens, .nothing)

/-- The tokens complete with a character, and what is begun. -/
def step : Lexeme → Char → Option (List Token × Lexeme)
  | .nothing, c => start c
  | .word letters, c =>
    if isWordChar c then some ([], .word (c :: letters))
    else (start c).map fun next => (.word (String.ofList letters.reverse) :: next.1, next.2)
  | .quoted letters, c =>
    if c = '\'' then some ([.quoted (String.ofList letters.reverse)], .nothing)
    else if c == '\\' || Nat.blt c.toNat 32 then none
    else some ([], .quoted (c :: letters))

/-- The tokens of the rest of a text. -/
def tokens : Lexeme → List Char → Option (List Token)
  | .nothing, [] => some []
  | .word letters, [] => some [.word (String.ofList letters.reverse)]
  | .quoted _, [] => none
  | begun, c :: rest => do
    let next ← begun.step c
    (tokens next.2 rest).map (next.1 ++ ·)

end Lexeme

/-- The words that are no names. -/
def reserved : List String :=
  ["False", "None", "True", "and", "as", "assert", "async", "await", "break", "class", "continue",
   "def", "del", "elif", "else", "except", "finally", "for", "from", "global", "if", "import", "in",
   "is", "lambda", "nonlocal", "not", "or", "pass", "raise", "return", "try", "while", "with",
   "yield"]

/-- The names that a text can hold as a word. -/
structure IsIdentifier (name : String) : Prop where
  nonempty : name ≠ ""
  letters : name.toList.all isWordChar = true
  start : name.toList.head?.any Char.isDigit = false
  notReserved : reserved.contains name = false

instance : DecidablePred IsIdentifier := fun name =>
  decidable_of_iff (name ≠ "" ∧ name.toList.all isWordChar = true ∧
      name.toList.head?.any Char.isDigit = false ∧ reserved.contains name = false)
    ⟨fun ⟨nonempty, letters, start, notReserved⟩ => ⟨nonempty, letters, start, notReserved⟩,
      fun ⟨nonempty, letters, start, notReserved⟩ => ⟨nonempty, letters, start, notReserved⟩⟩

def constants : List (String × Literal) :=
  [("None", .none), ("True", .bool true), ("False", .bool false)]

/-- A word is a name or a constant. -/
def wordExpr? (word : String) : Option Expr :=
  if IsIdentifier word then some (nameExpr word)
  else (constants.lookup word).map (Expr.literal (some 1))

/-- The elements behind an open bracket, and the last one. -/
structure Level where
  elements : List Expr := []
  last : Option Expr := none

/-- Without a comma, one element stands for itself. -/
def Level.expr? : Level → Option Expr
  | ⟨[], last⟩ => last
  | ⟨elements, last⟩ => some (tupleExpr (elements ++ last.toList))

/-- What brackets enclose. -/
inductive Enclosure where
  | group
  | list
  | index (value : Expr)

def Enclosure.close : Enclosure → Bracket → Level → Option Expr
  | .group, .round, level => some (level.expr?.getD (tupleExpr []))
  | .list, .square, level => some (.list (some 1) (level.elements ++ level.last.toList) .load)
  | .index value, .square, level =>
    level.expr?.map fun index => .subscript (some 1) value index .load
  | _, _, _ => none

/-- The open brackets, each with what stands before it. -/
structure Parser where
  level : Level := {}
  outer : List (Enclosure × Level) := []

namespace Parser

/-- Elements are separated by commas. -/
def push (parser : Parser) (e : Expr) : Option Parser :=
  match parser.level.last with
  | none => some { parser with level := { parser.level with last := some e } }
  | some _ => none

def step : Parser → Token → Option Parser
  | parser, .word text => (wordExpr? text).bind parser.push
  | parser, .quoted text => parser.push (.literal (some 1) (.str text none))
  | ⟨⟨elements, last⟩, outer⟩, .comma => last.map fun e => ⟨⟨elements ++ [e], none⟩, outer⟩
  | ⟨⟨elements, none⟩, outer⟩, .opening .round => some ⟨{}, (.group, ⟨elements, none⟩) :: outer⟩
  | ⟨⟨elements, none⟩, outer⟩, .opening .square => some ⟨{}, (.list, ⟨elements, none⟩) :: outer⟩
  | ⟨⟨elements, some value⟩, outer⟩, .opening .square =>
    some ⟨{}, (.index value, ⟨elements, none⟩) :: outer⟩
  | ⟨⟨_, some _⟩, _⟩, .opening .round => none
  | ⟨level, (enclosure, around) :: outer⟩, .closing bracket =>
    (enclosure.close bracket level).bind (push ⟨around, outer⟩)
  | ⟨_, []⟩, .closing _ => none

end Parser

/-- The expression that a text is: names, constants, quoted texts, subscripts, tuples and lists. -/
def parse (text : String) : Option Expr := do
  let parser ← (← Lexeme.nothing.tokens text.toList).foldlM Parser.step {}
  if parser.outer.isEmpty then parser.level.expr? else none

/-- How characters are split, whatever follows. -/
def Lexes (chars : List Char) (tokens : List Token) : Prop :=
  ∀ rest : List Char, (∀ c ∈ rest.head?, isWordChar c = false) →
    Lexeme.nothing.tokens (chars ++ rest) = (Lexeme.nothing.tokens rest).map (tokens ++ ·)

theorem isWordChar_of_sign? (sign : sign? c = some signs) : isWordChar c = false ∧ c ≠ '\'' := by
  unfold sign? at sign
  split at sign
  case h_7 => simp at sign
  all_goals decide

/-- A character of a word can stand in a quoted text. -/
theorem plain_of_isWordChar (isLetter : isWordChar c) : c ≠ '\'' ∧ c ≠ '\\' ∧ ¬ c.toNat < 32 := by
  refine ⟨?_, ?_, ?_⟩
  · rintro rfl
    exact absurd isLetter (by decide)
  · rintro rfl
    exact absurd isLetter (by decide)
  · intro control
    have small : ∀ n < 32, isWordChar (Char.ofNat n) = false := by decide
    have notLetter := small c.toNat control
    rw [Char.ofNat_toNat] at notLetter
    exact Bool.false_ne_true (notLetter.symm.trans isLetter)

namespace Lexeme

theorem tokens_sign (sign : sign? c = some signs) (rest : List Char) :
    nothing.tokens (c :: rest) = (nothing.tokens rest).map (signs ++ ·) := by
  obtain ⟨notWord, notQuote⟩ := isWordChar_of_sign? sign
  simp [tokens, step, start, notWord, notQuote, sign]

/-- A word goes on up to another character. -/
theorem tokens_word {letters : List Char} (areLetters : letters.all isWordChar)
    {rest : List Char} (ends : ∀ c ∈ rest.head?, isWordChar c = false) (begun : List Char) :
    (word begun).tokens (letters ++ rest) = (nothing.tokens rest).map
      (.word (String.ofList (begun.reverse ++ letters)) :: ·) := by
  induction letters generalizing begun with
  | nil =>
    cases rest with
    | nil => simp [tokens]
    | cons c rest =>
      have notWord : isWordChar c = false := ends c rfl
      simp only [nil_append, tokens, step, notWord]
      cases start c <;> simp [Function.comp_def]
  | cons letter letters ih =>
    obtain ⟨isLetter, others⟩ := Bool.and_eq_true_iff.mp (all_cons ▸ areLetters)
    simp [tokens, step, isLetter, ih others, Function.comp_def]

/-- A quoted text goes on up to the quote. -/
theorem tokens_quoted {letters : List Char} (areLetters : letters.all isWordChar)
    (rest begun : List Char) :
    (quoted begun).tokens (letters ++ '\'' :: rest) = (nothing.tokens rest).map
      (.quoted (String.ofList (begun.reverse ++ letters)) :: ·) := by
  induction letters generalizing begun with
  | nil => simp [tokens, step]
  | cons letter letters ih =>
    obtain ⟨isLetter, others⟩ := Bool.and_eq_true_iff.mp (all_cons ▸ areLetters)
    obtain ⟨notQuote, notEscape, notControl⟩ := plain_of_isWordChar isLetter
    simp [tokens, step, notQuote, notEscape, notControl, ih others, Function.comp_def]

end Lexeme

namespace Lexes

theorem nil : Lexes [] [] := by
  intro rest _
  simp

/-- A sign ends the word before it. -/
theorem append {chars others : List Char} {tokens more : List Token} (first : Lexes chars tokens)
    (sign : sign? c = some signs) (second : Lexes others more) :
    Lexes (chars ++ c :: others) (tokens ++ (signs ++ more)) := by
  intro rest ends
  have stops : ∀ d ∈ (c :: (others ++ rest)).head?, isWordChar d = false := by
    simp [(isWordChar_of_sign? sign).1]
  rw [append_assoc, cons_append, first _ stops, Lexeme.tokens_sign sign, second rest ends]
  simp [Function.comp_def]

theorem word {text : String} (nonempty : text ≠ "")
    (areLetters : text.toList.all isWordChar) : Lexes text.toList [.word text] := by
  intro rest ends
  obtain ⟨first, letters, isText⟩ := exists_cons_of_ne_nil (mt String.toList_eq_nil_iff.mp nonempty)
  rw [isText] at areLetters
  obtain ⟨isLetter, others⟩ := Bool.and_eq_true_iff.mp (all_cons ▸ areLetters)
  have isWord : String.ofList (first :: letters) = text := by
    rw [← isText, String.ofList_toList]
  rw [isText, cons_append, Lexeme.tokens, Lexeme.step, Lexeme.start, if_pos isLetter]
  simp [Lexeme.tokens_word others ends, isWord, Function.comp_def]

theorem quoted {text : String} (areLetters : text.toList.all isWordChar) :
    Lexes ("'" ++ text ++ "'").toList [.quoted text] := by
  intro rest _
  have opens : Lexeme.start '\'' = some ([], .quoted []) := rfl
  simp [Lexeme.tokens, Lexeme.step, opens, Lexeme.tokens_quoted areLetters, Function.comp_def]

end Lexes

namespace Level

/-- The level of some elements has all of them. -/
theorem append_last (es : List Expr) : es.dropLast ++ es.getLast?.toList = es := by
  rcases eq_nil_or_concat es with rfl | ⟨init, last, rfl⟩ <;> simp

theorem expr?_of_several (several : es.length ≠ 1) (nonempty : es ≠ []) :
    Level.expr? ⟨es.dropLast, es.getLast?⟩ = some (tupleExpr es) := by
  have commas : es.dropLast ≠ [] := by
    intro single
    have length := congrArg List.length single
    have positive := length_pos_iff.mpr nonempty
    simp only [length_dropLast, length_nil] at length
    omega
  rw [Level.expr?, append_last]
  exact commas

end Level

/-- How tokens are read where elements can begin. -/
def Parses (tokens : List Token) (es : List Expr) : Prop :=
  ∀ elements outer, tokens.foldlM Parser.step ⟨⟨elements, none⟩, outer⟩ =
    some ⟨⟨elements ++ es.dropLast, es.getLast?⟩, outer⟩

namespace Parses

variable {tokens more : List Token} {e value : Expr} {es : List Expr}

theorem nil : Parses [] [] := by
  intro elements outer
  simp

theorem word {text : String} (isWord : wordExpr? text = some e) : Parses [.word text] [e] := by
  intro elements outer
  simp [Parser.step, Parser.push, isWord]

theorem quoted (text : String) : Parses [.quoted text] [.literal (some 1) (.str text none)] := by
  intro elements outer
  simp [Parser.step, Parser.push]

theorem cons (first : Parses tokens [e]) (second : Parses more (value :: es)) :
    Parses (tokens ++ .comma :: more) (e :: value :: es) := by
  intro elements outer
  rw [foldlM_append, first]
  simp [Parser.step, second (elements ++ [e])]

theorem list (inside : Parses tokens es) :
    Parses (.opening .square :: (tokens ++ [.closing .square])) [.list (some 1) es .load] := by
  intro elements outer
  simp [Parser.step, inside [], Enclosure.close, Parser.push, Level.append_last]

theorem subscript (before : Parses tokens [value]) (inside : Parses more es)
    (isIndex : Level.expr? ⟨es.dropLast, es.getLast?⟩ = some index) :
    Parses (tokens ++ .opening .square :: (more ++ [.closing .square]))
      [.subscript (some 1) value index .load] := by
  intro elements outer
  rw [foldlM_append, before]
  simp [Parser.step, inside [], Enclosure.close, Parser.push, isIndex]

theorem unit : Parses [.opening .round, .closing .round] [tupleExpr []] := by
  intro elements outer
  simp [Parser.step, Enclosure.close, Parser.push, Level.expr?]

end Parses

/-- The expressions that hints are written as. -/
inductive IsHintExpr : Expr → Prop where
  | none : IsHintExpr (.literal (some 1) .none)
  | name {id : String} (named : IsIdentifier id) : IsHintExpr (nameExpr id)
  | quoted {id : String} (named : IsIdentifier id) :
      IsHintExpr (.literal (some 1) (.str id none))
  | subscript {head : String} {index : Expr} (named : IsIdentifier head)
      (inside : IsHintExpr index) : IsHintExpr (subscriptExpr head index)
  | applied {head : String} {elements : List Expr} (named : IsIdentifier head)
      (several : elements.length ≠ 1) (inside : ∀ e ∈ elements, IsHintExpr e) :
      IsHintExpr (subscriptExpr head (tupleExpr elements))
  | list {elements : List Expr} (inside : ∀ e ∈ elements, IsHintExpr e) :
      IsHintExpr (.list (some 1) elements .load)

theorem text_subscriptExpr (inside : IsHintExpr index) :
    text (subscriptExpr head index) = head ++ "[" ++ text index ++ "]" := by
  cases inside <;> simp [subscriptExpr, text, nameExpr]

/-- Elements in brackets are written with commas. -/
theorem text_appliedExpr (elements : List Expr) :
    text (subscriptExpr head (tupleExpr elements)) = head ++ "[" ++
      (if elements = [] then "()" else ", ".intercalate (texts elements)) ++ "]" := by
  cases elements with
  | nil => simp [subscriptExpr, tupleExpr, text, nameExpr, String.append_assoc]
  | cons e es => simp [subscriptExpr, tupleExpr, text, nameExpr]

/-- A text is read as elements with commas between them. -/
def Spells (written : String) (es : List Expr) : Prop :=
  ∃ tokens, Lexes written.toList tokens ∧ Parses tokens es

namespace Spells

theorem word {text : String} (nonempty : text ≠ "") (areLetters : text.toList.all isWordChar)
    (isWord : wordExpr? text = some e) : Spells text [e] :=
  ⟨_, .word nonempty areLetters, .word isWord⟩

theorem name {id : String} (named : IsIdentifier id) : Spells id [nameExpr id] :=
  .word named.nonempty named.letters (if_pos named)

theorem none : Spells "None" [.literal (some 1) .none] :=
  .word (by decide) (by decide) (if_neg (by decide))

theorem subscript {written : String} (named : IsIdentifier head) (inside : Spells written es)
    (isIndex : Level.expr? ⟨es.dropLast, es.getLast?⟩ = some index) :
    Spells (head ++ "[" ++ written ++ "]") [subscriptExpr head index] := by
  obtain ⟨before, lexesHead, parsesHead⟩ := Spells.name named
  obtain ⟨tokens, lexes, parses⟩ := inside
  refine ⟨_, ?_, parsesHead.subscript parses isIndex⟩
  have closed := lexesHead.append (c := '[') rfl (lexes.append (c := ']') rfl .nil)
  simpa using closed

theorem list {written : String} (inside : Spells written es) :
    Spells ("[" ++ written ++ "]") [.list (some 1) es .load] := by
  obtain ⟨tokens, lexes, parses⟩ := inside
  refine ⟨_, ?_, parses.list⟩
  have closed := Lexes.nil.append (c := '[') rfl (lexes.append (c := ']') rfl .nil)
  simpa using closed

theorem unit : Spells "()" [tupleExpr []] := by
  refine ⟨_, ?_, .unit⟩
  simpa using Lexes.nil.append (c := '(') rfl (Lexes.nil.append (c := ')') rfl .nil)

theorem intercalate (each : ∀ e ∈ es, Spells (text e) [e]) :
    Spells (", ".intercalate (texts es)) es := by
  induction es with
  | nil => exact ⟨[], .nil, .nil⟩
  | cons e es ih =>
    obtain ⟨first, others⟩ := forall_mem_cons.mp each
    cases es with
    | nil => simpa [texts] using first
    | cons f es =>
      obtain ⟨tokens, lexes, parses⟩ := first
      obtain ⟨more, lexesOthers, parsesOthers⟩ := ih others
      refine ⟨_, ?_, parses.cons parsesOthers⟩
      -- The comma ends the element before it, and the blank is skipped.
      have blank := Lexes.nil.append (c := ' ') rfl lexesOthers
      simpa [texts] using lexes.append (c := ',') rfl blank

end Spells

theorem spells_text (hint : IsHintExpr e) : Spells (text e) [e] := by
  induction hint with
  | none => exact .none
  | name named => exact .name named
  | quoted named => exact ⟨_, .quoted named.letters, .quoted _⟩
  | subscript named inside ih =>
    rw [text_subscriptExpr inside]
    exact .subscript named ih rfl
  | @applied head elements named several inside ih =>
    rw [text_appliedExpr]
    cases elements with
    | nil => exact .subscript named .unit rfl
    | cons e es =>
      rw [if_neg (cons_ne_nil e es)]
      exact .subscript named (.intercalate ih) (Level.expr?_of_several several (by simp))
  | list inside ih => exact .list (.intercalate ih)

/-- A hint is read from its text. -/
theorem parse_text (hint : IsHintExpr e) : parse (text e) = some e := by
  obtain ⟨tokens, lexes, parses⟩ := spells_text hint
  have split : Lexeme.nothing.tokens (text e).toList = some tokens := by
    simpa [Lexeme.tokens] using lexes [] (by simp)
  have read : tokens.foldlM Parser.step {} = some ⟨⟨[], some e⟩, []⟩ := by
    simpa using parses [] []
  simp [parse, split, read, Level.expr?]

example : parse "Dict[(), ['A']" = none := rfl

end Hint

end TypeInference
