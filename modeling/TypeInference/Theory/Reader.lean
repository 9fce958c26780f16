/- Terms are read from their text. Free constants are marked with a dollar sign; other names
are symbols of the type sort. -/

import TypeInference.Theory.TypeSort

namespace TypeInference

inductive Phrase where
  | word (text : String)
  | list (parts : List Phrase)
deriving Inhabited

namespace Phrase

inductive Token where
  | opening
  | closing
  | word (text : String)

def endWord (chars : List Char) (tokens : List Token) : List Token :=
  if chars.isEmpty then tokens else .word (String.ofList chars.reverse) :: tokens

/-- Splits a text, the last token first. -/
def tokensReversed : List Char → List Char → List Token → List Token
  | [], begun, done => endWord begun done
  | '(' :: rest, begun, done => tokensReversed rest [] (.opening :: endWord begun done)
  | ')' :: rest, begun, done => tokensReversed rest [] (.closing :: endWord begun done)
  | char :: rest, begun, done =>
    if char.isWhitespace then tokensReversed rest [] (endWord begun done)
    else tokensReversed rest (char :: begun) done

def tokens (text : String) : List Token := (tokensReversed text.toList [] []).reverse

/-- Puts a phrase behind the last open bracket. -/
def attach (phrase : Phrase) : List (List Phrase) → List (List Phrase)
  | [] => [[phrase]]
  | level :: levels => (level ++ [phrase]) :: levels

/-- The phrases behind each open bracket, the innermost first. -/
def gather : List Token → List (List Phrase) → List (List Phrase)
  | [], levels => levels
  | .word text :: rest, levels => gather rest (attach (.word text) levels)
  | .opening :: rest, levels => gather rest ([] :: levels)
  | .closing :: rest, level :: levels => gather rest (attach (.list level) levels)
  | .closing :: rest, [] => gather rest []

def ofText (text : String) : Phrase :=
  match (gather (tokens text) [[]]).getLast? with
  | some (phrase :: _) => phrase
  | _ => .list []

end Phrase

namespace TypeSort

def symbol (sort : TypeSort) (name : String) (args : List Term) : Term :=
  match name, args with
  | "upper", [var] => .upper var
  | "subst", [whole, what, replacement] => .subst whole what replacement
  | _, [whole] => if sort.hasConstructor name then .con name [whole] else .get name whole
  | _, _ => .con name args

def wordTerm (text : String) : Term :=
  match text.toList with
  | '$' :: rest => .const (String.ofList rest)
  | chars =>
    match text.toInt? with
    | some value => .num value
    | none => if chars.isEmpty then .none else .atom text

mutual

def ofPhrase (sort : TypeSort) : Phrase → Term
  | .word text => wordTerm text
  | .list (.word name :: args) => sort.symbol name (ofPhrases sort args)
  | .list _ => .none

def ofPhrases (sort : TypeSort) : List Phrase → List Term
  | [] => []
  | phrase :: phrases => ofPhrase sort phrase :: ofPhrases sort phrases

end

def readTerm (sort : TypeSort) (text : String) : Term := sort.ofPhrase (Phrase.ofText text)

/-- An accessor applied to its own constructor gives the argument. -/
def project (sort : TypeSort) (accessor : String) (whole : Term) : Term :=
  match whole with
  | .con name args =>
    match (sort.accessors? name).bind fun accessors =>
      (accessors.findIdx? (· == accessor)).bind fun index => args[index]? with
    | some arg => arg
    | none => .get accessor whole
  | _ => .get accessor whole

mutual

/-- The term without accessors on own constructors. -/
def simplify (sort : TypeSort) : Term → Term
  | .con name args => .con name (simplifyList sort args)
  | .get accessor whole => sort.project accessor (simplify sort whole)
  | .subst whole what replacement =>
    .subst (simplify sort whole) (simplify sort what) (simplify sort replacement)
  | .upper var => .upper (simplify sort var)
  | .toInt width whole => .toInt width (simplify sort whole)
  | .const name => .const name
  | .num value => .num value
  | .method name => .method name

def simplifyList (sort : TypeSort) : List Term → List Term
  | [] => []
  | arg :: args => simplify sort arg :: simplifyList sort args

end

end TypeSort

end TypeInference
