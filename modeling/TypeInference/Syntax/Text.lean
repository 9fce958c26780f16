/- Syntax trees as texts. The field `_` of a node holds its form, the field `l` its line. -/

import TypeInference.Syntax.Tree

namespace TypeInference

namespace Tree

def hexDigits (value : Nat) : List Char :=
  [value / 4096, value / 256 % 16, value / 16 % 16, value % 16].map Nat.digitChar

variable (char : Char)

/-- Control characters, quotes and backslashes are escaped. -/
def escape : List Char :=
  if char = '"' ∨ char = '\\' then ['\\', char]
  else if char.toNat < 32 then '\\' :: 'u' :: hexDigits char.toNat
  else [char]

def quoted (value : String) : String :=
  String.ofList ('"' :: (value.toList.flatMap escape ++ ['"']))

def fieldText (name value : String) : String := quoted name ++ ":" ++ value

def objectText (fields : List String) : String := "\x7b" ++ ",".intercalate fields ++ "\x7d"

mutual

def toText : Tree → String
  | absent => "null"
  | text value => quoted value
  | number value => toString value
  | flag value => toString value
  | items values => "[" ++ ",".intercalate (toTexts values) ++ "]"
  | node form line fields =>
    objectText (fieldText "_" (quoted form)
      :: (line.map fun number => fieldText "l" (toString number)).toList ++ fieldTexts fields)

def toTexts : List Tree → List String
  | [] => []
  | value :: values => toText value :: toTexts values

def fieldTexts : List TreeField → List String
  | [] => []
  | ⟨name, value⟩ :: fields => fieldText name (toText value) :: fieldTexts fields

end

inductive Token where
  | openItems
  | closeItems
  | openNode
  | closeNode
  | text (value : String)
  | word (value : String)

namespace Token

def hexValue : Nat :=
  if char.isDigit then char.toNat - '0'.toNat else char.toLower.toNat - 'a'.toNat + 10

def codeOf (digits : List Char) : Nat :=
  digits.foldl (fun value digit => 16 * value + hexValue digit) 0

/-- Two codes from the surrogate range make up one character. -/
def pushCode (code : Nat) (done : List Nat) : List Nat :=
  match done with
  | high :: rest =>
    if 0xD800 ≤ high && high < 0xDC00 && 0xDC00 ≤ code && code < 0xE000 then
      (0x10000 + (high - 0xD800) * 0x400 + (code - 0xDC00)) :: rest
    else code :: done
  | [] => [code]

def ofCodes (codes : List Nat) : String := String.ofList (codes.reverse.map Char.ofNat)

def escaped : Nat :=
  match char with
  | 'n' => 10
  | 't' => 9
  | 'r' => 13
  | 'b' => 8
  | 'f' => 12
  | other => other.toNat

def endWord (begun : List Char) (done : List Token) : List Token :=
  if begun.isEmpty then done else .word (String.ofList begun.reverse) :: done

/-- The token that a character stands for by itself. -/
def mark? : Char → Option Token
  | '[' => some .openItems
  | ']' => some .closeItems
  | '\x7b' => some .openNode
  | '\x7d' => some .closeNode
  | _ => none

def isBetween : Bool := char.isWhitespace || char == ',' || char == ':'

/-- Between texts with the characters of a word, or within one with the codes of its characters. -/
inductive State where
  | outside (begun : List Char)
  | inside (codes : List Nat)

/-- Splits a text into tokens, the last one first. -/
def scan : State → List Char → List Token → List Token
  | .outside begun, [], done => endWord begun done
  | .inside codes, [], done => .text (ofCodes codes) :: done
  | .outside begun, char :: rest, done =>
    if char = '"' then scan (.inside []) rest (endWord begun done)
    else
      match mark? char with
      | some token => scan (.outside []) rest (token :: endWord begun done)
      | none =>
        if isBetween char then scan (.outside []) rest (endWord begun done)
        else scan (.outside (char :: begun)) rest done
  | .inside codes, '\\' :: 'u' :: a :: b :: c :: d :: rest, done =>
    scan (.inside (pushCode (codeOf [a, b, c, d]) codes)) rest done
  | .inside codes, '\\' :: char :: rest, done =>
    scan (.inside (escaped char :: codes)) rest done
  | .inside codes, char :: rest, done =>
    if char = '"' then scan (.outside []) rest (.text (ofCodes codes) :: done)
    else scan (.inside (char.toNat :: codes)) rest done

def ofText (source : String) : List Token := (scan (.outside []) source.toList []).reverse

end Token

/-- An open list or node, with the name of a field. -/
inductive Level where
  | items (values : List Tree)
  | fields (values : List TreeField) (name : Option String)

namespace Level

def add (value : Tree) : Level → Level
  | .items values => .items (values ++ [value])
  | .fields values (some name) => .fields (values ++ [⟨name, value⟩]) none
  | .fields values none =>
    match value with
    | .text name => .fields values (some name)
    | _ => .fields values none

def node (fields : List TreeField) : Tree :=
  let get (name : String) := (fields.find? fun field => field.name == name).map (·.value)
  let form := match get "_" with
    | some (.text form) => form
    | _ => ""
  let line := match get "l" with
    | some (.number line) => some line.toNat
    | _ => none
  .node form line (fields.filter fun field => field.name != "_" && field.name != "l")

def close : Level → Tree
  | .items values => .items values
  | .fields values _ => node values

end Level

def ofWord (word : String) : Tree :=
  match word with
  | "true" => .flag true
  | "false" => .flag false
  | _ => (word.toInt?.map Tree.number).getD .absent

def addTo (levels : List Level) (value : Tree) : List Level :=
  match levels with
  | [] => [.items [value]]
  | level :: levels => level.add value :: levels

/-- Builds trees, the innermost open one first. -/
def gather : List Token → List Level → List Level
  | [], levels => levels
  | .openItems :: rest, levels => gather rest (.items [] :: levels)
  | .openNode :: rest, levels => gather rest (.fields [] none :: levels)
  | .closeItems :: rest, levels | .closeNode :: rest, levels =>
    match levels with
    | level :: levels => gather rest (addTo levels level.close)
    | [] => gather rest []
  | .text value :: rest, levels => gather rest (addTo levels (.text value))
  | .word value :: rest, levels => gather rest (addTo levels (ofWord value))

def ofText (source : String) : Tree :=
  match (gather (Token.ofText source) []).getLast? with
  | some (.items (value :: _)) => value
  | _ => .absent

end Tree

end TypeInference
