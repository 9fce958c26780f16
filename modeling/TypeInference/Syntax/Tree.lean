/- The plain form in which syntax trees are exchanged: nodes with named fields. -/

namespace TypeInference

mutual

inductive Tree where
  | absent
  | text (value : String)
  | number (value : Int)
  | flag (value : Bool)
  | items (values : List Tree)
  | node (form : String) (line : Option Nat) (fields : List TreeField)

structure TreeField where
  name : String
  value : Tree

end

namespace Tree

instance : Inhabited Tree := ⟨.absent⟩

/-- Absent values and empty lists are not written. -/
def isWritten : Tree → Bool
  | absent => false
  | items [] => false
  | _ => true

def ofOption (value : Option Tree) : Tree := value.getD .absent

def ofText? (value : Option String) : Tree := (value.map text).getD .absent

/-- The node with those of the given fields that are written. -/
def build (form : String) (line : Option Nat) (fields : List (String × Tree)) : Tree :=
  .node form line
    ((fields.filter fun field => field.2.isWritten).map fun field => ⟨field.1, field.2⟩)

/-- Quotes and backslashes are escaped. -/
def quoteChars : List Char → List Char
  | [] => ['"']
  | char :: rest =>
    if char = '"' ∨ char = '\\' then '\\' :: char :: quoteChars rest
    else char :: quoteChars rest

def quote (value : String) : String := String.ofList ('"' :: quoteChars value.toList)

mutual

/-- A text that trees share if only line numbers differ. -/
def key : Tree → String
  | absent => "-"
  | text value => quote value
  | number value => toString value
  | flag value => toString value
  | items values => "[" ++ keyItems values ++ "]"
  | node form _ fields => form ++ "(" ++ keyFields fields ++ ")"

def keyItems : List Tree → String
  | [] => ""
  | value :: values => key value ++ "," ++ keyItems values

def keyFields : List TreeField → String
  | [] => ""
  | ⟨name, value⟩ :: fields => name ++ "=" ++ key value ++ "," ++ keyFields fields

end

end Tree

end TypeInference
