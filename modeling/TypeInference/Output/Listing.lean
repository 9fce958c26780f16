/- The names of scopes with the types that a model gives them. -/

import TypeInference.Logic.Render
import TypeInference.Output.Model
import TypeInference.Scope.Basic

namespace TypeInference

namespace Output

def rule : String := "---------------------------"

/-- A listing shows the symbols of terms byte by byte. -/
def byteText (text : String) : String :=
  String.ofList (text.toUTF8.toList.map fun byte => Char.ofNat byte.toNat)

variable (genericText : String) (model : Model)

/-- The text of what a name stands for. Modules and declared functions are not listed. -/
def shownType? (object : Meaning) : Option String :=
  match object with
  | .module _ | .signature _ => none
  | .generic _ => some genericText
  | .constructor name => some (byteText name)
  | .nothing => some "None"
  | .term t | .classObject _ t =>
    match model.value? object with
    | .ok (some value) => some (byteText value.display)
    | _ => some (byteText t.display)

/-- A listing, given an indentation. -/
abbrev Listing := String → Except Fault (List String)

/-- The lines for one name and its scope. A name within its own scope is listed for ever. -/
def nameLines (scopeName : String) (children : List (String × Listing)) (indent : String)
    (entry : String × Meaning) : Except Fault (List String) := do
  match shownType? genericText model entry.2 with
  | none => pure []
  | some text => do
    if scopeName == entry.1 then .error .circular
    let inner ← match children.find? fun child => child.1 == entry.1 with
      | some child => child.2 ("\t" ++ indent)
      | none => pure []
    pure ([indent ++ entry.1 ++ ": " ++ text] ++ inner ++ if indent.isEmpty then [rule] else [])

def unnamedLines (scopeName : String) (children : List (String × Listing)) (indent : String) :
    Except Fault (List String) := do
  let unnamed := children.filter fun child => scopeName.isEmpty && child.1.isEmpty
  let lines ← unnamed.flatMapM fun child => child.2 ("\t" ++ indent)
  pure (lines ++ if indent.isEmpty && !unnamed.isEmpty then [rule] else [])

mutual

def listing (genericText : String) (model : Model) : Scope → Listing
  | ⟨name, _, _, types, _, _, _, _, _, _, _, _, children⟩, indent => do
    let children := listings genericText model children
    let entries := (sortedNames types.keys).filterMap fun name =>
      (types.get? name).map fun type => (name, type)
    let lines ← entries.flatMapM (nameLines genericText model name children indent)
    pure (lines ++ (← unnamedLines name children indent))

def listings (genericText : String) (model : Model) : List Scope → List (String × Listing)
  | [] => []
  | scope :: scopes =>
    (scope.name, listing genericText model scope) :: listings genericText model scopes

end

def print (scope : Scope) : Except Fault String := do
  let lines ← listing genericText model scope ""
  pure (String.join (lines.map (· ++ "\n")))

end Output

end TypeInference
