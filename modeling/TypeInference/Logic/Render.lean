/- Terms and formulas are printed as nested lists and, for terms, in applicative form. -/

import TypeInference.Logic.Formula

namespace TypeInference

/-- An application as a list: its head, then its arguments. -/
def listText (head : String) (args : List String) : String :=
  "(" ++ " ".intercalate (head :: args) ++ ")"

namespace Term

mutual

def render : Term → String
  | const name => name
  | num value => toString value
  | method name => "m__" ++ name
  | con name [] => name
  | con name (arg :: args) => listText name (render arg :: renderList args)
  | get accessor whole => listText accessor [render whole]
  | subst whole what replacement =>
    listText "subst" [render whole, render what, render replacement]
  | upper var => listText "upper" [render var]
  | toInt width whole => listText (width ++ "_to_int") [render whole]

def renderList : List Term → List String
  | [] => []
  | arg :: args => render arg :: renderList args

end

def applied (head : String) (args : List String) : String :=
  head ++ "(" ++ ", ".intercalate args ++ ")"

mutual

/-- The applicative form `f(a, b)`. -/
def display : Term → String
  | const name => name
  | num value => toString value
  | method name => "m__" ++ name
  | con name [] => name
  | con name (arg :: args) => applied name (display arg :: displayList args)
  | get accessor whole => applied accessor [display whole]
  | subst whole what replacement =>
    applied "subst" [display whole, display what, display replacement]
  | upper var => applied "upper" [display var]
  | toInt width whole => applied (width ++ "_to_int") [display whole]

def displayList : List Term → List String
  | [] => []
  | arg :: args => display arg :: displayList args

end

end Term

def Atom.render : Atom → String
  | subtype method sub sup => listText "subtype" [method.render, sub.render, sup.render]
  | issubst whole what replacement result =>
    listText "issubst" [whole.render, what.render, replacement.render, result.render]
  | isCon name t => listText ("is_" ++ name) [t.render]

def Trigger.render : Trigger → String
  | atom value => value.render
  | term value => value.render

namespace Formula

def sortTexts (texts : List String) : List String :=
  texts.mergeSort fun first second => !decide (second < first)

mutual

/-- The text of a formula. Parts can be put in order. -/
def renderWith (sorted : Bool) : Formula → String
  | truth value => toString value
  | atom value => value.render
  | eq left right => listText "=" [left.render, right.render]
  | distinct left right => listText "distinct" [left.render, right.render]
  | less left right => listText "<" [left.render, right.render]
  | atLeast left right => listText ">=" [left.render, right.render]
  | not body => listText "not" [renderWith sorted body]
  | implies premise conclusion =>
    listText "=>" [renderWith sorted premise, renderWith sorted conclusion]
  | iff left right => listText "=" [renderWith sorted left, renderWith sorted right]
  | and parts => listText "and" (renderParts sorted parts)
  | or parts => listText "or" (renderParts sorted parts)
  | all vars body trigger =>
    "(forall (" ++ " ".intercalate (vars.map (·.name)) ++ ") " ++ renderWith sorted body
      ++ " :pattern (" ++ ((trigger.map Trigger.render).getD "") ++ "))"

def renderParts (sorted : Bool) (parts : List Formula) : List String :=
  if sorted then sortTexts (renderList sorted parts) else renderList sorted parts

def renderList (sorted : Bool) : List Formula → List String
  | [] => []
  | part :: parts => renderWith sorted part :: renderList sorted parts

end

def render (formula : Formula) : String := formula.renderWith false

end Formula

end TypeInference
