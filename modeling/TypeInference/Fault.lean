/- The causes for which an analysis stops, and the wording of those that have one. -/

namespace TypeInference

/-- What can be longer than the type sort allows, or too short. -/
inductive Arity where
  | tuple
  | function
  | tupleHint
  | functionHint
  | initialiser
  | typeArguments
  | methodVariables
  | typeParameters
  /-- The parameters that default values belong to. -/
  | defaults
  /-- The parameters of a method of a built-in type with its receiver. -/
  | receiver
  | values
  | counts
deriving DecidableEq, Repr, Inhabited

inductive Fault where
  | unboundName (name : String)
  | unboundNameAt (name : String) (line : Nat)
  /-- A definition of a name that nothing has made known. -/
  | unknownDefinition (name : String)
  | unboundBelow (name : String)
  | noScopeNamed (name : String)
  | invalidHint (line : Nat)
  | invalidHintName (name : String) (line : Nat)
  | invalidHintSubscript (line : Nat)
  | dictHintShape (line : Nat)
  | tupleHintShape (line : Nat)
  | callableHintShape (line : Nat)
  | unionHintShape (line : Nat)
  | typeVarTarget
  | typeVarWithoutName (line : Nat)
  | typeVarNameNotText (line : Nat)
  | typeVarSingleOption (line : Nat)
  | unsupportedDecorator (name : String)
  | inconsistentHierarchy
  | unsupportedExpression (form : String)
  | attributeDeletion
  | iterationTarget
  | structuredIterationTarget
  | castArguments
  | missingReceiver (method className : String)
  | staticOverridesInstance (method className : String)
  | instanceOverridesStatic (method className : String)
  | fewerArguments (method className : String)
  | moreRequiredArguments (method className : String)
  | noModule (name : String)
  | notExported (name : String)
  /-- The logic needs a term and gets something else. -/
  | notATerm
  /-- Something is longer than the type sort allows, or too short. -/
  | arityOutOfRange (arity : Arity)
  /-- A table lacks a key that it should have. -/
  | missingKey
  /-- A node lacks a part, or the type sort lacks a symbol. -/
  | missingPart
  /-- An operand does not support the operation. -/
  | badOperand
  | badNumber
  /-- An expression is read in no module at all. -/
  | homeless
  /-- Inheritance or imports run in a circle. -/
  | circular
  | endless
  | exit (code : Nat)
  /-- A file is written to a directory that does not exist. -/
  | noDirectory
  /-- A report is used whose file name was never set. -/
  | unsetReport
  /-- A symbol has characters that reports cannot hold. -/
  | unwritableSymbol
deriving DecidableEq, Repr, Inhabited

inductive FaultKind where
  | name | type | value | unsupported | missingModule | key | index | part | logic
  | recursion | endless | assertion | exit | file | unset | encoding
deriving DecidableEq, Repr

namespace Fault

def kind : Fault → FaultKind
  | unboundName _ | unboundNameAt .. | unknownDefinition _ | unboundBelow _ | noScopeNamed _ =>
    .name
  | invalidHint _ | invalidHintName .. | badNumber => .value
  | invalidHintSubscript _ | dictHintShape _ | tupleHintShape _ | callableHintShape _
  | unionHintShape _ | typeVarTarget | typeVarWithoutName _ | typeVarNameNotText _
  | typeVarSingleOption _ | unsupportedDecorator _ | inconsistentHierarchy | iterationTarget
  | castArguments | missingReceiver .. | staticOverridesInstance .. | instanceOverridesStatic ..
  | fewerArguments .. | moreRequiredArguments .. | badOperand => .type
  | unsupportedExpression _ | attributeDeletion | structuredIterationTarget => .unsupported
  | noModule _ | notExported _ => .missingModule
  | notATerm => .logic
  | arityOutOfRange _ => .index
  | missingKey => .key
  | missingPart => .part
  | homeless => .assertion
  | circular => .recursion
  | endless => .endless
  | exit _ => .exit
  | noDirectory => .file
  | unsetReport => .unset
  | unwritableSymbol => .encoding

private def inLine (start : String) (line : Nat) (rest : String) : String :=
  start ++ " in line " ++ toString line ++ rest

/-- The wording of a fault, if it has one. -/
def message : Fault → Option String
  | unboundName name | unknownDefinition name => some ("Name " ++ name ++ " is not defined.")
  | unboundNameAt name line => some (inLine ("Name " ++ name) line " is not defined")
  | unboundBelow name => some ("Name " ++ name ++ " is not defined")
  | noScopeNamed name => some ("Context " ++ name ++ " is not defined")
  | invalidHint line => some (inLine "Invalid type annotation" line "")
  | invalidHintName name line => some (inLine ("Invalid type annotation " ++ name) line "")
  | invalidHintSubscript line => some (inLine "Invalid type annotation" line ".")
  | dictHintShape line =>
    some (inLine "Dict annotation" line " should have 2 comma-separated args")
  | tupleHintShape line => some (inLine "Invalid tuple type annotation" line "")
  | callableHintShape line =>
    some (inLine "Callable annotation" line
      " should be in the format:Callable[[args_types], return_type]")
  | unionHintShape line => some (inLine "Invalid union type annotation" line "")
  | typeVarTarget => some "TypeVar assignment target should be a variable name."
  | typeVarWithoutName line => some (inLine "Invalid type variable declaration" line ".")
  | typeVarNameNotText line =>
    some (inLine "Name of type variable" line " should be a string")
  | typeVarSingleOption line =>
    some (inLine "A single constraint is not allowed in TypeVar" line "")
  | unsupportedDecorator name => some ("Decorator " ++ name ++ " is not supported")
  | inconsistentHierarchy => some "Cannot create a consistent method resolution order (MRO)"
  | unsupportedExpression form =>
    some ("Inference for expression " ++ form ++ " is not implemented yet.")
  | attributeDeletion => some "Attribute deletion is not supported."
  | iterationTarget => some "The iteration target should be only a variable name."
  | structuredIterationTarget =>
    some "The inference doesn't support lists or tuples as iteration targets yet."
  | castArguments => some "Casts need two arguments (target type and expression)."
  | missingReceiver method className =>
    some ("Instance method " ++ method ++ " in class " ++ className
      ++ " should have at least one argument (the receiver)."
      ++ "If you wish to create a static method, please add the appropriate decorator.")
  | staticOverridesInstance method className =>
    some ("Static method " ++ method ++ " in class " ++ className
      ++ " cannot override non-static method.")
  | instanceOverridesStatic method className =>
    some ("Non-static method " ++ method ++ " in class " ++ className
      ++ " cannot override static method.")
  | fewerArguments method className =>
    some ("Method " ++ method ++ " in subclass " ++ className
      ++ " should have total arguments length more than or equal that in superclass.")
  | moreRequiredArguments method className =>
    some ("Method " ++ method ++ " in subclass " ++ className
      ++ " should have non-default arguments length less than or equal that in superclass")
  | noModule name => some ("No module named " ++ name ++ ".")
  | notExported name => some ("Cannot import name " ++ name)
  | exit code => some (toString code)
  | notATerm | arityOutOfRange _ | missingKey | missingPart | badOperand | badNumber | homeless
  | circular | endless | noDirectory | unsetReport | unwritableSymbol => none

end Fault

end TypeInference
