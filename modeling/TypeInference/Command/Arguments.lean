/- The arguments of the command: options in any order, and what remains beside them. -/

import TypeInference.Settings

namespace TypeInference

namespace Command

inductive Choice where
  | help
  /-- Turns a setting off. -/
  | switch (setting : String)
  /-- Type parameters are accepted, but have no effect. -/
  | typeParams
  | overwrite
  | nestedLists
  | outputDirectory
  | logLevel
deriving DecidableEq, Repr

def Choice.takesValue : Choice → Bool
  | .switch _ | .typeParams | .outputDirectory | .logLevel => true
  | .help | .overwrite | .nestedLists => false

def spellings : List (String × Choice) :=
  [("-h", .help), ("--help", .help),
   ("--ignore-fully-annotated-function", .switch "ignore_fully_annotated_function"),
   ("--enforce-same-type-in-branches", .switch "enforce_same_type_in_branches"),
   ("--allow-attributes-outside-init", .switch "allow_attributes_outside_init"),
   ("--none-subtype-of-all", .switch "none_subtype_of_all"),
   ("--enable-soft-constraints", .switch "enable_soft_constraints"),
   ("--func-type-params", .typeParams), ("--class-type-params", .typeParams),
   ("-i", .overwrite), ("--overwrite", .overwrite), ("--sexpr", .nestedLists),
   ("--outdir", .outputDirectory), ("-l", .logLevel), ("--log-level", .logLevel)]

def choice? (spelling : String) : Option Choice :=
  (spellings.find? fun entry => entry.1 == spelling).map (·.2)

/-- The exit code for arguments that cannot be read. -/
def misuse : Fault := .exit 2

inductive Word where
  | plain
  /-- All that follows is plain. -/
  | separator
  | unknown
  /-- An option, whether it has a single dash, and its value if that is attached. -/
  | option (short : Bool) (choice : Choice) (value : Option String)
deriving DecidableEq, Repr

variable (word : String)

/-- The parts before and after the first sign of equality. -/
def splitValue : String × Option String :=
  let name := word.toList.takeWhile (· != '=')
  match word.toList.drop name.length with
  | [] => (word, none)
  | _ :: value => (String.ofList name, some (String.ofList value))

def isNegativeNumber : Bool :=
  match word.toList with
  | '-' :: digits =>
    let whole := digits.takeWhile Char.isDigit
    match digits.drop whole.length with
    | [] => !whole.isEmpty
    | '.' :: rest => !rest.isEmpty && rest.all Char.isDigit
    | _ => false
  | _ => false

/-- The options that a long argument may be the start of. -/
def longOptions : List Word :=
  let (start, value) := splitValue word
  (spellings.filter fun entry => entry.1.startsWith start).map fun entry =>
    .option false entry.2 value

/-- A short option can be followed by its value without a blank. -/
def shortOptions : List Word :=
  (spellings.filter fun entry => entry.1 == (word.take 2).toString).map fun entry =>
    .option true entry.2 (some (word.drop 2).toString)

def isShort (spelling : String) : Bool := !spelling.startsWith "--"

/-- The option whose spelling an argument has. -/
def exactOption? : Option Word :=
  match choice? word with
  | some choice => some (.option (isShort word) choice none)
  | none =>
    let (spelling, value) := splitValue word
    match value, choice? spelling with
    | some value, some choice => some (.option (isShort spelling) choice (some value))
    | _, _ => none

/-- What an argument is by its form. It must stand for one option only. -/
def Word.ofText : Except Fault Word :=
  if !word.startsWith "-" || word.length = 1 then .ok .plain
  else
    match exactOption? word with
    | some found => .ok found
    | none =>
      match if isShort word then shortOptions word else longOptions word with
      | [found] => .ok found
      | _ :: _ :: _ => .error misuse
      | [] =>
        if isNegativeNumber word || word.toList.contains ' ' then .ok .plain
        else .ok .unknown

def Word.ofTexts : List String → Except Fault (List (String × Word))
  | [] => .ok []
  | word :: words =>
    if word == "--" then
      .ok ((word, .separator) :: words.map fun word => (word, .plain))
    else do
      let first ← Word.ofText word
      pure ((word, first) :: (← Word.ofTexts words))

/-- The options in one argument. Those with a single dash and without a value can stand together. -/
def together (short : Bool) (choice : Choice) :
    List Char → Except Fault (List (Choice × Option String))
  | [] => if choice.takesValue then .ok [(choice, some "")] else .error misuse
  | char :: rest =>
    if choice.takesValue then .ok [(choice, some (String.ofList (char :: rest)))]
    else if !short then .error misuse
    else
      match choice? (String.ofList ['-', char]), rest with
      | none, _ => .error misuse
      | some next, [] => .ok [(choice, none), (next, none)]
      | some next, rest => do pure ((choice, none) :: (← together short next rest))

structure Arguments where
  /-- The settings that are turned off. -/
  turnedOff : List String := []
  overwrite : Bool := false
  outputDirectory : Option String := none
  logLevel : String := "INFO"
  /-- The arguments that are no options, and unknown options. -/
  rest : List String := []
deriving DecidableEq, Repr

namespace Arguments

/-- Takes one option. Settings are whole numbers. -/
def take (args : Arguments) (choice : Choice) (value : String) : Except Fault Arguments :=
  match choice with
  | .help => .error (.exit 0)
  | .switch setting =>
    if (Flag.wholeNumber? value).isSome then
      .ok { args with turnedOff := args.turnedOff ++ [setting] }
    else .error misuse
  | .typeParams | .nestedLists => .ok args
  | .overwrite => .ok { args with overwrite := true }
  | .outputDirectory => .ok { args with outputDirectory := some value }
  | .logLevel => .ok { args with logLevel := value }

def takeAll (args : Arguments) (options : List (Choice × Option String)) : Except Fault Arguments :=
  options.foldlM (fun args (choice, value) => args.take choice (value.getD "")) args

/-- Whether the last option still needs a value. -/
def lacksValue (options : List (Choice × Option String)) : Bool :=
  match options.getLast? with
  | some (choice, none) => choice.takesValue
  | _ => false

def complete (options : List (Choice × Option String)) (value : String) :
    List (Choice × Option String) :=
  match options.getLast? with
  | some (choice, _) => options.dropLast ++ [(choice, some value)]
  | none => []

/-- Takes the options in turn. A value in an argument of its own must be plain. -/
def takeWords (args : Arguments) : List (String × Word) → Except Fault Arguments
  | [] => .ok args
  | (_, .option short choice value) :: words => do
    let options ← match value with
      | none => pure [(choice, none)]
      | some value => together short choice value.toList
    if lacksValue options then
      match words with
      | (value, .plain) :: words => do takeWords (← args.takeAll (complete options value)) words
      | _ => throw misuse
    else takeWords (← args.takeAll options) words
  | (word, _) :: words => takeWords { args with rest := args.rest ++ [word] } words

def ofWords (words : List String) : Except Fault Arguments := do
  takeWords {} (← Word.ofTexts words)

end Arguments

end Command

end TypeInference
