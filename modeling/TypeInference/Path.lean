/- Paths of files: the names of directories and file between slashes. -/

namespace TypeInference

namespace Path

/-- The pieces of a text between slashes. -/
def pieces : List Char → List (List Char)
  | [] => [[]]
  | '/' :: rest => [] :: pieces rest
  | char :: rest =>
    match pieces rest with
    | [] => [[char]]
    | piece :: others => (char :: piece) :: others

variable (path : String)

def isAbsolute : Bool := path.toList.head? == some '/'

/-- The parts of a path that say something. -/
def parts : List String :=
  let named := ((pieces path.toList).map String.ofList).filter fun part => part != "" && part != "."
  if isAbsolute path then "" :: named else named

/-- The path without parts that say nothing. -/
def text : String :=
  match parts path with
  | [] => "."
  | [""] => "/"
  | parts => "/".intercalate parts

/-- The parts of a path after each step back. -/
def segments : List String :=
  (parts path).foldl (fun done part =>
    if part == ".." && done.length > 0 then done.dropLast else done ++ [part]) []

def normal : String := "/".intercalate (segments path)

def isAbove (directory file : String) : Bool :=
  let outer := segments directory
  let inner := segments file
  decide (outer.length < inner.length) && outer.isPrefixOf inner

def join (directory file : String) : String :=
  if isAbsolute file then file else directory ++ "/" ++ file

def parent : String :=
  match parts path with
  | [""] => "/"
  | parts =>
    match parts.dropLast with
    | [] => "."
    | [""] => "/"
    | outer => "/".intercalate outer

def fileName : String := ((parts path).getLast?).getD ""

/-- The characters before the last dot, if both sides have some. -/
def beforeSuffix (name : List Char) : List Char :=
  let suffix := name.reverse.takeWhile (· != '.')
  let before := (name.reverse.drop (suffix.length + 1)).reverse
  if suffix.isEmpty || before.isEmpty then name else before

def stem : String := String.ofList (beforeSuffix (fileName path).toList)

end Path

end TypeInference
