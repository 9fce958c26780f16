/- The methods of lists, texts, dictionaries and sets. -/

import TypeInference.Library.Declaration

namespace TypeInference.Library

open Shape

def listSelf : Input := param "self" (of "List" ["TT"])

def listMethods : List Stmt :=
  [ heading 1,
    importing 2 "typing" ["TypeVar", "List", "Generic"],
    typeVar 4 "TT" "TT",
    described 7 12 "append" [listSelf, param "e" "TT"] nothing,
    described 15 17 "count" [listSelf, param "e" "TT"] "int",
    described 20 22 "extend" (params ["self", "l2"] (of "List" ["TT"])) nothing,
    described 25 27 "index" [listSelf, param "e" "TT"] "int",
    described 30 32 "insert" [listSelf, param "i" "int", param "e" "TT"] nothing,
    described 35 37 "pop" [listSelf] "TT",
    described 40 42 "remove" [listSelf, param "e" "TT"] nothing,
    described 45 47 "reverse" [listSelf] nothing,
    described 50 52 "sort" [listSelf] nothing ]

def strMethods : List Stmt :=
  [ heading 1,
    importing 5 "typing" ["List"],
    described 8 10 "capitalize" [param "s" "str"] "str",
    described 13 15 "center" [param "s" "str", param "width" "int", param "fillchar" "str"] "str",
    described 18 20 "count" (params ["s", "str"] "str") "int",
    described 23 28 "format" [param "self" "str", param "arg1" "object", param "arg2" "object",
      param "arg3" "object"] "str" [text "", text "", text ""],
    function 31 "format" ([param "s" "str", param "arg1" "object", param "arg2" "object",
      param "arg3" "object", param "arg4" "object"].map (.on 32)) (on 33 "str")
      (.documented 34 38) [on 32 (text ""), on 32 (text ""), on 32 (text ""), on 32 (text "")],
    described 41 43 "isalnum" [param "s" "str"] "bool",
    described 46 48 "isalpha" [param "s" "str"] "bool",
    described 51 53 "isdecimal" [param "s" "str"] "bool",
    described 56 58 "isdigit" [param "s" "str"] "bool",
    described 61 63 "islower" [param "s" "str"] "bool",
    described 66 68 "isnumeric" [param "s" "str"] "bool",
    described 71 73 "isspace" [param "s" "str"] "bool",
    described 76 78 "istitle" [param "s" "str"] "bool",
    described 81 83 "isupper" [param "s" "str"] "bool",
    described 86 88 "join" [param "s" "str", param "seq" (of "List" ["str"])] "str",
    described 91 93 "lower" [param "s" "str"] "str",
    described 96 99 "ljust" [param "s" "str", param "w" "int", param "fill" "str"] "str"
      [text " "],
    described 102 104 "lstrip" [param "s" "str"] "str",
    described 107 109 "replace" (params ["s", "old", "new"] "str") "str",
    described 112 115 "rjust" [param "s" "str", param "w" "int", param "fill" "str"] "str"
      [text " "],
    described 118 120 "rstrip" [param "s" "str"] "str",
    described 123 125 "split" [param "s" "str", param "sep" "str", param "maxsplit" "int"]
      (of "List" ["str"]) [text "", negative (int 1)],
    described 128 130 "startswith" (params ["s", "c"] "str") "bool",
    described 133 135 "strip" (params ["s", "dl"] "str") "str" [nothing],
    described 138 140 "swapcase" [param "s" "str"] "str",
    described 143 145 "title" [param "s" "str"] "str",
    described 148 150 "upper" [param "s" "str"] "str" ]

def dictSelf : Input := param "self" (of "Dict" ["Tdict", "Udict"])

def dictMethods : List Stmt :=
  [ heading 1,
    importing 2 "typing" ["TypeVar", "Dict", "List", "Tuple", "Generic"],
    typeVar 4 "Tdict" "Tdict",
    typeVar 5 "Udict" "Udict",
    described 8 10 "clear" [dictSelf] nothing,
    described 13 15 "copy" [dictSelf] (of "Dict" ["Tdict", "Udict"]),
    described 18 20 "get" [dictSelf, param "key" "Tdict", param "default" "Udict"] "Udict"
      [nothing],
    function 23 "__getitem__" [dictSelf, param "item" "Tdict"] "Udict" (.pass 24),
    function 27 "__setitem__" [dictSelf, param "key" "Tdict", param "value" "Udict"] nothing
      (.pass 28),
    described 31 33 "pop" [dictSelf, param "key" "Tdict"] "Udict",
    described 36 38 "popitem" [dictSelf] (of "Tuple" ["Tdict", "Udict"]),
    described 41 43 "update" (params ["self", "dict2"] (of "Dict" ["Tdict", "Udict"])) nothing,
    function 46 "items" [dictSelf] (of "List" [of "Tuple" ["Tdict", "Udict"]]) (.pass 47),
    function 50 "keys" [param "dict" (of "Dict" ["Tdict", "Udict"])] (of "List" ["Tdict"])
      (.pass 51),
    function 54 "values" [param "dict" (of "Dict" ["Tdict", "Udict"])] (of "List" ["Udict"])
      (.pass 55) ]

def setMethods : List Stmt :=
  [ heading 1,
    importing 2 "typing" ["TypeVar", "Set"],
    typeVar 4 "TSet" "TSet",
    described 7 9 "add" [param "s" (of "Set" ["TSet"]), param "e" "TSet"] nothing,
    described 12 14 "union" (params ["s", "t"] (of "Set" ["TSet"])) (of "Set" ["TSet"]) ]

end TypeInference.Library
