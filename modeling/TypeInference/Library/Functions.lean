/- The built-in functions. -/

import TypeInference.Library.Declaration

namespace TypeInference.Library

open Shape

def builtinFunctions : List Stmt :=
  [ heading 1,
    importing 2 "typing" ["TypeVar", "List", "Tuple", "Dict", "Set", "Union", "Type", "Callable",
      "Generic"],
    importing 3 "sys" ["IO"],
    typeVar 5 "Tf" "Tf",
    typeVar 6 "Uf" "Uf",
    typeVar 7 "Num" "Num" [] "complex",
    typeVar 8 "IntOrFloat" "IntOrFloat" ["int", "float"],
    typeVar 9 "Str" "Str" ["str", "bytes"],
    typeVar 10 "Seq" "Seq" ["Str", of "List" ["Tf"]],
    typeVar 11 "NumOrStr" "NumOrStr" ["Num", "Str"],
    typeVar 12 "NumOrStrNoComplex" "NumOrStr" ["bool", "int", "float", "Str"],
    emptyClass 15 "Exception" [],
    typeVar 19 "Titer" "Titer",
    emptyClass 22 "Iterator" [of "Generic" ["Titer"]],
    described 26 28 "abs" [param "x" "Num"] "Num",
    described 31 37 "all" [param "_" "Seq"] "bool",
    described 40 46 "any" [param "_" "Seq"] "bool",
    described 49 58 "ascii" [param "_" "object"] "str",
    described 61 68 "bin" [param "_" "int"] "str",
    described 71 73 "bool" [param "_" "object"] "bool" [nothing],
    described 76 78 "bytes" [param "_" "object"] "bytes" [nothing],
    described 81 88 "callable" [param "_" "object"] "bool",
    described 91 93 "chr" [param "_" "int"] "str",
    described 96 98 "complex" [param "_" "NumOrStr"] "complex" [nothing],
    described 101 105 "dict" [param "_" (of "Dict" ["Tf", "Uf"])] (of "Dict" ["Tf", "Uf"])
      [nothing],
    described 108 110 "dir" [param "_" "object"] (of "List" ["str"]) [nothing],
    described 113 115 "divmod" (params ["_", "__"] "IntOrFloat") (of "Tuple" ["IntOrFloat",
      "IntOrFloat"]),
    described 118 120 "enumerate" [param "l" (of "List" ["Tf"])] (of "List" [of "Tuple" ["int",
      "Tf"]]),
    described 123 125 "float" [param "_" "NumOrStrNoComplex"] "float" [nothing],
    described 128 130 "format" [param "_" "object"] "str",
    described 133 140 "getattr" [param "o" "object", param "name" "str"] "object",
    described 143 145 "hasattr" [param "o" "object", param "attr" "str"] "bool",
    described 148 154 "hash" [param "_" "object"] "int",
    described 157 164 "hex" [param "_" "int"] "str",
    described 167 174 "id" [param "_" "object"] "int",
    described 177 187 "input" [param "_" "object"] "str" [nothing],
    described 190 192 "int" [param "_" "NumOrStrNoComplex", param "base" "int"] "int" [nothing,
      int 10],
    described 195 197 "isinstance" (params ["x", "y"] "object") "bool",
    function 200 "iter" [param "l" (of "List" ["Tf"])] (of "Iterator" ["Tf"]) (.pass 201),
    function 204 "next" [param "l" (of "Iterator" ["Tf"])] "Tf" (.pass 205),
    described 208 210 "len" [param "_" "object"] "int",
    function 213 "list" [param "_" (of "Union" [of "List" ["Tf"], of "Set" ["Tf"],
      of "Dict" ["Tf", "Uf"], of "Iterator" ["Tf"]])] (of "List" ["Tf"]) (.pass 214),
    described 217 224 "min" [param "_" (of "List" ["Tf"])] "Tf",
    described 227 234 "max" [param "_" (of "List" ["Tf"])] "Tf",
    described 237 239 "object" [] "object",
    described 242 249 "oct" [param "_" "int"] "str",
    function 252 "open" [.on 253 (param "file" (of "Union" ["str", "bytes", "int"])),
      .on 254 (param "mode" "str"), .on 255 (param "buffering" "int"),
      .on 256 (param "encoding" "str"), .on 257 (param "errors" "str"),
      .on 258 (param "newline" "str"), .on 259 (param "closefd" "bool")] (on 260 "IO")
      (.documented 261 262) [on 254 nothing, on 255 nothing, on 256 nothing, on 257 nothing,
      on 258 nothing, on 259 nothing],
    function 265 "pow" [bare "x", bare "y"] none (.documentedReturning 266 267 (power "x" "y")),
    described 270 272 "print" [param "_" "object"] nothing,
    described 275 280 "range" (params ["x", "y", "z"] "int") (of "List" ["int"]) [nothing,
      nothing],
    described 283 289 "repr" [param "_" "object"] "str",
    described 292 297 "reversed" [param "_" (of "List" ["Tf"])] (of "Iterator" ["Tf"]),
    described 300 308 "round" [param "_" "float"] "int",
    described 311 316 "set" [param "l" (of "List" ["Tf"])] (of "Set" ["Tf"]) [nothing],
    described 319 323 "setattr" [param "o" "object", param "name" "str", param "val" "object"]
      nothing,
    function 326 "sorted" ([param "_" (of "List" ["Tf"]), param "key" (of "Callable" [list ["Tf"],
      "float"]), param "reverse" "bool"].map (.on 327)) (on 328 (of "List" ["Tf"]))
      (.documented 329 333) [on 327 (lambda ["x"] (float "1.0")), on 327 nothing],
    described 336 338 "str" [param "_" "object"] "str" [nothing],
    described 341 346 "sum" [param "_" (of "List" ["Num"])] "Num",
    function 349 "type" [param "o" "Tf"] (of "Type" ["Tf"]) (.pass 350),
    described 353 356 "zip" [param "x" (of "Union" [of "List" ["Tf"], "str"]),
      param "y" (of "List" ["Uf"])] (of "List" [of "Tuple" ["Tf", "Uf"]]) ]

end TypeInference.Library
