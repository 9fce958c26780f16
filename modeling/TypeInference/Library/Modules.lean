/- The libraries that a program can import. -/

import TypeInference.Library.Declaration

namespace TypeInference.Library

open Shape

variable (line : Nat)

def abcLibrary : List Stmt :=
  [ importing 1 "typing" ["Callable", "Type", "TypeVar"],
    typeVar 3 "_FuncT" "_FuncT" [] (of "Callable" [list [], "object"]),
    emptyClass 6 "ABCMeta" [],
    stub 10 "abstractmethod" [param "callable" "_FuncT"] "_FuncT",
    stub 14 "abstractproperty" [param "callable" "_FuncT"] "_FuncT",
    stub 19 "abstractstaticmethod" [param "callable" "_FuncT"] "_FuncT",
    stub 23 "abstractclassmethod" [param "callable" "_FuncT"] "_FuncT",
    classOf 27 "ABC" []
      [ pass 28 ] "ABCMeta",
    stub 31 "get_cache_token" [] "object" ]

def csvLibrary : List Stmt :=
  [ importing 1 "typing" ["TypeVar", "List", "Union", "Dict"],
    typeVar 3 "T" "T",
    classOf 6 "Dialect" ["object"]
      [ constant 7 "delimiter" (text ""),
        constant 8 "quotechar" (text ""),
        constant 9 "escapechar" (text ""),
        constant 10 "doublequote" (bool true),
        constant 11 "skipinitialspace" (bool true),
        constant 12 "lineterminator" (text ""),
        constant 13 "quoting" (int 0),
        method 15 "__init__" [] nothing ],
    emptyClass 19 "excel" ["Dialect"],
    emptyClass 23 "excel_tab" ["excel"],
    emptyClass 27 "unix_dialect" ["Dialect"],
    classOf 44 "Sniffer" ["object"]
      [ constant 45 "preferred" dots,
        method 47 "__init__" [] nothing,
        method 50 "sniff" (params ["sample", "delimiters"] "str") "Dialect" [dots],
        method 53 "has_header" [param "sample" "str"] "bool" ] ]

def itertoolsLibrary : List Stmt :=
  [ importing 1 "typing" ["TypeVar", "List"],
    typeVar 3 "T" "T",
    function 6 "chain" ((params ["a", "b", "c", "d"] (of "List" ["T"])).map (.on 7))
      (on 8 (of "List" ["T"])) (.documented 9 11) [on 7 nothing, on 7 nothing, on 7 nothing,
      on 7 nothing] ]

/-- A function from numbers to numbers. -/
def real (last : Nat) (name : String) : Stmt :=
  described line last name [param "x" "float"] "float"

def mathLibrary : List Stmt :=
  [ importing 1 "typing" ["Tuple", "List"],
    constant 3 "e" (float "2.718281828459045"),
    constant 5 "pi" (float "3.141592653589793"),
    real 9 15 "acos",
    real 18 24 "acosh",
    real 27 33 "asin",
    real 36 42 "asinh",
    real 45 51 "atan",
    described 54 61 "atan2" (params ["y", "x"] "float") "float",
    real 64 70 "atanh",
    described 73 80 "ceil" [param "x" "float"] "int",
    function 83 "copysign" ((params ["x", "y"] "float").map (.on 84)) (on 85 "float")
      (.documented 86 93),
    real 96 102 "cos",
    real 105 111 "cosh",
    real 114 120 "degrees",
    real 123 129 "erf",
    real 132 138 "erfc",
    real 141 147 "exp",
    real 150 157 "expm1",
    real 160 166 "fabs",
    described 169 175 "factorial" [param "x" "int"] "int",
    described 178 185 "floor" [param "x" "float"] "int",
    described 188 194 "fmod" (params ["x", "y"] "float") "float",
    function 197 "frexp" [.on 198 (param "x" "float")] (on 199 (of "Tuple" ["float", "int"]))
      (.documented 200 207),
    function 210 "fsum" [.on 211 (param "iterable" (of "List" ["float"]))] (on 212 "float")
      (.documented 213 221),
    real 224 230 "gamma",
    described 233 238 "gcd" (params ["x", "y"] "int") "int",
    described 241 247 "hypot" (params ["x", "y"] "float") "float",
    function 250 "isclose" ((params ["a", "b"] "float").map (.on 251)) (on 252 "bool")
      (.documented 253 274),
    described 277 283 "isfinite" [param "x" "float"] "bool",
    described 286 292 "isinf" [param "x" "float"] "bool",
    described 295 301 "isnan" [param "x" "float"] "bool",
    described 304 310 "ldexp" [param "x" "float", param "i" "int"] "float",
    real 313 319 "lgamma",
    function 322 "log" ((params ["x", "base"] "float").map (.on 323)) (on 324 "float")
      (.documented 325 331),
    real 334 340 "log10",
    real 343 350 "log1p",
    real 353 359 "log2",
    function 362 "modf" [.on 363 (param "x" "float")] (on 364 (of "Tuple" ["float", "float"]))
      (.documented 365 371),
    described 374 380 "pow" (params ["x", "y"] "float") "float",
    real 383 389 "radians",
    real 392 398 "sin",
    real 401 407 "sinh",
    real 410 416 "sqrt",
    real 419 425 "tan",
    real 428 434 "tanh",
    real 437 443 "trunc" ]

def osLibrary : List Stmt :=
  [ importing 1 "typing" ["List", "Tuple", "Union"],
    stub 4 "system" [param "command" "str"] "int",
    stub 8 "getcwd" [] "str",
    stub 12 "getcwdb" [] "bytes",
    stub 16 "ctermid" [] "str",
    stub 20 "getegid" [] "int",
    stub 24 "geteuid" [] "int",
    stub 28 "getgid" [] "int",
    stub 32 "getgrouplist" [param "user" "str", param "gid" "int"] (of "List" ["int"]),
    stub 36 "getgroups" [] (of "List" ["int"]),
    stub 40 "initgroups" [param "username" "str", param "gid" "int"] nothing,
    stub 44 "getlogin" [] "str",
    stub 48 "getpgid" [param "pid" "int"] "int",
    stub 52 "getpgrp" [] "int",
    stub 56 "getpid" [] "int",
    stub 60 "getppid" [] "int",
    stub 64 "getpriority" (params ["which", "who"] "int") "int",
    stub 68 "setpriority" (params ["which", "who", "priority"] "int") nothing,
    stub 72 "getresuid" [] (of "Tuple" ["int", "int", "int"]),
    stub 76 "getresgid" [] (of "Tuple" ["int", "int", "int"]),
    stub 80 "getuid" [] "int",
    stub 84 "setegid" [param "egid" "int"] nothing,
    stub 88 "seteuid" [param "euid" "int"] nothing,
    stub 92 "setgid" [param "gid" "int"] nothing,
    stub 96 "setgroups" [param "groups" (of "List" ["int"])] nothing,
    stub 100 "setpgrp" [] nothing,
    stub 104 "setpgid" (params ["pid", "pgrp"] "int") nothing,
    stub 108 "setregid" (params ["rgid", "egid"] "int") nothing,
    stub 112 "setresgid" (params ["rgid", "egid", "sgid"] "int") nothing,
    stub 116 "setresuid" (params ["ruid", "euid", "suid"] "int") nothing,
    stub 120 "setreuid" (params ["ruid", "euid"] "int") nothing,
    stub 124 "getsid" [param "pid" "int"] "int",
    stub 128 "setsid" [] nothing,
    stub 132 "setuid" [param "uid" "int"] nothing,
    stub 136 "strerror" [param "code" "int"] "str",
    stub 140 "umask" [param "mask" "int"] "int",
    stub 144 "getenv" [param "key" "str"] "str",
    stub 148 "getenvb" (params ["key", "default"] "bytes") "bytes" [nothing],
    stub 152 "putenv" (params ["key", "value"] (of "Union" ["bytes", "str"])) nothing,
    stub 156 "unsetenv" [param "key" (of "Union" ["bytes", "str"])] nothing,
    stub 160 "close" [param "fd" "int"] nothing,
    stub 164 "closerange" (params ["fd_low", "fd_high"] "int") nothing,
    stub 168 "device_encoding" [param "fd" "int"] "str",
    stub 172 "dup" [param "fd" "int"] "int",
    stub 176 "dup2" (params ["fd", "fd2"] "int") nothing,
    stub 180 "fchmod" (params ["fd", "mode"] "int") nothing,
    stub 184 "fchown" (params ["fd", "uid", "gid"] "int") nothing,
    stub 188 "fdatasync" [param "fd" "int"] nothing,
    stub 192 "fpathconf" [param "fd" "int", param "name" (of "Union" ["str", "int"])] "int",
    stub 196 "fsync" [param "fd" "int"] nothing,
    stub 200 "ftruncate" (params ["fd", "length"] "int") nothing,
    stub 204 "get_blocking" [param "fd" "int"] "bool",
    stub 208 "set_blocking" [param "fd" "int", param "blocking" "bool"] nothing,
    stub 212 "isatty" [param "fd" "int"] "bool",
    stub 216 "lockf" (params ["__fd", "__cmd", "__length"] "int") nothing,
    stub 220 "lseek" (params ["fd", "pos", "how"] "int") "int",
    stub 224 "open" [param "file" "str", param "flags" "int", param "mode" "int",
      param "dir_fd" "int"] "int" [int 0, int 0],
    stub 228 "pipe" [] (of "Tuple" ["int", "int"]),
    stub 232 "pipe2" [param "flags" "int"] (of "Tuple" ["int", "int"]),
    stub 236 "posix_fallocate" (params ["fd", "offset", "length"] "int") nothing,
    stub 240 "posix_fadvise" (params ["fd", "offset", "length", "advice"] "int") nothing,
    stub 244 "pread" (params ["fd", "buffersize", "offset"] "int") "bytes",
    stub 248 "pwrite" [param "fd" "int", param "string" "bytes", param "offset" "int"] "int",
    stub 252 "listdir" [param "path" (of "Union" ["str", "int"])] (of "List" ["str"]) [nothing],
    stub 256 "mkdir" [param "path" "str", param "mode" "int", param "dir_fd" "int"] nothing
      [nothing, int 0],
    stub 260 "makedirs" [param "name" "str", param "mode" "int", param "exist_ok" "bool"] nothing
      [nothing, nothing],
    stub 264 "remove" [param "path" "str", param "dir_fd" "int"] nothing [nothing],
    stub 268 "removedirs" [param "name" "str"] nothing,
    stub 272 "rename" [param "src" "str", param "dst" "str", param "src_dir_fd" "int",
      param "dst_dir_fd" "int"] nothing [nothing, nothing] ]

def randomLibrary : List Stmt :=
  [ classOf 1 "Random" []
      [ method 2 "__init__" [param "x" "object"] nothing [nothing],
        method 5 "seed" [param "x" "object"] nothing [nothing],
        method 8 "random" [] "float",
        function 11 "choice" [bare "self", bare "s"] none (.returning 12 (item "s" (int 0))) ] ]

def patternOrText : Shape := of "Union" ["Pattern", "str"]

/-- What a replacement takes, on five lines. -/
def replacing : List Input :=
  [.on line (param "pattern" patternOrText),
    .on (line + 1) (param "repl" (of "Union" ["str", of "Callable" [list ["Match"], "str"]])),
    .on (line + 2) (param "string" "str"), .on (line + 3) (param "count" "int"),
    .on (line + 4) (param "flags" "int")]

def reLibrary : List Stmt :=
  [ importing 1 "typing" ["Dict", "List", "Union", "TypeVar", "Tuple", "Callable"] ] ++
  constants 4 ["DEBUG", "I", "IGNORECASE", "L", "LOCALE", "M", "MULTILINE", "S", "DOTALL", "X",
    "VERBOSE", "U", "UNICODE", "T", "TEMPLATE"] (int 0) ++
  [ classOf 21 "Match" []
      [ constant 22 "pos" (int 0),
        constant 23 "endpos" (int 0),
        constant 24 "lastindex" (int 0),
        constant 25 "lastgroup" (text ""),
        constant 26 "string" (text ""),
        constant 30 "re" (call "Pattern" []),
        method 32 "expand" [param "template" "str"] "str",
        method 35 "group" [param "group1" "int"] "str" [int 1],
        method 38 "groups" [param "default" "str"] (of "List" ["str"]) [text ""],
        method 41 "groupdict" [param "default" "str"] (of "Dict" ["str", "str"]) [text ""],
        method 44 "end" [param "group" "int"] "int" [int 1] ],
    classOf 48 "Pattern" []
      [ constant 49 "flags" (int 0),
        constant 50 "groupindex" (int 0),
        constant 51 "groups" (int 0),
        constant 52 "pattern" (text ""),
        method 54 "match" [param "string" "str", param "pos" "int", param "endpos" "int"] "Match"
          [int 1, int 1] ],
    stub 58 "compile" [param "pattern" patternOrText, param "flags" "int"] "Pattern" [int 1],
    stub 62 "search" [param "pattern" patternOrText, param "string" "str", param "flags" "int"]
      "Match" [int 1],
    stub 66 "match" [param "pattern" patternOrText, param "string" "str", param "flags" "int"]
      "Match" [int 1],
    stub 70 "fullmatch" [param "pattern" patternOrText, param "string" "str", param "flags" "int"]
      "Match" [int 1],
    stub 74 "split" [param "pattern" patternOrText, param "maxsplit" "int", param "flags" "int"]
      "Match" [int 1, int 1],
    function 78 "findall" ([param "pattern" patternOrText, param "maxsplit" "int",
      param "flags" "int"].map (.on 79)) (on 80 (of "List" ["object"])) (.dots 81) [on 79 (int 1),
      on 79 (int 1)],
    function 84 "sub" (replacing 85) (on 90 "str") (.dots 91) [on 88 (int 0), on 89 (int 0)],
    function 94 "subn" (replacing 95) (on 100 (of "Tuple" ["str", "int"])) (.dots 101)
      [on 98 (int 0), on 99 (int 0)],
    stub 104 "escape" [param "string" "str"] "str",
    stub 108 "template" [param "pattern" (of "Union" ["str", "Pattern"]), param "flags" "int"]
      "Pattern" [int 1] ]

def sysLibrary : List Stmt :=
  [ importing 1 "typing" ["List"],
    classOf 4 "IO" []
      [ method 5 "mode" [] "str",
        method 8 "name" [] "str",
        method 11 "close" [] nothing,
        method 14 "closed" [] "bool",
        method 17 "fileno" [] "int",
        method 20 "flush" [] nothing,
        method 23 "isatty" [] "bool",
        method 26 "read" [param "n" "int"] "str" [int 0],
        method 29 "readable" [] "bool",
        method 32 "readline" [param "limit" "int"] "str" [int 1],
        method 35 "readlines" [param "hint" "int"] (of "List" ["str"]) [int 1],
        method 38 "seek" (params ["offset", "whence"] "int") "int" [int 1],
        method 41 "seekable" [] "bool",
        method 44 "tell" [] "int",
        method 47 "truncate" [param "size" "int"] "int" [int 1],
        method 50 "writable" [] "bool",
        method 53 "write" [param "s" "str"] "int",
        method 56 "writelines" [param "lines" (of "List" ["str"])] nothing,
        method 59 "next" [] "str" ],
    classOf 63 "TextIO" []
      [ method 64 "write" [param "arg" "str"] nothing ],
    constant 68 "argv" (list [text ""]),
    constant 69 "stdout" (call "TextIO" []),
    constant 71 "stderr" (call "IO" []),
    function 74 "exit" [param "arg" "object"] nothing (.pass 75) ]

/-- The numbers of a point in time, and what else there is. -/
def timeTuple (others : List Shape) : Shape :=
  of "Tuple" (List.replicate 9 (Shape.name "int") ++ others)

/-- A point in time, on four lines. -/
def timeParam : Input :=
  .on line (param "o" (item "Union" (on (line + 1) (tuple [timeTuple [],
    on (line + 2) (timeTuple ["str"]), on (line + 3) (timeTuple ["str", "int"])]))))

def timeLibrary : List Stmt :=
  [ importing 1 "typing" ["Tuple", "Union"],
    constant 4 "accept2dyear" (bool false),
    constant 5 "altzone" (int 0),
    constant 6 "daylight" (int 0),
    constant 7 "timezone" (int 0),
    constant 8 "tzname" (tuple [text "", text ""]) ] ++
  constants 11 ["CLOCK_HIGHRES", "CLOCK_MONOTONIC", "CLOCK_MONOTONIC_RAW",
    "CLOCK_PROCESS_CPUTIME_ID", "CLOCK_REALTIME", "CLOCK_THREAD_CPUTIME_ID"] (int 0) ++
  [ classOf 19 "struct_time" []
      [ function 20 "__init__" [.on 21 (bare "self"), timeParam 22,
          .on 27 (param "_arg" "object")] (on 28 nothing) (.dots 29) [on 27 nothing],
        function 31 "__new__" [.on 32 (bare "cls"), timeParam 33, .on 38 (param "_arg" "object")]
          (on 39 "struct_time") (.dots 40) [on 38 nothing] ],
    function 44 "asctime" [.on 45 (param "t" (of "Union" [timeTuple [], "struct_time"]))]
      (on 46 "str") (.dots 47) [on 45 nothing],
    stub 50 "clock" [] "float",
    stub 54 "ctime" [param "secs" "float"] "str" [nothing],
    stub 58 "gmtime" [param "secs" "float"] "struct_time" [nothing],
    stub 62 "localtime" [param "secs" "float"] "struct_time" [nothing],
    function 66 "mktime" [.on 67 (param "t" (of "Union" [timeTuple [], "struct_time"]))]
      (on 68 "float") (.dots 69),
    stub 72 "sleep" [param "secs" (of "Union" ["int", "float"])] nothing,
    function 76 "strftime" [.on 77 (param "format" "str"),
      .on 78 (param "t" (of "Union" [timeTuple [], "struct_time"]))] (on 79 "str") (.dots 80)
      [on 78 nothing],
    stub 83 "strptime" (params ["string", "format"] "str") "struct_time" [nothing],
    stub 87 "time" [] "float",
    stub 91 "monotonic" [] "float",
    stub 95 "perf_counter" [] "float",
    stub 99 "process_time" [] "float",
    stub 103 "clock_getres" [param "clk_id" "int"] "float",
    stub 107 "clock_gettime" [param "clk_id" "int"] "float",
    stub 111 "clock_settime" [param "clk_id" "int", param "time" "float"] nothing ]

end TypeInference.Library
