/- The declared functions, methods and libraries. -/

import TypeInference.Library.Functions
import TypeInference.Library.Methods
import TypeInference.Library.Modules
import TypeInference.Syntax.Traversal
import TypeInference.Table

namespace TypeInference

structure Library where
  functions : Module
  methods : Table String Module
  libraries : Table String Module

namespace Library

def methodDeclarations : List (String × List Stmt) :=
  [("list", listMethods), ("str", strMethods), ("dict", dictMethods), ("set", setMethods)]

def libraryDeclarations : List (String × List Stmt) :=
  [("math", mathLibrary), ("sys", sysLibrary), ("re", reLibrary), ("random", randomLibrary),
   ("itertools", itertoolsLibrary), ("csv", csvLibrary), ("time", timeLibrary),
   ("os", osLibrary), ("abc", abcLibrary)]

/-- Numbers all declarations on. -/
def number : StateM Nat Library := do
  let functions ← Module.number none builtinFunctions
  let methods ← methodDeclarations.mapM fun (owner, body) => do
    pure (owner, ← Module.number none body)
  let libraries ← libraryDeclarations.mapM fun (name, body) => do
    pure (name, ← Module.number (some (.library name)) body)
  pure ⟨functions, ⟨methods⟩, ⟨libraries⟩⟩

def numbered : Library × Nat := number.run 0

def standard : Library := numbered.1

def nextLabel : Nat := numbered.2

def isLibrary (name : String) : Bool := libraryDeclarations.any fun entry => entry.1 == name

end Library

end TypeInference
