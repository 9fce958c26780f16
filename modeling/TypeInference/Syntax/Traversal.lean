/- Every statement of a module is changed, inner statements first. -/

import TypeInference.Syntax.Basic

namespace TypeInference

namespace Stmt

variable {m : Type → Type} [Monad m] (change : Stmt → m (List Stmt))

mutual

/-- Changes the statements inside a statement, then the statement itself. -/
def mapM : Stmt → m (List Stmt)
  | .functionDef definition => do change (.functionDef (← mapFunctionM definition))
  | .classDef definition => do change (.classDef (← mapClassM definition))
  | .ifElse site test body orelse => do
    let body ← mapListM body
    change (.ifElse site test body (← mapListM orelse))
  | .whileLoop site test body orelse => do
    let body ← mapListM body
    change (.whileLoop site test body (← mapListM orelse))
  | .forLoop site isAsync target source body orelse => do
    let body ← mapListM body
    change (.forLoop site isAsync target source body (← mapListM orelse))
  | .withBlock site isAsync items body => do
    change (.withBlock site isAsync items (← mapListM body))
  | .tryBlock site body handlers orelse final => do
    let body ← mapListM body
    let handlers ← mapHandlersM handlers
    let orelse ← mapListM orelse
    change (.tryBlock site body handlers orelse (← mapListM final))
  | .other site form fields => do change (.other site form (← mapFieldsM fields))
  | .assign site targets value => change (.assign site targets value)
  | .augAssign site target op value => change (.augAssign site target op value)
  | .annAssign site target hint value simple => change (.annAssign site target hint value simple)
  | .returnValue site value => change (.returnValue site value)
  | .delete site targets => change (.delete site targets)
  | .raise site exception cause => change (.raise site exception cause)
  | .importModules site names => change (.importModules site names)
  | .importFrom site moduleName names level => change (.importFrom site moduleName names level)
  | .expr site value => change (.expr site value)
  | .pass site => change (.pass site)

def mapListM : List Stmt → m (List Stmt)
  | [] => pure []
  | value :: values => do
    let first ← mapM value
    pure (first ++ (← mapListM values))

def mapFunctionM : FunctionDef → m FunctionDef
  | ⟨site, name, params, body, decorators, returns, synthetic⟩ => do
    pure ⟨site, name, params, ← mapListM body, decorators, returns, synthetic⟩

def mapClassM : ClassDef → m ClassDef
  | ⟨site, name, bases, keywords, body, decorators⟩ => do
    pure ⟨site, name, bases, keywords, ← mapListM body, decorators⟩

def mapHandlerM : Handler → m Handler
  | ⟨line, exception, name, body⟩ => do pure ⟨line, exception, name, ← mapListM body⟩

def mapHandlersM : List Handler → m (List Handler)
  | [] => pure []
  | value :: values => do
    let first ← mapHandlerM value
    pure (first :: (← mapHandlersM values))

def mapPartM : Part → m (List Part)
  | .stmt value => do pure ((← mapM value).map .stmt)
  | .handler value => do pure [.handler (← mapHandlerM value)]
  | .node form line fields => do pure [.node form line (← mapFieldsM fields)]
  | .items values => do pure [.items (← mapPartsM values)]
  | .absent => pure [.absent]
  | .text value => pure [.text value]
  | .number value => pure [.number value]
  | .flag value => pure [.flag value]
  | .expr value => pure [.expr value]
  | .params value => pure [.params value]

def mapPartsM : List Part → m (List Part)
  | [] => pure []
  | value :: values => do
    let first ← mapPartM value
    pure (first ++ (← mapPartsM values))

def mapFieldM : Field → m Field
  | ⟨name, part⟩ => do pure ⟨name, (← mapPartM part).headD .absent⟩

def mapFieldsM : List Field → m (List Field)
  | [] => pure []
  | value :: values => do
    let first ← mapFieldM value
    pure (first :: (← mapFieldsM values))

end

/-- Changes statements without effects. -/
def mapList (change : Stmt → List Stmt) (body : List Stmt) : List Stmt :=
  Id.run (mapListM (fun stmt => pure (change stmt)) body)

def moveTo (place : Site) : Stmt → Stmt
  | .functionDef definition => .functionDef { definition with site := place }
  | .classDef definition => .classDef { definition with site := place }
  | .assign _ targets value => .assign place targets value
  | .augAssign _ target op value => .augAssign place target op value
  | .annAssign _ target hint value simple => .annAssign place target hint value simple
  | .returnValue _ value => .returnValue place value
  | .delete _ targets => .delete place targets
  | .ifElse _ test body orelse => .ifElse place test body orelse
  | .whileLoop _ test body orelse => .whileLoop place test body orelse
  | .forLoop _ isAsync target source body orelse =>
    .forLoop place isAsync target source body orelse
  | .withBlock _ isAsync items body => .withBlock place isAsync items body
  | .tryBlock _ body handlers orelse final => .tryBlock place body handlers orelse final
  | .raise _ exception cause => .raise place exception cause
  | .importModules _ names => .importModules place names
  | .importFrom _ moduleName names level => .importFrom place moduleName names level
  | .expr _ value => .expr place value
  | .pass _ => .pass place
  | .other _ form fields => .other place form fields

end Stmt

namespace Stmt

/-- How many labels a statement takes. -/
def labelCount : Stmt → Nat
  | .classDef _ => 2
  | _ => 1

def number (home : Option ModuleKey) (stmt : Stmt) : StateM Nat (List Stmt) := do
  let label ← get
  set (label + stmt.labelCount)
  pure [stmt.moveTo ⟨label, stmt.site.line, home⟩]

end Stmt

/-- The label that a class keeps for its initialiser. -/
def ClassDef.initialiserLabel (c : ClassDef) : Nat := c.site.label + 1

namespace Module

/-- The module with labels from the last ones on. -/
def number (home : Option ModuleKey) (body : List Stmt) : StateM Nat Module := do
  let label ← get
  set (label + 1)
  pure ⟨⟨label, none, home⟩, ← Stmt.mapListM (Stmt.number home) body⟩

end Module

end TypeInference
