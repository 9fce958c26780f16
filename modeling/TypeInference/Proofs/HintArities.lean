/- When there is a type for each tuple and function that a hint speaks of. -/

import TypeInference.Proofs.MeasuredArities

namespace TypeInference

open List

namespace Hint

mutual

/-- The hint and all hints in it. -/
def parts : Hint → List Hint
  | .noneType => [.noneType]
  | .name text line => [.name text line]
  | .list element => .list element :: element.parts
  | .set element => .set element :: element.parts
  | .dict key value => .dict key value :: (key.parts ++ value.parts)
  | .typeOf object => .typeOf object :: object.parts
  | .optional inner => .optional inner :: inner.parts
  | .tuple components => .tuple components :: partsOfAll components
  | .callable params result => .callable params result :: (partsOfAll params ++ result.parts)
  | .union options line => .union options line :: partsOfAll options
  | .applied className none line => [.applied className none line]
  | .applied className (some args) line => .applied className (some args) line :: partsOfAll args
  | .invalid fault => [.invalid fault]

def partsOfAll : List Hint → List Hint
  | [] => []
  | hint :: hints => hint.parts ++ partsOfAll hints

end

theorem partsOfAll_eq_flatMap (hints : List Hint) : partsOfAll hints = hints.flatMap parts := by
  induction hints with
  | nil => rfl
  | cons hint hints ih => rw [partsOfAll, ih, flatMap_cons]

/-- The name of a built-in type or of a class. -/
def IsKnown (theory : Theory) (text : String) : Prop :=
  baseName text ∈ primitives.map (·.1) ∨ baseName text ∈ theory.classNames

/-- The documented forms of hints. -/
inductive IsDocumented (theory : Theory) : Expr → Prop
  | noneType {line : Option Nat} : IsDocumented theory (.literal line .none)
  | name {line : Option Nat} {id : String} {usage : Usage} (known : IsKnown theory id) :
      IsDocumented theory (.name line id usage)
  | text {line : Option Nat} {id : String} {kind : Option String} (known : IsKnown theory id) :
      IsDocumented theory (.literal line (.str id kind))
  | list {line headLine : Option Nat} {headUsage usage : Usage} {element : Expr}
      (part : IsDocumented theory element) :
      IsDocumented theory (.subscript line (.name headLine "List" headUsage) element usage)
  | set {line headLine : Option Nat} {headUsage usage : Usage} {element : Expr}
      (part : IsDocumented theory element) :
      IsDocumented theory (.subscript line (.name headLine "Set" headUsage) element usage)
  | typeOf {line headLine : Option Nat} {headUsage usage : Usage} {object : Expr}
      (part : IsDocumented theory object) :
      IsDocumented theory (.subscript line (.name headLine "Type" headUsage) object usage)
  | dict {line headLine pairLine : Option Nat} {headUsage pairUsage usage : Usage}
      {key value : Expr} (left : IsDocumented theory key) (right : IsDocumented theory value) :
      IsDocumented theory (.subscript line (.name headLine "Dict" headUsage)
        (.tuple pairLine [key, value] pairUsage) usage)
  /-- A tuple with one component is written without a tuple. -/
  | single {line headLine : Option Nat} {headUsage usage : Usage} {component : Expr}
      (part : IsDocumented theory component) :
      IsDocumented theory (.subscript line (.name headLine "Tuple" headUsage) component usage)
  | tuple {line headLine tupleLine : Option Nat} {headUsage tupleUsage usage : Usage}
      {components : List Expr}
      (each : ∀ component ∈ components, IsDocumented theory component) :
      IsDocumented theory (.subscript line (.name headLine "Tuple" headUsage)
        (.tuple tupleLine components tupleUsage) usage)
  | callable {line headLine pairLine listLine : Option Nat}
      {headUsage pairUsage listUsage usage : Usage} {params : List Expr} {result : Expr}
      (each : ∀ param ∈ params, IsDocumented theory param)
      (last : IsDocumented theory result) :
      IsDocumented theory (.subscript line (.name headLine "Callable" headUsage)
        (.tuple pairLine [.list listLine params listUsage, result] pairUsage) usage)

/-- The type sort has a constructor for the part. -/
def Fits (sort : TypeSort) : Hint → Prop
  | .tuple components => components.length ≤ sort.maxTuple
  | .callable params _ => params.length ≤ sort.maxFunc
  | _ => True

/-- The part can be read if there are types for its parts. -/
def IsPlain (theory : Theory) : Hint → Prop
  | .name text _ => baseName text ∈ primitives.map (·.1) ∨
      theory.sort.accessors? ("class_" ++ baseName text) = some []
  | .union .. | .applied .. | .invalid _ => False
  | _ => True

/-- Too many parameters, or one component where no tuple has any. -/
def Exceeds (survey : Survey) (hint : Hint) : Prop :=
  (∃ params result, .callable params result ∈ hint.parts ∧ survey.maxFunctionArgs < params.length) ∨
  (∃ component, .tuple [component] ∈ hint.parts) ∧ survey.maxTupleLength = 0

/-- A tuple but with one component is among the nodes. -/
def IsWritten (nodes : List Node) : Hint → Prop
  | .tuple components => components.length ≠ 1 → ∃ line elements usage,
      .expr (.tuple line elements usage) ∈ nodes ∧ elements.length = components.length
  | _ => True

/-- A reading ends well if there are types for all that is read, and blames an arity only if not. -/
def IsSettled {α : Type} (fits plain : Prop) (good : α → Prop) : Except Fault α → Prop
  | .ok value => fits ∧ good value
  | .error fault => (fault.kind = .index → ¬ fits) ∧ (fault.kind ≠ .index → ¬ plain)

def Settles {α : Type} (fits plain : Prop) (good : α → Prop) (act : Reading α) : Prop :=
  ∀ progress, IsSettled fits plain good (act.run progress).1

namespace Settles

variable {α β : Type} {fits otherFits plain : Prop} {good better : α → Prop} {fine : β → Prop}
  {act : Reading α} {next : α → Reading β}

theorem pure {value : α} (isGood : good value) : Settles True plain good (pure value) :=
  fun _ => ⟨trivial, isGood⟩

theorem bind (first : Settles fits plain good act)
    (rest : ∀ value, good value → Settles otherFits plain fine (next value)) :
    Settles (fits ∧ otherFits) plain fine (act >>= next) := by
  intro progress
  have start := first progress
  rw [run_bind]
  rcases ran : act.run progress with ⟨fault | value, mid⟩ <;> rw [ran] at start
  · exact ⟨fun blamed both => start.1 blamed both.1, start.2⟩
  · have finish := rest value start.2 mid
    dsimp only
    rcases ranOn : (next value).run mid with ⟨fault | result, after⟩ <;> rw [ranOn] at finish
    · exact ⟨fun blamed both => finish.1 blamed both.2, finish.2⟩
    · exact ⟨⟨start.1, finish.1⟩, finish.2⟩

theorem imp (settles : Settles fits plain good act) (same : fits ↔ otherFits)
    (stronger : ∀ value, good value → better value) : Settles otherFits plain better act := by
  intro progress
  have ends := settles progress
  rcases ran : act.run progress with ⟨fault | value, after⟩ <;> rw [ran] at ends
  · exact ⟨fun blamed fits => ends.1 blamed (same.mpr fits), ends.2⟩
  · exact ⟨same.mp ends.1, stronger value ends.2⟩

theorem congr (settles : Settles fits plain good act) (same : fits ↔ otherFits) :
    Settles otherFits plain good act :=
  settles.imp same fun _ => id

/-- Meanings that are terms if the hint is plain. -/
theorem toTerm {meaning : Meaning} (isTerm : plain → ∃ term, meaning = .term term) :
    Settles True plain (fun _ => True) (liftM meaning.toTerm : Reading Term) := by
  intro progress
  cases done : meaning.toTerm with
  | ok term => exact ⟨trivial, trivial⟩
  | error fault =>
    refine ⟨fun blamed => ?_, fun _ isPlain => ?_⟩
    · unfold Meaning.toTerm at done
      split at done
      · cases done
      · cases done
        cases blamed
    · obtain ⟨term, rfl⟩ := isTerm isPlain
      cases done

theorem terms {meanings : List Meaning}
    (areTerms : plain → ∀ meaning ∈ meanings, ∃ term, meaning = .term term) :
    Settles True plain (·.length = meanings.length) (terms meanings) := by
  induction meanings with
  | nil => exact pure rfl
  | cons meaning meanings ih =>
    have first := toTerm fun isPlain => areTerms isPlain meaning mem_cons_self
    have others := ih fun isPlain other member =>
      areTerms isPlain other (mem_cons_of_mem _ member)
    rw [Hint.terms, mapM_cons]
    refine (first.bind fun term _ => others.bind fun rest isLength => pure ?_).congr (by simp)
    exact congrArg Nat.succ isLength

end Settles

section

variable {setting : Setting} {readOptions : List Hint → Reading (List Meaning)} {mode : VarMode}
  {plain : Prop} {meanings : List Meaning} {hint : Hint} {hints : List Hint} {text : String}

/-- A known name is a built-in type or a class. -/
theorem settles_resolveName {line : Nat} (known : IsKnown setting.theory text)
    (isPlain : plain → IsPlain setting.theory (.name text line)) :
    Settles True plain (fun meaning => plain → ∃ term, meaning = .term term)
      (resolveName setting readOptions mode text line) := by
  unfold resolveName
  dsimp only
  split
  · next type isPrimitive => exact .pure fun _ => ⟨type, rfl⟩
  · next unknown =>
    have notPrimitive : baseName text ∉ primitives.map (·.1) := by
      intro member
      obtain ⟨entry, inside, is⟩ := mem_map.mp member
      exact find?_eq_none.mp unknown entry inside (beq_iff_eq.mpr is)
    have isClass := known.resolve_left notPrimitive
    rw [if_pos (contains_iff_mem.mpr isClass)]
    intro progress
    rw [Setting.classType]
    split
    · next missing =>
      refine ⟨fun blamed => absurd blamed (by decide), fun _ holds => ?_⟩
      cases missing.symm.trans ((isPlain holds).resolve_left notPrimitive)
    · exact ⟨trivial, fun _ => ⟨_, rfl⟩⟩
    · next generic =>
      refine ⟨trivial, fun holds => ?_⟩
      cases generic.symm.trans ((isPlain holds).resolve_left notPrimitive)

theorem settles_tupleOf
    (areTerms : plain → ∀ meaning ∈ meanings, ∃ term, meaning = .term term) :
    Settles (meanings.length ≤ setting.theory.sort.maxTuple) plain
      (fun meaning => ∃ term, meaning = .term term) (tupleOf setting meanings) := by
  unfold tupleOf
  split
  · next exceeds =>
    exact fun _ => ⟨fun _ => Nat.not_le.mpr exceeds, fun other => absurd rfl other⟩
  · next fits =>
    have fits := Nat.not_lt.mp fits
    refine Settles.congr ((Settles.terms areTerms).bind fun terms isLength =>
      (?_ : Settles True plain _ _)) (by simp [fits])
    rw [TypeSort.tuple, if_pos (isLength ▸ fits)]
    exact .pure ⟨_, rfl⟩

theorem settles_functionOf {result : Meaning}
    (areTerms : plain → ∀ meaning ∈ meanings, ∃ term, meaning = .term term)
    (isTerm : plain → ∃ term, result = .term term) :
    Settles (meanings.length ≤ setting.theory.sort.maxFunc) plain
      (fun meaning => ∃ term, meaning = .term term) (functionOf setting meanings result) := by
  unfold functionOf
  split
  · next exceeds =>
    exact fun _ => ⟨fun _ => Nat.not_le.mpr exceeds, fun other => absurd rfl other⟩
  · next fits =>
    have fits := Nat.not_lt.mp fits
    refine Settles.congr ((Settles.terms areTerms).bind fun terms isLength =>
      (Settles.toTerm isTerm).bind fun term _ => (?_ : Settles True plain _ _)) (by simp [fits])
    rw [TypeSort.func, if_pos (isLength ▸ fits)]
    exact .pure ⟨_, rfl⟩

/-- A plain hint is read as a term if its parts fit. -/
structure SettlesIn (setting : Setting) (readOptions : List Hint → Reading (List Meaning))
    (mode : VarMode) (hint : Hint) : Prop where
  settles : ∀ {plain : Prop}, (plain → ∀ part ∈ hint.parts, part.IsPlain setting.theory) →
    Settles (∀ part ∈ hint.parts, part.Fits setting.theory.sort) plain
      (fun meaning => plain → ∃ term, meaning = .term term)
      (resolveWith setting readOptions mode hint)

theorem settles_resolveAllWith (each : ∀ hint ∈ hints, SettlesIn setting readOptions mode hint)
    (isPlain : plain → ∀ part ∈ partsOfAll hints, part.IsPlain setting.theory) :
    Settles (∀ part ∈ partsOfAll hints, part.Fits setting.theory.sort) plain
      (fun meanings => meanings.length = hints.length ∧
        (plain → ∀ meaning ∈ meanings, ∃ term, meaning = .term term))
      (resolveAllWith setting readOptions mode hints) := by
  induction hints with
  | nil =>
    refine Settles.congr (.pure ⟨rfl, fun _ _ none => nomatch none⟩) ?_
    simp [partsOfAll]
  | cons hint hints ih =>
    simp only [partsOfAll, forall_mem_append] at isPlain ⊢
    have first := (each hint mem_cons_self).settles fun holds => (isPlain holds).1
    have others := ih (fun other member => each other (mem_cons_of_mem _ member))
      fun holds => (isPlain holds).2
    refine (first.bind fun meaning isTerm => others.bind fun meanings areTerms =>
      .pure ⟨congrArg Nat.succ areTerms.1, fun holds => ?_⟩).congr (by simp)
    exact forall_mem_cons.mpr ⟨isTerm holds, areTerms.2 holds⟩

namespace SettlesIn

theorem noneType : SettlesIn setting readOptions mode .noneType where
  settles _ := (Settles.pure fun _ => ⟨_, rfl⟩).congr (by simp [parts, Fits])

theorem name (known : IsKnown setting.theory text) (line : Nat) :
    SettlesIn setting readOptions mode (.name text line) where
  settles isPlain := (settles_resolveName known
    fun holds => isPlain holds _ mem_cons_self).congr (by simp [parts, Fits])

theorem invalid {fault : Fault} (other : fault.kind ≠ .index) :
    SettlesIn setting readOptions mode (.invalid fault) where
  settles isPlain _ := ⟨fun blamed => absurd blamed other,
    fun _ holds => isPlain holds _ mem_cons_self⟩

/-- Types of one argument, which is read first. -/
theorem wrap {whole : Hint} (build : Term → Term) (part : SettlesIn setting readOptions mode hint)
    (isWhole : resolveWith setting readOptions mode whole =
      resolveWith setting readOptions mode hint >>= fun meaning => do
        pure (.term (build (← meaning.toTerm))))
    (parts : whole.parts = whole :: hint.parts) (fits : whole.Fits setting.theory.sort) :
    SettlesIn setting readOptions mode whole where
  settles isPlain := by
    rw [parts] at isPlain ⊢
    rw [isWhole]
    have first := part.settles fun holds => (forall_mem_cons.mp (isPlain holds)).2
    exact (first.bind fun meaning isTerm => (Settles.toTerm isTerm).bind fun term _ =>
      .pure fun _ => ⟨_, rfl⟩).congr (by simp [fits])

theorem dict {key value : Hint} (left : SettlesIn setting readOptions mode key)
    (right : SettlesIn setting readOptions mode value) :
    SettlesIn setting readOptions mode (.dict key value) where
  settles isPlain := by
    simp only [parts, forall_mem_cons, forall_mem_append] at isPlain ⊢
    have first := left.settles fun holds => (isPlain holds).2.1
    have second := right.settles fun holds => (isPlain holds).2.2
    exact (first.bind fun keyMeaning isKey => second.bind fun valueMeaning isValue =>
      (Settles.toTerm isKey).bind fun keyTerm _ => (Settles.toTerm isValue).bind fun valueTerm _ =>
        .pure fun _ => ⟨_, rfl⟩).congr (by simp [Fits])

theorem tuple (each : ∀ hint ∈ hints, SettlesIn setting readOptions mode hint) :
    SettlesIn setting readOptions mode (.tuple hints) where
  settles isPlain := by
    simp only [parts, forall_mem_cons] at isPlain ⊢
    have components := settles_resolveAllWith each fun holds => (isPlain holds).2
    refine (components.bind fun meanings areRead => ?_).congr and_comm
    rw [Fits, ← areRead.1]
    exact (settles_tupleOf areRead.2).imp .rfl fun _ isTerm _ => isTerm

theorem callable {result : Hint} (each : ∀ hint ∈ hints, SettlesIn setting readOptions mode hint)
    (last : SettlesIn setting readOptions mode result) :
    SettlesIn setting readOptions mode (.callable hints result) where
  settles isPlain := by
    simp only [parts, forall_mem_cons, forall_mem_append] at isPlain ⊢
    have params := settles_resolveAllWith each fun holds => (isPlain holds).2.1
    have returned := last.settles fun holds => (isPlain holds).2.2
    refine (params.bind fun meanings areRead =>
      returned.bind fun meaning isTerm => ?_).congr (and_assoc.symm.trans and_comm)
    rw [Fits, ← areRead.1]
    exact (settles_functionOf areRead.2 isTerm).imp .rfl fun _ isTerm _ => isTerm

theorem all {es : List Expr} (each : ∀ e ∈ es, SettlesIn setting readOptions mode (ofExpr e)) :
    ∀ hint ∈ ofExprs es, SettlesIn setting readOptions mode hint := by
  rw [ofExprs_eq_map]
  exact forall_mem_map.mpr each

end SettlesIn

namespace IsDocumented

variable {theory : Theory} {e : Expr} {line headLine : Option Nat} {headUsage usage : Usage}

/-- The only component of a tuple must be a name. -/
theorem ofExpr_single (documented : IsDocumented theory e) :
    ofExpr (.subscript line (.name headLine "Tuple" headUsage) e usage) = .tuple [ofExpr e] ∨
      ofExpr (.subscript line (.name headLine "Tuple" headUsage) e usage) =
        .invalid (.tupleHintShape (line.getD 0)) := by
  cases documented
  case name => exact .inl rfl
  all_goals exact .inr rfl

/-- What comes of documented hints, by their forms. -/
theorem settlesIn (documented : IsDocumented setting.theory e) :
    SettlesIn setting readOptions mode (ofExpr e) := by
  induction documented with
  | noneType => exact .noneType
  | name known => exact .name known _
  | text known => exact .name known _
  | list part settles => cases part <;> exact .wrap .list settles rfl rfl trivial
  | set part settles => cases part <;> exact .wrap .set settles rfl rfl trivial
  | typeOf part settles => cases part <;> exact .wrap .type settles rfl rfl trivial
  | dict _ _ left right => exact .dict left right
  | single part settles =>
    rcases part.ofExpr_single with is | is <;> rw [is]
    · exact .tuple (forall_mem_singleton.mpr settles)
    · exact .invalid nofun
  | tuple _ each => exact .tuple (.all each)
  | callable _ _ each last => exact .callable (.all each) last

/-- A tuple is written as one, but with one component. -/
theorem isWritten {nodes : List Node} (closed : ∀ node ∈ nodes, node.walk ⊆ nodes)
    (documented : IsDocumented theory e) (occurs : .expr e ∈ nodes) :
    ∀ part ∈ (ofExpr e).parts, part.IsWritten nodes := by
  have child {whole inner : Node} (isChild : inner ∈ whole.children) (member : whole ∈ nodes) :
      inner ∈ nodes := closed whole member (Node.mem_walk_iff.mpr (.single isChild))
  have index {line value index usage} : .expr (.subscript line value index usage) ∈ nodes →
      .expr index ∈ nodes := child (mem_cons_of_mem _ mem_cons_self)
  have element {line elements usage} {e : Expr} (inside : e ∈ elements) :
      .expr (.tuple line elements usage) ∈ nodes → .expr e ∈ nodes :=
    child (mem_map_of_mem inside)
  have all {es : List Expr} (each : ∀ e ∈ es, ∀ part ∈ (ofExpr e).parts, part.IsWritten nodes) :
      ∀ part ∈ partsOfAll (ofExprs es), part.IsWritten nodes := by
    rw [ofExprs_eq_map, partsOfAll_eq_flatMap]
    simpa using fun part e inside => each e inside part
  induction documented with
  | noneType | name | text => exact forall_mem_singleton.mpr trivial
  | list part written | set part written | typeOf part written =>
    cases part <;> exact forall_mem_cons.mpr ⟨trivial, written (index occurs)⟩
  | dict _ _ left right =>
    refine forall_mem_cons.mpr ⟨trivial, forall_mem_append.mpr ⟨?_, ?_⟩⟩
    · exact left (element mem_cons_self (index occurs))
    · exact right (element (mem_cons_of_mem _ mem_cons_self) (index occurs))
  | single part written =>
    rcases part.ofExpr_single with is | is <;> rw [is]
    · refine forall_mem_cons.mpr ⟨fun several => absurd rfl several, ?_⟩
      exact forall_mem_append.mpr ⟨written (index occurs), forall_mem_nil _⟩
    · exact forall_mem_singleton.mpr trivial
  | tuple _ each =>
    refine forall_mem_cons.mpr ⟨fun _ => ⟨_, _, _, index occurs, ?_⟩, all fun e inside => ?_⟩
    · rw [ofExprs_eq_map, length_map]
    · exact each e inside (element inside (index occurs))
  | callable _ _ each last =>
    refine forall_mem_cons.mpr ⟨trivial, forall_mem_append.mpr ⟨?_, ?_⟩⟩
    · have list := element mem_cons_self (index occurs)
      exact all fun e inside => each e inside (child (mem_map_of_mem inside) list)
    · exact last (element (mem_cons_of_mem _ mem_cons_self) (index occurs))

end IsDocumented

end

/-- Only tuples with one component can be too long. -/
theorem fits_iff_not_exceeds {sort : TypeSort} {survey : Survey} {hint : Hint}
    (tuples : sort.maxTuple = survey.maxTupleLength)
    (functions : sort.maxFunc = survey.maxFunctionArgs)
    (measured : ∀ components, .tuple components ∈ hint.parts → components.length ≠ 1 →
      components.length ≤ survey.maxTupleLength) :
    (∀ part ∈ hint.parts, part.Fits sort) ↔ ¬ hint.Exceeds survey := by
  constructor
  · rintro fits (⟨params, result, member, exceeds⟩ | ⟨⟨component, member⟩, none⟩)
    · have enough : params.length ≤ sort.maxFunc := fits _ member
      exact Nat.not_lt.mpr (functions ▸ enough) exceeds
    · have enough : 1 ≤ sort.maxTuple := fits _ member
      rw [tuples, none] at enough
      exact Nat.not_succ_le_zero 0 enough
  · intro within part member
    cases part with
    | tuple components =>
      change components.length ≤ sort.maxTuple
      rw [tuples]
      by_cases alone : components.length = 1
      · obtain ⟨component, rfl⟩ := length_eq_one_iff.mp alone
        exact Nat.pos_of_ne_zero fun none => within (.inr ⟨⟨component, member⟩, none⟩)
      · exact measured components member alone
    | callable params result =>
      change params.length ≤ sort.maxFunc
      rw [functions]
      exact Nat.not_lt.mp fun exceeds => within (.inl ⟨params, result, member, exceeds⟩)
    | _ => trivial

/-- What is read of an expression that stands for a type. -/
def read (setting : Setting) (mode : VarMode) (e : Expr) (progress : Progress) :
    Except Fault Meaning :=
  ((resolve setting mode (ofExpr e)).run progress).1

theorem IsDocumented.isSettled {setting : Setting} {e : Expr}
    (documented : IsDocumented setting.theory e) (mode : VarMode) (progress : Progress) :
    IsSettled (∀ part ∈ (ofExpr e).parts, part.Fits setting.theory.sort)
      (∀ part ∈ (ofExpr e).parts, part.IsPlain setting.theory)
      (fun meaning => (∀ part ∈ (ofExpr e).parts, part.IsPlain setting.theory) →
        ∃ type, meaning = .term type)
      (read setting mode e progress) := by
  unfold read resolve
  -- There are no type variables in documented hints, so it does not matter how they are read.
  cases setting.vars.options.size <;> exact documented.settlesIn.settles id progress

section

variable {files : Files} {body : List Stmt} {name : Option (String × String)} {program : Program}
  {settings : Settings} {base : Option String} {funcParams classParams : TypeParams}
  {survey : Survey} {theory : Theory} {e : Expr}

/-- A documented hint has types for its parts unless it exceeds the measures. -/
theorem IsDocumented.fits_iff (isRead : Program.read files body name = .ok program)
    (surveyed : Survey.ofProgram settings base program funcParams classParams = .ok survey)
    (built : Theory.ofSurvey settings survey = .ok theory)
    (occurs : .expr e ∈ program.nodes) (documented : IsDocumented theory e) :
    (∀ part ∈ (ofExpr e).parts, part.Fits theory.sort) ↔ ¬ (ofExpr e).Exceeds survey := by
  have isClosed := Program.isClosed_of_read isRead
  obtain ⟨selection, -, -, isMeasured⟩ := Survey.isMeasured_of_ofProgram surveyed
  obtain ⟨-, -, isSort, -⟩ := Theory.ofSurvey_eq_ok built
  refine fits_iff_not_exceeds (congrArg (·.maxTuple) isSort) (congrArg (·.maxFunc) isSort) ?_
  intro components member several
  obtain ⟨line, elements, usage, inside, same⟩ :=
    documented.isWritten isClosed.closed occurs _ member several
  rw [isMeasured.tuples, ← same]
  exact Survey.le_longest (mem_append_left _ inside) (by rfl)

/-- Documented hints that do not exceed the measures of a program never blame an arity. Others do,
unless something else in them cannot be read. -/
theorem hint_arities_blamed (isRead : Program.read files body name = .ok program)
    (surveyed : Survey.ofProgram settings base program funcParams classParams = .ok survey)
    (built : Theory.ofSurvey settings survey = .ok theory)
    (occurs : .expr e ∈ program.nodes) (documented : IsDocumented theory e)
    (vars : DeclaredVars) (scope : HintScope) (mode : VarMode) (progress : Progress) :
    (¬ (ofExpr e).Exceeds survey → ∀ fault,
      read ⟨theory, vars, scope⟩ mode e progress = .error fault → fault.kind ≠ .index) ∧
    ((∀ part ∈ (ofExpr e).parts, part.IsPlain theory) →
      (¬ (ofExpr e).Exceeds survey →
        ∃ type, read ⟨theory, vars, scope⟩ mode e progress = .ok (.term type)) ∧
      ((ofExpr e).Exceeds survey → ∃ fault,
        read ⟨theory, vars, scope⟩ mode e progress = .error fault ∧ fault.kind = .index)) := by
  have fits := documented.fits_iff isRead surveyed built occurs
  have settled := @IsDocumented.isSettled ⟨theory, vars, scope⟩ e documented mode progress
  cases outcome : read ⟨theory, vars, scope⟩ mode e progress with
  | ok meaning =>
    rw [outcome] at settled
    obtain ⟨allFit, isTerm⟩ := settled
    refine ⟨nofun, fun plain => ⟨fun _ => ?_, fun exceeds => absurd exceeds (fits.mp allFit)⟩⟩
    obtain ⟨type, rfl⟩ := isTerm plain
    exact ⟨type, rfl⟩
  | error fault =>
    rw [outcome] at settled
    obtain ⟨blamed, other⟩ := settled
    refine ⟨?_, fun plain => ⟨fun within => ?_, fun _ => ⟨fault, rfl, ?_⟩⟩⟩
    · intro within _ same isIndex
      cases same
      exact blamed isIndex (fits.mpr within)
    · exact absurd plain (other fun isIndex => blamed isIndex (fits.mpr within))
    · exact Classical.byContradiction fun differs => other differs plain

end

/-- A function with a hint for its parameter. -/
def withParam (hint : Expr) : List Stmt :=
  [.functionDef ⟨{}, "f", ⟨[], [⟨some 1, "x", some hint⟩], none, [], [], none, []⟩,
    [.returnValue {} (some (.name (some 2) "x" .load))], [], none, false⟩]

theorem mem_nodes_withParam {hint : Expr} {program : Program}
    (done : Program.read {} (withParam hint) none = .ok program) : .expr hint ∈ program.nodes := by
  refine (Program.isClosed_of_read done).main ?_
  obtain ⟨_, -, rfl⟩ := map_ok done
  have param : .expr hint ∈ (Node.param ⟨some 1, "x", some hint⟩).children := mem_cons_self
  have params : .param ⟨some 1, "x", some hint⟩ ∈ (Node.params
      ⟨[], [⟨some 1, "x", some hint⟩], none, [], [], none, []⟩).children := mem_cons_self
  exact Node.mem_walk_iff.mpr
    (.head mem_cons_self (.head mem_cons_self (.head params (.single param))))

/-- The hint `Tuple[int, Callable[[Tuple[str]], None]]`. -/
def nestedHint : Expr :=
  let subscript (head : String) (index : Expr) : Expr :=
    .subscript (some 1) (.name (some 1) head .load) index .load
  let text : Expr := subscript "Tuple" (.name (some 1) "str" .load)
  let params : Expr := .list (some 1) [text] .load
  let function : Expr :=
    subscript "Callable" (.tuple (some 1) [params, .literal (some 1) .none] .load)
  subscript "Tuple" (.tuple (some 1) [.name (some 1) "int" .load, function] .load)

/-- The hint `Callable[[int, int, int], int]`. -/
def ternaryHint : Expr :=
  let int : Expr := .name (some 1) "int" .load
  .subscript (some 1) (.name (some 1) "Callable" .load)
    (.tuple (some 1) [.list (some 1) [int, int, int] .load, int] .load) .load

theorem isDocumented_nestedHint (theory : Theory) : IsDocumented theory nestedHint := by
  have int : IsKnown theory "int" := .inl (by decide)
  have str : IsKnown theory "str" := .inl (by decide)
  refine .tuple (forall_mem_cons.mpr ⟨.name int, forall_mem_singleton.mpr ?_⟩)
  exact .callable (forall_mem_singleton.mpr (.single (.name str))) .noneType

/-- A nested hint is read to a type. -/
theorem nestedHint_read : ∃ prepared,
    Prepared.ofBody (withParam nestedHint) none {} = .ok prepared ∧
    .expr nestedHint ∈ prepared.program.nodes ∧ IsDocumented prepared.theory nestedHint ∧
    ¬ (ofExpr nestedHint).Exceeds prepared.survey ∧
    ∀ vars scope mode progress, ∃ type,
      read ⟨prepared.theory, vars, scope⟩ mode nestedHint progress = .ok (.term type) := by
  have evaluated : ∃ prepared, Prepared.ofBody (withParam nestedHint) none {} = .ok prepared ∧
      1 ≤ prepared.survey.maxFunctionArgs ∧ 0 < prepared.survey.maxTupleLength := by
    decide +kernel
  obtain ⟨prepared, done, functions, tuples⟩ := evaluated
  obtain ⟨isRead, surveyed, built⟩ := Prepared.ofBody_eq_ok done
  have occurs := mem_nodes_withParam isRead
  have documented := isDocumented_nestedHint prepared.theory
  have within : ¬ (ofExpr nestedHint).Exceeds prepared.survey := by
    rintro (⟨params, result, member, exceeds⟩ | ⟨-, none⟩)
    · simp only [nestedHint, ofExpr, ofExprs, parts, partsOfAll] at member
      obtain ⟨rfl, -⟩ : params = [_] ∧ _ := by simpa using member
      exact Nat.not_lt.mpr functions exceeds
    · exact Nat.ne_of_gt tuples none
  have plain : ∀ part ∈ (ofExpr nestedHint).parts, part.IsPlain prepared.theory := by
    have int : ∃ type, (baseName "int", type) ∈ primitives := ⟨.int, by decide⟩
    have str : ∃ type, (baseName "str", type) ∈ primitives := ⟨.str, by decide⟩
    simp [nestedHint, ofExpr, ofExprs, parts, partsOfAll, IsPlain, int, str]
  exact ⟨prepared, done, occurs, documented, within, fun vars scope mode progress =>
    ((hint_arities_blamed isRead surveyed built occurs documented vars scope mode
      progress).2 plain).1 within⟩

/-- Functions of three parameters are not measured here. -/
theorem ternaryHint_blamed : ∃ prepared,
    Prepared.ofBody (withParam ternaryHint) none {} = .ok prepared ∧
    .expr ternaryHint ∈ prepared.program.nodes ∧ IsDocumented prepared.theory ternaryHint ∧
    prepared.infer = .error (.arityOutOfRange .functionHint) := by
  have evaluated : ∃ prepared, Prepared.ofBody (withParam ternaryHint) none {} = .ok prepared ∧
      prepared.infer = .error (.arityOutOfRange .functionHint) := by
    decide +kernel
  obtain ⟨prepared, done, failed⟩ := evaluated
  have int : IsDocumented prepared.theory (.name (some 1) "int" .load) := .name (.inl (by decide))
  have documented : IsDocumented prepared.theory ternaryHint := by
    refine .callable (fun param member => ?_) int
    obtain rfl := eq_of_mem_replicate (n := 3) member
    exact int
  exact ⟨prepared, done, mem_nodes_withParam (Prepared.ofBody_eq_ok done).1, documented, failed⟩

end Hint

end TypeInference
