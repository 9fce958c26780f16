/- How each kind of type is written, and that it is read as the type. -/

import Mathlib.Data.List.TakeWhile
import TypeInference.Hint.Resolve
import TypeInference.Proofs.Classes
import TypeInference.Proofs.HintText

namespace TypeInference

open List

namespace Hint

variable {name head : String} {es : List Expr} {t : Term} {classes : List ClassKey} {place : Place}
  {ts : List Term} {start : String} {e : Expr}

theorem restAfter?_append (start rest : String) (nonempty : rest ≠ "") :
    restAfter? start (start ++ rest) = some rest := by
  have starts : (start ++ rest).startsWith start = true :=
    String.startsWith_string_iff.mpr (by simp)
  have positive : 0 < rest.length := by
    exact length_pos_iff.mpr (mt String.toList_eq_nil_iff.mp nonempty)
  have dropped : (start.toList ++ rest.toList).drop start.length = rest.toList :=
    drop_left' String.length_toList
  simp [restAfter?, starts, positive, dropped]

theorem restAfter?_eq_none (differs : ¬ start.toList <+: name.toList) :
    restAfter? start name = none := by
  have starts : name.startsWith start = false := by
    rw [Bool.eq_false_iff]
    exact fun starts => differs (String.startsWith_string_iff.mp starts)
  simp [restAfter?, starts]

theorem baseName_of_not_mem (noDot : '.' ∉ name.toList) : baseName name = name := by
  have others : ∀ c ∈ name.toList.reverse, (c != '.') = true := by
    intro c inside
    rw [bne_iff_ne]
    rintro rfl
    exact noDot (mem_reverse.mp inside)
  rw [baseName, takeWhile_eq_self_iff.mpr others, reverse_reverse, String.ofList_toList]

theorem baseName_of_isIdentifier (named : IsIdentifier name) : baseName name = name := by
  refine baseName_of_not_mem fun inside => ?_
  exact absurd (all_eq_true.mp named.letters '.' inside) (by decide)

theorem isNumbered_append (start : String) (n : Nat) : isNumbered start (start ++ toString n) := by
  have nonempty : toString n ≠ "" := by simp
  simp only [isNumbered, restAfter?_append start _ nonempty, Option.map_some, Option.getD_some]
  exact all_eq_true.mpr fun c inside => isDigit_of_mem_toString inside

theorem toTerm_term (t : Term) : (Meaning.term t).toTerm = .ok t := rfl

theorem lift_ok {α : Type} (a : α) : (liftM (Except.ok a : Except Fault α) : Reading α) = pure a :=
  rfl

theorem terms_map (ts : List Term) : terms (ts.map .term) = pure ts := by
  rw [terms, mapM_map]
  exact (mapM_pure (f := id)).trans (by rw [map_id])

theorem ofExpr_nameExpr (id : String) : ofExpr (nameExpr id) = .name id 1 := rfl

theorem ofExpr_quoted (id : String) : ofExpr (.literal (some 1) (.str id none)) = .name id 1 := rfl

theorem resolveWith_name (setting : Setting) (readOptions mode) (text : String) (line : Nat) :
    resolveWith setting readOptions mode (.name text line) =
      resolveName setting readOptions mode text line := rfl

theorem resolveWith_applied (setting : Setting) (readOptions mode) (name : String)
    (args : Option (List Hint)) (line : Nat) :
    resolveWith setting readOptions mode (.applied name args line) =
      if setting.theory.classNames.contains name then
        if setting.theory.sort.hasConstructor ("class_" ++ name) then
          match args with
          | none => throw .missingPart
          | some args => resolveAllWith setting readOptions mode args >>= classOf setting name
        else throw .missingPart
      else throw (.invalidHint line) := by
  have guarded {α : Type} (check : Bool) (fault : Fault) (act : Reading α) :
      (do if !check then throw fault
          act) = if check then act else throw fault := by
    cases check <;> rfl
  rw [← guarded, ← guarded]
  cases args <;> rfl

/-- A hint can be written and is read as a type. -/
structure ReadsAs (setting : Setting) (mode : VarMode) (t : Term) (e : Expr) : Prop where
  isHintExpr : IsHintExpr e
  resolves : ∀ readOptions, resolveWith setting readOptions mode (ofExpr e) = pure (.term t)

/-- The names before arguments that are read in their own ways. -/
def formNames : List String :=
  ["List", "Set", "Optional", "Type", "Dict", "Tuple", "Callable", "Union"]

/-- A single argument of a tuple is read if it is a name. -/
theorem ofExpr_tuple (alone : ∀ e, es = [e] → ∃ id, e = nameExpr id) :
    ofExpr (appliedExpr "Tuple" es) = .tuple (ofExprs es) := by
  match es with
  | [] => rfl
  | [e] =>
    obtain ⟨id, rfl⟩ := alone e rfl
    rfl
  | _ :: _ :: _ => rfl

theorem ofExpr_subscript_class (notForm : name ∉ formNames) (index : Expr) :
    ofExpr (subscriptExpr name index) = match index with
      | .slice .. => .invalid (.invalidHintSubscript 1)
      | .name l id u => .applied name (some [ofExpr (.name l id u)]) 1
      | .tuple _ elements _ | .list _ elements _ | .set _ elements =>
        .applied name (some (ofExprs elements)) 1
      | _ => .applied name none 1 := by
  rw [subscriptExpr, nameExpr, ofExpr.eq_def]
  dsimp only
  split
  case h_16 is | h_17 is | h_18 is | h_19 is =>
    cases is
    rfl
  case h_20 =>
    split <;> first | rfl | grind
  case h_21 other _ _ _ _ _ _ _ _ _ _ _ =>
    exact (other _ _ _ rfl).elim
  all_goals first
    | rfl
    | have same := (Expr.name.inj ‹Expr.name (some 1) name .load = _›).2.1
      exact absurd (by rw [same]; decide) notForm

/-- So is a single argument of a class. -/
theorem ofExpr_class (notForm : name ∉ formNames) (alone : ∀ e, es = [e] → ∃ id, e = nameExpr id) :
    ofExpr (appliedExpr name es) = .applied name (some (ofExprs es)) 1 := by
  match es with
  | [] => exact ofExpr_subscript_class notForm (tupleExpr [])
  | [e] =>
    obtain ⟨id, rfl⟩ := alone e rfl
    exact ofExpr_subscript_class notForm (nameExpr id)
  | e :: f :: es => exact ofExpr_subscript_class notForm (tupleExpr (e :: f :: es))

theorem isHintExpr_applied (named : IsIdentifier head) (each : ∀ e ∈ es, IsHintExpr e) :
    IsHintExpr (appliedExpr head es) := by
  unfold appliedExpr
  split
  · exact .subscript named (each _ (mem_singleton_self _))
  · next several =>
    refine .applied named (fun single => ?_) each
    obtain ⟨e, is⟩ := length_eq_one_iff.mp single
    exact several e is

namespace ReadsAs

variable {setting : Setting} {mode : VarMode} {e f : Expr} {s t : Term}

theorem none : ReadsAs setting mode .none (.literal (some 1) .none) := ⟨.none, fun _ => rfl⟩

theorem primitive (named : IsIdentifier name)
    (known : primitives.find? (fun entry => entry.1 == name) = some (name, t)) :
    ReadsAs setting mode t (nameExpr name) := by
  refine ⟨.name named, fun readOptions => ?_⟩
  rw [ofExpr_nameExpr, resolveWith_name, resolveName, baseName_of_isIdentifier named, known]

theorem primitives_find?_eq_none (notPrimitive : name ∉ primitives.map (·.1)) :
    primitives.find? (fun entry => entry.1 == name) = Option.none := by
  rw [find?_eq_none]
  intro entry member same
  exact notPrimitive (eq_of_beq same ▸ mem_map_of_mem member)

/-- A class is read whether its name is quoted or not. -/
theorem own (isClass : name ∈ setting.theory.classNames)
    (plain : setting.theory.sort.accessors? ("class_" ++ name) = some [])
    (named : IsIdentifier name) (notPrimitive : name ∉ primitives.map (·.1)) (place : Place) :
    ReadsAs setting mode (.atom ("class_" ++ name)) (place.classExpr name) := by
  have resolved (readOptions line) : resolveName setting readOptions mode name line =
      pure (.term (.atom ("class_" ++ name))) := by
    have read : setting.classType name = .ok (.term (.atom ("class_" ++ name))) := by
      rw [Setting.classType, plain]
    rw [resolveName, baseName_of_isIdentifier named, primitives_find?_eq_none notPrimitive]
    simp only [contains_eq_mem, isClass, decide_true, if_true, read]
    rfl
  have unquoted : ReadsAs setting mode (.atom ("class_" ++ name)) (nameExpr name) :=
    ⟨.name named, fun readOptions => by rw [ofExpr_nameExpr, resolveWith_name, resolved]⟩
  unfold Place.classExpr
  split
  · split
    · exact ⟨.quoted named, fun readOptions => by
      rw [ofExpr_quoted, resolveWith_name, resolved]⟩
    · exact unquoted
  · exact unquoted

theorem typeVar (named : IsIdentifier name) (notPrimitive : name ∉ primitives.map (·.1))
    (notClass : name ∉ setting.theory.classNames)
    (kept : setting.instantiates mode name = .ok false)
    (found : setting.typeVar? name = .ok (some t)) : ReadsAs setting mode t (nameExpr name) := by
  refine ⟨.name named, fun readOptions => ?_⟩
  rw [ofExpr_nameExpr, resolveWith_name, resolveName, baseName_of_isIdentifier named,
    primitives_find?_eq_none notPrimitive]
  simp only [contains_eq_mem, notClass, decide_false, kept, found]
  rfl

/-- A type of one argument, which is read first. -/
theorem container {con : Term → Term} (hint : Hint → Hint) (named : IsIdentifier head)
    (shape : IsHintExpr e → ofExpr (subscriptExpr head e) = hint (ofExpr e))
    (built : ∀ readOptions, resolveWith setting readOptions mode (hint (ofExpr e)) =
      resolveWith setting readOptions mode (ofExpr e) >>= fun arg => do
        pure (.term (con (← arg.toTerm)))) (inside : ReadsAs setting mode t e) :
    ReadsAs setting mode (con t) (subscriptExpr head e) := by
  refine ⟨.subscript named inside.isHintExpr, fun readOptions => ?_⟩
  rw [shape inside.isHintExpr, built, inside.resolves]
  rfl

theorem dict (key : ReadsAs setting mode s e) (value : ReadsAs setting mode t f) :
    ReadsAs setting mode (.dict s t) (subscriptExpr "Dict" (tupleExpr [e, f])) := by
  have each : ∀ element ∈ [e, f], IsHintExpr element := by
    simp [key.isHintExpr, value.isHintExpr]
  refine ⟨.applied (by decide) (by simp) each, fun readOptions => ?_⟩
  change (do
    let key ← resolveWith setting readOptions mode (ofExpr e)
    let value ← resolveWith setting readOptions mode (ofExpr f)
    pure (Meaning.term (.dict (← key.toTerm) (← value.toTerm)))) = _
  rw [key.resolves, value.resolves]
  rfl

section All

variable {es : List Expr} {ts : List Term} (each : Forall₂ (ReadsAs setting mode) ts es)
include each

theorem isHintExpr_of_mem : ∀ e ∈ es, IsHintExpr e := by
  induction each with
  | nil => simp
  | cons first _ ih => exact forall_mem_cons.mpr ⟨first.isHintExpr, ih⟩

theorem resolvesAll (readOptions) :
    resolveAllWith setting readOptions mode (ofExprs es) = pure (ts.map .term) := by
  induction each with
  | nil => rfl
  | @cons t e ts es first _ ih =>
    change (do
      let type ← resolveWith setting readOptions mode (ofExpr e)
      pure (type :: (← resolveAllWith setting readOptions mode (ofExprs es)))) = _
    rw [first.resolves, ih]
    rfl

theorem tuple (alone : ∀ e, es = [e] → ∃ id, e = nameExpr id)
    (fits : ts.length ≤ setting.theory.sort.maxTuple) :
    ReadsAs setting mode (.con ("tuple_" ++ toString ts.length) ts) (appliedExpr "Tuple" es) := by
  refine ⟨isHintExpr_applied (by decide) (isHintExpr_of_mem each), fun readOptions => ?_⟩
  rw [ofExpr_tuple alone]
  change resolveAllWith setting readOptions mode (ofExprs es) >>= tupleOf setting = _
  rw [resolvesAll each]
  simp [tupleOf, Nat.not_lt.mpr fits, fits, terms_map, TypeSort.tuple, lift_ok]

theorem function (returns : ReadsAs setting mode t f)
    (fits : ts.length ≤ setting.theory.sort.maxFunc) :
    ReadsAs setting mode (.con ("func_" ++ toString ts.length) (.num 0 :: (ts ++ [t])))
      (subscriptExpr "Callable" (tupleExpr [.list (some 1) es .load, f])) := by
  have parts : ∀ part ∈ [.list (some 1) es .load, f], IsHintExpr part :=
    forall_mem_cons.mpr ⟨.list (isHintExpr_of_mem each), by simp [returns.isHintExpr]⟩
  refine ⟨.applied (by decide) (by simp) parts, fun readOptions => ?_⟩
  change (do
    let params ← resolveAllWith setting readOptions mode (ofExprs es)
    functionOf setting params (← resolveWith setting readOptions mode (ofExpr f))) = _
  rw [resolvesAll each, returns.resolves]
  simp [functionOf, Nat.not_lt.mpr fits, fits, terms_map, toTerm_term, lift_ok, TypeSort.func]

theorem applied {accessors : List String} (isClass : name ∈ setting.theory.classNames)
    (known : setting.theory.sort.accessors? ("class_" ++ name) = some accessors)
    (generic : accessors ≠ []) (fits : accessors.length = ts.length) (named : IsIdentifier name)
    (notForm : name ∉ formNames) (alone : ∀ e, es = [e] → ∃ id, e = nameExpr id) :
    ReadsAs setting mode (.con ("class_" ++ name) ts) (appliedExpr name es) := by
  refine ⟨isHintExpr_applied named (isHintExpr_of_mem each), fun readOptions => ?_⟩
  obtain ⟨first, rest, rfl⟩ := exists_cons_of_ne_nil generic
  have built :
      setting.theory.sort.apply ("class_" ++ name) ts = .ok (.con ("class_" ++ name) ts) := by
    simp only [TypeSort.apply, known, fits, if_true]
  have read : classOf setting name (ts.map .term) = pure (.term (.con ("class_" ++ name) ts)) := by
    simp only [classOf, known, terms_map, pure_bind, built, lift_ok]
  rw [ofExpr_class notForm alone, resolveWith_applied,
    if_pos (contains_iff_mem.mpr isClass), if_pos (by simp [TypeSort.hasConstructor, known])]
  dsimp only
  rw [resolvesAll each, pure_bind, read]

end All

end ReadsAs

theorem plainName?_append
    (differs : ∀ other ∈ ["none", "sequence", "tuple", "tuple_0"], ¬ start.toList <+: other.toList)
    (name : String) : plainName? (start ++ name) = none := by
  unfold plainName?
  split
  case h_5 => rfl
  all_goals
    rename_i same
    exact absurd same (append_ne (differs _ (by simp)) _)

theorem headExpr_own (place : Place) (named : IsIdentifier name) :
    headExpr place (.atom ("class_" ++ name)) = place.classExpr name := by
  change symbolExpr place ("class_" ++ name) = _
  rw [symbolExpr, plainName?_append (by decide), restAfter?_append _ _ named.nonempty]

theorem headExpr_typeVar (place : Place) {id : String} (named : IsIdentifier (typeVarName id)) :
    headExpr place (.typeVar id) = nameExpr (typeVarName id) := by
  have nonempty : id ≠ "" := by
    rintro rfl
    exact named.nonempty rfl
  change symbolExpr place ("tv" ++ id) = _
  rw [symbolExpr, plainName?_append (by decide), restAfter?_eq_none (by simp),
    restAfter?_append _ _ nonempty]

theorem symbolExpr_eq_nameExpr (place : Place) {symbol : String}
    (notPlain : (plainName? symbol).isNone) (notClass : ¬ "class_".toList <+: symbol.toList)
    (notVar : ¬ "tv".toList <+: symbol.toList) : symbolExpr place symbol = nameExpr symbol := by
  rw [symbolExpr, Option.isNone_iff_eq_none.mp notPlain, restAfter?_eq_none notClass,
    restAfter?_eq_none notVar]

theorem primitives_find? : ∀ entry ∈ primitives, IsIdentifier entry.1 ∧
    primitives.find? (fun other => other.1 == entry.1) = some entry := by
  decide

/-- Primitive types are named by their symbols, but for tuples. -/
theorem primitives_symbol : ∀ entry ∈ primitives, entry.2 ≠ .sequence →
    entry = ("Tuple", .tuple) ∨ entry.2 = .atom entry.1 ∧ (plainName? entry.1).isNone ∧
      ¬ "class_".toList <+: entry.1.toList ∧ ¬ "tv".toList <+: entry.1.toList := by
  decide

theorem simpleExpr_atom (classes : List ClassKey) (place : Place) (symbol : String) :
    simpleExpr classes place (.atom symbol) = .ok (headExpr place (.atom symbol)) := rfl

theorem simpleExpr_primitive (member : (name, t) ∈ primitives) (notSequence : t ≠ .sequence)
    (classes : List ClassKey) (place : Place) :
    simpleExpr classes place t = .ok (nameExpr name) := by
  rcases primitives_symbol _ member notSequence with same | ⟨isSymbol, notPlain, notClass, notVar⟩
  · obtain ⟨rfl, rfl⟩ := Prod.mk.inj same
    exact simpleExpr_atom classes place "tuple"
  · obtain rfl : t = .atom name := isSymbol
    exact congrArg Except.ok (symbolExpr_eq_nameExpr place notPlain notClass notVar)

theorem genericName?_eq_none (differs : ¬ "class_".toList <+: name.toList) :
    genericName? name = none := by
  rw [genericName?, restAfter?_eq_none differs, Option.filter_none]

variable {args : List Term} {setting : Setting} {mode : VarMode}

/-- The hint is made from those for the arguments. -/
theorem simpleExpr_of_hasForm (form : hasForm head) (nonempty : args ≠ []) (classes : List ClassKey)
    (place : Place) :
    simpleExpr classes place (.con head args) =
      simpleExprs classes (if (genericName? head).isSome then {} else place) args >>=
        formExpr classes head := by
  obtain ⟨arg, args, rfl⟩ := exists_cons_of_ne_nil nonempty
  exact if_pos form

theorem simpleExpr_form (form : hasForm head) (notClass : ¬ "class_".toList <+: head.toList)
    (nonempty : args ≠ []) (each : simpleExprs classes place args = .ok es) :
    simpleExpr classes place (.con head args) = formExpr classes head es := by
  rw [simpleExpr_of_hasForm form nonempty, genericName?_eq_none notClass]
  change (simpleExprs classes place args >>= formExpr classes head) = _
  rw [each]
  rfl

theorem formExpr_tuple (classes : List ClassKey) (n : Nat) (es : List Expr) :
    formExpr classes ("tuple_" ++ toString n) es = .ok (appliedExpr "Tuple" es) := by
  unfold formExpr
  split
  case h_5 => rw [if_pos (isNumbered_append "tuple_" n)]
  all_goals
    rename_i same
    exact absurd same (append_ne (by decide) _)

theorem formExpr_function (classes : List ClassKey) (n : Nat) (defaults result : Expr)
    (params : List Expr) :
    formExpr classes ("func_" ++ toString n) (defaults :: (params ++ [result])) =
      .ok (subscriptExpr "Callable" (tupleExpr [.list (some 1) params .load, result])) := by
  unfold formExpr
  split
  case h_5 =>
    have notTuple : isNumbered "tuple_" ("func_" ++ toString n) = false := by
      rw [isNumbered, restAfter?_eq_none (by simp)]
      rfl
    have last : (defaults :: (params ++ [result])).getLast? = some result := by
      rw [← cons_append, getLast?_concat]
    rw [if_neg (Bool.eq_false_iff.mp notTuple), if_pos (isNumbered_append "func_" n), last]
    simp [appliedExpr]
  all_goals
    rename_i same
    exact absurd same (append_ne (by decide) _)

theorem simpleExprs_cons (first : simpleExpr classes place t = .ok e)
    (others : simpleExprs classes place ts = .ok es) :
    simpleExprs classes place (t :: ts) = .ok (e :: es) := by
  change (do pure ((← simpleExpr classes place t) :: (← simpleExprs classes place ts))) = _
  rw [first, others]
  rfl

theorem simpleExpr_single (form : hasForm head)
    (notClass : ¬ "class_".toList <+: head.toList) (isHint : simpleExpr classes place t = .ok e) :
    simpleExpr classes place (.con head [t]) = formExpr classes head [e] :=
  simpleExpr_form form notClass (cons_ne_nil t []) (simpleExprs_cons isHint rfl)

theorem hasForm_tuple (n : Nat) : hasForm ("tuple_" ++ toString n) := by
  rw [hasForm, isNumbered_append]
  simp

theorem hasForm_function (n : Nat) : hasForm ("func_" ++ toString n) := by
  rw [hasForm, isNumbered_append]
  simp

theorem restAfter?_eq_some {rest : String} (found : restAfter? start name = some rest) :
    name = start ++ rest := by
  unfold restAfter? at found
  split at found
  · next starts =>
    obtain ⟨letters, isName⟩ := String.startsWith_string_iff.mp (Bool.and_eq_true_iff.mp starts).1
    rw [← Option.some.inj found, ← isName, drop_left' String.length_toList]
    exact String.toList_injective (by simp [isName])
  · simp at found

/-- The type is not defined before the place, or around it. -/
def Place.Quotes (place : Place) (name : String) : Prop :=
  ∃ line, place.lines.get? name = some line ∧ (place.line ≤ line ∨ place.scope = some name)

theorem Place.classExpr_of_quotes (quotes : place.Quotes name) :
    place.classExpr name = .literal (some 1) (.str name none) := by
  obtain ⟨line, known, here⟩ := quotes
  rw [classExpr, known]
  exact if_pos (by simpa using here)

theorem Place.classExpr_of_not_quotes (unquoted : ¬ place.Quotes name) :
    place.classExpr name = nameExpr name := by
  unfold classExpr
  split
  · next line known =>
    refine if_neg fun here => unquoted ⟨line, known, ?_⟩
    simpa using here
  · rfl

/-- The type is written as a name without quotes. -/
def Place.IsBare (place : Place) (t : Term) : Prop :=
  ∃ symbol, t = .atom symbol ∧ symbol ≠ "none" ∧ symbol ≠ "tuple_0" ∧
    ∀ name, symbol = "class_" ++ name → ¬ place.Quotes name

theorem Place.IsBare.exists_name (bare : place.IsBare t)
    (written : simpleExpr classes place t = .ok e) : ∃ id, e = nameExpr id := by
  obtain ⟨symbol, rfl, notNone, notEmpty, unquoted⟩ := bare
  obtain rfl := Except.ok.inj ((simpleExpr_atom classes place symbol).symm.trans written)
  change ∃ id, symbolExpr place symbol = nameExpr id
  unfold symbolExpr
  split
  · next hint plain =>
    unfold plainName? at plain
    split at plain
    · exact absurd rfl notNone
    · exact ⟨_, (Option.some.inj plain).symm⟩
    · exact ⟨_, (Option.some.inj plain).symm⟩
    · exact absurd rfl notEmpty
    · simp at plain
  · split
    · next _ name isClass =>
      exact ⟨name, place.classExpr_of_not_quotes (unquoted name (restAfter?_eq_some isClass))⟩
    · exact ⟨_, rfl⟩
    · exact ⟨_, rfl⟩

/-- The types that are read back from hints at a place. A single argument of a tuple or a class is a
bare name, and the arguments of a class are written without regard to the place. -/
inductive IsLegible (setting : Setting) (mode : VarMode) (classes : List ClassKey) :
    Place → Term → Prop where
  | none {place : Place} : IsLegible setting mode classes place .none
  | primitive {place : Place} {name : String} {t : Term} (member : (name, t) ∈ primitives)
      (notSequence : t ≠ .sequence) : IsLegible setting mode classes place t
  | own {place : Place} {name : String} (isClass : name ∈ setting.theory.classNames)
      (plain : setting.theory.sort.accessors? ("class_" ++ name) = some [])
      (named : IsIdentifier name) (notPrimitive : name ∉ primitives.map (·.1)) :
      IsLegible setting mode classes place (.atom ("class_" ++ name))
  | typeVar {place : Place} {id : String} (named : IsIdentifier (typeVarName id))
      (notPrimitive : typeVarName id ∉ primitives.map (·.1))
      (notClass : typeVarName id ∉ setting.theory.classNames)
      (kept : setting.instantiates mode (typeVarName id) = .ok false)
      (found : setting.typeVar? (typeVarName id) = .ok (some (.typeVar id))) :
      IsLegible setting mode classes place (.typeVar id)
  | list {place : Place} {t : Term} (element : IsLegible setting mode classes place t) :
      IsLegible setting mode classes place (.list t)
  | set {place : Place} {t : Term} (element : IsLegible setting mode classes place t) :
      IsLegible setting mode classes place (.set t)
  | dict {place : Place} {k v : Term} (key : IsLegible setting mode classes place k)
      (value : IsLegible setting mode classes place v) :
      IsLegible setting mode classes place (.dict k v)
  | type {place : Place} {t : Term} (object : IsLegible setting mode classes place t) :
      IsLegible setting mode classes place (.type t)
  | tuple {place : Place} {args : List Term} (alone : ∀ arg, args = [arg] → place.IsBare arg)
      (fits : args.length ≤ setting.theory.sort.maxTuple)
      (each : ∀ arg ∈ args, IsLegible setting mode classes place arg) :
      IsLegible setting mode classes place (.con ("tuple_" ++ toString args.length) args)
  | function {place : Place} {params : List Term} {result : Term}
      (fits : params.length ≤ setting.theory.sort.maxFunc)
      (each : ∀ param ∈ params, IsLegible setting mode classes place param)
      (returns : IsLegible setting mode classes place result) :
      IsLegible setting mode classes place
        (.con ("func_" ++ toString params.length) (.num 0 :: (params ++ [result])))
  | applied {place : Place} {name : String} {args : List Term} {accessors : List String}
      (isClass : name ∈ setting.theory.classNames)
      (known : setting.theory.sort.accessors? ("class_" ++ name) = some accessors)
      (generic : accessors ≠ []) (fits : accessors.length = args.length)
      (listed : ∃ key ∈ classes, key.accessors ≠ [] ∧ key.name = "class_" ++ name)
      (named : IsIdentifier name) (letters : name.toList.all Char.isAlpha = true)
      (notForm : name ∉ formNames) (alone : ∀ arg, args = [arg] → Place.IsBare {} arg)
      (each : ∀ arg ∈ args, IsLegible setting mode classes {} arg) :
      IsLegible setting mode classes place (.con ("class_" ++ name) args)

/-- The hints for types that each have one. -/
theorem exists_simpleExprs {relates : Term → Expr → Prop}
    (each : ∀ t ∈ ts, ∃ e, simpleExpr classes place t = .ok e ∧ relates t e) :
    ∃ es, simpleExprs classes place ts = .ok es ∧ Forall₂ relates ts es := by
  induction ts with
  | nil => exact ⟨[], rfl, .nil⟩
  | cons t ts ih =>
    obtain ⟨⟨e, isHint, read⟩, others⟩ := forall_mem_cons.mp each
    obtain ⟨es, areHints, readAll⟩ := ih others
    exact ⟨e :: es, simpleExprs_cons isHint areHints, .cons read readAll⟩

/-- What is written of each type, which is a name if bare. -/
theorem simpleExprs_eq_ok (done : simpleExprs classes place ts = .ok es) :
    Forall₂ (fun t e => simpleExpr classes place t = .ok e) ts es := by
  induction ts generalizing es with
  | nil =>
    obtain rfl := Except.ok.inj done
    exact .nil
  | cons t ts ih =>
    obtain ⟨e, first, done⟩ := bind_ok done
    obtain ⟨rest, others, rfl⟩ := map_ok done
    exact .cons first (ih others)

theorem exists_name_of_alone (done : simpleExprs classes place ts = .ok es)
    (alone : ∀ t, ts = [t] → place.IsBare t) : ∀ e, es = [e] → ∃ id, e = nameExpr id := by
  rintro e rfl
  obtain ⟨t, ts, first, others, rfl⟩ := forall₂_cons_right_iff.mp (simpleExprs_eq_ok done)
  obtain rfl := forall₂_nil_right_iff.mp others
  exact (alone t rfl).exists_name first

theorem genericName?_class (nonempty : name ≠ "") :
    genericName? ("class_" ++ name) =
      if name.toList.all Char.isAlpha then some name else none := by
  rw [genericName?, restAfter?_append _ _ nonempty, Option.filter_some]

theorem isNumbered_class (start : String) (differs : ∀ name : String,
    ¬ start.toList <+: ("class_" ++ name).toList) (name : String) :
    isNumbered start ("class_" ++ name) = false := by
  rw [isNumbered, restAfter?_eq_none (differs name)]
  rfl

theorem hasForm_class (nonempty : name ≠ "") :
    hasForm ("class_" ++ name) = name.toList.all Char.isAlpha := by
  have other : ["list", "set", "dict", "type"].contains ("class_" ++ name) = false := by
    simp [append_ne]
  rw [hasForm, isNumbered_class "tuple_" (by simp), isNumbered_class "func_" (by simp),
    genericName?_class nonempty]
  split <;> simp_all

theorem formExpr_class (nonempty : name ≠ "") (letters : name.toList.all Char.isAlpha)
    (es : List Expr) :
    formExpr classes ("class_" ++ name) es =
      if classes.any fun key => !key.accessors.isEmpty && key.name == "class_" ++ name then
        .ok (appliedExpr name es)
      else .error .badOperand := by
  unfold formExpr
  split
  case h_5 =>
    rw [isNumbered_class "tuple_" (by simp), isNumbered_class "func_" (by simp),
      genericName?_class nonempty, letters]
    rfl
  all_goals
    rename_i same
    exact absurd same (append_ne (by decide) _)

/-- A legible type has a hint, which is read as the type. -/
theorem IsLegible.exists_simpleExpr (legible : IsLegible setting mode classes place t) :
    ∃ e, simpleExpr classes place t = .ok e ∧ ReadsAs setting mode t e := by
  induction legible with
  | none => exact ⟨_, simpleExpr_atom classes _ "none", .none⟩
  | primitive member notSequence =>
    obtain ⟨named, found⟩ := primitives_find? _ member
    exact ⟨_, simpleExpr_primitive member notSequence classes _, .primitive named found⟩
  | @own place name isClass plain named notPrimitive =>
    refine ⟨_, simpleExpr_atom classes place _, ?_⟩
    rw [headExpr_own place named]
    exact .own isClass plain named notPrimitive place
  | @typeVar place id named notPrimitive notClass kept found =>
    refine ⟨_, simpleExpr_atom classes place ("tv" ++ id), ?_⟩
    change ReadsAs setting mode _ (headExpr place (.typeVar id))
    rw [headExpr_typeVar place named]
    exact .typeVar named notPrimitive notClass kept found
  | list element ih =>
    obtain ⟨e, isHint, read⟩ := ih
    exact ⟨_, simpleExpr_single (by decide) (by decide) isHint, .container .list (by decide)
      (fun inside => by cases inside <;> rfl) (fun _ => rfl) read⟩
  | set element ih =>
    obtain ⟨e, isHint, read⟩ := ih
    exact ⟨_, simpleExpr_single (by decide) (by decide) isHint, .container .set (by decide)
      (fun inside => by cases inside <;> rfl) (fun _ => rfl) read⟩
  | dict key value ihKey ihValue =>
    obtain ⟨k, isKey, readKey⟩ := ihKey
    obtain ⟨v, isValue, readValue⟩ := ihValue
    have areHints : simpleExprs classes _ [_, _] = .ok [k, v] :=
      simpleExprs_cons isKey (simpleExprs_cons isValue rfl)
    exact ⟨_, simpleExpr_form (by decide) (by decide) (by simp) areHints, .dict readKey readValue⟩
  | type object ih =>
    obtain ⟨e, isHint, read⟩ := ih
    exact ⟨_, simpleExpr_single (by decide) (by decide) isHint, .container .typeOf (by decide)
      (fun inside => by cases inside <;> rfl) (fun _ => rfl) read⟩
  | @tuple place args alone fits each ih =>
    obtain ⟨es, areHints, read⟩ := exists_simpleExprs ih
    have isTuple := ReadsAs.tuple read (exists_name_of_alone areHints alone) fits
    cases args with
    | nil =>
      cases read
      exact ⟨_, simpleExpr_atom classes place "tuple_0", isTuple⟩
    | cons arg args =>
      refine ⟨_, ?_, isTuple⟩
      rw [simpleExpr_form (hasForm_tuple _) (by simp) (by simp) areHints, formExpr_tuple]
  | @function place params result fits each returns ih ihReturns =>
    have all : ∀ t ∈ params ++ [result],
        ∃ e, simpleExpr classes place t = .ok e ∧ ReadsAs setting mode t e := by
      simpa [or_imp, forall_and] using ⟨ih, ihReturns⟩
    obtain ⟨_, areHints, read⟩ := exists_simpleExprs all
    obtain ⟨es, f, rfl, readAll, readLast⟩ := forall₂_concat_left read
    refine ⟨_, ?_, .function readAll readLast fits⟩
    rw [simpleExpr_form (hasForm_function _) (by simp) (by simp)
      (simpleExprs_cons rfl areHints), formExpr_function]
  | @applied place name args accessors isClass known generic fits listed named letters notForm alone
      each ih =>
      obtain ⟨es, areHints, read⟩ := exists_simpleExprs ih
      have isApplied := ReadsAs.applied read isClass known generic fits named notForm
        (exists_name_of_alone areHints alone)
      refine ⟨_, ?_, isApplied⟩
      have nonempty : args ≠ [] := by
        rintro rfl
        exact generic (length_eq_zero_iff.mp fits)
      have isListed : (classes.any fun key =>
          !key.accessors.isEmpty && key.name == "class_" ++ name) = true := by
        simpa using listed
      rw [simpleExpr_of_hasForm ((hasForm_class named.nonempty).trans letters) nonempty,
        genericName?_class named.nonempty, letters]
      change (simpleExprs classes {} args >>= formExpr classes ("class_" ++ name)) = _
      rw [areHints]
      change formExpr classes ("class_" ++ name) es = _
      rw [formExpr_class named.nonempty letters, isListed]
      rfl

theorem simplifyList_eq_self {sort : TypeSort} (each : ∀ t ∈ ts, sort.simplify t = t) :
    sort.simplifyList ts = ts := by
  induction ts with
  | nil => rfl
  | cons t ts ih =>
    obtain ⟨first, others⟩ := forall_mem_cons.mp each
    rw [TypeSort.simplifyList, first, ih others]

/-- Without accessors, a type is written as it is. -/
theorem ofTerm_of_simplify_eq {theory : Theory} (same : theory.sort.simplify t = t)
    (place : Place) : ofTerm theory place t = simpleExpr theory.survey.allClasses.keys place t := by
  unfold ofTerm
  split
  · rename_i head arg args
    by_cases form : hasForm head = true
    · rw [if_pos form, same]
    · rw [if_neg form]
      exact (if_neg form).symm
  · rename_i other
    rw [simpleExpr]
    exact other

end Hint

end TypeInference
