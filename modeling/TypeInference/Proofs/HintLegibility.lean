/- Which types the program reads back from the hints that it writes. -/

import TypeInference.Proofs.Ancestry
import TypeInference.Proofs.HintReading

namespace TypeInference

open List Survey Term

variable {name : String} {args : List Term}

namespace Hint

variable {e : Expr} {classes : List ClassKey} {place : Place} {setting : Setting} {t : Term}
  {es : List Expr} {theory : Theory} {ts : List Term}

/-- The expressions but names that types are written as. -/
def IsSolid : Expr → Prop
  | .literal .. | .subscript .. | .call .. | .unary .. => True
  | _ => False

theorem IsSolid.ne_nameExpr (solid : IsSolid e) (id : String) : e ≠ nameExpr id := by
  rintro rfl
  exact solid

theorem name_or_solid_symbolExpr (place : Place) (symbol : String) :
    (∃ id, symbolExpr place symbol = nameExpr id) ∨ IsSolid (symbolExpr place symbol) := by
  unfold symbolExpr
  split
  · next hint plain =>
    unfold plainName? at plain
    split at plain
    case h_5 => cases plain
    all_goals obtain rfl := Option.some.inj plain
    · exact .inr trivial
    · exact .inl ⟨_, rfl⟩
    · exact .inl ⟨_, rfl⟩
    · exact .inr trivial
  · split
    · next className _ =>
      by_cases quotes : place.Quotes className
      · rw [place.classExpr_of_quotes quotes]
        exact .inr trivial
      · exact .inl ⟨_, place.classExpr_of_not_quotes quotes⟩
    · exact .inl ⟨_, rfl⟩
    · exact .inl ⟨_, rfl⟩

theorem isSolid_appliedExpr (head : String) (es : List Expr) : IsSolid (appliedExpr head es) := by
  unfold appliedExpr
  split <;> trivial

theorem isSolid_formExpr (done : formExpr classes name es = .ok e) : IsSolid e := by
  unfold formExpr at done
  repeat' split at done
  all_goals first
    | exact Except.ok.inj done ▸ isSolid_appliedExpr ..
    | exact Except.ok.inj done ▸ trivial
    | cases done

/-- Without a form, a type is written as a call. -/
theorem simpleExpr_of_not_form (noForm : ¬ hasForm name) (classes : List ClassKey)
    (place : Place) (arg : Term) (args : List Term) :
    ∃ line func shown keywords, simpleExpr classes place (.con name (arg :: args)) =
      .ok (.call line func shown keywords) :=
  ⟨_, _, _, _, if_neg noForm⟩

theorem isSolid_simpleExpr (nonempty : args ≠ [])
    (done : simpleExpr classes place (.con name args) = .ok e) : IsSolid e := by
  by_cases form : hasForm name = true
  · rw [simpleExpr_of_hasForm form nonempty] at done
    obtain ⟨es, -, done⟩ := bind_ok done
    exact isSolid_formExpr done
  · obtain ⟨arg, args, rfl⟩ := exists_cons_of_ne_nil nonempty
    obtain ⟨_, _, _, _, isCall⟩ := simpleExpr_of_not_form form classes place arg args
    exact Except.ok.inj (isCall.symm.trans done) ▸ trivial

/-- What is written as a name is bare. -/
theorem isBare_of_simpleExpr {id : String} (some : name ≠ "class_")
    (done : simpleExpr classes place (.con name args) = .ok (nameExpr id)) :
    place.IsBare (.con name args) := by
  cases args with
  | cons arg args => exact absurd rfl ((isSolid_simpleExpr (by simp) done).ne_nameExpr id)
  | nil =>
    have written : symbolExpr place name = nameExpr id := Except.ok.inj done
    refine ⟨name, rfl, ?_, ?_, ?_⟩
    · rintro rfl
      cases written
    · rintro rfl
      cases written
    · rintro className rfl quotes
      have nonempty : className ≠ "" := by
        rintro rfl
        exact some rfl
      rw [symbolExpr, restAfter?_append _ _ nonempty] at written
      cases (place.classExpr_of_quotes quotes).symm.trans written

theorem isSolid_numberExpr (value : Int) : IsSolid (numberExpr value) := by
  unfold numberExpr
  split <;> trivial

theorem simpleExpr_num (classes : List ClassKey) (place : Place) (value : Int) :
    simpleExpr classes place (.num value) = .ok (numberExpr value) := by
  change Except.ok (headExpr place (.num value)) = _
  have isNumber : termExpr (.num value) = numberExpr value := rfl
  rw [headExpr, isNumber, numberExpr]
  by_cases negative : value < 0
  · rw [if_pos negative]
  · rw [if_neg negative]

theorem not_yields_number {value : Int} : ¬ Yields setting (ofExpr (numberExpr value)) t := by
  rw [numberExpr]
  split <;> exact Yields.not_invalid

/-- What can be an argument of a type. -/
def IsPart (t : Term) : Prop :=
  (∃ name args, t = .con name args ∧ name ≠ "class_") ∨ ∃ value, t = .num value

theorem name_or_solid (part : IsPart t) (done : simpleExpr classes place t = .ok e) :
    (∃ id, e = nameExpr id ∧ place.IsBare t) ∨ IsSolid e := by
  rcases part with ⟨name, args, rfl, some⟩ | ⟨value, rfl⟩
  · cases args with
    | cons arg args => exact .inr (isSolid_simpleExpr (by simp) done)
    | nil =>
      obtain rfl : symbolExpr place name = e := Except.ok.inj done
      refine (name_or_solid_symbolExpr place name).imp_left ?_
      rintro ⟨id, is⟩
      rw [is]
      exact ⟨id, rfl, isBare_of_simpleExpr some (is ▸ done)⟩
  · rw [simpleExpr_num] at done
    exact .inr (Except.ok.inj done ▸ isSolid_numberExpr value)

/-- A single type is bare or written as no name. -/
theorem alone_or_solid (parts : ∀ t ∈ ts, IsPart t)
    (areHints : simpleExprs classes place ts = .ok es) :
    (∀ e, es = [e] → ∃ id, e = nameExpr id) ∧ (∀ t, ts = [t] → place.IsBare t) ∨
      ∃ e, es = [e] ∧ IsSolid e := by
  by_cases single : ∃ t, ts = [t]
  · obtain ⟨t, rfl⟩ := single
    obtain ⟨e, others, isHint, none, rfl⟩ := forall₂_cons_left_iff.mp (simpleExprs_eq_ok areHints)
    obtain rfl := forall₂_nil_left_iff.mp none
    rcases name_or_solid (parts t (by simp)) isHint with ⟨id, rfl, bare⟩ | solid
    · exact .inl ⟨by simp, by simpa using bare⟩
    · exact .inr ⟨e, rfl, solid⟩
  · refine .inl ⟨?_, fun t is => absurd ⟨t, is⟩ single⟩
    rintro e rfl
    obtain ⟨t, others, -, none, rfl⟩ := forall₂_cons_right_iff.mp (simpleExprs_eq_ok areHints)
    obtain rfl := forall₂_nil_right_iff.mp none
    exact absurd ⟨t, rfl⟩ single

/-- With a form, a type is written from its arguments. -/
theorem exists_simpleExprs_of_form {head : String} (form : hasForm head)
    (notClass : ¬ "class_".toList <+: head.toList) (nonempty : args ≠ [])
    (done : simpleExpr classes place (.con head args) = .ok e) :
    ∃ es, simpleExprs classes place args = .ok es ∧ formExpr classes head es = .ok e := by
  rw [simpleExpr_of_hasForm form nonempty, genericName?_eq_none notClass] at done
  exact bind_ok done

/-- A type is what is read of its hint. -/
def IsReadBack (setting : Setting) (classes : List ClassKey) (place : Place) (t : Term) : Prop :=
  ∃ e, simpleExpr classes place t = .ok e ∧ Yields setting (ofExpr e) t

/-- A type is legible if it is read back. -/
abbrev Tells (setting : Setting) (classes : List ClassKey) (place : Place) (t : Term) : Prop :=
  IsReadBack setting classes place t → IsLegible setting .fixed classes place t

theorem isReadBack_of_mem (written : Forall₂ (fun t e => simpleExpr classes place t = .ok e) ts es)
    (yield : Forall₂ (Yields setting) (ofExprs es) ts) :
    ∀ t ∈ ts, IsReadBack setting classes place t := by
  induction written with
  | nil => simp
  | @cons t e ts es first _ ih =>
    obtain ⟨here, others⟩ := forall₂_cons.mp yield
    exact forall_mem_cons.mpr ⟨⟨e, first, here⟩, ih others⟩

/-- The names of classes and of type variables can be written. -/
structure NamesAreIdentifiers (theory : Theory) : Prop where
  ofClasses : ∀ name accessors, ("class_" ++ name, accessors) ∈ theory.sort.declared →
    IsIdentifier name
  ofTypeVars : ∀ id ∈ theory.survey.typeVars.values, IsIdentifier (typeVarName id)

/-- What is read back of a built-in type without arguments. -/
theorem tells_primitive (member : (name, t) ∈ primitives) : Tells setting classes place t := by
  rintro ⟨e, written, yields⟩
  refine .primitive member ?_
  rintro rfl
  obtain rfl : nameExpr "Sequence" = e := Except.ok.inj written
  rcases Yields.name yields with primitive | ⟨-, ⟨-, -, is⟩ | ⟨-, isVar⟩⟩
  · exact absurd primitive (by decide)
  · exact append_ne (by decide) _ (con.inj is).1.symm
  · obtain ⟨_, is⟩ := exists_id_of_typeVar? isVar
    exact append_ne (by decide) _ (con.inj is).1.symm

/-- Built-in types are not named like classes or variables. -/
theorem append_not_mem_primitives {start : String}
    (apart : ∀ entry ∈ primitives, ∀ symbol ∈ ["tuple", entry.1], ¬ start.toList <+: symbol.toList)
    (name rest : String) : (name, .atom (start ++ rest)) ∉ primitives := by
  intro member
  rcases primitives_atom _ member with is | is
  · exact append_ne (apart _ member "tuple" (by simp)) _ (con.inj is).1
  · exact append_ne (apart _ member name (by simp)) _ (con.inj is).1

theorem tells_own (named : IsIdentifier name) :
    Tells setting classes place (.atom ("class_" ++ name)) := by
  rintro ⟨e, written, yields⟩
  obtain rfl := Except.ok.inj ((simpleExpr_atom classes place _).symm.trans written)
  rw [headExpr_own place named] at yields
  have shown : ofExpr (place.classExpr name) = .name name 1 := by
    by_cases quotes : place.Quotes name
    · rw [Place.classExpr_of_quotes quotes]
      rfl
    · rw [Place.classExpr_of_not_quotes quotes]
      rfl
  rw [shown] at yields
  have known := yields.name
  rw [baseName_of_isIdentifier named] at known
  rcases known with primitive | ⟨notPrimitive, ⟨isClass, plain, -⟩ | ⟨-, isVar⟩⟩
  · exact absurd primitive (append_not_mem_primitives (by decide) _ _)
  · exact .own isClass plain named notPrimitive
  · obtain ⟨_, is⟩ := exists_id_of_typeVar? isVar
    have letters := congrArg String.toList (con.inj is).1
    simp at letters

theorem tells_typeVar {id : String} (named : IsIdentifier (typeVarName id)) :
    Tells setting classes place (.typeVar id) := by
  rintro ⟨e, written, yields⟩
  obtain rfl := Except.ok.inj ((simpleExpr_atom classes place _).symm.trans written)
  have isName : headExpr place (.atom ("tv" ++ id)) = nameExpr (typeVarName id) :=
    headExpr_typeVar place named
  rw [isName] at yields
  have known := yields.name
  rw [baseName_of_isIdentifier named] at known
  rcases known with primitive | ⟨notPrimitive, ⟨-, -, is⟩ | ⟨notClass, isVar⟩⟩
  · exact absurd primitive (append_not_mem_primitives (by decide) _ _)
  · have letters := congrArg String.toList (con.inj is).1
    simp at letters
  · exact .typeVar named notPrimitive notClass rfl isVar

/-- What is read back of a tuple, and that a single component is bare. -/
theorem tells_tuple {length : Nat}
    (fit : setting.theory.sort.AreArguments (tupleClass length).1.accessors args)
    (parts : ∀ arg ∈ args, IsPart arg) (ih : ∀ arg ∈ args, Tells setting classes place arg) :
    Tells setting classes place (.con (tupleClass length).1.name args) := by
  have count := fit.length_eq
  rw [tupleClass_accessors] at count
  obtain rfl : args.length = length := by simpa [argumentNames] using count.symm
  rw [tupleClass_name]
  rintro ⟨e, written, yields⟩
  by_cases empty : args = []
  · subst empty
    exact .tuple (by simp) (Nat.zero_le _) (by simp)
  obtain ⟨es, areHints, done⟩ :=
    exists_simpleExprs_of_form (hasForm_tuple _) (by simp) empty written
  rw [formExpr_tuple] at done
  obtain rfl := Except.ok.inj done
  rcases alone_or_solid parts areHints with ⟨names, alone⟩ | ⟨f, rfl, solid⟩
  · rw [ofExpr_tuple names] at yields
    obtain ⟨ts, is, fits, each⟩ := yields.tuple
    obtain rfl := (con.inj is).2
    exact .tuple alone fits fun arg member =>
      ih arg member (isReadBack_of_mem (simpleExprs_eq_ok areHints) each arg member)
  · have invalid : ofExpr (appliedExpr "Tuple" [f]) = .invalid (.tupleHintShape 1) := by
      cases f <;> first | rfl | exact solid.elim
    rw [invalid] at yields
    exact absurd yields Yields.not_invalid

theorem tells_function (formed : setting.theory.WellFormed) {count : Nat}
    (type : setting.theory.sort.IsType (.con (functionClass count).1.name args))
    (fit : setting.theory.sort.AreArguments (functionClass count).1.accessors args)
    (ih : ∀ arg ∈ args, Tells setting classes place arg) :
    Tells setting classes place (.con (functionClass count).1.name args) := by
  have lengths := fit.length_eq
  rw [functionClass_name] at type ⊢
  obtain ⟨-, defaults, params, result, rfl, -⟩ := formed.isType_function type (by simp)
  obtain rfl : params.length = count := by
    simpa [functionClass, ClassKey.accessors, argumentNames] using lengths.symm
  rintro ⟨e, written, yields⟩
  obtain ⟨es, areHints, done⟩ :=
    exists_simpleExprs_of_form (hasForm_function _) (by simp) (by simp) written
  obtain ⟨first, others, -, rest, rfl⟩ := forall₂_cons_left_iff.mp (simpleExprs_eq_ok areHints)
  obtain ⟨shown, last, rfl, areShown, isLast⟩ := forall₂_concat_left rest
  rw [formExpr_function] at done
  obtain rfl := Except.ok.inj done
  obtain ⟨ts, r, is, fits, each, returns⟩ := Yields.callable yields
  obtain ⟨isDefaults, same⟩ := List.cons.inj (con.inj is).2
  obtain ⟨rfl, isResult⟩ := append_inj' same rfl
  obtain rfl := singleton_inj.mp isResult
  rw [isDefaults]
  exact .function fits (fun param member =>
    ih param (by simp [member]) (isReadBack_of_mem areShown each param member))
    (ih _ (by simp) ⟨last, isLast, returns⟩)

theorem tells_class (named : IsIdentifier name) (nonempty : args ≠ [])
    (parts : ∀ arg ∈ args, IsPart arg) (ih : ∀ arg ∈ args, Tells setting classes {} arg) :
    Tells setting classes place (.con ("class_" ++ name) args) := by
  rintro ⟨e, written, yields⟩
  have notForm := yields.notForm nonempty
  by_cases letters : name.toList.all Char.isAlpha = true
  · rw [simpleExpr_of_hasForm ((hasForm_class named.nonempty).trans letters) nonempty,
      genericName?_class named.nonempty, if_pos letters] at written
    obtain ⟨es, areHints, done⟩ := bind_ok written
    rw [formExpr_class named.nonempty letters] at done
    split at done
    · next listed =>
      obtain rfl := Except.ok.inj done
      rcases alone_or_solid parts areHints with ⟨names, alone⟩ | ⟨f, rfl, solid⟩
      · rw [ofExpr_class notForm names] at yields
        obtain ⟨isClass, hints, ts, accessors, isHints, known, generic, fits, is, each⟩ :=
          yields.applied
        obtain rfl := Option.some.inj isHints
        obtain rfl := (con.inj is).2
        exact .applied isClass known generic fits (by simpa using listed) named letters notForm
          alone fun arg member =>
            ih arg member (isReadBack_of_mem (simpleExprs_eq_ok areHints) each arg member)
      · have missing : ofExpr (appliedExpr name [f]) = .applied name none 1 := by
          rw [appliedExpr, ofExpr_subscript_class notForm]
          cases f <;> first | rfl | exact solid.elim
        rw [missing] at yields
        obtain ⟨-, _, _, _, absent, -⟩ := yields.applied
        cases absent
    · cases done
  · have noForm : ¬ hasForm ("class_" ++ name) = true := by
      rwa [hasForm_class named.nonempty]
    obtain ⟨arg, args, rfl⟩ := exists_cons_of_ne_nil nonempty
    obtain ⟨_, _, _, _, isCall⟩ := simpleExpr_of_not_form noForm classes place arg args
    obtain rfl := Except.ok.inj (isCall.symm.trans written)
    exact absurd yields Yields.not_invalid

/-- What is read back of a container, given its parts. -/
theorem tells_container {symbol : String} (isSymbol : symbol ∈ ["list", "set", "type"])
    {arg : Term} (part : IsPart arg) (ih : Tells setting classes place arg) :
    Tells setting classes place (.con symbol [arg]) := by
  rintro ⟨e, written, yields⟩
  have hasForms : ∀ symbol ∈ ["list", "set", "type"],
      hasForm symbol = true ∧ ¬ "class_".toList <+: symbol.toList := by
    decide
  obtain ⟨form, notClass⟩ := hasForms symbol isSymbol
  obtain ⟨es, areHints, done⟩ := exists_simpleExprs_of_form form notClass (by simp) written
  obtain ⟨f, others, isHint, none, rfl⟩ := forall₂_cons_left_iff.mp (simpleExprs_eq_ok areHints)
  obtain rfl := forall₂_nil_left_iff.mp none
  obtain ⟨isList, isSet, isType⟩ : ofExpr (subscriptExpr "List" f) = .list (ofExpr f) ∧
      ofExpr (subscriptExpr "Set" f) = .set (ofExpr f) ∧
      ofExpr (subscriptExpr "Type" f) = .typeOf (ofExpr f) := by
    rcases name_or_solid part isHint with ⟨id, rfl, -⟩ | solid
    · exact ⟨rfl, rfl, rfl⟩
    · cases f <;> first | exact ⟨rfl, rfl, rfl⟩ | exact solid.elim
  simp only [mem_cons, not_mem_nil, or_false] at isSymbol
  rcases isSymbol with rfl | rfl | rfl
  · obtain rfl : subscriptExpr "List" f = e := Except.ok.inj done
    obtain ⟨s, is, inside⟩ := Yields.list (isList ▸ yields)
    obtain rfl : arg = s := singleton_inj.mp (con.inj is).2
    exact .list (ih ⟨f, isHint, inside⟩)
  · obtain rfl : subscriptExpr "Set" f = e := Except.ok.inj done
    obtain ⟨s, is, inside⟩ := Yields.set (isSet ▸ yields)
    obtain rfl : arg = s := singleton_inj.mp (con.inj is).2
    exact .set (ih ⟨f, isHint, inside⟩)
  · obtain rfl : subscriptExpr "Type" f = e := Except.ok.inj done
    obtain ⟨s, is, inside⟩ := Yields.typeOf (isType ▸ yields)
    obtain rfl : arg = s := singleton_inj.mp (con.inj is).2
    exact .type (ih ⟨f, isHint, inside⟩)

theorem tells_dict {k v : Term} (ih : ∀ arg ∈ [k, v], Tells setting classes place arg) :
    Tells setting classes place (.dict k v) := by
  rintro ⟨e, written, yields⟩
  obtain ⟨es, areHints, done⟩ :=
    exists_simpleExprs_of_form (by decide) (by decide) (by simp) written
  obtain ⟨key, rest, isKey, others, rfl⟩ := forall₂_cons_left_iff.mp (simpleExprs_eq_ok areHints)
  obtain ⟨value, rest, isValue, none, rfl⟩ := forall₂_cons_left_iff.mp others
  obtain rfl := forall₂_nil_left_iff.mp none
  obtain rfl : subscriptExpr "Dict" (tupleExpr [key, value]) = e := Except.ok.inj done
  obtain ⟨_, _, is, insideKey, insideValue⟩ := Yields.dict yields
  obtain ⟨rfl, same⟩ := List.cons.inj (con.inj is).2
  obtain rfl := singleton_inj.mp same
  exact .dict (ih k (by simp) ⟨key, isKey, insideKey⟩)
    (ih v (by simp) ⟨value, isValue, insideValue⟩)

/-- What is read back of a built-in type, given its arguments. -/
theorem tells_builtin {key : ClassKey} {bases : List String}
    (member : (key, bases) ∈ builtinClasses) (fits : key.accessors.length = args.length)
    (parts : ∀ arg ∈ args, IsPart arg) (ih : ∀ arg ∈ args, Tells setting classes place arg) :
    Tells setting classes place (.con key.name args) := by
  have kinds : ∀ entry ∈ builtinClasses,
      entry.1.accessors.length = 0 ∧
        (entry.1.name = "none" ∨ ∃ known ∈ primitives, known.2 = .atom entry.1.name) ∨
      entry.1.accessors.length = 1 ∧ entry.1.name ∈ ["list", "set", "type"] ∨
      entry.1.accessors.length = 2 ∧ entry.1.name = "dict" := by
    decide
  rcases kinds _ member with ⟨none, isNone | ⟨⟨name, t⟩, known, is⟩⟩ | ⟨one, isName⟩ | ⟨two, isDict⟩
  · obtain rfl := length_eq_zero_iff.mp (fits.symm.trans none)
    rw [show key.name = "none" from isNone]
    exact fun _ => .none
  · obtain rfl := length_eq_zero_iff.mp (fits.symm.trans none)
    obtain rfl : t = .atom key.name := is
    exact tells_primitive known
  · obtain ⟨arg, rfl⟩ := length_eq_one_iff.mp (fits.symm.trans one)
    exact tells_container isName (parts arg (by simp)) (ih arg (by simp))
  · obtain ⟨k, v, rfl⟩ := length_eq_two.mp (fits.symm.trans two)
    rw [show key.name = "dict" from isDict]
    exact tells_dict ih

theorem hasForm_generic (count : String) : hasForm ("generic" ++ count) = false := by
  have notNumbered (start : String) (differs : ¬ start.toList <+: ("generic" ++ count).toList) :
      isNumbered start ("generic" ++ count) = false := by
    rw [isNumbered, restAfter?_eq_none differs]
    rfl
  rw [hasForm, notNumbered "tuple_" (by simp), notNumbered "func_" (by simp),
    genericName?_eq_none (by simp)]
  rfl

/-- A generic type is written as a call, which is no hint. -/
theorem not_isReadBack_generic {accessors : List String}
    (isGeneric : (name, accessors) ∈ TypeSort.genericConstructors)
    (count : accessors.length = args.length) :
    ¬ IsReadBack setting classes place (.con name args) := by
  rintro ⟨e, written, yields⟩
  have away : ∀ entry ∈ TypeSort.genericConstructors, entry.2 ≠ [] := by decide
  cases args with
  | nil => exact absurd (length_eq_zero_iff.mp count) (away _ isGeneric)
  | cons arg args =>
    obtain ⟨index, -, is⟩ := mem_map.mp isGeneric
    obtain ⟨rfl, -⟩ := Prod.ext_iff.mp is
    have noForm : ¬ hasForm ("generic" ++ toString (index + 1)) = true := by
      rw [hasForm_generic]
      exact Bool.false_ne_true
    obtain ⟨_, _, _, _, isCall⟩ := simpleExpr_of_not_form noForm classes place arg args
    obtain rfl := Except.ok.inj (isCall.symm.trans written)
    exact Yields.not_invalid yields

/-- What is read back is legible. -/
theorem tells_of_isType (formed : setting.theory.WellFormed)
    (named : NamesAreIdentifiers setting.theory) (type : setting.theory.sort.IsType t) :
    Tells setting classes place t := by
  refine type.structural (motive := fun t => ∀ place, Tells setting classes place t) ?_ place
  intro name accessors args declared fit each place
  have parts (arg) (member : arg ∈ args) : IsPart arg := by
    refine (fit.num_or_isType member).elim .inr fun isType => ?_
    obtain ⟨name, args, rfl⟩ := isType.exists_con
    refine .inl ⟨name, args, rfl, ?_⟩
    rintro rfl
    exact (named.ofClasses "" _ isType.choose_spec.1).nonempty rfl
  have inside (place : Place) (arg) (member : arg ∈ args) : Tells setting classes place arg := by
    rcases fit.num_or_isType member with ⟨value, rfl⟩ | isType
    · rintro ⟨f, isHint, read⟩
      rw [simpleExpr_num] at isHint
      exact absurd (Except.ok.inj isHint ▸ read) not_yields_number
    · exact each arg member isType place
  rcases formed.declared.mp declared with ofClass | ofVariable | ofGeneric
  · obtain ⟨key, member, is⟩ := mem_map.mp ofClass
    obtain ⟨rfl, rfl⟩ : key.name = name ∧ key.accessors = accessors := Prod.mk.inj is
    rcases mem_cons.mp member with rfl | listed
    · obtain rfl := length_eq_zero_iff.mp fit.length_eq.symm
      exact tells_primitive (by decide : ("object", .object) ∈ primitives)
    · obtain ⟨⟨key, bases⟩, entry, rfl⟩ := mem_map.mp listed
      cases formed.kind entry with
      | builtin known => exact tells_builtin known fit.length_eq parts (inside place)
      | tuple length => exact tells_tuple fit parts (inside place)
      | function count =>
        have type : setting.theory.sort.IsType (.con (functionClass count).1.name args) := by
          exact ⟨_, declared, fit⟩
        exact tells_function formed type fit (inside place)
      | own key bases =>
        have isName := sortClass_name key bases
        have isIdentifier := named.ofClasses _ _ (isName ▸ declared)
        rw [isName]
        cases args with
        | nil => exact tells_own isIdentifier
        | cons arg args => exact tells_class isIdentifier (by simp) parts (inside {})
  · obtain ⟨id, member, is⟩ := mem_map.mp ofVariable
    obtain ⟨rfl, rfl⟩ := Prod.ext_iff.mp is
    obtain rfl := length_eq_zero_iff.mp fit.length_eq.symm
    exact tells_typeVar (named.ofTypeVars id member)
  · exact fun back => absurd back (not_isReadBack_generic ofGeneric fit.length_eq)

/-- No accessor is applied in a type. -/
theorem simplify_of_isType {sort : TypeSort} (type : sort.IsType t) : sort.simplify t = t := by
  refine type.structural (motive := fun t => sort.simplify t = t) ?_
  intro name accessors args _ fit each
  rw [TypeSort.simplify, simplifyList_eq_self]
  intro arg member
  rcases fit.num_or_isType member with ⟨value, rfl⟩ | isType
  · rfl
  · exact each arg member isType

/-- Reading follows type variables to some depth. -/
theorem yields_of_resolve {hint : Hint} {progress after : Progress}
    (read : (resolve setting .fixed hint).run.run progress = (.ok (.term t), after)) :
    Yields setting hint t := by
  rw [resolve] at read
  cases depth : setting.vars.options.size with
  | zero =>
    rw [depth] at read
    exact ⟨_, progress, after, _, read, rfl⟩
  | succ depth' =>
    rw [depth] at read
    exact ⟨_, progress, after, _, read, rfl⟩

/-- A type is read back from its text if it is legible, and if its classes are not cut where lines
are broken. No other type is. -/
theorem legible_types_read_back (setting : Setting) {settings : Settings} {survey : Survey}
    (complete : survey.IsComplete) (built : Theory.ofSurvey settings survey = .ok setting.theory)
    (named : NamesAreIdentifiers setting.theory) (place : Place)
    (type : setting.theory.sort.IsType t) (inLines : Bool) (progress : Progress) :
    (IsLegible setting .fixed setting.theory.survey.allClasses.keys place t →
      (inLines → isWhole t) →
      ∃ written e, print setting.theory place t = .ok written ∧ parse written = some e ∧
        parsed inLines setting.theory place t = .ok (some e) ∧
        (resolve setting .fixed (ofExpr e)).run.run progress = (.ok (.term t), progress)) ∧
    (¬ (IsLegible setting .fixed setting.theory.survey.allClasses.keys place t ∧
        (inLines → isWhole t)) →
      ∀ e, parsed inLines setting.theory place t = .ok (some e) → ∀ after,
        (resolve setting .fixed (ofExpr e)).run.run progress ≠ (.ok (.term t), after)) := by
  have formed := Theory.ofSurvey_wellFormed complete built
  have same := simplify_of_isType type
  have isSimple := ofTerm_of_simplify_eq same place
  constructor
  · intro legible whole
    obtain ⟨e, isHint, read⟩ := legible.exists_simpleExpr
    refine ⟨text e, e, ?_, parse_text read.isHintExpr, ?_, ?_⟩
    · rw [print, isSimple, isHint]
      rfl
    · have uncut : ¬ (inLines && !isWhole t) = true := by
        simpa using whole
      rw [parsed, same, if_neg uncut, isSimple, isHint]
      rfl
    · have resolved (depth : Nat) : resolveTo setting depth .fixed (ofExpr e) = pure (.term t) := by
        cases depth <;> exact read.resolves _
      rw [resolve, resolved]
      rfl
  · intro unreadable e written after read
    rw [parsed, same] at written
    split at written
    · cases written
    · next uncut =>
      obtain ⟨found, isHint, is⟩ := map_ok written
      obtain rfl := Option.some.inj is
      rw [isSimple] at isHint
      refine unreadable
        ⟨tells_of_isType formed named type ⟨found, isHint, yields_of_resolve read⟩, ?_⟩
      simpa using uncut

section Samples

def genericBase : Expr :=
  .subscript (some 1) (.name (some 1) "Generic" .load) (.name (some 1) "T" .load) .load

/-- A class, two generic classes and a tuple. -/
def genericClasses : List Stmt :=
  [.classDef ⟨{}, "A", [], [], [.pass {}], []⟩,
    .classDef ⟨{}, "Box", [genericBase], [], [.pass {}], []⟩,
    .classDef ⟨{}, "My_Box", [genericBase], [], [.pass {}], []⟩,
    .expr {} (.tuple (some 1) [.literal (some 1) .none] .load)]

/-- A type with one type alone in brackets twice. -/
def boxed : Term := .dict (.con "tuple_1" [.int]) (.con "class_Box" [.atom "class_A"])

def illegibleTypes : List Term :=
  [.sequence, .con "tuple_1" [.list .int], .con "class_Box" [.list .int],
    .con "class_My_Box" [.int]]

/-- What makes the type above legible. -/
theorem isLegible_boxed (tuples : 1 ≤ theory.sort.maxTuple)
    (areClasses : "A" ∈ theory.classNames ∧ "Box" ∈ theory.classNames)
    (plain : theory.sort.accessors? "class_A" = some [])
    (generic : theory.sort.accessors? "class_Box" = some ["Box_arg_T"])
    (listed : ∃ key ∈ theory.survey.allClasses.keys, key.accessors ≠ [] ∧ key.name = "class_Box") :
    IsLegible ⟨theory, {}, .nowhere⟩ .fixed theory.survey.allClasses.keys {} boxed := by
  have unquoted (name : String) : ¬ Place.Quotes {} name := by
    rintro ⟨line, known, -⟩
    exact nomatch known
  have tuple : IsLegible ⟨theory, {}, .nowhere⟩ .fixed theory.survey.allClasses.keys {}
      (.con ("tuple_" ++ toString [int].length) [.int]) := by
    refine .tuple ?_ tuples ?_
    · rintro _ ⟨⟩
      exact ⟨"int", rfl, by decide, by decide, fun _ _ => unquoted _⟩
    · rw [forall_mem_singleton]
      exact .primitive (show ("int", .int) ∈ primitives by decide) (by decide)
  have box : IsLegible ⟨theory, {}, .nowhere⟩ .fixed theory.survey.allClasses.keys {}
      (.con ("class_" ++ "Box") [.atom ("class_" ++ "A")]) := by
    refine .applied areClasses.2 generic (by decide) rfl listed (by decide) (by decide) (by decide)
      ?_ ?_
    · rintro _ ⟨⟩
      exact ⟨"class_A", rfl, by decide, by decide, fun _ _ => unquoted _⟩
    · rw [forall_mem_singleton]
      exact .own areClasses.1 plain (by decide) (by decide)
  exact .dict tuple box

/-- One type alone is read back where it is a name. -/
theorem boxed_read_back : ∃ surveyed theory e progress,
    Survey.Surveyed.ofBody genericClasses = .ok surveyed ∧
    Theory.ofSurvey {} surveyed.survey = .ok theory ∧ theory.sort.IsType boxed ∧
    print theory {} boxed = .ok "Dict[Tuple[int], Box[A]]" ∧
    parse "Dict[Tuple[int], Box[A]]" = some e ∧ parsed true theory {} boxed = .ok (some e) ∧
    (resolve ⟨theory, {}, .nowhere⟩ .fixed (ofExpr e)).run.run progress =
      (.ok (.term boxed), progress) := by
  have evaluated : ∃ surveyed, Survey.Surveyed.ofBody genericClasses = .ok surveyed ∧
      ∃ theory, Theory.ofSurvey {} surveyed.survey = .ok theory ∧
        theory.sort.declared.all (fun entry => !("class_".toList.isPrefixOf entry.1.toList) ||
          IsIdentifier (String.ofList (entry.1.toList.drop 6))) = true ∧
        (∀ id ∈ theory.survey.typeVars.values, IsIdentifier (typeVarName id)) ∧
        theory.sort.isType boxed = true ∧ 1 ≤ theory.sort.maxTuple ∧
        ("A" ∈ theory.classNames ∧ "Box" ∈ theory.classNames) ∧
        theory.sort.accessors? "class_A" = some [] ∧
        theory.sort.accessors? "class_Box" = some ["Box_arg_T"] ∧
        (∃ key ∈ theory.survey.allClasses.keys, key.accessors ≠ [] ∧ key.name = "class_Box") ∧
        (print theory {} boxed).toOption = some "Dict[Tuple[int], Box[A]]" := by
    decide +kernel
  obtain ⟨surveyed, isBody, theory, built, ofClasses, ofTypeVars, type, tuples, areClasses, plain,
    generic, listed, isWritten⟩ := evaluated
  have type := (theory.sort.isType_iff boxed).mp type
  obtain ⟨-, isSurvey⟩ := Survey.Surveyed.ofBody_eq_ok isBody
  have complete := ofProgram_isComplete isSurvey
  have named : NamesAreIdentifiers theory :=
    ⟨fun _ _ member => by simpa using all_eq_true.mp ofClasses _ member, ofTypeVars⟩
  obtain ⟨read, -⟩ :=
    legible_types_read_back ⟨theory, {}, .nowhere⟩ complete built named {} type true ⟨{}, {}⟩
  obtain ⟨written, e, printed, isRead, uncut, resolved⟩ :=
    read (isLegible_boxed tuples areClasses plain generic listed) fun _ => by decide +kernel
  rw [printed] at isWritten
  obtain rfl := Option.some.inj isWritten
  exact ⟨surveyed, theory, e, _, isBody, built, type, printed, isRead, uncut, resolved⟩

/-- These types are printed and not read back. -/
theorem illegibleTypes_not_read_back : ∃ surveyed theory,
    Survey.Surveyed.ofBody genericClasses = .ok surveyed ∧
    Theory.ofSurvey {} surveyed.survey = .ok theory ∧
    ∀ t ∈ illegibleTypes, theory.sort.IsType t ∧ ∃ e fault, ofTerm theory {} t = .ok e ∧
      ((resolve ⟨theory, {}, .nowhere⟩ .fixed (ofExpr e)).run.run ⟨{}, {}⟩).1 = .error fault := by
  have evaluated : ∃ surveyed, Survey.Surveyed.ofBody genericClasses = .ok surveyed ∧
      ∃ theory, Theory.ofSurvey {} surveyed.survey = .ok theory ∧
        ∀ t ∈ illegibleTypes, theory.sort.isType t = true ∧ ∃ e, ofTerm theory {} t = .ok e ∧
          ((resolve ⟨theory, {}, .nowhere⟩ .fixed (ofExpr e)).run.run ⟨{}, {}⟩).1.toOption.isNone =
            true := by
    decide +kernel
  obtain ⟨surveyed, isBody, theory, built, unread⟩ := evaluated
  refine ⟨surveyed, theory, isBody, built, fun t member => ?_⟩
  obtain ⟨type, e, isHint, failed⟩ := unread t member
  refine ⟨(theory.sort.isType_iff t).mp type, e, ?_⟩
  cases read : ((resolve ⟨theory, {}, .nowhere⟩ .fixed (ofExpr e)).run.run ⟨{}, {}⟩).1 with
  | ok found => simp [read, Except.toOption] at failed
  | error fault => exact ⟨fault, isHint, rfl⟩

end Samples

end Hint

end TypeInference
