/- An expression is accepted only where the names are known that it reads. -/

import TypeInference.Proofs.ExpressionEffects
import TypeInference.Proofs.FreeNames

namespace TypeInference

open List Session Infer

variable {bound : List String}

theorem Infer.Opens.narrowing?_eq_none {session : Session} {name : String}
    {isClass isFunction : Bool} {body : List Stmt} {scope : Scope} {log : Log}
    (opens : Infer.Opens session name isClass isFunction body scope log) (e : Expr) :
    scope.narrowing? e = none := by
  rw [Scope.narrowing?, opens.narrowed]
  rfl

namespace Session

/-- No test has narrowed anything. -/
def IsPlain (session : Session) : Prop := ∀ e, session.chain.narrowing? e = none

theorem isPlain_ofProgram (theory : Theory) (axioms : Axioms) (program : Program) :
    (ofProgram theory axioms program).IsPlain := by
  intro e
  obtain ⟨scope, log, isStart, opens⟩ := exists_ofProgram_eq theory axioms program
  rw [isStart]
  change List.findSome? _ [scope] = none
  rw [findSome?_cons, opens.narrowing?_eq_none]
  rfl

end Session

namespace Rights

/-- The right to bind some names. -/
def binding (names : List String) : Rights := ⟨(· ∈ names), fun _ => False, False, []⟩

end Rights

namespace Infer

variable {α β : Type} {name : String} {names others : Names} {rights : Rights}

/-- Inference that succeeds only where a name is known. -/
structure Requires (act : Infer α) (name : String) : Prop where
  known : ∀ {session value after}, session.IsPlain → act.run session = (.ok value, after) →
    (session.chain.find? name).isSome = true

namespace Requires

variable {act : Infer α} {next : α → Infer β}

theorem first (requires : act.Requires name) : (act >>= next).Requires name where
  known plain done := by
    obtain ⟨_, _, start, -⟩ := run_bind_ok done
    exact requires.known plain start

/-- What is required later is known from the start, unless bound in between. -/
theorem after (passed : act.Composed importer rights) (away : ∀ index, index ∉ rights.enters)
    (unbound : ¬ rights.binds name) (requires : ∀ value, (next value).Requires name) :
    (act >>= next).Requires name where
  known {session _ _} plain done := by
    obtain ⟨value, mid, start, rest⟩ := run_bind_ok done
    have exist : ∀ index ∈ rights.enters, index < session.here.children.length :=
      fun index member => absurd member (away index)
    have still : mid.IsPlain := fun e => by
      rw [narrowing?_eq (passed.narrowings_eq exist start), plain]
    exact (passed.within exist start).isSome_find? unbound ((requires value).known still rest)

/-- Nothing is bound in between. -/
theorem later (passed : act.Composed importer .none)
    (requires : ∀ value, (next value).Requires name) : (act >>= next).Requires name :=
  .after passed (forall_mem_nil _) id requires

/-- In a new scope the same names are known as around it. -/
theorem inScope (requires : act.Requires name) :
    (openScope [] >>= fun index => inChild index act).Requires name where
  known {session _ _} plain done := by
    obtain ⟨index, opened, isOpened, rest⟩ := run_bind_ok done
    obtain ⟨rfl, scope, log, isAfter, opens⟩ := run_openScope_eq_ok isOpened
    have known : opened.here.children[session.here.children.length]? = some scope := by
      simp [isAfter, Scope.addChild]
    obtain ⟨inner, run, rfl⟩ := run_inChild_eq_ok known rest
    have still : (opened.enter scope).IsPlain := fun e => by
      change List.findSome? _ (scope :: opened.chain) = _
      rw [findSome?_cons, opens.narrowing?_eq_none, isAfter]
      exact plain e
    have seen : opened.sees session.here.children.length name := by
      rw [sees, known]
      exact requires.known still run
    rcases (sees_iff known opens.isFunction).mp seen with bound | found
    · cases opens.contains_iff.mp bound
    · rw [isAfter] at found
      exact found

/-- One of several steps. -/
theorem mapM {act : α → Infer β} {values : List α}
    (each : ∀ value ∈ values, (act value).Composed importer .none) {value : α}
    (member : value ∈ values) (requires : (act value).Requires name) :
    (values.mapM act).Requires name := by
  induction values with
  | nil => cases member
  | cons head values ih =>
    rw [mapM_cons]
    rcases mem_cons.mp member with rfl | further
    · exact requires.first
    · refine .later (each head mem_cons_self) fun _ => first ?_
      exact ih (fun value member => each value (mem_cons_of_mem _ member)) further

end Requires

/-- Inference that succeeds only where all names that it reads are known. -/
def RequiresReads (act : Infer α) (names : Names) : Prop :=
  ∀ read ∈ names.reads, read.inferred = true → act.Requires read.name

namespace RequiresReads

variable {act : Infer α} {next : α → Infer β}

theorem empty (assigned : List String) : act.RequiresReads { assigned := assigned } :=
  forall_mem_nil _

theorem throw (fault : Fault) : (MonadExcept.throw fault : Infer α).RequiresReads names :=
  fun _ _ _ => ⟨fun _ done => absurd done run_throw_ne_ok⟩

theorem append (left : act.RequiresReads names) (right : act.RequiresReads others) :
    act.RequiresReads (names ++ others) :=
  fun read member => (mem_append.mp member).elim (left read) (right read)

theorem skipped (names : Names) : act.RequiresReads names.skipped := by
  intro read member inferred
  exact nomatch inferred.symm.trans (Names.inferred_of_mem_skipped member)

theorem mono (requires : act.RequiresReads names) (fewer : others.reads ⊆ names.reads) :
    act.RequiresReads others :=
  fun read member => requires read (fewer member)

theorem without (requires : act.RequiresReads names) (bound : List String) :
    act.RequiresReads (names.without bound) :=
  requires.mono fun _ member => (mem_filter.mp member).1

theorem first (requires : act.RequiresReads names) : (act >>= next).RequiresReads names :=
  fun read member inferred => (requires read member inferred).first

/-- Steps that bind nothing. -/
theorem later (passed : act.Composed importer .none)
    (requires : ∀ value, (next value).RequiresReads names) : (act >>= next).RequiresReads names :=
  fun read member inferred => .later passed fun value => requires value read member inferred

/-- Steps that bind nothing, and what comes after them. -/
theorem andThen [passed : act.Composed importer .none] (first : act.RequiresReads names)
    (rest : ∀ value, (next value).RequiresReads others) :
    (act >>= next).RequiresReads (names ++ others) :=
  .append first.first (.later passed rest)

/-- Steps that bind some names. -/
theorem afterBinding (passed : act.Composed importer (.binding bound))
    (requires : ∀ value, (next value).RequiresReads names) :
    (act >>= next).RequiresReads (names.without bound) := by
  intro read member inferred
  obtain ⟨isRead, kept⟩ := mem_filter.mp member
  have unbound : read.name ∉ bound := by simpa using kept
  exact .after passed (forall_mem_nil _) unbound
    fun value => requires value read isRead inferred

theorem inScope (requires : act.RequiresReads names) :
    (openScope [] >>= fun index => inChild index act).RequiresReads names :=
  fun read member inferred => (requires read member inferred).inScope

end RequiresReads

/-- Steps one of which looks at each read. -/
def SomeRequires (steps : List (Infer Meaning)) (names : Names) : Prop :=
  ∀ read ∈ names.reads, read.inferred = true → ∃ step ∈ steps, step.Requires read.name

namespace SomeRequires

variable {steps : List (Infer Meaning)}

theorem nil : SomeRequires [] {} := forall_mem_nil _

theorem cons {step : Infer Meaning} (head : step.RequiresReads names)
    (tail : SomeRequires steps others) : SomeRequires (step :: steps) (names ++ others) := by
  intro read member inferred
  rcases mem_append.mp member with inHead | inTail
  · exact ⟨step, mem_cons_self, head read inHead inferred⟩
  · obtain ⟨later, isLater, requires⟩ := tail read inTail inferred
    exact ⟨later, mem_cons_of_mem _ isLater, requires⟩

/-- All steps are run. -/
theorem mapM (some : SomeRequires steps names) (each : ComposedEach importer steps .none) :
    (steps.mapM id).RequiresReads names := by
  intro read member inferred
  obtain ⟨step, isStep, requires⟩ := some read member inferred
  exact .mapM (fun step isStep => each.each step isStep) isStep requires

theorem elements (some : SomeRequires steps names)
    (each : ComposedEach importer steps .none) (line : Nat) :
    (elements line steps).RequiresReads names := by
  intro read member inferred
  obtain ⟨step, isStep, requires⟩ := some read member inferred
  have nonempty : steps.isEmpty = false := isEmpty_eq_false_iff_exists_mem.mpr ⟨step, isStep⟩
  refine .later inferInstance fun type => ?_
  simp only [nonempty]
  refine .first (.mapM (fun step isStep => ?_) isStep requires.first)
  have := each.each step isStep
  infer_instance

theorem arguments (some : SomeRequires steps names)
    (each : ComposedEach importer steps .none) {lines : List Nat}
    (length : lines.length = steps.length) :
    (arguments (lines.zip steps)).RequiresReads names := by
  intro read member inferred
  obtain ⟨step, isStep, requires⟩ := some read member inferred
  rw [← map_snd_zip (Nat.le_of_eq length.symm)] at isStep
  obtain ⟨entry, isEntry, rfl⟩ := mem_map.mp isStep
  have composed := each.zip lines
  refine .mapM (fun entry isEntry => ?_) isEntry (.later inferInstance fun _ => .first requires)
  have := composed entry isEntry
  exact inferInstanceAs ((argument entry.1 entry.2).Composed importer .none)

end SomeRequires

variable {line : Nat} {source : Infer Meaning}

/-- A chain of comparisons looks at all of its operands. -/
theorem requires_comparisons {steps : List (CompareOperator × Infer Meaning)}
    (each : ∀ entry ∈ steps, entry.2.Composed importer .none)
    {entry : CompareOperator × Infer Meaning} (member : entry ∈ steps)
    (requires : entry.2.Requires name) (left : Meaning) :
    (comparisons line left steps).Requires name := by
  induction steps generalizing left with
  | nil => cases member
  | cons head steps ih =>
    obtain ⟨op, step⟩ := head
    unfold comparisons Constraint.ordering
    rcases mem_cons.mp member with rfl | further
    · exact requires.first
    · have rest := ih (fun entry member => each entry (mem_cons_of_mem _ member)) further
      have operand : step.Composed importer .none := each (op, step) mem_cons_self
      refine .later operand fun right => ?_
      split
      · exact rest left
      · refine .later inferInstance fun _ => .later inferInstance fun _ => ?_
        refine .later inferInstance fun _ => .later inferInstance fun _ => ?_
        exact .later inferInstance fun _ => rest right

theorem requires_find (id : String) : (find id).Requires id where
  known {session _ _} _ done := by
    have found := (Prod.mk.inj done).1
    unfold Chain.find at found
    split at found
    · next isType => rw [isType]; rfl
    · cases found

theorem requiresReads_readName (id : String) (line : Nat) (usage : Usage) :
    (readName id line).RequiresReads (Expr.nameRead id usage) := by
  intro read member _
  obtain ⟨other, rfl⟩ := Expr.of_mem_nameRead member
  refine ⟨fun {session _ _} _ done => ?_⟩
  rw [readName, if_neg (by simpa using other), run_get_bind] at done
  split at done
  · next isType => rw [isType]; rfl
  · exact absurd done run_throw_ne_ok

section Calls

variable {line : Nat} {result : Term} {called : Infer Meaning} {steps : List (Nat × Infer Meaning)}
  (args : (arguments steps).RequiresReads names)

include args

/-- The name of a function has to be known, and its arguments are looked at. -/
theorem requiresReads_nameCall {id : String} (usage : Usage) :
    (nameCall line id called steps result).RequiresReads (Expr.nameRead id usage ++ names) := by
  refine .append ?_ (.later inferInstance fun object => .later inferInstance fun session => ?_)
  · intro read member _
    obtain ⟨-, rfl⟩ := Expr.of_mem_nameRead member
    exact (requires_find id).first
  · split
    · exact .later inferInstance fun _ => args.first
    · exact args.first

theorem requiresReads_attributeCall {receiver : Infer Meaning} {attr : String}
    [receiver.Composed importer .none] (reads : receiver.RequiresReads others) :
    (attributeCall line receiver attr called steps result).RequiresReads (others ++ names) := by
  refine .andThen reads fun receiver => ?_
  split
  · exact args.first
  · exact .later inferInstance fun _ => args.first

end Calls

/-- A generator looks at what it runs through, and binds a name. -/
theorem composed_generator (target : Expr) (composed : source.Composed importer rights)
    (may : ∀ name ∈ target.boundNames, rights.binds name) :
    (generator line target source).Composed importer rights := by
  refine .andThen composed fun source => .andThen inferInstance fun type => ?_
  refine .andThen inferInstance fun term => .andThen inferInstance fun _ => ?_
  split
  · exact .binds (may _ mem_cons_self) _
  all_goals infer_instance

/-- Only a name can be the target of a generator. -/
theorem requiresReads_target (target : Expr) (composed : source.Composed importer .none)
    (hides : ∀ name ∈ target.boundNames, name ∈ bound) :
    (generator line target source).RequiresReads (target.scan.without bound) := by
  refine .later composed fun source => .later inferInstance fun type => ?_
  refine .later inferInstance fun term => .later inferInstance fun _ => ?_
  split
  · next id usage =>
    intro read member _
    obtain ⟨isRead, kept⟩ := mem_filter.mp member
    obtain ⟨-, rfl⟩ := Expr.of_mem_nameRead isRead
    have isBound : id ∈ bound := hides id mem_cons_self
    simp [isBound] at kept
  all_goals exact .throw _

end Infer

namespace Expr

open Infer

variable {home : Option ModuleKey} {names : Names} {act : Infer Meaning} {line : Option Nat}

theorem requiresReads_narrowedOr (e : Expr) (requires : act.RequiresReads names) :
    (narrowedOr e act).RequiresReads names := by
  refine fun read member inferred => ⟨fun plain done => ?_⟩
  rw [narrowedOr, run_get_bind, plain e] at done
  exact (requires read member inferred).known plain done

/-- The inference of an expression looks at all reads that are not left out. -/
def Looks (home : Option ModuleKey) (e : Expr) : Prop := (infer home e).RequiresReads e.scan

theorem someRequires_inferEach {es : List Expr} (each : ∀ e ∈ es, Looks home e) :
    SomeRequires (inferEach home es) (scanEach es) := by
  induction es with
  | nil => exact .nil
  | cons e es ih =>
    obtain ⟨head, tail⟩ := forall_mem_cons.mp each
    exact .cons head (ih tail)

theorem requires_operands {rest : List Expr} (each : ∀ e ∈ rest, Looks home e)
    (ops : List CompareOperator) : ∀ read ∈ (scanOperands ops rest).reads, read.inferred →
      ∃ entry ∈ ops.zip (inferEach home rest), entry.2.Requires read.name := by
  induction rest generalizing ops with
  | nil =>
    intro read member
    cases ops <;> cases member
  | cons e rest ih =>
    obtain ⟨head, tail⟩ := forall_mem_cons.mp each
    intro read member inferred
    cases ops with
    | nil =>
      rcases mem_append.mp member with inHead | inTail
      · exact nomatch inferred.symm.trans (Names.inferred_of_mem_skipped inHead)
      · obtain ⟨entry, isEntry, -⟩ := ih tail [] read inTail inferred
        cases isEntry
    | cons op ops =>
      rcases mem_append.mp member with inHead | inTail
      · exact ⟨(op, infer home e), mem_cons_self, head read inHead inferred⟩
      · obtain ⟨entry, isEntry, requires⟩ := ih tail ops read inTail inferred
        exact ⟨entry, mem_cons_of_mem _ isEntry, requires⟩

section Generators

variable {line : Nat} {generators : List Generator}
  (sources : ∀ generator ∈ generators, Looks home generator.source)

theorem composed_generators (binds : ∀ name ∈ generatorNames generators, name ∈ bound) :
    (inferGenerators home line generators).Composed importer (.binding bound) := by
  induction generators with
  | nil => exact .pure _
  | cons generator generators ih =>
    have rest := ih fun name member => binds name (mem_append_right _ member)
    obtain ⟨target, source, conditions, isAsync⟩ := generator
    exact .andThen (composed_generator target inferInstance fun name member =>
      binds name (mem_append_left _ member)) fun _ => rest

include sources

theorem requiresReads_next : (inferGenerators home line generators).RequiresReads
    ((scanNext generators).without (generatorNames generators)) := by
  induction generators with
  | nil => exact .without (.empty _) _
  | cons generator generators ih =>
    obtain ⟨head, tail⟩ := forall_mem_cons.mp sources
    obtain ⟨target, source, conditions, isAsync⟩ := generator
    have binds : (generator line target (infer home source)).Composed importer
        (.binding target.boundNames) := composed_generator target inferInstance fun _ => id
    rw [scanNext, generatorNames, flatMap_cons]
    simp only [Names.append_without]
    refine .append (.first (.without (.first head) _)) (.append ?_ (.append ?_ ?_))
    · exact .first (requiresReads_target target inferInstance fun _ member =>
      mem_append_left _ member)
    · exact .without (.skipped _) _
    · rw [Names.without_append]
      exact .afterBinding binds fun _ => ih tail

theorem requiresReads_first :
    (inferGenerators home line generators).RequiresReads (scanFirst generators) := by
  cases generators with
  | nil => exact .empty _
  | cons generator generators =>
    obtain ⟨head, -⟩ := forall_mem_cons.mp sources
    obtain ⟨target, source, conditions, isAsync⟩ := generator
    exact .first (.first head)

theorem requiresReads_local : (inferGenerators home line generators).RequiresReads
    ((scanLocal generators).without (generatorNames generators)) := by
  cases generators with
  | nil => exact .without (.empty _) _
  | cons generator generators =>
    obtain ⟨target, source, conditions, isAsync⟩ := generator
    refine (requiresReads_next sources).mono ?_
    rw [scanNext, Names.append_without]
    exact subset_append_right _ _

/-- What a comprehension gives is inferred where its names are bound. -/
theorem requiresReads_inGenerators (requires : act.RequiresReads names) :
    (do
      let scope ← openScope []
      inChild scope do
        inferGenerators home line generators
        act : Infer Meaning).RequiresReads (scanFirst generators ++
          (scanLocal generators ++ names).without (generatorNames generators)) := by
  rw [Names.append_without]
  refine .inScope (.append (.first (requiresReads_first sources)) (.append ?_ ?_))
  · exact .first (requiresReads_local sources)
  · exact .afterBinding (composed_generators fun _ => id) fun _ => requires

end Generators

/-- A function without a name binds its parameters first. -/
theorem looks_lambda {params : Params} {body : Expr} (looks : Looks home body) :
    Looks home (.lambda line params body) := by
  obtain ⟨positional, args, rest, keywordOnly, keywordDefaults, keywords, defaults⟩ := params
  rw [Looks, infer, scan]
  generalize isParams : (⟨positional, args, rest, keywordOnly, keywordDefaults, keywords,
    defaults⟩ : Params) = params
  have binds : (bindParams args).Composed importer (.binding params.names) := by
    refine (@obeys_bindParams _ (.of (.binding params.names)) _ fun param member => ?_).composed
    have isParam : param.name ∈ params.names := by
      rw [← isParams]
      exact mem_map_of_mem (by simp [member])
    exact isParam
  refine requiresReads_narrowedOr _ (.append (.skipped _) (.inScope ?_))
  exact .mono (.afterBinding binds fun _ => .first looks) (Names.inFunction_subset _ _)

theorem looks_call {func : Expr} {args : List Expr} (keywords : List Keyword)
    (called : Looks home func) (each : ∀ e ∈ args, Looks home e)
    (receiver : ∀ l value attr u, func = .access l value attr u → Looks home value) :
    Looks home (.call line func args keywords) := by
  have composed : ComposedEach importer (inferEach home args) .none := inferInstance
  have lines : (args.map lineNumber).length = (inferEach home args).length := by
    rw [length_map, length_inferEach]
  have given := (someRequires_inferEach each).arguments composed lines
  rw [Looks, infer]
  refine requiresReads_narrowedOr _ (.later inferInstance fun result => ?_)
  split
  · next hint value =>
    have inferred := each value (mem_cons_of_mem _ mem_cons_self)
    exact .append (.append (.skipped _) (.append (.empty _) (.first inferred))) (.empty _)
  · exact .throw _
  · next id usage notCast _ =>
    rw [scan]
    · exact .append (.first (requiresReads_nameCall given usage)) (.empty _)
    · rintro _ _ _ _ ⟨⟩
      exact absurd rfl notCast
  · next value attr _ =>
    rw [scan]
    · have reads := receiver _ _ _ _ rfl
      exact .append (.first (requiresReads_attributeCall given reads)) (.empty _)
    · rintro _ _ _ _ ⟨⟩
  · next notName _ _ =>
    have inferred : ObeysEach (inferEach home args) (.composed importer) (.of .none) :=
      inferInstance
    have steps := (obeys_arguments (inferred.zip _ (args.map lineNumber))).composed
    rw [scan]
    · refine .append (.append (.later steps fun _ => ?_) given.first) (.empty _)
      exact .first called.first
    · intro line usage _ _ isCast
      exact absurd isCast (notName line "cast" usage)

mutual

/-- Whatever an expression reads in a part that is inferred has to be known. -/
theorem looks (home : Option ModuleKey) : (e : Expr) → Looks home e
  | .literal .. => requiresReads_narrowedOr _ (.empty _)
  | .joined .. | .formatted .. => requiresReads_narrowedOr _ (.skipped _)
  | .name _ id usage => requiresReads_narrowedOr _ (requiresReads_readName id _ usage)
  | .list _ elements _ | .set _ elements => by
    have steps := (someRequires_inferEach (looksEach home elements)).elements inferInstance
    exact requiresReads_narrowedOr _ (.first (steps _))
  | .tuple _ elements _ | .boolean _ _ elements => by
    have steps := (someRequires_inferEach (looksEach home elements)).mapM inferInstance
    exact requiresReads_narrowedOr _ (.first steps)
  | .dict line keys values => by
    have first := (looksKeys home keys).elements inferInstance
    have second := (someRequires_inferEach (looksEach home values)).elements inferInstance
    exact requiresReads_narrowedOr _ (.andThen (first _) fun _ => .first (second _))
  | .binary _ left _ right =>
    requiresReads_narrowedOr _ (.andThen (looks home left) fun _ => .first (looks home right))
  | .unary _ _ value | .access _ value _ _ => requiresReads_narrowedOr _ (.first (looks home value))
  | .await _ value | .yield _ (some value) => requiresReads_narrowedOr _ (looks home value)
  | .conditional _ _ body orelse => requiresReads_narrowedOr _ (.append (.skipped _)
    (.andThen (looks home body) fun _ => .first (looks home orelse)))
  | .subscript _ value index _ => by
    have whole := looks home value
    have place := looks home index
    rw [Looks, scan]
    unfold infer
    cases index with
    | slice _ lower upper step =>
      exact requiresReads_narrowedOr _ (.andThen whole fun _ => .andThen (looksBound home lower)
        fun _ => .andThen (looksBound home upper) fun _ => .first (looksBound home step))
    | _ => exact requiresReads_narrowedOr _ (.andThen whole fun _ => .first place)
  | .compare line left ops rest => by
    have first := looks home left
    have each : ComposedEach importer (inferEach home rest) .none := inferInstance
    have others := requires_operands (looksEach home rest) ops
    refine requiresReads_narrowedOr _ (.andThen first fun left => .first ?_)
    intro read member inferred
    obtain ⟨entry, isEntry, requires⟩ := others read member inferred
    exact requires_comparisons (each.zip ops) isEntry requires left
  | .comprehension line collected element generators => by
    have inner := looks home element
    have sources := looksSources home generators
    rw [Looks, scan]
    unfold infer
    cases collected with
    | generator => exact requiresReads_narrowedOr _ (.throw _)
    | _ => exact requiresReads_narrowedOr _ (requiresReads_inGenerators sources (.first inner))
  | .dictComprehension line key value generators => by
    have sources := looksSources home generators
    exact requiresReads_narrowedOr _ (requiresReads_inGenerators sources
      (.andThen (looks home key) fun _ => .first (looks home value)))
  | .call line func args keywords => by
    refine looks_call keywords (looks home func) (looksEach home args) ?_
    cases func with
    | access _ value _ _ =>
      rintro _ _ _ _ ⟨⟩
      exact looks home value
    | _ => simp
  | .lambda _ params body => looks_lambda (looks home body)
  | .yield _ none | .slice .. | .yieldFrom .. | .starred .. | .named .. =>
    requiresReads_narrowedOr _ (.throw _)

theorem looksEach (home : Option ModuleKey) : (es : List Expr) → ∀ e ∈ es, Looks home e
  | [] => forall_mem_nil _
  | e :: es => forall_mem_cons.mpr ⟨looks home e, looksEach home es⟩

theorem looksKeys (home : Option ModuleKey) : (keys : List (Option Expr)) →
    SomeRequires (inferEachKey home keys) (scanOptions keys)
  | [] => .nil
  | none :: keys => by
    have unpacked : (throw .badOperand : Infer Meaning).RequiresReads {} := .throw _
    exact SomeRequires.cons unpacked (looksKeys home keys)
  | some key :: keys => .cons (looks home key) (looksKeys home keys)

theorem looksBound (home : Option ModuleKey) :
    (bound : Option Expr) → (inferBound home bound).RequiresReads (scanOption bound)
  | none => .empty _
  | some e => looks home e

theorem looksSources (home : Option ModuleKey) : (generators : List Generator) →
    ∀ generator ∈ generators, Looks home generator.source
  | [] => forall_mem_nil _
  | ⟨_, source, _, _⟩ :: generators =>
    forall_mem_cons.mpr ⟨looks home source, looksSources home generators⟩

end

/-- In a plain session an expression is accepted only if all of its free names are known, but for
those in parts that are left out: tests of conditional expressions, conditions of comprehensions,
formatted texts, default values of functions without a name, and the name of a cast. -/
theorem free_names_known {e : Expr} {session after : Session} {type : Meaning}
    (plain : session.IsPlain) (done : (e.infer home).run session = (.ok type, after)) :
    (∀ read ∈ e.freeReads, read.inferred = true → (session.chain.find? read.name).isSome = true) ∧
    ((∀ name ∈ e.freeNames, (session.chain.find? name).isSome = true) ↔
      ∀ read ∈ e.freeReads, read.inferred = false →
        (session.chain.find? read.name).isSome = true) := by
  have looked : ∀ read ∈ e.freeReads, read.inferred = true →
      (session.chain.find? read.name).isSome = true := by
    intro read member inferred
    have isRead : read ∈ e.scan.reads := (mem_filter.mp member).1
    exact (looks home e read isRead inferred).known plain done
  refine ⟨looked, fun all read member _ => ?_, fun others name member => ?_⟩
  · exact all read.name (mem_map_of_mem member)
  · obtain ⟨read, isRead, rfl⟩ := mem_map.mp member
    cases inferred : read.inferred with
    | true => exact looked read isRead inferred
    | false => exact others read isRead inferred

/-- Functions that are made in a comprehension with a condition. -/
def madeFunctions : Expr :=
  .comprehension (some 1) .list
    (.lambda (some 1) ⟨[], [⟨some 1, "x", none⟩], none, [], [], none, []⟩
      (.binary (some 1) (.name (some 1) "x" .load) .add (.name (some 1) "b" .load)))
    [⟨.name (some 1) "a" .store, .list (some 1) [.name (some 1) "b" .load] .load,
      [.name (some 1) "c" .load], 0⟩]

/-- The free name that they read is known, that in the condition is not. -/
theorem madeFunctions_names_known : ∃ prepared bound session type after,
    Prepared.ofBody [.numbered "b"] none {} = .ok prepared ∧
    ((Stmt.numbered "b").infer importer).run prepared.start = (.ok bound, session) ∧
    session.IsPlain ∧ (madeFunctions.infer none).run session = (.ok type, after) ∧
    madeFunctions.freeReads = [⟨"b", true⟩, ⟨"c", false⟩, ⟨"b", true⟩] ∧
    (session.chain.find? "b").isSome = true ∧ session.chain.find? "c" = none := by
  have evaluated : ∃ prepared, Prepared.ofBody [.numbered "b"] none {} = .ok prepared ∧
      ∃ bound session, ((Stmt.numbered "b").infer importer).run prepared.start =
        (.ok bound, session) ∧ session.chain.find? "c" = none ∧
        ∃ type after, (madeFunctions.infer none).run session = (.ok type, after) ∧ True := by
    decide +kernel
  obtain ⟨prepared, done, bound, session, isSession, unknown, type, after, run, -⟩ := evaluated
  have block := Stmt.composedEach_block importer [.numbered "b"]
  have same := (block.each _ mem_cons_self).narrowings_eq (forall_mem_nil _) isSession
  have plain : session.IsPlain := fun e => by
    rw [narrowing?_eq same]
    exact isPlain_ofProgram _ _ _ e
  have reads : madeFunctions.freeReads = [⟨"b", true⟩, ⟨"c", false⟩, ⟨"b", true⟩] := by decide
  have known := (free_names_known plain run).1 ⟨"b", true⟩ (by simp [reads]) rfl
  exact ⟨prepared, bound, session, type, after, done, isSession, plain, run, reads, known, unknown⟩

/-- A choice between two numbers by a name. -/
def chosenByName : Expr :=
  .conditional (some 1) (.name (some 1) "y" .load) (.literal (some 1) (.int 1))
    (.literal (some 1) (.int 2))

/-- An expression is accepted although a free name of it is unknown. -/
theorem chosenByName_accepted : ∃ prepared type after,
    Prepared.ofBody [.assign {} [.name (some 1) "x" .store] chosenByName] none {} = .ok prepared ∧
    prepared.start.IsPlain ∧ (chosenByName.infer none).run prepared.start = (.ok type, after) ∧
    "y" ∈ chosenByName.freeNames ∧ prepared.start.chain.find? "y" = none := by
  have evaluated : ∃ prepared, Prepared.ofBody [.assign {} [.name (some 1) "x" .store] chosenByName]
      none {} = .ok prepared ∧ ∃ type after, (chosenByName.infer none).run prepared.start =
        (.ok type, after) ∧ prepared.start.chain.find? "y" = none := by
    decide +kernel
  obtain ⟨prepared, done, type, after, run, unknown⟩ := evaluated
  exact ⟨prepared, type, after, done, isPlain_ofProgram _ _ _, run, by decide, unknown⟩

end Expr

end TypeInference
