/- The inference of expressions obeys all laws. -/

import TypeInference.Proofs.Laws

namespace TypeInference

open List Node Infer

variable {law : Law} {grants : Grants}

namespace Infer

section Operations

variable (line : Nat) (left right : Meaning)

instance (steps : List (Infer Meaning)) [ObeysEach steps law grants] :
    (elements line steps).Obeys law grants := by
  unfold elements
  infer_instance

/-- A tuple is blamed only if it is longer than those of the sort. -/
instance (components : List Meaning) [allows : law.Allows .tuple (·.maxTuple) components.length] :
    (tuple components).Obeys law grants := by
  unfold tuple
  refine obeys_theory_bind fun theory about => ?_
  dsimp only
  split
  · next exceeds =>
    have : (throw (.arityOutOfRange .tuple) : Infer Term).Obeys law grants := .throw fun limits =>
      limits.1.accepts_of_blamed (allows.blamed limits ((about limits).eq ▸ exceeds))
    infer_instance
  · next within =>
    refine .bind_of_ok inferInstance fun terms done => ?_
    have (limits : law.Limit) : FailsWith limits.1.Accepts (theory.sort.tuple terms) := by
      obtain ⟨_, _, -, run⟩ := done _ limits.2
      exact TypeSort.failsWith_tuple (length_of_run_mapM run ▸ Nat.not_lt.mp within)
    infer_instance

/-- A function is blamed only if it is longer than those of the sort. -/
instance (defaults : Nat) (params : List Meaning) (result : Meaning)
    [allows : law.Allows .function (·.maxFunc) params.length] :
    (function defaults params result).Obeys law grants := by
  unfold function
  refine obeys_theory_bind fun theory about => ?_
  dsimp only
  split
  · next exceeds =>
    have : (throw (.arityOutOfRange .function) : Infer Term).Obeys law grants :=
      .throw fun limits =>
        limits.1.accepts_of_blamed (allows.blamed limits ((about limits).eq ▸ exceeds))
    infer_instance
  · next within =>
    refine .bind_of_ok inferInstance fun terms done => ?_
    have (limits : law.Limit) (defaults result : Term) :
        FailsWith limits.1.Accepts (theory.sort.func defaults terms result) := by
      obtain ⟨_, _, -, run⟩ := done _ limits.2
      exact TypeSort.failsWith_func (length_of_run_mapM run ▸ Nat.not_lt.mp within) _ _
    infer_instance

instance (op : BinaryOperator) : (binary op left right line).Obeys law grants := by
  unfold binary addition Constraint.addition Constraint.multiplication Constraint.bitwise
    Constraint.arithmetic
  split
  case h_4 => split <;> infer_instance
  all_goals infer_instance

instance (operands : List Meaning) : (boolean operands line).Obeys law grants := by
  unfold boolean
  infer_instance

instance (op : UnaryOperator) (operand : Meaning) : (unary op operand line).Obeys law grants := by
  unfold unary
  split <;> infer_instance

instance : (conditional left right line).Obeys law grants := by
  unfold conditional
  infer_instance

instance (whole index : Meaning) : (indexed whole index line).Obeys law grants := by
  unfold indexed Constraint.indexing
  infer_instance

instance (whole lower upper step : Meaning) :
    (sliced whole lower upper step line).Obeys law grants := by
  unfold sliced
  infer_instance

theorem obeys_comparisons {steps : List (CompareOperator × Infer Meaning)}
    (each : ∀ entry ∈ steps, entry.2.Obeys law grants) :
    (comparisons line left steps).Obeys law grants := by
  induction steps generalizing left with
  | nil => exact .pure _
  | cons entry steps ih =>
    obtain ⟨op, step⟩ := entry
    have first : step.Obeys law grants := each (op, step) mem_cons_self
    have rest (left : Meaning) : (comparisons line left steps).Obeys law grants :=
      ih left fun entry member => each entry (mem_cons_of_mem _ member)
    unfold comparisons Constraint.ordering
    split <;> infer_instance

instance (target : Expr) (source : Infer Meaning) [source.Obeys law grants]
    [∀ name, grants.Binds name] : (generator line target source).Obeys law grants := by
  unfold generator
  refine .andThen inferInstance fun source => ?_
  refine .andThen inferInstance fun type => ?_
  refine .andThen inferInstance fun term => ?_
  refine .andThen inferInstance fun _ => ?_
  split <;> infer_instance

instance (value : Literal) : (literal value).Obeys law grants := by
  unfold literal
  split <;> infer_instance

/-- Binds the parameters of a function without a name. -/
def bindParams (params : List Param) : Infer (List Meaning) :=
  params.mapM fun param => do
    let type ← fresh "func_arg" isStem_param
    bind param.name (.term type)
    pure (.term type)

theorem obeys_bindParams {params : List Param}
    (may : ∀ param ∈ params, grants.binds param.name) :
    (bindParams params).Obeys law grants := by
  refine .mapM_of_mem fun param member => ?_
  exact .andThen inferInstance fun type =>
    .andThen ⟨law.binds (may param member) _⟩ fun _ => inferInstance

end Operations

section Calls

variable (line : Nat) (result : Term) (args : List Term) {steps : List (Nat × Infer Meaning)}
  {called : Infer Meaning}

instance (id : String) : (readName id line).Obeys law grants := by
  unfold readName
  split
  · infer_instance
  · refine .andThen inferInstance fun session => ?_
    split <;> infer_instance

instance (step : Infer Meaning) [step.Obeys law grants] :
    (argument line step).Obeys law grants := by
  unfold argument
  refine .andThen inferInstance fun param => ?_
  refine .andThen inferInstance fun value => ?_
  split <;> infer_instance

instance (receiver : Meaning) : (receiverArgument receiver).Obeys law grants := by
  unfold receiverArgument
  infer_instance

theorem obeys_arguments (each : ∀ entry ∈ steps, entry.2.Obeys law grants) :
    (arguments steps).Obeys law grants :=
  .mapM_of_mem fun entry member =>
    have := each entry member
    inferInstanceAs ((argument entry.1 entry.2).Obeys law grants)

instance (signatures : List Signature) :
    (signatureCalls signatures args result).Obeys law grants := by
  unfold signatureCalls
  infer_instance

instance (known : List Formula) (called : Infer Meaning) [called.Obeys law grants] :
    (plainCall line known called args result).Obeys law grants := by
  unfold plainCall
  refine .andThen inferInstance fun called => ?_
  dsimp only
  split <;> infer_instance

theorem obeys_nameCall (id : String) (calls : called.Obeys law grants)
    (each : ∀ entry ∈ steps, entry.2.Obeys law grants) :
    (nameCall line id called steps result).Obeys law grants := by
  have := obeys_arguments each
  unfold nameCall instantiate
  infer_instance

set_option synthInstance.maxSize 256 in
theorem obeys_attributeCall {receiver : Infer Meaning} (receives : receiver.Obeys law grants)
    (attr : String) (calls : called.Obeys law grants)
    (each : ∀ entry ∈ steps, entry.2.Obeys law grants) :
    (attributeCall line receiver attr called steps result).Obeys law grants := by
  have := obeys_arguments each
  refine .andThen inferInstance fun receiver => ?_
  split <;> infer_instance

instance (receiver : Meaning) (signature : Signature) :
    (builtinAttribute receiver result signature).Obeys law grants := by
  unfold builtinAttribute
  split <;> infer_instance

instance (receiver : Infer Meaning) [receiver.Obeys law grants] (attr : String) :
    (attributeOf line receiver attr).Obeys law grants := by
  unfold attributeOf
  refine .andThen inferInstance fun receiver => ?_
  split
  · infer_instance
  · split <;> infer_instance

end Calls

end Infer

namespace Expr

variable {home : Option ModuleKey}

theorem obeys_narrowedOr (e : Expr) {act : Infer Meaning}
    (composed : act.Obeys law grants) :
    (narrowedOr e act).Obeys law grants := by
  refine .andThen inferInstance fun session => ?_
  split <;> infer_instance

instance (e : Expr) (act : Infer Meaning) [composed : act.Obeys law grants] :
    (narrowedOr e act).Obeys law grants := obeys_narrowedOr e composed

instance (limits : Limits) (home : Option ModuleKey) :
    FailsWith limits.Accepts (castScope home) := by
  unfold castScope
  split <;> infer_instance

/-- A call, given that its parts are composed. -/
theorem obeys_call (line : Option Nat) {func : Expr} {args : List Expr} (keywords : List Keyword)
    (called : (infer home func).Obeys law grants)
    (inferred : Infer.ObeysEach (inferEach home args) law grants)
    (receiver : ∀ l value attr u, func = .access l value attr u →
      (infer home value).Obeys law grants) :
    (infer home (.call line func args keywords)).Obeys law grants := by
  have steps := inferred.zip _ (args.map lineNumber)
  unfold infer
  refine obeys_narrowedOr _ (.andThen inferInstance fun result => ?_)
  split
  · next hint value =>
    have := inferred.each (infer home value) (mem_cons_of_mem _ mem_cons_self)
    infer_instance
  · infer_instance
  · next id _ _ _ =>
    have := obeys_nameCall (line.getD 0) result id called steps
    infer_instance
  · next value attr _ =>
    have receives := receiver _ _ _ _ rfl
    have := obeys_attributeCall (line.getD 0) result receives attr called steps
    infer_instance
  · have := obeys_arguments steps
    infer_instance

theorem length_inferEach (home : Option ModuleKey) (es : List Expr) :
    (inferEach home es).length = es.length := by
  induction es with
  | nil => rfl
  | cons e es ih => exact congrArg Nat.succ ih

theorem length_targetSteps (home : Option ModuleKey) (targets : List Expr) :
    (targetSteps home targets).length = targets.length := by
  induction targets with
  | nil => rfl
  | cons e es ih => exact congrArg Nat.succ ih

mutual

/-- Expressions obey a law that covers them. -/
theorem obeys_infer (home : Option ModuleKey) : (e : Expr) → (grants : Grants) →
    law.Covers (.expr e) → (infer home e).Obeys law grants
  | .literal .., _, _ | .joined .., _, _ | .formatted .., _, _ | .name .., _, _ => by
    unfold infer
    infer_instance
  | .list _ elements _, grants, covers | .set _ elements, grants, covers
  | .boolean _ _ elements, grants, covers => by
    have := obeysEach_inferEach home elements grants fun e member =>
      covers.child (mem_map_of_mem member)
    unfold infer
    infer_instance
  | .tuple _ elements _, grants, covers => by
    have := obeysEach_inferEach home elements grants fun e member =>
      covers.child (mem_map_of_mem member)
    have allows : law.Allows .tuple (·.maxTuple) (inferEach home elements).length :=
      ⟨fun limits => (covers.fits limits).tuple
        (congrArg some (length_inferEach home elements).symm)⟩
    unfold infer
    refine obeys_narrowedOr _ (.bind_of_ok inferInstance fun components done => ?_)
    have := allows.of_mapM done
    infer_instance
  | .dict _ keys values, grants, covers => by
    have := obeysEach_inferEachKey home keys grants fun e member => covers.child
      (mem_append_left _ (mem_flatMap.mpr ⟨some e, member, mem_singleton.mpr rfl⟩))
    have := obeysEach_inferEach home values grants fun e member =>
      covers.child (mem_append_right _ (mem_map_of_mem member))
    unfold infer
    infer_instance
  | .binary _ left _ right, grants, covers | .conditional _ _ left right, grants, covers => by
    have := obeys_infer home left grants (covers.child (by simp [children, ofExpr]))
    have := obeys_infer home right grants (covers.child (by simp [children, ofExpr]))
    unfold infer
    infer_instance
  | .subscript _ value index _, grants, covers => by
    have := obeys_infer home value grants (covers.child (by simp [children, ofExpr]))
    have whole : law.Covers (.expr index) := covers.child (by simp [children, ofExpr])
    have := obeys_infer home index grants whole
    unfold infer
    cases index with
    | slice _ lower upper step =>
      have bounds : ∀ bound ∈ [lower, upper, step], ∀ e, bound = some e →
          law.Covers (.expr e) := fun bound member e isBound =>
        whole.child (by
          simp_all [children, ofExpr, ofOption, ofExprs, eq_comm])
      have := obeys_inferBound home lower grants (bounds lower (by simp))
      have := obeys_inferBound home upper grants (bounds upper (by simp))
      have := obeys_inferBound home step grants (bounds step (by simp))
      infer_instance
    | _ => infer_instance
  | .unary _ _ value, grants, covers | .access _ value _ _, grants, covers
  | .await _ value, grants, covers | .yield _ (some value), grants, covers => by
    have := obeys_infer home value grants (covers.child mem_cons_self)
    unfold infer
    infer_instance
  | .compare line left ops rest, grants, covers => by
    have := obeys_infer home left grants (covers.child mem_cons_self)
    have inferred := obeysEach_inferEach home rest grants fun e member =>
      covers.child (mem_cons_of_mem _ (mem_map_of_mem member))
    have (left : Meaning) := obeys_comparisons (line.getD 0) left
      (inferred.zip (inferEach home rest) ops)
    unfold infer
    infer_instance
  | .comprehension line collected element generators, grants, covers => by
    have (grants : Grants) := obeys_infer home element grants (covers.child mem_cons_self)
    have (grants : Grants) [∀ name, grants.Binds name] := obeys_inferGenerators home (line.getD 0)
      generators grants fun generator member =>
        (covers.child (mem_cons_of_mem _ (mem_map_of_mem member)))
    unfold infer
    cases collected <;> infer_instance
  | .dictComprehension line key value generators, grants, covers => by
    have (grants : Grants) := obeys_infer home key grants (covers.child mem_cons_self)
    have (grants : Grants) := obeys_infer home value grants
      (covers.child (mem_cons_of_mem _ mem_cons_self))
    have (grants : Grants) [∀ name, grants.Binds name] := obeys_inferGenerators home (line.getD 0)
      generators grants fun generator member => (covers.child
        (mem_cons_of_mem _ (mem_cons_of_mem _ (mem_map_of_mem member))))
    unfold infer
    infer_instance
  | .call line func args keywords, grants, covers => by
    have head : law.Covers (.expr func) := covers.child mem_cons_self
    refine obeys_call line keywords (obeys_infer home func grants head)
      (obeysEach_inferEach home args grants fun e member => covers.child
        (mem_cons_of_mem _ (mem_append_left _ (mem_map_of_mem member)))) ?_
    cases func with
    | access _ value _ _ =>
      rintro _ _ _ _ ⟨⟩
      exact obeys_infer home value grants (head.child mem_cons_self)
    | _ => simp
  | .lambda _ ⟨_, args, _, _, _, _, _⟩ body, grants, covers => by
    have allows : law.Allows .function (·.maxFunc) args.length :=
      ⟨fun limits => (covers.fits limits).function rfl⟩
    have inside {grants : Grants} [∀ name, grants.Binds name] : (do
        let params ← bindParams args
        let result ← infer home body
        pure (.term (← function 0 params result)) : Infer Meaning).Obeys law grants := by
      have := obeys_infer home body grants (covers.child (mem_cons_of_mem _ mem_cons_self))
      refine .bind_of_ok (obeys_bindParams fun _ _ => Grants.Binds.allowed) fun types done => ?_
      have := allows.of_mapM done
      infer_instance
    unfold infer
    exact obeys_narrowedOr _ (@openScope_bind _ _ _ _ _ _ _ _ _ fun index =>
      ⟨law.enters mem_cons_self mem_cons_self inside.holds⟩)
  | .yield _ none, _, _ | .slice .., _, _ | .yieldFrom .., _, _ | .starred .., _, _
  | .named .., _, _ => by
    unfold infer
    infer_instance

theorem obeysEach_inferEach (home : Option ModuleKey) : (es : List Expr) →
    (grants : Grants) → (∀ e ∈ es, law.Covers (.expr e)) →
      Infer.ObeysEach (inferEach home es) law grants
  | [], _, _ => .nil
  | e :: es, grants, covers => .cons (obeys_infer home e grants (covers e mem_cons_self))
      (obeysEach_inferEach home es grants fun other member =>
        covers other (mem_cons_of_mem _ member))

theorem obeysEach_inferEachKey (home : Option ModuleKey) : (keys : List (Option Expr)) →
    (grants : Grants) → (∀ e, some e ∈ keys → law.Covers (.expr e)) →
      Infer.ObeysEach (inferEachKey home keys) law grants
  | [], _, _ => .nil
  | none :: keys, grants, covers => .cons inferInstance
      (obeysEach_inferEachKey home keys grants fun e member =>
        covers e (mem_cons_of_mem _ member))
  | some key :: keys, grants, covers =>
    .cons (obeys_infer home key grants (covers key mem_cons_self))
      (obeysEach_inferEachKey home keys grants fun e member =>
        covers e (mem_cons_of_mem _ member))

theorem obeys_inferBound (home : Option ModuleKey) : (bound : Option Expr) →
    (grants : Grants) → (∀ e, bound = some e → law.Covers (.expr e)) →
      (inferBound home bound).Obeys law grants
  | none, _, _ => .pure _
  | some e, grants, covers => obeys_infer home e grants (covers e rfl)

/-- Generators bind their targets. -/
theorem obeys_inferGenerators (home : Option ModuleKey) (line : Nat) :
    (generators : List Generator) → (grants : Grants) → [∀ name, grants.Binds name] →
      (∀ generator ∈ generators, law.Covers (.generator generator)) →
      (inferGenerators home line generators).Obeys law grants
  | [], _, _, _ => .pure _
  | ⟨_, source, _, _⟩ :: generators, grants, _, covers => by
    have := obeys_infer home source grants ((covers _ mem_cons_self).child
      (mem_cons_of_mem _ mem_cons_self))
    have := obeys_inferGenerators home line generators grants fun other member =>
      covers other (mem_cons_of_mem _ member)
    unfold inferGenerators
    infer_instance

end

instance (home : Option ModuleKey) (e : Expr) [covers : law.Covers (.expr e)] :
    (infer home e).Obeys law grants := obeys_infer home e grants covers

section Composed

variable {importer : Importer} {rights : Rights} (home : Option ModuleKey)

instance (es : List Expr) : Infer.ComposedEach importer (inferEach home es) rights :=
  (obeysEach_inferEach home es (.of rights) fun _ _ => inferInstance).composed

instance (keys : List (Option Expr)) :
    Infer.ComposedEach importer (inferEachKey home keys) rights :=
  (obeysEach_inferEachKey home keys (.of rights) fun _ _ => inferInstance).composed

instance (bound : Option Expr) : (inferBound home bound).Composed importer rights :=
  (obeys_inferBound home bound (.of rights) fun _ _ => inferInstance).composed

end Composed

mutual

/-- Targets obey a law that covers them. -/
theorem obeys_inferTarget [∀ name, grants.Binds name] (home : Option ModuleKey) :
    (target : Expr) → law.Covers (.expr target) → (inferTarget home target).Obeys law grants
  | .name .., _ => by
    unfold inferTarget
    infer_instance
  | .tuple _ elements _, covers => by
    have := obeysEach_targetSteps home elements fun e member =>
      covers.child (mem_map_of_mem member)
    unfold inferTarget
    refine .bind_of_ok inferInstance fun components done => ?_
    have : law.Allows .tuple (·.maxTuple) components.length := by
      refine Law.Allows.of_mapM ⟨fun limits => ?_⟩ done
      rw [length_targetSteps]
      exact (covers.fits limits).tuple rfl
    infer_instance
  | .list _ elements _, covers => by
    have := obeysEach_targetSteps home elements fun e member =>
      covers.child (mem_map_of_mem member)
    unfold inferTarget
    infer_instance
  | .subscript _ value _ _, covers => by
    have : law.Covers (.expr value) := covers.child mem_cons_self
    unfold inferTarget
    infer_instance
  | .literal .., covers | .set .., covers | .dict .., covers | .binary .., covers
  | .boolean .., covers | .unary .., covers | .conditional .., covers | .compare .., covers
  | .call .., covers | .access .., covers | .slice .., covers | .lambda .., covers
  | .comprehension .., covers | .dictComprehension .., covers | .joined .., covers
  | .formatted .., covers | .await .., covers | .yield .., covers | .yieldFrom .., covers
  | .starred .., covers | .named .., covers => obeys_infer home _ grants covers

theorem obeysEach_targetSteps [∀ name, grants.Binds name] (home : Option ModuleKey) :
    (targets : List Expr) → (∀ e ∈ targets, law.Covers (.expr e)) →
      Infer.ObeysEach (targetSteps home targets) law grants
  | [], _ => .nil
  | e :: es, covers => .cons (obeys_inferTarget home e (covers e mem_cons_self))
      (obeysEach_targetSteps home es fun other member =>
        covers other (mem_cons_of_mem _ member))

end

section

variable [∀ name, grants.Binds name] (home : Option ModuleKey) (target : Expr)
  [covers : law.Covers (.expr target)]

instance : (inferTarget home target).Obeys law grants := obeys_inferTarget home target covers

instance (value : Meaning) : (assign home target value).Obeys law grants := by
  unfold assign
  infer_instance

end

mutual

/-- The names that the deletion of a target deletes. -/
def deleted (target : Expr) : List String :=
  match target with
  | .tuple _ elements _ | .list _ elements _ => deletedAll elements
  | .name _ id _ => [id]
  | _ => []
termination_by structural target

def deletedAll : List Expr → List String
  | [] => []
  | e :: es => deleted e ++ deletedAll es

end

mutual

/-- A deletion needs the right to delete its names. -/
theorem obeys_delete (home : Option ModuleKey) (line : Nat) : (target : Expr) →
    (∀ name ∈ target.deleted, grants.deletes name) → law.Covers (.expr target) →
      (delete home line target).Obeys law grants
  | .tuple _ elements _, may, covers | .list _ elements _, may, covers =>
    obeys_deleteAll home line elements may fun e member =>
      covers.child (mem_map_of_mem member)
  | .name _ _ _, may, _ => ⟨law.unbinds (may _ mem_cons_self)⟩
  | .subscript _ value _ _, _, covers => by
    have : law.Covers (.expr value) := covers.child mem_cons_self
    unfold delete
    infer_instance
  | .access .., _, _ => inferInstanceAs
      ((throw .attributeDeletion : Infer Unit).Obeys law grants)
  | .literal .., _, _ | .set .., _, _ | .dict .., _, _ | .binary .., _, _ | .boolean .., _, _
  | .unary .., _, _ | .conditional .., _, _ | .compare .., _, _ | .call .., _, _ | .slice .., _, _
  | .lambda .., _, _ | .comprehension .., _, _ | .dictComprehension .., _, _ | .joined .., _, _
  | .formatted .., _, _ | .await .., _, _ | .yield .., _, _ | .yieldFrom .., _, _
  | .starred .., _, _ | .named .., _, _ => .pure _

theorem obeys_deleteAll (home : Option ModuleKey) (line : Nat) : (targets : List Expr) →
    (∀ name ∈ deletedAll targets, grants.deletes name) →
      (∀ e ∈ targets, law.Covers (.expr e)) →
      (deleteAll home line targets).Obeys law grants
  | [], _, _ => .pure _
  | e :: es, may, covers => by
    have := obeys_delete home line e
      (fun name member => may name (mem_append_left _ member)) (covers e mem_cons_self)
    have := obeys_deleteAll home line es
      (fun name member => may name (mem_append_right _ member)) fun other member =>
        covers other (mem_cons_of_mem _ member)
    unfold deleteAll
    infer_instance

end

end Expr

end TypeInference
