import LanguageService.Proofs.Ending
import LanguageService.Proofs.Resolution

/-!
Checks come to an end. What a job comes to grows with what the jobs that it calls for come to, so
that more fuel changes no result.
-/
namespace LanguageService.Check

def Refines {α : Type} (m m' : CheckM α) : Prop := ∀ s r, m s = some r → m' s = some r

namespace Refines

variable {α β : Type}

theorem refl (m : CheckM α) : Refines m m := fun _ _ h => h

theorem bind {m m' : CheckM α} {f f' : α → CheckM β} (h : Refines m m')
    (hf : ∀ a, Refines (f a) (f' a)) : Refines (m >>= f) (m' >>= f') := by
  intro s r hr
  change (m s).bind (fun p => f p.1 p.2) = some r at hr
  obtain ⟨p, hp, hr⟩ := Option.bind_eq_some_iff.mp hr
  change (m' s).bind (fun p => f' p.1 p.2) = some r
  rw [h s p hp]
  exact hf p.1 p.2 r hr

theorem next {m : CheckM α} {f f' : α → CheckM β} (hf : ∀ a, Refines (f a) (f' a)) :
    Refines (m >>= f) (m >>= f') :=
  bind (refl m) hf

theorem last {m m' : CheckM α} {f : α → CheckM β} (h : Refines m m') :
    Refines (m >>= f) (m' >>= f) :=
  bind h fun _ => refl _

theorem mapM {f f' : α → CheckM β} (h : ∀ a, Refines (f a) (f' a)) (as : List α) :
    Refines (as.mapM f) (as.mapM f') := by
  induction as with
  | nil => exact refl _
  | cons a as ih =>
      rw [List.mapM_cons, List.mapM_cons]
      exact bind (h a) fun _ => last ih

theorem foldlM {f f' : β → α → CheckM β} (h : ∀ b a, Refines (f b a) (f' b a)) (as : List α)
    (b : β) : Refines (as.foldlM f b) (as.foldlM f' b) := by
  induction as generalizing b with
  | nil => exact refl _
  | cons a as ih => exact bind (h b a) ih

theorem withFrames (fs : List Frame) {m m' : CheckM α} (h : Refines m m') :
    Refines (withFrames fs m) (withFrames fs m') :=
  next fun _ => next fun _ => last h

end Refines

variable {e : Env}

section Runs

variable {run run' : Run} (h : ∀ j, Refines (run j) (run' j))

include h

theorem contextOf_refines (d : NodeId) : Refines (contextOf e run d) (contextOf e run' d) := by
  refine .foldlM (fun ctx d => ?_) _ _
  have hsubject : Refines (extendContext.subjectSelf run ctx d)
      (extendContext.subjectSelf run' ctx d) := by
    rw [extendContext.subjectSelf, extendContext.subjectSelf]
    split
    · exact .refl _
    · exact .last (h _)
  rw [extendContext, extendContext]
  cases e.tree.kind d with
  | extension i subject ms => exact hsubject
  | conformance i subject ts ms => exact hsubject
  | _ => exact .refl _

section Types

theorem subject_refines (ext : NodeId) : Refines (subject e run ext) (subject e run' ext) := by
  have hresolve (node : NodeId) :
      Refines (subject.resolve e run ext node) (subject.resolve e run' ext node) := by
    rw [subject.resolve, subject.resolve]
    split
    · exact .bind (contextOf_refines h _) fun _ => .last (h _)
    · exact .refl _
  rw [subject, subject]
  refine .next fun s => ?_
  split
  · exact .refl _
  · split
    · exact hresolve _
    · exact hresolve _
    · exact .refl _

theorem typeDenoted_refines (d : NodeId) :
    Option.Rel Refines (typeDenoted e run d) (typeDenoted e run' d) := by
  rw [typeDenoted, typeDenoted]
  cases e.tree.kind d with
  | typeAlias i x aliased => exact .some (h _)
  | _ => first | exact .none | exact .some (.refl _)

theorem typeName_refines (node : NodeId) (x : Name) (ctx : Context) :
    Refines (typeName e run node x ctx) (typeName e run' node x ctx) := by
  rw [typeName, typeName]
  split
  · exact .refl _
  · dsimp only
    split
    · exact .refl _
    · split
      · exact .refl _
      · split
        · exact .refl _
        · next d _ =>
            have hdenoted := typeDenoted_refines (e := e) h d
            generalize typeDenoted e run d = find, typeDenoted e run' d = find' at hdenoted ⊢
            cases hdenoted with
            | none => exact .refl _
            | some hfind => exact .last hfind

theorem typeExpr_refines (node : NodeId) (ctx : Context) :
    Refines (typeExpr e run node ctx) (typeExpr e run' node ctx) := by
  rw [typeExpr, typeExpr]
  split
  · exact .last (typeName_refines h _ _ _)
  · exact .bind (.mapM (fun n => h _) _) fun _ => .refl _
  · exact .refl _

theorem typeAlias_refines (d : NodeId) : Refines (typeAlias e run d) (typeAlias e run' d) := by
  rw [typeAlias, typeAlias]
  refine .next fun known => ?_
  split
  · exact .refl _
  · split
    · refine .next fun fresh => ?_
      split
      · exact .bind (contextOf_refines h d) fun _ => .last (h _)
      · exact .refl _
    · exact .refl _

theorem functionType_refines (d : NodeId) (ps : List NodeId) (output : Option NodeId) :
    Refines (functionType e run d ps output) (functionType e run' d ps output) := by
  rw [functionType, functionType]
  refine .bind (.mapM (fun p => h _) ps) fun inputs => ?_
  split
  · exact .refl _
  · exact .bind (contextOf_refines h d) fun _ => .last (h _)

theorem declaredType_refines (d : NodeId) :
    Refines (declaredType e run d) (declaredType e run' d) := by
  rw [declaredType, declaredType]
  split
  · exact .bind (contextOf_refines h d) fun _ => h _
  · split
    · exact h _
    · exact .refl _
  · exact functionType_refines h _ _ _
  · exact functionType_refines h _ _ _
  · exact .bind (.mapM (fun p => h _) _) fun _ => .last (contextOf_refines h d)
  · exact functionType_refines h _ _ _
  · rw [varType, varType]
    split
    · exact .refl _
    · exact .bind (contextOf_refines h _) fun _ => .last (.withFrames [] (h _))
  · exact .refl _

theorem signature_refines (d : NodeId) : Refines (signature e run d) (signature e run' d) := by
  rw [signature, signature]
  refine .next fun known => ?_
  split
  · exact .refl _
  · refine .next fun fresh => ?_
    split
    · exact .last (declaredType_refines h d)
    · exact .refl _

theorem valueType_refines (d : NodeId) : Refines (valueType e run d) (valueType e run' d) := by
  rw [valueType, valueType]
  cases e.tree.kind d with
  | typeAlias i x aliased => exact .last (h _)
  | _ => first | exact .refl _ | exact h _

end Types

section Exprs

theorem unqualified_refines (node : NodeId) (x : Name) (ctx : Context) :
    Refines (unqualified e run node x ctx) (unqualified e run' node x ctx) := by
  rw [unqualified, unqualified]
  split
  · exact .refl _
  · refine .next fun s => ?_
    split
    · exact .next fun _ => h _
    · split
      · exact .next fun _ => valueType_refines h _
      · exact .refl _

theorem qualified_refines (node : NodeId) (domain : Ty) (x : Name) :
    Refines (qualified e run node domain x) (qualified e run' node domain x) := by
  rw [qualified.eq_def, qualified.eq_def]
  split
  · exact .refl _
  · split
    · exact .next fun _ => valueType_refines h _
    · exact .refl _
  · split
    · split
      · exact .next fun _ => valueType_refines h _
      · exact .refl _
    · exact .refl _

theorem construction_refines (node callee : NodeId) (args : List NodeId) (d : NodeId)
    (found : List Ty) : Refines (construction e run node callee args d found)
      (construction e run' node callee args d found) := by
  rw [construction, construction]
  split
  · exact .refl _
  · exact .next fun _ => .last (h _)

theorem call_refines (node callee : NodeId) (args : List NodeId) (ctx : Context) :
    Refines (call e run node callee args ctx) (call e run' node callee args ctx) := by
  rw [call, call]
  refine .bind (h _) fun t => .bind (.mapM (fun a => h _) args) fun found => ?_
  split
  · exact construction_refines h _ _ _ _ _
  all_goals exact .refl _

theorem subscript_refines (node callee : NodeId) (args : List NodeId) (ctx : Context) :
    Refines (subscript e run node callee args ctx) (subscript e run' node callee args ctx) := by
  rw [subscript, subscript]
  refine .bind (h _) fun t => .bind (.mapM (fun a => h _) args) fun found => ?_
  split
  · exact .refl _
  · exact .refl _
  · dsimp only
    split
    · exact .refl _
    · exact .last (h _)

theorem memberOperator_refines (node : NodeId) (op : Name) (lhs rhs : Ty) (rhsNode : NodeId) :
    Refines (memberOperator e run node op lhs rhs rhsNode)
      (memberOperator e run' node op lhs rhs rhsNode) := by
  rw [memberOperator.eq_def, memberOperator.eq_def]
  split
  · exact .next fun _ => .last (h _)
  · exact .refl _

theorem binary_refines (node l : NodeId) (op : Name) (r : NodeId) (ctx : Context) :
    Refines (binary e run node l op r ctx) (binary e run' node l op r ctx) := by
  rw [binary, binary]
  refine .bind (h _) fun lhs => .bind (h _) fun rhs => ?_
  split
  · exact .refl _
  · exact .refl _
  · split
    · exact .refl _
    · exact memberOperator_refines h _ _ _ _ _

theorem expr_refines (node : NodeId) (ctx : Context) :
    Refines (expr e run node ctx) (expr e run' node ctx) := by
  rw [expr, expr]
  cases e.tree.kind node with
  | name domain x =>
      cases domain with
      | none => exact .last (unqualified_refines h _ _ _)
      | some d => exact .bind (h _) fun _ => .last (qualified_refines h _ _ _)
  | call callee args => exact .last (call_refines h _ _ _ _)
  | subscriptCall callee args => exact .last (subscript_refines h _ _ _ _)
  | binary l op r => exact .last (binary_refines h _ _ _ _ _)
  | tuple es => exact .bind (.mapM (fun n => h _) es) fun _ => .refl _
  | _ => exact .refl _

end Exprs

section Stmts

theorem patternParts_refines (inBody : Bool) (ps : List (NodeId × Ty)) :
    Refines (patternParts run inBody ps) (patternParts run' inBody ps) := by
  induction ps with
  | nil => exact .refl _
  | cons p ps ih => exact .bind (h _) fun _ => ih

theorem pattern_refines (p : NodeId) (t : Ty) (inBody : Bool) :
    Refines (pattern e run p t inBody) (pattern e run' p t inBody) := by
  rw [pattern, pattern]
  split
  · exact .refl _
  · exact .next fun _ => patternParts_refines h _ _
  · exact .last (h _)
  · exact .refl _

theorem bindingTypes_refines (p : NodeId) (ascription initializer : Option NodeId)
    (ctx : Context) : Refines (bindingTypes e run p ascription initializer ctx)
      (bindingTypes e run' p ascription initializer ctx) := by
  have hpart {j : NodeId → Job} (i : Option NodeId) :
      Refines (i.mapM fun i => run (j i)) (i.mapM fun i => run' (j i)) := by
    cases i with
    | none => exact .refl _
    | some i =>
        rw [Option.mapM_some, Option.mapM_some, map_eq_pure_bind, map_eq_pure_bind]
        exact .last (h _)
  rw [bindingTypes_eq, bindingTypes_eq]
  exact .bind (hpart ascription) fun _ => .last (hpart initializer)

theorem binding_refines (b : NodeId) (ctx : Context) (inBody : Bool) :
    Refines (binding e run b ctx inBody) (binding e run' b ctx inBody) := by
  rw [binding, binding]
  refine .next fun s => ?_
  split
  · exact .refl _
  · refine .next fun _ => ?_
    split
    · split
      · exact .bind (bindingTypes_refines h _ _ _ _) fun _ => .last (h _)
      · exact .refl _
    · exact .refl _

theorem each_refines (jobs : List Job) : Refines (each run jobs) (each run' jobs) := by
  induction jobs with
  | nil => exact .refl _
  | cons j jobs ih => exact .bind (.last (h j)) fun _ => ih

theorem condition_refines (node : NodeId) (ctx : Context) :
    Refines (condition e run node ctx) (condition e run' node ctx) :=
  .last (h _)

theorem stmt_refines (node : NodeId) (ctx : Context) :
    Refines (stmt e run node ctx) (stmt e run' node ctx) := by
  rw [stmt, stmt]
  split
  · exact .next fun _ => .last (each_refines h _)
  · dsimp only
    split
    · exact .last (h _)
    · exact .refl _
  · exact each_refines h _
  · exact .bind (h _) fun _ => .last (h _)
  · exact .bind (condition_refines h _ _) fun _ => each_refines h _
  · exact .bind (condition_refines h _ _) fun _ => each_refines h _
  · exact each_refines h _
  · exact .refl _

theorem bodies_refines (d : NodeId) (ps : List NodeId) (output : Ty) (bs : List NodeId) :
    Refines (bodies e run d ps output bs) (bodies e run' d ps output bs) := by
  induction bs with
  | nil => exact .refl _
  | cons b bs ih =>
      refine .bind (.bind (contextOf_refines h d) fun _ => ?_) fun _ => ih
      exact .last (.withFrames _ (h _))

theorem conformances_refines (ctx : Context) (ns : List NodeId) :
    Refines (conformances e run ctx ns) (conformances e run' ctx ns) := by
  induction ns with
  | nil => exact .refl _
  | cons n ns ih =>
      refine .bind (h _) fun t => ?_
      split
      · exact ih
      · exact ih
      · exact .next fun _ => ih

theorem decl_refines (d : NodeId) : Refines (decl e run d) (decl e run' d) := by
  rw [decl, decl]
  cases e.tree.kind d with
  | conformance i subject ts ms =>
      exact .bind (each_refines h _) fun _ => .bind (contextOf_refines h d) fun _ =>
        .bind (conformances_refines h _ ts) fun _ => each_refines h _
  | function i x gs ps o b => exact .bind (h _) fun _ => bodies_refines h _ _ _ _
  | method i x gs ps o vs => exact .bind (h _) fun _ => bodies_refines h _ _ _ _
  | init i ps b memberwise => exact .bind (h _) fun _ => bodies_refines h _ _ _ _
  | subscript i x ps o b => exact .bind (h _) fun _ => bodies_refines h _ _ _ _
  | binding p initializer => exact .bind (contextOf_refines h d) fun _ => each_refines h _
  | _ => first | exact .refl _ | exact each_refines h _

end Stmts

theorem step_refines (j : Job) : Refines (step e run j) (step e run' j) := by
  cases j with
  | decl d => exact .last (decl_refines h d)
  | signature d => exact signature_refines h d
  | typeAlias d => exact typeAlias_refines h d
  | subject ext => exact subject_refines h ext
  | typeExpr n ctx => exact typeExpr_refines h n ctx
  | binding b ctx inBody => exact .last (binding_refines h b ctx inBody)
  | pattern p t inBody => exact .last (pattern_refines h p t inBody)
  | stmt n ctx => exact .last (stmt_refines h n ctx)
  | expr n ctx => exact expr_refines h n ctx

end Runs

theorem perform_refines {fuel fuel' : Nat} (hle : fuel ≤ fuel') (j : Job) :
    Refines (perform e fuel j) (perform e fuel' j) := by
  induction fuel generalizing fuel' j with
  | zero => exact fun _ _ hr => absurd hr (by simp [perform])
  | succ fuel ih =>
      obtain ⟨fuel', rfl⟩ := Nat.exists_eq_add_one_of_ne_zero (Nat.ne_zero_of_lt hle)
      exact step_refines (fun j => ih (Nat.le_of_succ_le_succ hle) j) j

theorem checkDecls_refines {fuel fuel' : Nat} (hle : fuel ≤ fuel') (ds : List NodeId) :
    Refines (checkDecls e fuel ds) (checkDecls e fuel' ds) := by
  induction ds with
  | nil => exact .refl _
  | cons d ds ih => exact .bind (perform_refines hle _) fun _ => ih

theorem final_eq_of_le {t : Tree} {fuel fuel' : Nat} {s : State} (h : final t fuel = some s)
    (hle : fuel ≤ fuel') : final t fuel' = some s := by
  obtain ⟨r, hr, rfl⟩ := Option.map_eq_some_iff.mp h
  exact Option.map_eq_some_iff.mpr ⟨r, checkDecls_refines hle _ _ _ hr, rfl⟩

/-- For every program there is fuel enough, to collect its declarations, to go from a declaration
to all that is around it, and to check it, and then the result does not depend on the fuel. -/
theorem check_ends {t : Tree} (h : t.Parsed) :
    (∀ fuel, t.size < fuel → Declarations.ofTree? t fuel = some (.ofTree t) ∧
      ∀ d, (Declarations.ofTree t).ancestors? fuel d =
        some ((Declarations.ofTree t).ancestors d)) ∧
    ∃ s, (∀ fuel, fuelFor t ≤ fuel → final t fuel = some s) ∧
      typeCheck t = if s.diagnostics.containsError then .error s.diagnostics
        else .ok ⟨t, s.references, s.types⟩ := by
  have ht := h.wellFormed
  refine ⟨fun fuel hfuel => ⟨Declarations.ofTree?_eq ht hfuel,
    (Declarations.ready_ofTree ht).ancestors_eq hfuel⟩, ?_⟩
  obtain ⟨_, s, hcheck, -⟩ := checkDecls_lexical h (List.Perm.refl (ownDecls t))
  have hfinal : final t (fuelFor t) = some s :=
    Option.map_eq_some_iff.mpr ⟨((), s), hcheck, rfl⟩
  refine ⟨s, fun fuel hle => final_eq_of_le hfinal hle, ?_⟩
  rw [typeCheck, hfinal]

/-- Aliases of each other, variables and a function that call for each other, a type that is
constructed in itself, extensions in types and in each other, and names that are declared again. -/
def knottedDocument : File :=
  .document "file:///main.orca" "
    typealias A = B
    typealias B = A
    let a = b
    let b = f()
    fun f() \x7b print(a) \x7d
    type Cell \x7b
      var next = Cell()
      init() \x7b \x7d
      extension Inner \x7b fun f() -> A \x7b return Cell().next \x7d \x7d
    \x7d
    extension Cell \x7b
      type Inner \x7b extension Cell \x7b type Inner \x7b \x7d \x7d \x7d
    \x7d
    let a = 1"

set_option maxRecDepth 4000 in
theorem knottedDocument_ends : ∃ t s, Tree.parseModule .empty "main" [knottedDocument] = .ok t ∧
    t.size = 54 ∧ Declarations.ofTree? t 55 = some (.ofTree t) ∧
    ∀ fuel, fuelFor t ≤ fuel → final t fuel = some s := by
  have hrun : ((Tree.parseModule .empty "main" [knottedDocument]).toOption.any
      fun t => t.size == 54) = true := by
    rw [Tree.parseModule, Tree.parseUnits, Tree.parseUnit,
      Layout.ofFile_of_text knottedDocument rfl]
    decide +kernel
  cases hparse : Tree.parseModule .empty "main" [knottedDocument] with
  | error e =>
      rw [hparse] at hrun
      simp [Except.toOption] at hrun
  | ok t =>
      rw [hparse] at hrun
      have hsize : t.size = 54 := by simpa [Except.toOption] using hrun
      obtain ⟨hcollect, s, hfinal, -⟩ := check_ends (.module .empty hparse)
      exact ⟨t, s, rfl, hsize, (hcollect 55 (by omega)).1, hfinal⟩

end LanguageService.Check
