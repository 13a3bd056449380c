import LanguageService.Proofs.Printing
import LanguageService.Proofs.Resolution

/-!
Where a check depends on more than what its declarations say. What names mean does not depend on the
order in which declarations are checked, but what is complained about does, if two variables use
each other, and it depends on what a document adds to the types of its library.
-/
namespace LanguageService

namespace Check

variable {e : Env}

theorem pure_apply {α : Type} (a : α) (s : State) : (pure a : CheckM α) s = some (a, s) := rfl

theorem bind_apply {α β : Type} (m : CheckM α) (f : α → CheckM β) (s : State) :
    (m >>= f) s = (m s).bind fun r => f r.1 r.2 := rfl

theorem map_apply {α β : Type} (f : α → β) (m : CheckM α) (s : State) :
    (f <$> m) s = (m s).bind fun r => some (f r.1, r.2) := rfl

theorem get_apply (s : State) : (get : CheckM State) s = some (s, s) := rfl

theorem modify_apply (f : State → State) (s : State) :
    (modify f : CheckM Unit) s = some ((), f s) := rfl

theorem contextOf_module {run : Run} {b m p : NodeId} {value : Option NodeId} {name : String}
    {us : List NodeId} (hchain : e.decls.ancestors b = [b, m])
    (hb : e.tree.kind b = .binding p value) (hm : e.tree.kind m = .module name us) :
    contextOf e run b = pure ⟨b, none, [], none⟩ := by
  simp [contextOf, hchain, List.foldlM_cons, extendContext, hb, hm]

theorem perform_entered_binding {b : NodeId} {s : State} (fuel : Nat) (ctx : Context)
    (h : s.checkedBindings.contains b = true) :
    perform e (fuel + 1) (.binding b ctx false) s = some (.void, s) := by
  simp [perform, step, binding, h, get_apply, bind_apply, pure_apply]

theorem varType_of_entered {run : Run} {v b : NodeId} {ctx : Context} {s : State}
    (hbinding : e.decls.bindings.get? v = some b) (hcontext : contextOf e run b = pure ctx)
    (hrun : ∀ frames, run (.binding b ctx false) { s with frames := frames } =
      some (.void, { s with frames := frames })) (hunknown : s.types.get? v = none) :
    varType e run v s = some (.error, s) := by
  rw [varType, hbinding]
  simp [hcontext, withFrames, typeOf, get_apply, bind_apply, map_apply, pure_apply, modify_apply,
    hrun, hunknown]

theorem signature_of_unfinished {v b m p : NodeId} {x : Name} {value : Option NodeId}
    {name : String} {us : List NodeId} {s : State} (fuel : Nat)
    (hv : e.tree.kind v = .var x) (hbinding : e.decls.bindings.get? v = some b)
    (hb : e.tree.kind b = .binding p value) (hm : e.tree.kind m = .module name us)
    (hchain : e.decls.ancestors b = [b, m])
    (hentered : s.checkedBindings.contains b = true) (hidle : s.inProgress.contains v = false)
    (hunknown : s.types.get? v = none) :
    ∃ s', perform e (fuel + 2) (.signature v) s = some (.error, s') ∧
      s'.diagnostics = s.diagnostics := by
  have hvar : varType e (perform e (fuel + 1)) v
      { s with inProgress := s.inProgress.insert v () } =
        some (.error, { s with inProgress := s.inProgress.insert v () }) :=
    varType_of_entered hbinding (contextOf_module hchain hb hm)
      (fun _ => perform_entered_binding fuel _ hentered) hunknown
  refine ⟨{ s with
    inProgress := (s.inProgress.insert v ()).erase v
    types := s.types.insert v .error }, ?_, rfl⟩
  rw [perform, step, signature]
  simp [typeOf, start, finish, setType, declaredType, hv, hvar, get_apply, bind_apply, map_apply,
    modify_apply, hunknown, hidle]

end Check

def declarationsIn (text : String) : Option (List (List Token)) :=
  match Surface.parse ((Lexer.tokens text.toList).map (·.token)) with
  | .ok ds => some (ds.map Surface.Decl.print)
  | .error _ => none

def acceptsAlone (text : String) : Bool :=
  match Tree.parseModule .empty "main" [.document "file:///main.orca" text] with
  | .ok t => (typeCheck t).isOk
  | .error _ => false

/-- Of two variables that use each other, the one that is entered first hides what is wrong with
the other. -/
theorem acceptance_depends_on_order :
    ∃ text text' d d', declarationsIn text = some [d, d'] ∧ declarationsIn text' = some [d', d] ∧
      acceptsAlone text = true ∧ acceptsAlone text' = false := by
  refine ⟨"let a: Int = b;\nlet b = a + \"s\";\n", "let b = a + \"s\";\nlet a: Int = b;\n",
    [.keyword .kwLet, .ident "a", .punct .colon, .ident "Int", .punct .assign, .ident "b"],
    [.keyword .kwLet, .ident "b", .punct .assign, .ident "a", .op "+", .string "\"s\""],
    ?_, ?_, ?_, ?_⟩ <;> decide +kernel

namespace Declarations

theorem lookup_in_type {t : Tree} {ds : Declarations} {d owner : NodeId} {rest : List NodeId}
    {s : Scope} {x : String} (hchain : ds.ancestors d = d :: owner :: rest)
    (hd : scopeOf t ds d = none) (howner : scopeOf t ds owner = some s)
    (hx : ds.named s x ≠ []) : ds.lookup t d x = ds.named s x := by
  cases hnamed : ds.named s x with
  | nil => exact absurd hnamed hx
  | cons a as => simp [lookup, visible, hchain, hd, howner, hnamed]

end Declarations

def blamesLibrary (library document : File) : Bool :=
  match Tree.parseModule .empty "library" [library] with
  | .error _ => false
  | .ok base =>
      match typeCheck base, Tree.parseModule base "main" [document] with
      | .ok _, .ok t =>
          match typeCheck t with
          | .ok _ => false
          | .error ds => ds.elements.any (·.site.file == library)
      | _, _ => false

/-- The extension hides the name that the library uses in the initializer of a member. -/
theorem document_can_break_library : ∃ library document, blamesLibrary library document = true := by
  refine ⟨.document "file:///lib.orca"
      "let width: Int = 1;\ntype Box \x7b var w: Int = width \x7d\n",
    .document "file:///main.orca"
      "extension Box \x7b fun width() -> Int \x7b return 1 \x7d \x7d\nlet b = Box(1);\n", ?_⟩
  decide +kernel

end LanguageService
