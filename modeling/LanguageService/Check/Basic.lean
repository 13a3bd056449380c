import LanguageService.Check.Complaint
import LanguageService.Program
import LanguageService.Scope

/-!
The state of a check, and the jobs of which it consists. A job may call for any other, so jobs
are written against `Run`, which does whatever job it is given.
-/
namespace LanguageService.Check

structure Env where
  tree : Tree
  decls : Declarations

structure Context where
  scope : NodeId
  selfType : Option Ty
  generics : List NodeId
  returnType : Option Ty

abbrev Frame := List (String × NodeId)

structure State where
  references : Table Reference
  types : Table Ty
  subjects : Table Ty
  diagnostics : DiagnosticSet
  frames : List Frame
  inProgress : Table Unit
  checkedBindings : Table Unit

def State.initial (diagnostics : DiagnosticSet) : State :=
  ⟨.empty, .empty, .empty, diagnostics, [], .empty, .empty⟩

inductive Job where
  | decl (d : NodeId)
  | signature (d : NodeId)
  | typeAlias (d : NodeId)
  | subject (ext : NodeId)
  | typeExpr (node : NodeId) (ctx : Context)
  | binding (b : NodeId) (ctx : Context) (inBody : Bool)
  | pattern (p : NodeId) (t : Ty) (inBody : Bool)
  | stmt (s : NodeId) (ctx : Context)
  | expr (e : NodeId) (ctx : Context)

/-- A check may run out of fuel, and then has no result. -/
abbrev CheckM := StateT State Option

abbrev Run := Job → CheckM Ty

def complain (e : Env) (site : Site) (c : Complaint) : CheckM Unit :=
  modify fun s =>
    { s with diagnostics := s.diagnostics.insert (.error c.code site (c.message e.tree)) }

def refer (node : NodeId) (r : Reference) : CheckM Unit :=
  modify fun s => { s with references := s.references.insert node r }

def setType (node : NodeId) (t : Ty) : CheckM Unit :=
  modify fun s => { s with types := s.types.insert node t }

def typeOf (node : NodeId) : CheckM (Option Ty) := do
  return (← get).types.get? node

/-- Marks a declaration as being worked out. The answer is whether it was not marked. -/
def start (d : NodeId) : CheckM Bool := do
  if (← get).inProgress.contains d then return false
  modify fun s => { s with inProgress := s.inProgress.insert d () }
  return true

def finish (d : NodeId) : CheckM Unit :=
  modify fun s => { s with inProgress := s.inProgress.erase d }

/-- Does `m` with the given frames around, and then has the old ones back. -/
def withFrames {α : Type} (frames : List Frame) (m : CheckM α) : CheckM α := do
  let saved := (← get).frames
  modify fun s => { s with frames := frames }
  let a ← m
  modify fun s => { s with frames := saved }
  return a

/-- Complains unless a value of type `found` can be used as one of type `expected`. -/
def expect (e : Env) (expected found : Ty) (node : NodeId) : CheckM Unit :=
  if found.compatible expected then pure ()
  else complain e (e.tree.site node) (.mismatch expected found)

def extendContext (e : Env) (run : Run) (ctx : Context) (d : NodeId) : CheckM Context :=
  match e.tree.kind d with
  | .function _ _ gs _ _ _ => pure { ctx with generics := ctx.generics ++ gs }
  | .method _ _ gs _ _ _ => pure { ctx with generics := ctx.generics ++ gs }
  | .product _ _ gs _ _ =>
      pure { ctx with
        generics := ctx.generics ++ gs
        selfType := some (ctx.selfType.getD (.product d)) }
  | .trait _ _ _ => pure { ctx with selfType := some (ctx.selfType.getD (.parameter d)) }
  | .extension _ _ _ => subjectSelf d
  | .conformance _ _ _ _ => subjectSelf d
  | _ => pure ctx
where
  subjectSelf (d : NodeId) : CheckM Context :=
    match ctx.selfType with
    | some _ => pure ctx
    | none => do
        let t ← run (.subject d)
        return { ctx with selfType := some t }

/-- The context in which a declaration is checked: the generic parameters of all that contains
it, and the innermost type around as the type of `self`. -/
def contextOf (e : Env) (run : Run) (d : NodeId) : CheckM Context :=
  (e.decls.ancestors d).foldlM (extendContext e run) ⟨d, none, [], none⟩

def ownerOf (t : Tree) : Ty → Option Owner
  | .product d => some (.decl d)
  | .trait d => some (.decl d)
  | .parameter d =>
      match t.kind d with
      | .trait _ _ _ => some (.decl d)
      | _ => none
  | .builtin b => some (.builtin b)
  | _ => none

end LanguageService.Check
