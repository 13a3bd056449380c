import LanguageService.Check.Stmt

namespace LanguageService.Check

def step (e : Env) (run : Run) : Job → CheckM Ty
  | .decl d => do
      decl e run d
      return .void
  | .signature d => signature e run d
  | .typeAlias d => typeAlias e run d
  | .subject ext => subject e run ext
  | .typeExpr node ctx => typeExpr e run node ctx
  | .binding b ctx inBody => do
      binding e run b ctx inBody
      return .void
  | .pattern p t inBody => do
      pattern e run p t inBody
      return .void
  | .stmt s ctx => do
      stmt e run s ctx
      return .void
  | .expr n ctx => expr e run n ctx

/-- Does a job in which jobs call for each other at most `fuel` deep. -/
def perform (e : Env) : Nat → Run
  | 0, _ => fun _ => none
  | fuel + 1, job => fun s => step e (perform e fuel) job s

/-- The declarations that are checked: all of the units that are not inherited. -/
def ownDecls (t : Tree) : List NodeId :=
  (t.units.filter (!t.isInherited ·)).flatMap (Declarations.declsOfUnit t)

def checkDecls (e : Env) (fuel : Nat) : List NodeId → CheckM Unit
  | [] => pure ()
  | d :: ds => do
      let _ ← perform e fuel (.decl d)
      checkDecls e fuel ds

def final (t : Tree) (fuel : Nat) : Option State :=
  let e : Env := ⟨t, .ofTree t⟩
  (checkDecls e fuel (ownDecls t) (.initial (e.decls.duplicates t))).map (·.2)

/-- Every job on the way is at a node below the one before, or at a declaration that no job
before it has started, or at an extension around such a declaration. -/
def fuelFor (t : Tree) : Nat := 8 * (t.size + 2) * (t.size + 2)

end LanguageService.Check

namespace LanguageService

/-- A program with its references and types, or the diagnostics that speak against it. -/
def typeCheck (t : Tree) : Except DiagnosticSet Program :=
  match Check.final t (Check.fuelFor t) with
  | none => .error .empty
  | some s =>
      if s.diagnostics.containsError then .error s.diagnostics
      else .ok ⟨t, s.references, s.types⟩

end LanguageService
