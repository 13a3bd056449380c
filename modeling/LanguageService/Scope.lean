import LanguageService.Diagnostic
import LanguageService.Table
import LanguageService.Ty

namespace LanguageService

inductive Owner where
  | decl (d : NodeId)
  | builtin (b : Builtin)
  deriving DecidableEq, Repr

/-- Modules are told apart by their place in the program, since one can be listed again. -/
inductive Scope where
  | module (place : Nat)
  | space (d : NodeId)
  | type (o : Owner)
  deriving DecidableEq, Repr

structure Entry where
  scope : Scope
  name : String
  decl : NodeId
  deriving DecidableEq, Repr

structure Declarations where
  modules : List NodeId
  entries : List Entry
  initializers : List (NodeId × NodeId)
  subscripts : List (Owner × NodeId)
  stored : List (NodeId × NodeId)
  parents : Table NodeId
  extended : Table Owner
  bindings : Table NodeId
  pending : List NodeId

namespace Tree

def patternVarsAt (t : Tree) : Nat → NodeId → List NodeId
  | 0, _ => []
  | fuel + 1, p =>
      match t.kind p with
      | .bindingPattern _ _ sub _ => t.patternVarsAt fuel sub
      | .namePattern v => [v]
      | .tuplePattern es => es.flatMap (t.patternVarsAt fuel)
      | _ => []

def patternVars (t : Tree) (p : NodeId) : List NodeId := t.patternVarsAt (t.size + 1) p

/-- The site of the name that a declaration declares, or of the whole declaration. -/
def nameSite (t : Tree) (d : NodeId) : Site :=
  match (t.kind d).declares with
  | some x => x.site
  | none => t.site d

end Tree

namespace Declarations

def empty : Declarations := ⟨[], [], [], [], [], .empty, .empty, .empty, []⟩

def named (ds : Declarations) (s : Scope) (x : String) : List NodeId :=
  ds.entries.filterMap fun e => if e.scope = s ∧ e.name = x then some e.decl else none

def initializersOf (ds : Declarations) (d : NodeId) : List NodeId :=
  ds.initializers.filterMap fun e => if e.1 = d then some e.2 else none

def subscriptsOf (ds : Declarations) (o : Owner) : List NodeId :=
  ds.subscripts.filterMap fun e => if e.1 = o then some e.2 else none

def storedOf (ds : Declarations) (d : NodeId) : List NodeId :=
  ds.stored.filterMap fun e => if e.1 = d then some e.2 else none

def setParent (parent : NodeId) (ds : Declarations) (d : NodeId) : Declarations :=
  { ds with parents := ds.parents.insert d parent }

def setParents (parent : NodeId) (ds : Declarations) (is : List NodeId) : Declarations :=
  is.foldl (setParent parent) ds

def addName (t : Tree) (s : Scope) (ds : Declarations) (d : NodeId) : Declarations :=
  match (t.kind d).declares with
  | some x => { ds with entries := ds.entries ++ [⟨s, x.text, d⟩] }
  | none => ds

def addVar (t : Tree) (s : Scope) (binding : NodeId) (ds : Declarations) (v : NodeId) :
    Declarations :=
  addName t s { ds with bindings := ds.bindings.insert v binding } v

/-- Only what a product type binds itself is stored in its values. -/
def addStored (t : Tree) (owner : NodeId) (s : Scope) (ds : Declarations) (vs : List NodeId) :
    Declarations :=
  match s, t.kind owner with
  | .type (.decl d), .product _ _ _ _ _ => { ds with stored := ds.stored ++ vs.map ((d, ·)) }
  | _, _ => ds

def addInitializer (s : Scope) (ds : Declarations) (i : NodeId) : Declarations :=
  match s with
  | .type (.decl d) => { ds with initializers := ds.initializers ++ [(d, i)] }
  | _ => ds

def addSubscript (s : Scope) (ds : Declarations) (i : NodeId) : Declarations :=
  match s with
  | .type o => { ds with subscripts := ds.subscripts ++ [(o, i)] }
  | _ => ds

/-- Declares what `d`, a direct member of `owner`, adds to the scope `s`. -/
def declare (t : Tree) (owner : NodeId) (s : Scope) (ds : Declarations) (d : NodeId) :
    Declarations :=
  match t.kind d with
  | .binding p _ =>
      let vs := t.patternVars p
      vs.foldl (addVar t s d) (addStored t owner s ds vs)
  | .extension _ _ _ => { ds with pending := ds.pending ++ [d] }
  | .conformance _ _ _ _ => { ds with pending := ds.pending ++ [d] }
  | .init _ _ _ _ => addInitializer s ds d
  | .subscript _ _ _ _ _ => addName t s (addSubscript s ds d) d
  | _ => addName t s ds d

/-- Collects a direct member of `owner`, and what it contains; `fuel` bounds the nesting. -/
def collectAt (t : Tree) : Nat → NodeId → Scope → Declarations → NodeId → Declarations
  | 0, _, _, ds, _ => ds
  | fuel + 1, owner, s, ds, d =>
      let ds := declare t owner s (setParent owner ds d) d
      match t.kind d with
      | .space _ _ ms => ms.foldl (collectAt t fuel d (.space d)) ds
      | .product _ _ gs ms memberwise =>
          let ds := ms.foldl (collectAt t fuel d (.type (.decl d))) (setParents d ds gs)
          memberwise.toList.foldl (collectAt t fuel d (.type (.decl d))) ds
      | .trait _ _ ms => ms.foldl (collectAt t fuel d (.type (.decl d))) ds
      | .function _ _ gs ps _ _ => setParents d ds (gs ++ ps)
      | .method _ _ gs ps _ vs => setParents d ds (gs ++ ps ++ vs)
      | .init _ ps _ _ => setParents d ds ps
      | .subscript _ _ ps _ _ => setParents d ds ps
      | _ => ds

def collect (t : Tree) (owner : NodeId) (s : Scope) (ds : Declarations) (is : List NodeId) :
    Declarations :=
  is.foldl (collectAt t (t.size + 1) owner s) ds

def ancestorsAt (ds : Declarations) : Nat → NodeId → List NodeId
  | 0, _ => []
  | fuel + 1, d =>
      match ds.parents.get? d with
      | some p => d :: ds.ancestorsAt fuel p
      | none => [d]

def ancestors (ds : Declarations) (d : NodeId) : List NodeId :=
  ds.ancestorsAt (ds.parents.slots.size + 1) d

def scopeOf (t : Tree) (ds : Declarations) (d : NodeId) : Option Scope :=
  match t.kind d with
  | .space _ _ _ => some (.space d)
  | .product _ _ _ _ _ => some (.type (.decl d))
  | .trait _ _ _ => some (.type (.decl d))
  | .extension _ _ _ => (ds.extended.get? d).map .type
  | .conformance _ _ _ _ => (ds.extended.get? d).map .type
  | .module _ _ => (ds.modules.idxOf? d).map .module
  | _ => none

/-- The scopes visible from `d`, innermost first; the modules that do not contain it come
last, the latest of them first. -/
def visible (t : Tree) (ds : Declarations) (d : NodeId) : List Scope :=
  let chain := ds.ancestors d
  chain.filterMap (scopeOf t ds) ++
    (ds.modules.zipIdx.reverse.filter fun m => !chain.contains m.1).map fun m => .module m.2

/-- What a name means at `d`: all that the first visible scope that has it declares. -/
def lookup (t : Tree) (ds : Declarations) (d : NodeId) (x : String) : List NodeId :=
  ((visible t ds d).findSome? fun s =>
    match ds.named s x with
    | [] => none
    | found => some found).getD []

def member (ds : Declarations) (o : Owner) (x : String) : Option NodeId :=
  (ds.named (.type o) x).head?

def subjectOwner (t : Tree) (ds : Declarations) (ext subject : NodeId) : Option Owner :=
  match t.kind subject with
  | .nameType x =>
      match Builtin.ofWord x.text with
      | some b => some (.builtin b)
      | none =>
          (ds.parents.get? ext).bind fun parent =>
            (lookup t ds parent x.text).findSome? fun d =>
              match t.kind d with
              | .product _ _ _ _ _ => some (.decl d)
              | .trait _ _ _ => some (.decl d)
              | _ => none
  | _ => none

/-- Collects the members of an extension. One that extends nothing is left to be complained
about when it is checked. -/
def collectExtension (t : Tree) (ds : Declarations) (ext subject : NodeId) (ms : List NodeId) :
    Declarations :=
  match subjectOwner t ds ext subject with
  | some o => collect t ext (.type o) { ds with extended := ds.extended.insert ext o } ms
  | none => ds

def collectPending (t : Tree) : Nat → Declarations → Declarations
  | 0, ds => ds
  | fuel + 1, ds =>
      match ds.pending with
      | [] => ds
      | ext :: rest =>
          let ds := { ds with pending := rest }
          match t.kind ext with
          | .extension _ subject ms =>
              collectPending t fuel (collectExtension t ds ext subject ms)
          | .conformance _ subject _ ms =>
              collectPending t fuel (collectExtension t ds ext subject ms)
          | _ => collectPending t fuel ds

def declsOfUnit (t : Tree) (u : NodeId) : List NodeId :=
  match t.kind u with
  | .unit decls => decls
  | _ => []

def collectModule (t : Tree) (ds : Declarations) (m : NodeId) : Declarations :=
  match t.kind m with
  | .module _ units =>
      let ds := collect t m (.module ds.modules.length) ds (units.flatMap (declsOfUnit t))
      { ds with modules := ds.modules ++ [m] }
  | _ => ds

/-- The declarations of all modules. Subjects of extensions are looked up once all other names
are known. -/
def ofTree (t : Tree) : Declarations :=
  collectPending t (t.size + 1) (t.modules.foldl (collectModule t) empty)

def duplicate (t : Tree) (earlier : List Entry) (e : Entry) : Option Diagnostic :=
  (earlier.find? fun f => f.scope = e.scope ∧ f.name = e.name).map fun f =>
    (Diagnostic.error "E1006" (t.nameSite e.decl)
      ("duplicate declaration of `" ++ e.name ++ "`")).withNote
      (t.nameSite f.decl) "previously declared here"

def duplicatesFrom (t : Tree) (earlier : List Entry) : List Entry → List Diagnostic
  | [] => []
  | e :: es => (duplicate t earlier e).toList ++ duplicatesFrom t (earlier ++ [e]) es

def precedes (a b : Diagnostic) : Bool :=
  a.site.file.uri < b.site.file.uri ||
    (a.site.file.uri == b.site.file.uri &&
      (a.site.start < b.site.start ||
        (a.site.start == b.site.start &&
          (a.site.stop < b.site.stop ||
            (a.site.stop == b.site.stop && a.message ≤ b.message)))))

/-- A complaint for each declaration whose scope has declared its name before. -/
def duplicates (t : Tree) (ds : Declarations) : DiagnosticSet :=
  .ofList ((duplicatesFrom t [] ds.entries).mergeSort precedes)

end Declarations

end LanguageService
