import LanguageService.Check.Expr

namespace LanguageService.Check

variable (e : Env) (run : Run)

def bindLocal (x : String) (v : NodeId) : List Frame → List Frame
  | [] => []
  | f :: fs => ((x, v) :: f) :: fs

def bindVar (v : NodeId) (t : Ty) (inBody : Bool) : CheckM Unit := do
  match inBody, (e.tree.kind v).declares with
  | true, some x => modify fun s => { s with frames := bindLocal x.text v s.frames }
  | _, _ => pure ()
  setType v t

/-- The types of the parts of a value that is taken apart. -/
def parts (p : NodeId) (t : Ty) (n : Nat) : CheckM (List Ty) :=
  let unknown := List.replicate n Ty.error
  match t with
  | .error => pure unknown
  | .tuple ts => if ts.length = n then pure ts else refuse unknown
  | _ => refuse unknown
where
  refuse (unknown : List Ty) : CheckM (List Ty) := do
    complain e (e.tree.site p) (.destructuring t n)
    return unknown

def patternParts (inBody : Bool) : List (NodeId × Ty) → CheckM Unit
  | [] => pure ()
  | (p, t) :: rest => do
      let _ ← run (.pattern p t inBody)
      patternParts inBody rest

def pattern (p : NodeId) (t : Ty) (inBody : Bool) : CheckM Unit :=
  match e.tree.kind p with
  | .namePattern v => bindVar e v t inBody
  | .tuplePattern es => do
      let ts ← parts e p t es.length
      patternParts run inBody (es.zip ts)
  | .bindingPattern _ _ sub _ => do
      let _ ← run (.pattern sub t inBody)
  | _ => pure ()

def bindingTypes (pattern : NodeId) (ascription initializer : Option NodeId) (ctx : Context) :
    CheckM Ty := do
  let declared ← match ascription with
    | some a => do
        let t ← run (.typeExpr a ctx)
        pure (some t)
    | none => pure none
  let found ← match initializer with
    | some i => do
        let t ← run (.expr i ctx)
        pure (some (i, t))
    | none => pure none
  match declared, found with
  | some expected, some (i, t) => expect e expected t i
  | _, _ => pure ()
  let t := (declared.or (found.map (·.2))).getD .error
  setType pattern t
  return t

def binding (b : NodeId) (ctx : Context) (inBody : Bool) : CheckM Unit := do
  if (← get).checkedBindings.contains b then return
  modify fun s => { s with checkedBindings := s.checkedBindings.insert b () }
  match e.tree.kind b with
  | .binding p initializer =>
      match e.tree.kind p with
      | .bindingPattern _ _ sub ascription => do
          let t ← bindingTypes e run p ascription initializer ctx
          let _ ← run (.pattern sub t inBody)
      | _ => pure ()
  | _ => pure ()

def each (jobs : List Job) : CheckM Unit :=
  jobs.forM fun j => do
    let _ ← run j

def condition (node : NodeId) (ctx : Context) : CheckM Unit := do
  let t ← run (.expr node ctx)
  expect e .bool t node

def stmt (node : NodeId) (ctx : Context) : CheckM Unit :=
  match e.tree.kind node with
  | .brace ss => do
      modify fun s => { s with frames := [] :: s.frames }
      each run (ss.map fun n => .stmt n ctx)
      modify fun s => { s with frames := s.frames.tail }
  | .ret introducer value => do
      let expected := ctx.returnType.getD .error
      match value with
      | some v => do
          let t ← run (.expr v ctx)
          expect e expected t v
      | none =>
          if Ty.void.compatible expected then pure ()
          else complain e introducer (.missingValue expected)
  | .expr n => each run [.expr n ctx]
  | .assign l r => do
      let target ← run (.expr l ctx)
      let value ← run (.expr r ctx)
      expect e target value r
  | .loop _ c body => do
      condition e run c ctx
      each run [.stmt body ctx]
  | .cond _ c yes _ no => do
      condition e run c ctx
      each run ((yes :: no.toList).map fun n => .stmt n ctx)
  | .decl d => each run [.binding d ctx true]
  | _ => pure ()

/-- The frame of a declaration's parameters. Of parameters of one name the last is meant. -/
def parameterFrame (ps : List NodeId) : Frame :=
  (ps.filterMap fun p => ((e.tree.kind p).declares).map fun x => (x.text, p)).reverse

def body (d : NodeId) (ps : List NodeId) (output : Ty) (b : NodeId) : CheckM Unit := do
  let ctx ← contextOf e run d
  let ctx := { ctx with returnType := some output }
  let _ ← withFrames [parameterFrame e ps] (run (.stmt b ctx))

def bodies (d : NodeId) (ps : List NodeId) (output : Ty) : List NodeId → CheckM Unit
  | [] => pure ()
  | b :: bs => do
      body e run d ps output b
      bodies d ps output bs

def conformances (ctx : Context) : List NodeId → CheckM Unit
  | [] => pure ()
  | n :: ns => do
      match ← run (.typeExpr n ctx) with
      | .trait _ => pure ()
      | .error => pure ()
      | t => complain e (e.tree.site n) (.notTrait t)
      conformances ctx ns

def variantBody (t : Tree) (v : NodeId) : Option NodeId :=
  match t.kind v with
  | .variant _ _ b => some b
  | _ => none

def decl (d : NodeId) : CheckM Unit :=
  match e.tree.kind d with
  | .space _ _ ms => each run (ms.map .decl)
  | .product _ _ _ ms memberwise =>
      each run (ms.map .decl ++ memberwise.toList.map .signature)
  | .extension _ _ ms => each run (.subject d :: ms.map .decl)
  | .conformance _ _ ts ms => do
      each run [.subject d]
      let ctx ← contextOf e run d
      conformances e run ctx ts
      each run (ms.map .decl)
  | .trait _ _ ms => each run (ms.map .decl)
  | .typeAlias _ _ _ => each run [.typeAlias d]
  | .function _ _ _ ps _ b => do
      let t ← run (.signature d)
      bodies e run d ps t.output b.toList
  | .method _ _ _ ps _ vs => do
      let t ← run (.signature d)
      bodies e run d ps t.output (vs.filterMap (variantBody e.tree))
  | .init _ ps b _ => do
      let _ ← run (.signature d)
      bodies e run d ps .void b.toList
  | .subscript _ _ ps _ b => do
      let t ← run (.signature d)
      bodies e run d ps t.output b.toList
  | .binding _ _ => do
      let ctx ← contextOf e run d
      each run [.binding d ctx false]
  | _ => pure ()

end LanguageService.Check
