import LanguageService.Check.Basic

namespace LanguageService.Check

variable (e : Env) (run : Run)

def subject (ext : NodeId) : CheckM Ty := do
  match (← get).subjects.get? ext with
  | some t => return t
  | none =>
      match e.tree.kind ext with
      | .extension _ node _ => resolve node
      | .conformance _ node _ _ => resolve node
      | _ => return .error
where
  resolve (node : NodeId) : CheckM Ty := do
    let t ← match e.decls.parents.get? ext with
      | some parent => do
          let ctx ← contextOf e run parent
          run (.typeExpr node ctx)
      | none => pure .error
    modify fun s => { s with subjects := s.subjects.insert ext t }
    return t

/-- The type that a declared name stands for, if it stands for one. -/
def typeDenoted (d : NodeId) : Option (CheckM Ty) :=
  match e.tree.kind d with
  | .product _ _ _ _ _ => some (pure (.product d))
  | .trait _ _ _ => some (pure (.trait d))
  | .associated _ _ => some (pure (.parameter d))
  | .generic _ => some (pure (.parameter d))
  | .typeAlias _ _ _ => some (run (.typeAlias d))
  | _ => none

def typeName (node : NodeId) (x : Name) (ctx : Context) : CheckM Ty := do
  if x.text = "Self" then
    match ctx.selfType with
    | some t => return t
    | none =>
        complain e x.site .selfTypeOutside
        return .error
  else
    let isNamed (g : NodeId) : Bool :=
      match (e.tree.kind g).declares with
      | some y => y.text == x.text
      | none => false
    match ctx.generics.find? isNamed with
    | some g =>
        refer node (.direct g)
        return .parameter g
    | none =>
        match Builtin.ofWord x.text with
        | some b =>
            refer node (.builtin b.word)
            return .builtin b
        | none =>
            match (e.decls.lookup e.tree ctx.scope x.text).head? with
            | none =>
                complain e x.site (.undefinedType x.text)
                return .error
            | some d =>
                match typeDenoted e run d with
                | none =>
                    complain e x.site (.notType x.text)
                    return .error
                | some find =>
                    let t ← find
                    refer node (.direct d)
                    return t

def typeExpr (node : NodeId) (ctx : Context) : CheckM Ty := do
  let t ← match e.tree.kind node with
    | .nameType x => typeName e run node x ctx
    | .tupleType es => do
        let ts ← es.mapM fun n => run (.typeExpr n ctx)
        pure (.ofElements ts)
    | _ => pure .error
  setType node t
  return t

def typeAlias (d : NodeId) : CheckM Ty := do
  match ← typeOf d with
  | some t => return t
  | none =>
      match e.tree.kind d with
      | .typeAlias _ x aliased =>
          if ← start d then
            let ctx ← contextOf e run d
            let t ← run (.typeExpr aliased ctx)
            finish d
            setType d t
            return t
          else
            complain e (e.tree.nameSite d) (.cyclicAlias x.text)
            return .error
      | _ => return .error

def functionType (d : NodeId) (ps : List NodeId) (output : Option NodeId) : CheckM Ty := do
  let inputs ← ps.mapM fun p => run (.signature p)
  match output with
  | none => return .function inputs .void
  | some o =>
      let ctx ← contextOf e run d
      let t ← run (.typeExpr o ctx)
      return .function inputs t

def storedFor (p : NodeId) : Option NodeId := do
  let i ← e.decls.parents.get? p
  match e.tree.kind i with
  | .init _ ps _ _ => do
      let owner ← e.decls.parents.get? i
      let k ← ps.findIdx? (· == p)
      (e.decls.storedOf owner)[k]?
  | _ => none

/-- The type of a variable bound outside all bodies, whose binding is checked if need be. -/
def varType (v : NodeId) : CheckM Ty :=
  match e.decls.bindings.get? v with
  | none => pure .error
  | some b => do
      let ctx ← contextOf e run b
      let _ ← withFrames [] (run (.binding b ctx false))
      return (← typeOf v).getD .error

def declaredType (d : NodeId) : CheckM Ty :=
  match e.tree.kind d with
  | .parameter _ (some t) => do
      let ctx ← contextOf e run d
      run (.typeExpr t ctx)
  | .parameter _ none =>
      match storedFor e d with
      | some v => run (.signature v)
      | none => pure .error
  | .function _ _ _ ps o _ => functionType e run d ps o
  | .method _ _ _ ps o _ => functionType e run d ps o
  | .init _ ps _ _ => do
      let inputs ← ps.mapM fun p => run (.signature p)
      let ctx ← contextOf e run d
      return .function inputs (ctx.selfType.getD .error)
  | .subscript _ _ ps o _ => functionType e run d ps (some o)
  | .var _ => varType e run d
  | _ => pure .error

/-- The type of a declaration, worked out once. While it is being worked out it is unknown. -/
def signature (d : NodeId) : CheckM Ty := do
  match ← typeOf d with
  | some t => return t
  | none =>
      if ← start d then
        let t ← declaredType e run d
        finish d
        setType d t
        return t
      else return .error

def valueType (d : NodeId) : CheckM Ty :=
  match e.tree.kind d with
  | .product _ _ _ _ _ => pure (.metatype (.product d))
  | .trait _ _ _ => pure (.metatype (.trait d))
  | .typeAlias _ _ _ => do
      let t ← run (.typeAlias d)
      return .metatype t
  | .associated _ _ => pure (.metatype (.parameter d))
  | .generic _ => pure (.metatype (.parameter d))
  | .space _ _ _ => pure (.space d)
  | _ => run (.signature d)

end LanguageService.Check
