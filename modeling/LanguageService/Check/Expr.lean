import LanguageService.Check.Signature

namespace LanguageService.Check

def builtinFunctions : List String := ["print"]

/-- The type of a built-in operator's result. Its operands have one type. -/
def builtinOperator (op : String) (a b : Builtin) : Option Builtin :=
  if a ≠ b then none
  else if ["==", "!="].contains op then some .bool
  else if op = "+" then
    if a = .int ∨ a = .float ∨ a = .string then some a else none
  else if ["-", "*", "/", "%"].contains op then
    if a = .int ∨ a = .float then some a else none
  else if ["<", "<=", ">", ">="].contains op then
    if a = .int ∨ a = .float ∨ a = .string then some .bool else none
  else if ["&&", "||"].contains op then
    if a = .bool then some .bool else none
  else none

def lookupFrames (x : String) (frames : List Frame) : Option NodeId :=
  frames.findSome? fun f => (f.find? fun p => p.1 == x).map (·.2)

def isMember (e : Env) (d : NodeId) : Bool :=
  match e.tree.kind d with
  | .product _ _ _ _ _ => false
  | .trait _ _ _ => false
  | .typeAlias _ _ _ => false
  | .associated _ _ => false
  | .space _ _ _ => false
  | _ =>
      match e.decls.parents.get? ((e.decls.bindings.get? d).getD d) with
      | none => false
      | some p =>
          match e.tree.kind p with
          | .product _ _ _ _ _ => true
          | .trait _ _ _ => true
          | .extension _ _ _ => true
          | .conformance _ _ _ _ => true
          | _ => false

variable (e : Env) (run : Run)

/-- `self`, then locals and parameters, then declarations, then what is built in. -/
def unqualified (node : NodeId) (x : Name) (ctx : Context) : CheckM Ty := do
  if x.text = "self" then
    match ctx.selfType with
    | some t => return t
    | none =>
        complain e x.site .selfValueOutside
        return .error
  else
    match lookupFrames x.text (← get).frames with
    | some d =>
        refer node (.direct d)
        run (.signature d)
    | none =>
        match (e.decls.lookup e.tree ctx.scope x.text).head? with
        | some d =>
            refer node (if isMember e d then .member d else .direct d)
            valueType e run d
        | none =>
            if builtinFunctions.contains x.text then
              refer node (.builtin x.text)
              -- One argument, of any type.
              return .function [.error] .void
            else
              match Builtin.ofWord x.text with
              | some b =>
                  refer node (.builtin x.text)
                  return .metatype (.builtin b)
              | none =>
                  complain e x.site (.undefinedName x.text)
                  return .error

def noMember (domain : Ty) (x : Name) : CheckM Ty := do
  complain e x.site (.noMember domain x.text)
  return .error

def qualified (node : NodeId) (domain : Ty) (x : Name) : CheckM Ty :=
  match domain with
  | .error => pure .error
  | .space d =>
      match (e.decls.named (.space d) x.text).head? with
      | some m => do
          refer node (.direct m)
          valueType e run m
      | none => noMember e domain x
  | _ =>
      match ownerOf e.tree domain with
      | some o =>
          match e.decls.member o x.text with
          | some m => do
              refer node (.member m)
              valueType e run m
          | none => noMember e domain x
      | none =>
          match domain with
          | .parameter _ => pure .error
          | _ => noMember e domain x

def checkEach : List (NodeId × Ty × Ty) → CheckM Unit
  | [] => pure ()
  | (value, found, expected) :: rest => do
      expect e expected found value
      checkEach rest

def arguments (node : NodeId) (args : List NodeId) (inputs found : List Ty) : CheckM Unit :=
  if inputs.length ≠ found.length then
    complain e (e.tree.site node) (.arity inputs.length found.length)
  else checkEach e (args.zip (found.zip inputs))

def parameterCount (t : Tree) (d : NodeId) : Option Nat :=
  match t.kind d with
  | .init _ ps _ _ => some ps.length
  | .subscript _ _ ps _ _ => some ps.length
  | _ => none

/-- Of several candidates, the first with as many parameters as there are arguments, or else
the first. -/
def pick (t : Tree) (candidates : List NodeId) (count : Nat) : Option NodeId :=
  (candidates.find? fun d => parameterCount t d == some count).or candidates.head?

def construction (node callee : NodeId) (args : List NodeId) (d : NodeId) (found : List Ty) :
    CheckM Ty := do
  match pick e.tree (e.decls.initializersOf d) found.length with
  | none =>
      complain e (e.tree.site callee) (.noInitializer (.product d))
      return .product d
  | some i =>
      refer callee (.constructor i)
      match ← run (.signature i) with
      | .function inputs _ => arguments e node args inputs found
      | _ => pure ()
      return .product d

def call (node callee : NodeId) (args : List NodeId) (ctx : Context) : CheckM Ty := do
  let t ← run (.expr callee ctx)
  let found ← args.mapM fun a => run (.expr a ctx)
  match t with
  | .metatype (.product d) => construction e run node callee args d found
  | .metatype .error => return .error
  | .metatype a =>
      complain e (e.tree.site callee) (.notConstructible a)
      return .error
  | .function inputs output =>
      arguments e node args inputs found
      return output
  | .error => return .error
  | a =>
      complain e (e.tree.site callee) (.notCallable a)
      return .error

def subscript (node callee : NodeId) (args : List NodeId) (ctx : Context) : CheckM Ty := do
  let t ← run (.expr callee ctx)
  let found ← args.mapM fun a => run (.expr a ctx)
  match t with
  | .error => return .error
  | .parameter _ => return .error
  | _ =>
      let candidates := ((ownerOf e.tree t).map e.decls.subscriptsOf).getD []
      match pick e.tree candidates found.length with
      | none =>
          complain e (e.tree.site callee) (.noSubscript t)
          return .error
      | some s =>
          match ← run (.signature s) with
          | .function inputs output =>
              arguments e node args inputs found
              return output
          | _ => return .error

def builtinResult (op : String) : Ty → Ty → Option Builtin
  | .builtin a, .builtin b => builtinOperator op a b
  | _, _ => none

/-- An operator that is not built in is a member of the type on its left. -/
def memberOperator (node : NodeId) (op : Name) (lhs rhs : Ty) (rhsNode : NodeId) : CheckM Ty := do
  match (ownerOf e.tree lhs).bind fun o => e.decls.member o op.text with
  | some d =>
      refer node (.member d)
      match ← run (.signature d) with
      | .function [operand] output =>
          expect e operand rhs rhsNode
          return output
      | .function _ output =>
          complain e op.site (.operandCount op.text)
          return output
      | _ => return .error
  | none =>
      match lhs with
      | .parameter _ => return .error
      | _ =>
          complain e op.site (.operands op.text lhs rhs)
          return .error

def binary (node l : NodeId) (op : Name) (r : NodeId) (ctx : Context) : CheckM Ty := do
  let lhs ← run (.expr l ctx)
  let rhs ← run (.expr r ctx)
  match lhs, rhs with
  | .error, _ => return .error
  | _, .error => return .error
  | _, _ =>
      match builtinResult op.text lhs rhs with
      | some b =>
          refer node (.builtin op.text)
          return .builtin b
      | none => memberOperator e run node op lhs rhs r

def expr (node : NodeId) (ctx : Context) : CheckM Ty := do
  let t ← match e.tree.kind node with
    | .int _ => pure (.builtin .int)
    | .float _ => pure (.builtin .float)
    | .string _ => pure (.builtin .string)
    | .bool _ => pure (.builtin .bool)
    | .name (some d) x => do
        let domain ← run (.expr d ctx)
        qualified e run node domain x
    | .name none x => unqualified e run node x ctx
    | .call callee args => call e run node callee (args.map (·.2)) ctx
    | .subscriptCall callee args => subscript e run node callee (args.map (·.2)) ctx
    | .binary l op r => binary e run node l op r ctx
    | .tuple es => do
        let ts ← es.mapM fun n => run (.expr n ctx)
        pure (.ofElements ts)
    | _ => pure .error
  setType node t
  return t

end LanguageService.Check
