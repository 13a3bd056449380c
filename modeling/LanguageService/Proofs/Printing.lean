import LanguageService.Surface.Grammar
import LanguageService.Token.Lexer

namespace LanguageService.Surface

def Span.zero : Span := ⟨0, 0⟩

def Name.erase (x : Name) : Name := ⟨x.text, .zero⟩

mutual

def TypeExpr.erase : TypeExpr → TypeExpr
  | .name _ x => .name .zero x.erase
  | .tuple _ es => .tuple .zero (TypeExpr.eraseAll es)

def TypeExpr.eraseAll : List TypeExpr → List TypeExpr
  | [] => []
  | e :: es => e.erase :: TypeExpr.eraseAll es

end

theorem TypeExpr.eraseAll_eq_map (es : List TypeExpr) :
    TypeExpr.eraseAll es = es.map TypeExpr.erase := by
  induction es with
  | nil => rfl
  | cons e es ih => rw [TypeExpr.eraseAll, ih, List.map_cons]

mutual

def Expr.erase : Expr → Expr
  | .literal _ v => .literal .zero v
  | .name _ none x => .name .zero none x.erase
  | .name _ (some d) x => .name .zero (some d.erase) x.erase
  | .call _ c as => .call .zero c.erase (Expr.eraseArgs as)
  | .subscript _ c as => .subscript .zero c.erase (Expr.eraseArgs as)
  | .binary _ l op r => .binary .zero l.erase op.erase r.erase
  | .tuple _ es => .tuple .zero (Expr.eraseAll es)

def Expr.eraseArgs : List (Option Name × Expr) → List (Option Name × Expr)
  | [] => []
  | (label, e) :: as => (label.map Name.erase, e.erase) :: Expr.eraseArgs as

def Expr.eraseAll : List Expr → List Expr
  | [] => []
  | e :: es => e.erase :: Expr.eraseAll es

end

def Arg.erase (a : Arg) : Arg := (a.1.map Name.erase, a.2.erase)

theorem Expr.eraseArgs_eq_map (as : List Arg) : Expr.eraseArgs as = as.map Arg.erase := by
  induction as with
  | nil => rfl
  | cons a as ih => rw [Expr.eraseArgs, ih, List.map_cons, Arg.erase]

theorem Expr.eraseAll_eq_map (es : List Expr) : Expr.eraseAll es = es.map Expr.erase := by
  induction es with
  | nil => rfl
  | cons e es ih => rw [Expr.eraseAll, ih, List.map_cons]

@[simp]
theorem Expr.erase_withSpan (s : Span) (e : Expr) : (e.withSpan s).erase = e.erase := by
  cases e with
  | name _ d _ => cases d <;> rfl
  | _ => rfl

mutual

def Pattern.erase : Pattern → Pattern
  | .name _ x => .name .zero x.erase
  | .tuple _ es => .tuple .zero (Pattern.eraseAll es)
  | .wildcard _ => .wildcard .zero

def Pattern.eraseAll : List Pattern → List Pattern
  | [] => []
  | p :: ps => p.erase :: Pattern.eraseAll ps

end

theorem Pattern.eraseAll_eq_map (ps : List Pattern) :
    Pattern.eraseAll ps = ps.map Pattern.erase := by
  induction ps with
  | nil => rfl
  | cons p ps ih => rw [Pattern.eraseAll, ih, List.map_cons]

def Binding.erase (b : Binding) : Binding :=
  ⟨b.introducer, .zero, b.pattern.erase, b.ascription.map TypeExpr.erase,
    b.initializer.map Expr.erase⟩

mutual

def Stmt.erase : Stmt → Stmt
  | .brace _ ss => .brace .zero (Stmt.eraseAll ss)
  | .ret _ _ v => .ret .zero .zero (v.map Expr.erase)
  | .loop _ _ e b => .loop .zero .zero e.erase b.erase
  | .cond _ _ e yes none => .cond .zero .zero e.erase yes.erase none
  | .cond _ _ e yes (some (_, no)) =>
      .cond .zero .zero e.erase yes.erase (some (.zero, no.erase))
  | .assign _ l r => .assign .zero l.erase r.erase
  | .expr _ e => .expr .zero e.erase
  | .binding _ b => .binding .zero b.erase

def Stmt.eraseAll : List Stmt → List Stmt
  | [] => []
  | s :: ss => s.erase :: Stmt.eraseAll ss

end

theorem Stmt.eraseAll_eq_map (ss : List Stmt) : Stmt.eraseAll ss = ss.map Stmt.erase := by
  induction ss with
  | nil => rfl
  | cons s ss ih => rw [Stmt.eraseAll, ih, List.map_cons]

def Param.erase (p : Param) : Param := ⟨p.name.erase, p.ascription.map TypeExpr.erase⟩

def Variant.erase (v : Variant) : Variant := ⟨.zero, v.effect, .zero, v.body.erase⟩

def Body.erase : Body → Body
  | .block b => .block b.erase
  | .bundle vs => .bundle (vs.map Variant.erase)

mutual

def Decl.erase : Decl → Decl
  | .space _ _ x ms => .space .zero .zero x.erase (Decl.eraseAll ms)
  | .product _ _ x gs ms => .product .zero .zero x.erase (gs.map Name.erase) (Decl.eraseAll ms)
  | .associated _ _ x => .associated .zero .zero x.erase
  | .extension _ _ t ms => .extension .zero .zero t.erase (Decl.eraseAll ms)
  | .conformance _ _ t ts ms =>
      .conformance .zero .zero t.erase (ts.map TypeExpr.erase) (Decl.eraseAll ms)
  | .trait _ _ x ms => .trait .zero .zero x.erase (Decl.eraseAll ms)
  | .typeAlias _ _ x t => .typeAlias .zero .zero x.erase t.erase
  | .operator _ _ f _ x => .operator .zero .zero f .zero x.erase
  | .function _ _ x gs ps t b =>
      .function .zero .zero x.erase (gs.map Name.erase) (ps.map Param.erase)
        (t.map TypeExpr.erase) (b.map Body.erase)
  | .init _ _ ps b => .init .zero .zero (ps.map Param.erase) (b.map Stmt.erase)
  | .subscript _ _ x ps t b =>
      .subscript .zero .zero (x.map Name.erase) (ps.map Param.erase) t.erase (b.map Stmt.erase)
  | .binding _ b => .binding .zero b.erase

def Decl.eraseAll : List Decl → List Decl
  | [] => []
  | d :: ds => d.erase :: Decl.eraseAll ds

end

theorem Decl.eraseAll_eq_map (ds : List Decl) : Decl.eraseAll ds = ds.map Decl.erase := by
  induction ds with
  | nil => rfl
  | cons d ds ih => rw [Decl.eraseAll, ih, List.map_cons]

def lexesAs (t : Token) : Bool :=
  (Lexer.tokens t.display.toList).map (·.token) == [t]

def isIdent (x : String) : Bool := lexesAs (.ident x)

def isOperator (x : String) : Bool := lexesAs (.op x)

def commas : List (List Token) → List Token
  | [] => []
  | ts :: rest => ts ++ rest.flatMap (.punct .comma :: ·)

def inParens (ts : List Token) : List Token := .punct .lparen :: (ts ++ [.punct .rparen])

def inBrackets (ts : List Token) : List Token := .punct .lbracket :: (ts ++ [.punct .rbracket])

def inBraces (ts : List Token) : List Token := .punct .lbrace :: (ts ++ [.punct .rbrace])

mutual

def TypeExpr.print : TypeExpr → List Token
  | .name _ x => [.ident x.text]
  | .tuple _ es => inParens (commas (TypeExpr.printAll es))

def TypeExpr.printAll : List TypeExpr → List (List Token)
  | [] => []
  | e :: es => e.print :: TypeExpr.printAll es

end

theorem TypeExpr.printAll_eq_map (es : List TypeExpr) :
    TypeExpr.printAll es = es.map TypeExpr.print := by
  induction es with
  | nil => rfl
  | cons e es ih => rw [TypeExpr.printAll, ih, List.map_cons]

def Literal.print : Literal → Token
  | .int x => .int x
  | .float x => .float x
  | .string x => .string x
  | .bool true => .keyword .kwTrue
  | .bool false => .keyword .kwFalse

def level (op : String) : Nat := precedence.findIdx (·.contains op)

def Expr.looseness : Expr → Nat
  | .binary _ _ op _ => level op.text + 1
  | _ => 0

def Expr.within (e : Expr) (k : Nat) (ts : List Token) : List Token :=
  if e.looseness ≤ k then ts else inParens ts

def printValueName (x : String) : Token :=
  if x = "self" then .keyword .kwSelf else .ident x

def printLabel : Option Name → List Token
  | none => []
  | some x => [.ident x.text, .punct .colon]

mutual

def Expr.print : Expr → List Token
  | .literal _ v => [v.print]
  | .name _ none x => [printValueName x.text]
  | .name _ (some d) x => d.within 0 d.print ++ [.punct .dot, .ident x.text]
  | .call _ c as => c.within 0 c.print ++ inParens (commas (Expr.printArgs as))
  | .subscript _ c as => c.within 0 c.print ++ inBrackets (commas (Expr.printArgs as))
  | .binary _ l op r =>
      l.within (level op.text + 1) l.print ++ .op op.text :: r.within (level op.text) r.print
  | .tuple _ es => inParens (commas (Expr.printAll es))

def Expr.printArgs : List (Option Name × Expr) → List (List Token)
  | [] => []
  | (label, e) :: as => (printLabel label ++ e.print) :: Expr.printArgs as

def Expr.printAll : List Expr → List (List Token)
  | [] => []
  | e :: es => e.print :: Expr.printAll es

end

def Arg.print (a : Arg) : List Token := printLabel a.1 ++ a.2.print

theorem Expr.printArgs_eq_map (as : List Arg) : Expr.printArgs as = as.map Arg.print := by
  induction as with
  | nil => rfl
  | cons a as ih => rw [Expr.printArgs, ih, List.map_cons, Arg.print]

theorem Expr.printAll_eq_map (es : List Expr) : Expr.printAll es = es.map Expr.print := by
  induction es with
  | nil => rfl
  | cons e es ih => rw [Expr.printAll, ih, List.map_cons]

mutual

def Pattern.print : Pattern → List Token
  | .name _ x => [.ident x.text]
  | .tuple _ es => inParens (commas (Pattern.printAll es))
  | .wildcard _ => [.keyword .kwUnderscore]

def Pattern.printAll : List Pattern → List (List Token)
  | [] => []
  | p :: ps => p.print :: Pattern.printAll ps

end

theorem Pattern.printAll_eq_map (ps : List Pattern) :
    Pattern.printAll ps = ps.map Pattern.print := by
  induction ps with
  | nil => rfl
  | cons p ps ih => rw [Pattern.printAll, ih, List.map_cons]

def printOptional {α : Type} (print : α → List Token) (a : Option α) : List Token :=
  (a.map print).getD []

def printAscription (t : TypeExpr) : List Token := .punct .colon :: t.print

def printAssigned (e : Expr) : List Token := .punct .assign :: e.print

def Introducer.print : Introducer → Token
  | .byLet => .keyword .kwLet
  | .byVar => .keyword .kwVar
  | .byInout => .keyword .kwInout
  | .bySink => .keyword .kwSink

def Effect.print : Effect → Token
  | .onLet => .keyword .kwLet
  | .onInout => .keyword .kwInout
  | .onSet => .keyword .kwSet
  | .onSink => .keyword .kwSink

def Fixity.print : Fixity → Token
  | .between => .ident "infix"
  | .before => .ident "prefix"
  | .after => .ident "postfix"

def Binding.print (b : Binding) : List Token :=
  Introducer.print b.introducer ::
    (b.pattern.print ++ (printOptional printAscription b.ascription ++
      printOptional printAssigned b.initializer))

mutual

def Stmt.print : Stmt → List Token
  | .brace _ ss => inBraces (Stmt.printAll ss)
  | .ret _ _ v => .keyword .kwReturn :: printOptional Expr.print v
  | .loop _ _ e b => .keyword .kwWhile :: (e.print ++ b.print)
  | .cond _ _ e yes none => .keyword .kwIf :: (e.print ++ yes.print)
  | .cond _ _ e yes (some (_, no)) =>
      .keyword .kwIf :: (e.print ++ (yes.print ++ .keyword .kwElse :: no.print))
  | .assign _ l r => l.print ++ .punct .assign :: r.print
  | .expr _ e => e.print
  | .binding _ b => b.print

def Stmt.printAll : List Stmt → List Token
  | [] => []
  | s :: ss => s.print ++ .punct .semi :: Stmt.printAll ss

end

theorem Stmt.printAll_eq_flatMap (ss : List Stmt) :
    Stmt.printAll ss = ss.flatMap fun s => s.print ++ [.punct .semi] := by
  induction ss with
  | nil => rfl
  | cons s ss ih => rw [Stmt.printAll, ih, List.flatMap_cons, List.append_assoc]; rfl

def printGenerics (gs : List Name) : List Token :=
  if gs.isEmpty then []
  else .op "<" :: (commas (gs.map fun x => [.ident x.text]) ++ [.op ">"])

def Param.print (p : Param) : List Token :=
  .ident p.name.text :: printOptional printAscription p.ascription

def printParams (ps : List Param) : List Token := inParens (commas (ps.map Param.print))

def Variant.print (v : Variant) : List Token := Effect.print v.effect :: v.body.print

def Body.print : Body → List Token
  | .block b => b.print
  | .bundle vs => inBraces (vs.flatMap Variant.print)

def printOutput (t : TypeExpr) : List Token := .punct .arrow :: t.print

def printFunctionName (x : String) : Token := if isOperator x then .op x else .ident x

mutual

def Decl.print : Decl → List Token
  | .space _ _ x ms => .keyword .kwNamespace :: .ident x.text :: inBraces (Decl.printAll ms)
  | .product _ _ x gs ms =>
      .keyword .kwType :: .ident x.text :: (printGenerics gs ++ inBraces (Decl.printAll ms))
  | .associated _ _ x => [.keyword .kwType, .ident x.text]
  | .extension _ _ t ms => .keyword .kwExtension :: (t.print ++ inBraces (Decl.printAll ms))
  | .conformance _ _ t ts ms =>
      .keyword .kwConformance :: (t.print ++ .punct .colon ::
        (commas (ts.map TypeExpr.print) ++ inBraces (Decl.printAll ms)))
  | .trait _ _ x ms => .keyword .kwTrait :: .ident x.text :: inBraces (Decl.printAll ms)
  | .typeAlias _ _ x t =>
      .keyword .kwTypealias :: .ident x.text :: .punct .assign :: t.print
  | .operator _ _ f _ x => [.keyword .kwOperator, Fixity.print f, .op x.text]
  | .function _ _ x gs ps t b =>
      .keyword .kwFun :: printFunctionName x.text ::
        (printGenerics gs ++ (printParams ps ++ (printOptional printOutput t ++
          printOptional Body.print b)))
  | .init _ _ ps b => .keyword .kwInit :: (printParams ps ++ printOptional Stmt.print b)
  | .subscript _ _ x ps t b =>
      .keyword .kwSubscript :: (printOptional (fun x => [.ident x.text]) x ++
        (printParams ps ++ (printAscription t ++ printOptional Stmt.print b)))
  | .binding _ b => b.print

def Decl.printAll : List Decl → List Token
  | [] => []
  | d :: ds => d.print ++ .punct .semi :: Decl.printAll ds

end

theorem Decl.printAll_eq_flatMap (ds : List Decl) :
    Decl.printAll ds = ds.flatMap fun d => d.print ++ [.punct .semi] := by
  induction ds with
  | nil => rfl
  | cons d ds ih => rw [Decl.printAll, ih, List.flatMap_cons, List.append_assoc]; rfl

mutual

def TypeExpr.wellFormed : TypeExpr → Bool
  | .name _ x => isIdent x.text
  | .tuple _ es => TypeExpr.allWellFormed es

def TypeExpr.allWellFormed : List TypeExpr → Bool
  | [] => true
  | e :: es => e.wellFormed && TypeExpr.allWellFormed es

end

theorem TypeExpr.allWellFormed_eq_all (es : List TypeExpr) :
    TypeExpr.allWellFormed es = es.all TypeExpr.wellFormed := by
  induction es with
  | nil => rfl
  | cons e es ih => rw [TypeExpr.allWellFormed, ih, List.all_cons]

mutual

def Expr.wellFormed : Expr → Bool
  | .literal _ v => lexesAs v.print
  | .name _ none x => isIdent x.text || x.text == "self"
  | .name _ (some d) x => d.wellFormed && isIdent x.text
  | .call _ c as => c.wellFormed && Expr.argsWellFormed as
  | .subscript _ c as => c.wellFormed && Expr.argsWellFormed as
  | .binary _ l op r =>
      l.wellFormed && r.wellFormed && decide (level op.text < precedence.length)
  | .tuple _ es => decide (es.length ≠ 1) && Expr.allWellFormed es

def Expr.argsWellFormed : List (Option Name × Expr) → Bool
  | [] => true
  | (label, e) :: as => label.all (isIdent ·.text) && e.wellFormed && Expr.argsWellFormed as

def Expr.allWellFormed : List Expr → Bool
  | [] => true
  | e :: es => e.wellFormed && Expr.allWellFormed es

end

def Arg.wellFormed (a : Arg) : Bool := a.1.all (isIdent ·.text) && a.2.wellFormed

theorem Expr.argsWellFormed_eq_all (as : List Arg) :
    Expr.argsWellFormed as = as.all Arg.wellFormed := by
  induction as with
  | nil => rfl
  | cons a as ih => rw [Expr.argsWellFormed, ih, List.all_cons, Arg.wellFormed]

theorem Expr.allWellFormed_eq_all (es : List Expr) :
    Expr.allWellFormed es = es.all Expr.wellFormed := by
  induction es with
  | nil => rfl
  | cons e es ih => rw [Expr.allWellFormed, ih, List.all_cons]

mutual

def Pattern.wellFormed : Pattern → Bool
  | .name _ x => isIdent x.text
  | .tuple _ es => Pattern.allWellFormed es
  | .wildcard _ => true

def Pattern.allWellFormed : List Pattern → Bool
  | [] => true
  | p :: ps => p.wellFormed && Pattern.allWellFormed ps

end

theorem Pattern.allWellFormed_eq_all (ps : List Pattern) :
    Pattern.allWellFormed ps = ps.all Pattern.wellFormed := by
  induction ps with
  | nil => rfl
  | cons p ps ih => rw [Pattern.allWellFormed, ih, List.all_cons]

def Binding.wellFormed (b : Binding) : Bool :=
  b.pattern.wellFormed && b.ascription.all TypeExpr.wellFormed &&
    b.initializer.all Expr.wellFormed

def Stmt.isBrace : Stmt → Bool
  | .brace _ _ => true
  | _ => false

def Stmt.isCond : Stmt → Bool
  | .cond _ _ _ _ _ => true
  | _ => false

mutual

def Stmt.wellFormed : Stmt → Bool
  | .brace _ ss => Stmt.allWellFormed ss
  | .ret _ _ v => v.all Expr.wellFormed
  | .loop _ _ e b => e.wellFormed && b.isBrace && b.wellFormed
  | .cond _ _ e yes none => e.wellFormed && yes.isBrace && yes.wellFormed
  | .cond _ _ e yes (some (_, no)) =>
      e.wellFormed && yes.isBrace && yes.wellFormed && (no.isBrace || no.isCond) &&
        no.wellFormed
  | .assign _ l r => l.wellFormed && r.wellFormed
  | .expr _ e => e.wellFormed
  | .binding _ b => b.wellFormed

def Stmt.allWellFormed : List Stmt → Bool
  | [] => true
  | s :: ss => s.wellFormed && Stmt.allWellFormed ss

end

theorem Stmt.allWellFormed_eq_all (ss : List Stmt) :
    Stmt.allWellFormed ss = ss.all Stmt.wellFormed := by
  induction ss with
  | nil => rfl
  | cons s ss ih => rw [Stmt.allWellFormed, ih, List.all_cons]

def Stmt.isBody (s : Stmt) : Bool := s.isBrace && s.wellFormed

def Param.wellFormed (p : Param) : Bool :=
  isIdent p.name.text && p.ascription.all TypeExpr.wellFormed

def Body.wellFormed : Body → Bool
  | .block b => b.isBody
  | .bundle vs => !vs.isEmpty && vs.all (·.body.isBody)

def Decl.isAssociated : Decl → Bool
  | .associated _ _ _ => true
  | _ => false

def Decl.isRequirement : Decl → Bool
  | .associated _ _ _ => true
  | .function _ _ _ _ _ _ _ => true
  | .init _ _ _ _ => true
  | .subscript _ _ _ _ _ _ => true
  | _ => false

mutual

def Decl.wellFormed : Decl → Bool
  | .space _ _ x ms => isIdent x.text && Decl.membersWellFormed ms
  | .product _ _ x gs ms =>
      isIdent x.text && gs.all (isIdent ·.text) && Decl.membersWellFormed ms
  | .associated _ _ x => isIdent x.text
  | .extension _ _ t ms => t.wellFormed && Decl.membersWellFormed ms
  | .conformance _ _ t ts ms =>
      t.wellFormed && !ts.isEmpty && ts.all TypeExpr.wellFormed && Decl.membersWellFormed ms
  | .trait _ _ x ms => isIdent x.text && Decl.requirementsWellFormed ms
  | .typeAlias _ _ x t => isIdent x.text && t.wellFormed
  | .operator _ _ _ _ x => isOperator x.text
  | .function _ _ x gs ps t b =>
      (isIdent x.text || isOperator x.text) && gs.all (isIdent ·.text) &&
        ps.all Param.wellFormed && t.all TypeExpr.wellFormed && b.all Body.wellFormed
  | .init _ _ ps b => ps.all Param.wellFormed && b.all Stmt.isBody
  | .subscript _ _ x ps t b =>
      x.all (isIdent ·.text) && ps.all Param.wellFormed && t.wellFormed && b.all Stmt.isBody
  | .binding _ b => b.wellFormed

def Decl.membersWellFormed : List Decl → Bool
  | [] => true
  | d :: ds =>
      !d.isAssociated && d.wellFormed && Decl.membersWellFormed ds

def Decl.requirementsWellFormed : List Decl → Bool
  | [] => true
  | d :: ds => d.isRequirement && d.wellFormed && Decl.requirementsWellFormed ds

end

theorem Decl.membersWellFormed_eq_all (ds : List Decl) :
    Decl.membersWellFormed ds = ds.all fun d => !d.isAssociated && d.wellFormed := by
  induction ds with
  | nil => rfl
  | cons d ds ih => rw [Decl.membersWellFormed, ih, List.all_cons]

theorem Decl.requirementsWellFormed_eq_all (ds : List Decl) :
    Decl.requirementsWellFormed ds = ds.all fun d => d.isRequirement && d.wellFormed := by
  induction ds with
  | nil => rfl
  | cons d ds ih => rw [Decl.requirementsWellFormed, ih, List.all_cons]

end LanguageService.Surface
