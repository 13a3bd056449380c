import LanguageService.Proofs.NestedDecl
import LanguageService.Proofs.Soundness

namespace LanguageService

namespace Surface

def isInfix (x : String) : Bool := decide (level x < precedence.length)

theorem not_isInfix_of_isWordStart {c : Char} {cs : List Char} (hc : Lexer.isWordStart c = true) :
    isInfix (String.ofList (c :: cs)) = false := by
  have hops : ∀ ops ∈ precedence, ∀ op ∈ ops, op.toList.head?.any Lexer.isWordStart = false := by
    decide
  refine decide_eq_false fun hlevel => ?_
  obtain ⟨ops, hmem, hop⟩ := List.findIdx_lt_length.mp hlevel
  have hnone := hops ops hmem _ (List.contains_iff_mem.mp hop)
  rw [String.toList_ofList, List.head?_cons, Option.any_some, hc] at hnone
  cases hnone

def Lettered (T : List Token) : Prop := ∀ x, Token.ident x ∈ T → isInfix x = false

theorem lettered_tokens (text : List Char) : Lettered ((Lexer.tokens text).map (·.token)) := by
  intro x hx
  obtain ⟨y, hy, hident⟩ := List.mem_map.mp hx
  obtain ⟨_, w, after, hstands⟩ := Lexer.standsIn_of_mem_tokens hy
  have hpicks := hstands.picks
  rw [hident] at hpicks
  generalize ht : Token.ident x = t at hpicks
  cases hpicks with
  | @rule r w hchosen =>
      obtain rfl : r = .ident := by cases r <;> first | rfl | cases ht
      cases ht
      obtain ⟨c, cs, rfl, hc, -⟩ := hchosen.isMatch
      exact not_isInfix_of_isWordStart hc
  | character _ _ _ => cases ht
  | unterminated _ _ _ _ => cases ht

theorem Lettered.name {T : List Token} {lo hi : Nat} {x : Name} (h : Lettered T)
    (hx : Between T lo hi x.spelled) : isInfix x.text = false := by
  obtain ⟨a, ts, -, -, ⟨before, after, htokens, -⟩, -, hword⟩ := hx
  obtain rfl : ts = [.ident x.text] := hword
  exact h x.text (by simp [htokens])

end Surface

def Kind.isLettered : Kind → Bool
  | .binary _ op _ => Surface.isInfix op.text
  | .typeAlias _ x _ => !Surface.isInfix x.text
  | _ => true

def Tree.Lettered (t : Tree) : Prop := ∀ i, (t.kind i).isLettered = true

namespace Lowering

open Surface (Between Spread Spelling)

variable {α β γ : Type}

def Letters (m : Lowering α) : Prop := ∀ t : Tree, t.Lettered → (m t).2.Lettered

theorem Letters.pure (a : α) : Letters (Pure.pure a) := fun _ ht => ht

theorem Letters.bind {m : Lowering α} {f : α → Lowering β} (hm : Letters m)
    (hf : ∀ a, Letters (f a)) : Letters (m >>= f) :=
  fun t ht => hf _ _ (hm t ht)

theorem Letters.insert {k : Kind} {s : Site} (hk : k.isLettered = true) : Letters (insert k s) := by
  intro t ht i
  change ((t.insert k s).2.kind i).isLettered = true
  rw [Tree.kind_insert]
  split
  · exact hk
  · exact ht i

theorem Letters.list {g : γ → Lowering α} {gs : List γ → Lowering (List α)}
    (hnil : gs [] = Pure.pure [])
    (hcons : ∀ e es, gs (e :: es) = do
      let a ← g e
      let as ← gs es
      return a :: as)
    {es : List γ} (hes : ∀ e ∈ es, Letters (g e)) : Letters (gs es) := by
  induction es with
  | nil =>
      rw [hnil]
      exact .pure []
  | cons e es ih =>
      rw [List.forall_mem_cons] at hes
      rw [hcons]
      exact .bind hes.1 fun _ => .bind (ih hes.2) fun _ => .pure _

theorem Letters.optional {g : γ → Lowering α} {go : Option γ → Lowering (Option α)}
    (hnone : go none = Pure.pure none) (hsome : ∀ e, go (some e) = do return some (← g e))
    {o : Option γ} (ho : ∀ e ∈ o, Letters (g e)) : Letters (go o) := by
  cases o with
  | none =>
      rw [hnone]
      exact .pure none
  | some e =>
      rw [hsome]
      exact .bind (ho e rfl) fun _ => .pure _

variable {l : Layout}

mutual

theorem typeExpr_letters : ∀ e : Surface.TypeExpr, Letters (typeExpr l e)
  | .name s x => by
      rw [typeExpr]
      exact .insert rfl
  | .tuple s es => by
      rw [typeExpr]
      exact .bind (typeExprs_letters es) fun _ => .insert rfl

theorem typeExprs_letters : ∀ es : List Surface.TypeExpr, Letters (typeExprs l es)
  | [] => by
      rw [typeExprs]
      exact .pure []
  | e :: es => by
      rw [typeExprs]
      exact .bind (typeExpr_letters e) fun _ => .bind (typeExprs_letters es) fun _ => .pure _

end

theorem typeExpr?_letters (o : Option Surface.TypeExpr) : Letters (typeExpr? l o) :=
  .optional (g := typeExpr l) rfl (fun _ => rfl) fun e _ => typeExpr_letters e

mutual

theorem pattern_letters : ∀ p : Surface.Pattern, Letters (pattern l p)
  | .name s x => by
      rw [pattern]
      exact .bind (.insert rfl) fun _ => .insert rfl
  | .tuple s es => by
      rw [pattern]
      exact .bind (patterns_letters es) fun _ => .insert rfl
  | .wildcard s => by
      rw [pattern]
      exact .insert rfl

theorem patterns_letters : ∀ ps : List Surface.Pattern, Letters (patterns l ps)
  | [] => by
      rw [patterns]
      exact .pure []
  | p :: ps => by
      rw [patterns]
      exact .bind (pattern_letters p) fun _ => .bind (patterns_letters ps) fun _ => .pure _

end

theorem generics_letters (xs : List Surface.Name) : Letters (generics l xs) :=
  .list (g := fun x => insert (.generic (l.name x)) (l.site x.span)) rfl (fun _ _ => rfl)
    fun _ _ => .insert rfl

theorem params_letters (ps : List Surface.Param) : Letters (params l ps) :=
  .list (g := param l) rfl (fun _ _ => rfl) fun p _ =>
    .bind (typeExpr?_letters p.ascription) fun _ => .insert rfl

theorem memberwise_letters (ms : List Surface.Decl) : Letters (memberwise ms) := by
  rw [memberwise]
  split
  · exact .pure none
  · refine .bind (.list (g := fun x => insert (.parameter ⟨x, .synthesized⟩ none) .synthesized) rfl
      (fun _ _ => rfl) fun _ _ => .insert rfl) fun _ => ?_
    exact .bind (.insert rfl) fun _ => .pure _

variable {lo hi : Nat}

mutual

theorem expr_letters : ∀ (e : Surface.Expr) {lo hi : Nat}, Between l.tokens lo hi e.spelled →
    Letters (expr l e)
  | .literal s (.int x), _, _, _ => by
      rw [expr]
      exact .insert rfl
  | .literal s (.float x), _, _, _ => by
      rw [expr]
      exact .insert rfl
  | .literal s (.string x), _, _, _ => by
      rw [expr]
      exact .insert rfl
  | .literal s (.bool b), _, _, _ => by
      rw [expr]
      exact .insert rfl
  | .name s none x, _, _, _ => by
      rw [expr]
      exact .insert rfl
  | .name s (some d) x, _, _, h => by
      obtain ⟨a, b, -, -, -, -, hcore⟩ := Between.spanning h
      obtain ⟨mid, hd, -⟩ := Between.append hcore.enclosed
      rw [expr]
      exact .bind (expr_letters d hd.of_operand) fun _ => .insert rfl
  | .call s c as, _, _, h => by
      obtain ⟨a, b, -, -, -, -, hcore⟩ := Between.spanning h
      obtain ⟨mid, hc, has⟩ := Between.append hcore.enclosed
      have has := has.inner.2
      rw [Surface.Expr.argSpellings_eq_map] at has
      rw [expr]
      exact .bind (expr_letters c hc.of_operand) fun _ =>
        .bind (args_letters as (Surface.spread_listedTrailing has)) fun _ => .insert rfl
  | .subscript s c as, _, _, h => by
      obtain ⟨a, b, -, -, -, -, hcore⟩ := Between.spanning h
      obtain ⟨mid, hc, has⟩ := Between.append hcore.enclosed
      have has := has.inner.2
      rw [Surface.Expr.argSpellings_eq_map] at has
      rw [expr]
      exact .bind (expr_letters c hc.of_operand) fun _ =>
        .bind (args_letters as (Surface.spread_listedTrailing has)) fun _ => .insert rfl
  | .binary s lhs op rhs, _, _, h => by
      obtain ⟨a, b, -, -, -, -, hcore⟩ := Between.spanning h
      have hcore := hcore.enclosed
      obtain ⟨_, _, -, -, -, hlevel, -⟩ := id hcore
      obtain ⟨mid, hlhs, hrest⟩ := Between.append (hcore.mono fun _ _ hgiven => hgiven.2)
      obtain ⟨mid', -, hrhs⟩ := Between.append hrest
      rw [expr]
      exact .bind (expr_letters lhs hlhs.of_operand) fun _ =>
        .bind (expr_letters rhs hrhs.of_operand) fun _ => .insert (decide_eq_true hlevel)
  | .tuple s es, _, _, h => by
      obtain ⟨a, b, -, -, -, -, hcore⟩ := Between.spanning h
      have hes := (Between.inner (hcore.enclosed.mono fun _ _ hgiven => hgiven.2)).2
      rw [Surface.Expr.spellings_eq_map] at hes
      rw [expr]
      exact .bind (exprs_letters es (Surface.spread_listedTrailing hes)) fun _ => .insert rfl

theorem args_letters : ∀ (as : List (Option Surface.Name × Surface.Expr)) {lo hi : Nat},
    Spread l.tokens Surface.Arg.spelled lo hi as → Letters (args l as)
  | [], _, _, _ => by
      rw [args]
      exact .pure []
  | (label, e) :: as, _, _, h => by
      obtain ⟨mid, ha, has⟩ := h
      obtain ⟨mid', -, he⟩ := Between.append ha
      rw [args]
      exact .bind (expr_letters e he) fun _ => .bind (args_letters as has) fun _ => .pure _

theorem exprs_letters : ∀ (es : List Surface.Expr) {lo hi : Nat},
    Spread l.tokens Surface.Expr.spelled lo hi es → Letters (exprs l es)
  | [], _, _, _ => by
      rw [exprs]
      exact .pure []
  | e :: es, _, _, h => by
      obtain ⟨mid, he, hes⟩ := h
      rw [exprs]
      exact .bind (expr_letters e he) fun _ => .bind (exprs_letters es hes) fun _ => .pure _

end

theorem expr?_letters {o : Option Surface.Expr}
    (h : Spread l.tokens Surface.Expr.spelled lo hi o.toList) : Letters (expr? l o) := by
  cases o with
  | none => exact .pure none
  | some e =>
      obtain ⟨mid, he, -⟩ := h
      exact .bind (expr_letters e he) fun _ => .pure _

theorem binding_letters {s : Site} {b : Surface.Binding} (h : Between l.tokens lo hi b.spelled) :
    Letters (binding l s b) := by
  obtain ⟨mid, -, hvalue⟩ := Between.append h
  exact .bind (pattern_letters b.pattern) fun _ => .bind (typeExpr?_letters b.ascription) fun _ =>
    .bind (.insert rfl) fun _ => .bind (expr?_letters (spread_assigned hvalue)) fun _ =>
      .insert rfl

mutual

theorem stmt_letters : ∀ (x : Surface.Stmt) {lo hi : Nat}, Between l.tokens lo hi x.spelled →
    Letters (stmt l x)
  | .brace s ss, _, _, h => by
      obtain ⟨a, b, -, -, -, -, hss⟩ := Between.spanning h
      have hss := hss.inner.2
      rw [Surface.Stmt.spellings_eq_map] at hss
      rw [stmt]
      exact .bind (stmts_letters ss (Surface.spread_items hss)) fun _ => .insert rfl
  | .ret s k v, _, _, h => by
      obtain ⟨a, b, -, -, -, -, h⟩ := Between.spanning h
      obtain ⟨mid, -, hv⟩ := Between.append h
      rw [stmt]
      exact .bind (expr?_letters (Surface.spread_optional hv)) fun _ => .insert rfl
  | .loop s k e x, _, _, h => by
      obtain ⟨a, b, -, -, -, -, h⟩ := Between.spanning h
      obtain ⟨mid, h, hx⟩ := Between.append h
      obtain ⟨mid', -, he⟩ := Between.append h
      rw [stmt]
      exact .bind (expr_letters e he) fun _ => .bind (stmt_letters x hx) fun _ => .insert rfl
  | .cond s k e yes none, _, _, h => by
      obtain ⟨a, b, -, -, -, -, h⟩ := Between.spanning h
      obtain ⟨mid, h, hyes⟩ := Between.append h
      obtain ⟨mid', -, he⟩ := Between.append h
      rw [stmt]
      exact .bind (expr_letters e he) fun _ => .bind (stmt_letters yes hyes) fun _ => .insert rfl
  | .cond s k e yes (some (other, no)), _, _, h => by
      obtain ⟨a, b, -, -, -, -, h⟩ := Between.spanning h
      obtain ⟨m₁, h, hfailure⟩ := Between.append h
      obtain ⟨m₂, h, hyes⟩ := Between.append h
      obtain ⟨m₃, -, he⟩ := Between.append h
      obtain ⟨m₄, -, hno⟩ := Between.append hfailure
      rw [stmt]
      exact .bind (expr_letters e he) fun _ => .bind (stmt_letters yes hyes) fun _ =>
        .bind (stmt_letters no hno) fun _ => .insert rfl
  | .assign s x y, _, _, h => by
      obtain ⟨a, b, -, -, -, -, h⟩ := Between.spanning h
      obtain ⟨mid, hx, h⟩ := Between.append h
      obtain ⟨mid', -, hy⟩ := Between.append h
      rw [stmt]
      exact .bind (expr_letters x hx) fun _ => .bind (expr_letters y hy) fun _ => .insert rfl
  | .expr s e, _, _, h => by
      obtain ⟨a, b, -, -, -, -, he⟩ := Between.spanning h
      rw [stmt]
      exact .bind (expr_letters e he) fun _ => .insert rfl
  | .binding s d, _, _, h => by
      obtain ⟨a, b, -, -, -, -, hd⟩ := Between.spanning h
      rw [stmt]
      exact .bind (binding_letters hd) fun _ => .insert rfl

theorem stmts_letters : ∀ (ss : List Surface.Stmt) {lo hi : Nat},
    Spread l.tokens Surface.Stmt.spelled lo hi ss → Letters (stmts l ss)
  | [], _, _, _ => by
      rw [stmts]
      exact .pure []
  | x :: ss, _, _, h => by
      obtain ⟨mid, hx, hss⟩ := h
      rw [stmts]
      exact .bind (stmt_letters x hx) fun _ => .bind (stmts_letters ss hss) fun _ => .pure _

end

theorem stmt?_letters {o : Option Surface.Stmt}
    (h : Between l.tokens lo hi (.optional Surface.Stmt.spelled o)) : Letters (stmt? l o) := by
  cases o with
  | none => exact .pure none
  | some x => exact .bind (stmt_letters x h) fun _ => .pure _

theorem variants_letters : ∀ (vs : List Surface.Variant) {lo hi : Nat},
    Spread l.tokens Surface.Variant.spelled lo hi vs → Letters (variants l vs)
  | [], _, _, _ => .pure []
  | v :: vs, _, _, h => by
      obtain ⟨mid, hv, hvs⟩ := h
      obtain ⟨a, b, -, -, -, -, hv⟩ := Between.spanning hv
      obtain ⟨mid', -, hbody⟩ := Between.append hv
      exact .bind (stmt_letters v.body hbody) fun _ => .bind (.insert rfl) fun _ =>
        .bind (variants_letters vs hvs) fun _ => .pure _

theorem spread_members {ms : List Surface.Decl}
    (h : Between l.tokens lo hi (Spelling.items (Surface.Decl.spellings ms)).inBraces) :
    Spread l.tokens Surface.Decl.spelled lo hi ms := by
  obtain ⟨-, hms⟩ := Between.inner h
  rw [Surface.Decl.spellings_eq_map] at hms
  exact Surface.spread_items hms

mutual

theorem decl_letters (hl : Surface.Lettered l.tokens) : ∀ (d : Surface.Decl) {lo hi : Nat},
    Between l.tokens lo hi d.spelled → Letters (decl l d)
  | .space s k x ms, _, _, h => by
      obtain ⟨a, b, -, -, -, -, h⟩ := Between.spanning h
      obtain ⟨mid, -, hms⟩ := Between.append h
      rw [decl]
      exact .bind (decls_letters hl ms (spread_members hms)) fun _ => .insert rfl
  | .product s k x gs ms, _, _, h => by
      obtain ⟨a, b, -, -, -, -, h⟩ := Between.spanning h
      obtain ⟨mid, -, hms⟩ := Between.append h
      rw [decl]
      exact .bind (generics_letters gs) fun _ =>
        .bind (decls_letters hl ms (spread_members hms)) fun _ =>
          .bind (memberwise_letters ms) fun _ => .insert rfl
  | .associated s k x, _, _, _ => by
      rw [decl]
      exact .insert rfl
  | .extension s k t ms, _, _, h => by
      obtain ⟨a, b, -, -, -, -, h⟩ := Between.spanning h
      obtain ⟨mid, -, hms⟩ := Between.append h
      rw [decl]
      exact .bind (typeExpr_letters t) fun _ =>
        .bind (decls_letters hl ms (spread_members hms)) fun _ => .insert rfl
  | .conformance s k t ts ms, _, _, h => by
      obtain ⟨a, b, -, -, -, -, h⟩ := Between.spanning h
      obtain ⟨mid, -, hms⟩ := Between.append h
      rw [decl]
      exact .bind (typeExpr_letters t) fun _ => .bind (typeExprs_letters ts) fun _ =>
        .bind (decls_letters hl ms (spread_members hms)) fun _ => .insert rfl
  | .trait s k x ms, _, _, h => by
      obtain ⟨a, b, -, -, -, -, h⟩ := Between.spanning h
      obtain ⟨mid, -, hms⟩ := Between.append h
      rw [decl]
      exact .bind (decls_letters hl ms (spread_members hms)) fun _ => .insert rfl
  | .typeAlias s k x t, _, _, h => by
      obtain ⟨a, b, -, -, -, -, h⟩ := Between.spanning h
      obtain ⟨m₂, h, -⟩ := Between.append h
      obtain ⟨m₁, h, -⟩ := Between.append h
      obtain ⟨m, -, hx⟩ := Between.append h
      have hname : Surface.isInfix (l.name x).text = false := hl.name hx
      rw [decl]
      exact .bind (typeExpr_letters t) fun _ => .insert (by simp [Kind.isLettered, hname])
  | .operator s k f fs x, _, _, _ => by
      rw [decl]
      exact .insert rfl
  | .function s k x gs ps t body, _, _, h => by
      obtain ⟨a, b, -, -, -, -, h⟩ := Between.spanning h
      obtain ⟨mid, -, hbody⟩ := Between.append h
      match body, hbody with
      | some (.bundle vs), hbody =>
          rw [decl]
          exact .bind (generics_letters gs) fun _ => .bind (params_letters ps) fun _ =>
            .bind (typeExpr?_letters t) fun _ =>
              .bind (variants_letters vs (Surface.spread_all (Between.inner hbody).2)) fun _ =>
                .insert rfl
      | some (.block x), hbody =>
          rw [decl]
          exact .bind (generics_letters gs) fun _ => .bind (params_letters ps) fun _ =>
            .bind (typeExpr?_letters t) fun _ => .bind (stmt_letters x hbody) fun _ => .insert rfl
      | none, _ =>
          rw [decl]
          exact .bind (generics_letters gs) fun _ => .bind (params_letters ps) fun _ =>
            .bind (typeExpr?_letters t) fun _ => .insert rfl
  | .init s k ps body, _, _, h => by
      obtain ⟨a, b, -, -, -, -, h⟩ := Between.spanning h
      obtain ⟨mid, -, hbody⟩ := Between.append h
      rw [decl]
      exact .bind (params_letters ps) fun _ => .bind (stmt?_letters hbody) fun _ => .insert rfl
  | .subscript s k x ps t body, _, _, h => by
      obtain ⟨a, b, -, -, -, -, h⟩ := Between.spanning h
      obtain ⟨mid, -, hbody⟩ := Between.append h
      rw [decl]
      exact .bind (params_letters ps) fun _ => .bind (typeExpr_letters t) fun _ =>
        .bind (stmt?_letters hbody) fun _ => .insert rfl
  | .binding s d, _, _, h => by
      obtain ⟨a, b, -, -, -, -, hd⟩ := Between.spanning h
      rw [decl]
      exact binding_letters hd

theorem decls_letters (hl : Surface.Lettered l.tokens) : ∀ (ds : List Surface.Decl) {lo hi : Nat},
    Spread l.tokens Surface.Decl.spelled lo hi ds → Letters (decls l ds)
  | [], _, _, _ => by
      rw [decls]
      exact .pure []
  | d :: ds, _, _, h => by
      obtain ⟨mid, hd, hds⟩ := h
      rw [decls]
      exact .bind (decl_letters hl d hd) fun _ => .bind (decls_letters hl ds hds) fun _ => .pure _

end

end Lowering

namespace Tree

variable {t t' : Tree}

theorem Lettered.operator_ne_alias (h : t.Lettered) {n l r d k : NodeId} {op x : Name}
    {introducer : Site} (hn : t.kind n = .binary l op r)
    (hd : t.kind d = .typeAlias introducer x k) : op.text ≠ x.text := by
  intro heq
  have hop := h n
  have hx := h d
  rw [hn, Kind.isLettered] at hop
  rw [hd, Kind.isLettered, ← heq, hop] at hx
  cases hx

theorem parseUnit_lettered {f : File} {u : NodeId} (h : t.parseUnit f = .ok (u, t'))
    (ht : t.Lettered) : t'.Lettered := by
  simp only [parseUnit] at h
  split at h
  · next ds hparse =>
      split at h
      · have hl : Surface.Lettered (Layout.ofFile f).tokens := by
          simpa [Layout.tokens, Layout.ofFile] using Surface.lettered_tokens f.text.toList
        have hfile : Surface.Between (Layout.ofFile f).tokens 0 (Layout.ofFile f).tokens.length
            (Surface.fileSpelled ds) :=
          ⟨0, _, Nat.le_refl _, by omega, .all _, Surface.parse_spelled hparse⟩
        have hunit : Lowering.Letters (Lowering.unit (Layout.ofFile f) ds) :=
          .bind (Lowering.decls_letters hl ds (Surface.spread_items hfile)) fun _ => .insert rfl
        have hlettered := hunit t ht
        rw [Except.ok.injEq] at h
        rwa [h] at hlettered
      · cases h
  · cases h

theorem parseUnits_lettered (files : List File) (t : Tree) (ht : t.Lettered) :
    (t.parseUnits files).2.2.Lettered := by
  induction files generalizing t with
  | nil => exact ht
  | cons f fs ih =>
      rw [parseUnits]
      split
      · next u t₁ hunit => exact ih t₁ (parseUnit_lettered hunit ht)
      · exact ih t ht

theorem kind_addModule (t : Tree) (m i : NodeId) : (t.addModule m).kind i = t.kind i := by
  cases t <;> rfl

theorem parseModule_lettered {base : Tree} {name : String} {files : List File}
    (h : parseModule base name files = .ok t) (hbase : base.Lettered) : t.Lettered := by
  have hextending : (extending base).Lettered := fun i => by
    rw [kind_extending]
    exact hbase i
  have hunits := parseUnits_lettered files _ hextending
  simp only [parseModule] at h
  split at h
  · rw [Except.ok.injEq] at h
    subst h
    intro i
    rw [kind_addModule]
    exact Lowering.Letters.insert (k := .module name _) (s := .synthesized) rfl _ hunits i
  · cases h

theorem Parsed.lettered (h : t.Parsed) : t.Lettered := by
  induction h with
  | empty => exact fun _ => rfl
  | module _ h ih => exact parseModule_lettered h ih

end Tree

end LanguageService
