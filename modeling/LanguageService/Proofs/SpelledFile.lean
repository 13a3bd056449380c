import LanguageService.Proofs.SpelledDecl
import LanguageService.Proofs.SpelledWithin

/-!
Every expression of a file is spelled by the tokens that its span delimits, and the operands of
an operator hold together as tightly as its precedence asks, or have parentheses around them.
-/
namespace LanguageService.Surface

open Spelling

mutual

def Expr.parts : Expr → List Expr
  | .literal s v => [.literal s v]
  | .name s none x => [.name s none x]
  | .name s (some d) x => .name s (some d) x :: d.parts
  | .call s c as => .call s c as :: (c.parts ++ Expr.argParts as)
  | .subscript s c as => .subscript s c as :: (c.parts ++ Expr.argParts as)
  | .binary s l op r => .binary s l op r :: (l.parts ++ r.parts)
  | .tuple s es => .tuple s es :: Expr.allParts es

def Expr.argParts : List (Option Name × Expr) → List Expr
  | [] => []
  | (_, e) :: as => e.parts ++ Expr.argParts as

def Expr.allParts : List Expr → List Expr
  | [] => []
  | e :: es => e.parts ++ Expr.allParts es

end

def Binding.exprs (b : Binding) : List Expr := b.initializer.toList.flatMap Expr.parts

mutual

def Stmt.exprs : Stmt → List Expr
  | .brace _ ss => Stmt.allExprs ss
  | .ret _ _ v => v.toList.flatMap Expr.parts
  | .loop _ _ e b => e.parts ++ b.exprs
  | .cond _ _ e yes none => e.parts ++ yes.exprs
  | .cond _ _ e yes (some (_, no)) => e.parts ++ yes.exprs ++ no.exprs
  | .assign _ l r => l.parts ++ r.parts
  | .expr _ e => e.parts
  | .binding _ b => b.exprs

def Stmt.allExprs : List Stmt → List Expr
  | [] => []
  | s :: ss => s.exprs ++ Stmt.allExprs ss

end

def Body.exprs : Body → List Expr
  | .block b => b.exprs
  | .bundle vs => vs.flatMap (·.body.exprs)

mutual

def Decl.exprs : Decl → List Expr
  | .space _ _ _ ms => Decl.allExprs ms
  | .product _ _ _ _ ms => Decl.allExprs ms
  | .extension _ _ _ ms => Decl.allExprs ms
  | .conformance _ _ _ _ ms => Decl.allExprs ms
  | .trait _ _ _ ms => Decl.allExprs ms
  | .function _ _ _ _ _ _ b => b.toList.flatMap Body.exprs
  | .init _ _ _ b => b.toList.flatMap Stmt.exprs
  | .subscript _ _ _ _ _ b => b.toList.flatMap Stmt.exprs
  | .binding _ b => b.exprs
  | _ => []

def Decl.allExprs : List Decl → List Expr
  | [] => []
  | d :: ds => d.exprs ++ Decl.allExprs ds

end

def Span.among (s : Span) (ts : List Token) : List Token :=
  (ts.drop s.start).take (s.stop - s.start)

def AllBetween (T : List Token) (lo hi : Nat) (es : List Expr) : Prop :=
  ∀ e ∈ es, Between T lo hi e.spelled

section

variable {T : List Token} {lo hi : Nat}

theorem AllBetween.widen {es : List Expr} {lo' hi' : Nat} (h : AllBetween T lo hi es)
    (hlo : lo' ≤ lo) (hhi : hi ≤ hi') : AllBetween T lo' hi' es :=
  fun e he => (h e he).widen hlo hhi

theorem AllBetween.append {es es' : List Expr} (h : AllBetween T lo hi es)
    (h' : AllBetween T lo hi es') : AllBetween T lo hi (es ++ es') := by
  intro e he
  rcases List.mem_append.mp he with he | he
  · exact h e he
  · exact h' e he

theorem AllBetween.cons {e : Expr} {es : List Expr} (h : Between T lo hi e.spelled)
    (h' : AllBetween T lo hi es) : AllBetween T lo hi (e :: es) :=
  List.forall_mem_cons.mpr ⟨h, h'⟩

theorem AllBetween.nil : AllBetween T lo hi [] := nofun

theorem Between.core {e : Expr} (h : Between T lo hi e.spelled) : Between T lo hi e.core := by
  obtain ⟨a, b, -, ha, hb, -, h⟩ := h.spanning
  exact h.enclosed.widen ha hb

theorem Spread.flatMap {α : Type} {Q : α → Spelling} {f : α → List Expr} {xs : List α}
    (hf : ∀ x lo hi, Between T lo hi (Q x) → AllBetween T lo hi (f x))
    (h : Spread T Q lo hi xs) : AllBetween T lo hi (xs.flatMap f) := by
  induction xs generalizing lo with
  | nil => exact .nil
  | cons x xs ih =>
      obtain ⟨mid, hx, hxs⟩ := h
      rw [List.flatMap_cons]
      exact ((hf x lo mid hx).widen (Nat.le_refl _) hxs.le).append
        ((ih hxs).widen hx.le (Nat.le_refl _))

mutual

theorem Expr.parts_between : ∀ (e : Expr) {lo hi : Nat}, Between T lo hi e.spelled →
    AllBetween T lo hi e.parts
  | .literal s v, lo, hi, h => by
      rw [Expr.parts]
      exact .cons h .nil
  | .name s none x, lo, hi, h => by
      rw [Expr.parts]
      exact .cons h .nil
  | .name s (some d) x, lo, hi, h => by
      obtain ⟨mid, hd, hx⟩ := Between.append h.core
      rw [Expr.parts]
      exact .cons h ((d.parts_between hd.of_operand).widen (Nat.le_refl _) hx.le)
  | .call s c as, lo, hi, h => by
      obtain ⟨mid, hc, has⟩ := Between.append h.core
      have hargs := has.inner.2
      rw [Expr.argSpellings_eq_map] at hargs
      rw [Expr.parts]
      exact .cons h (.append ((c.parts_between hc.of_operand).widen (Nat.le_refl _) has.le)
        ((Expr.argParts_between as (spread_listedTrailing hargs)).widen hc.le (Nat.le_refl _)))
  | .subscript s c as, lo, hi, h => by
      obtain ⟨mid, hc, has⟩ := Between.append h.core
      have hargs := has.inner.2
      rw [Expr.argSpellings_eq_map] at hargs
      rw [Expr.parts]
      exact .cons h (.append ((c.parts_between hc.of_operand).widen (Nat.le_refl _) has.le)
        ((Expr.argParts_between as (spread_listedTrailing hargs)).widen hc.le (Nat.le_refl _)))
  | .binary s l op r, lo, hi, h => by
      obtain ⟨mid, hl, hrest⟩ := Between.append (h.core.mono fun _ _ hgiven => hgiven.2)
      obtain ⟨mid', hop, hr⟩ := Between.append hrest
      rw [Expr.parts]
      exact .cons h (.append ((l.parts_between hl.of_operand).widen (Nat.le_refl _) hrest.le)
        ((r.parts_between hr.of_operand).widen (Nat.le_trans hl.le hop.le) (Nat.le_refl _)))
  | .tuple s es, lo, hi, h => by
      have hes := (Between.inner (h.core.mono fun _ _ hgiven => hgiven.2)).2
      rw [Expr.spellings_eq_map] at hes
      rw [Expr.parts]
      exact .cons h (Expr.allParts_between es (spread_listedTrailing hes))

theorem Expr.argParts_between : ∀ (as : List (Option Name × Expr)) {lo hi : Nat},
    Spread T Arg.spelled lo hi as → AllBetween T lo hi (Expr.argParts as)
  | [], lo, hi, h => .nil
  | (label, e) :: as, lo, hi, h => by
      obtain ⟨mid, ha, has⟩ := h
      obtain ⟨mid', hlabel, he⟩ := Between.append ha
      rw [Expr.argParts]
      exact .append ((e.parts_between he).widen hlabel.le has.le)
        ((Expr.argParts_between as has).widen ha.le (Nat.le_refl _))

theorem Expr.allParts_between : ∀ (es : List Expr) {lo hi : Nat},
    Spread T Expr.spelled lo hi es → AllBetween T lo hi (Expr.allParts es)
  | [], lo, hi, h => .nil
  | e :: es, lo, hi, h => by
      obtain ⟨mid, he, hes⟩ := h
      rw [Expr.allParts]
      exact .append ((e.parts_between he).widen (Nat.le_refl _) hes.le)
        ((Expr.allParts_between es hes).widen he.le (Nat.le_refl _))

end

theorem optional_between {o : Option Expr}
    (h : Between T lo hi (Spelling.optional Expr.spelled o)) :
    AllBetween T lo hi (o.toList.flatMap Expr.parts) :=
  (spread_optional h).flatMap fun e _ _ => e.parts_between

theorem assigned_between {e : Expr} (h : Between T lo hi (assignedSpelled e)) :
    AllBetween T lo hi e.parts := by
  obtain ⟨mid, hassign, he⟩ := Between.append h
  exact (e.parts_between he).widen hassign.le (Nat.le_refl _)

theorem Binding.exprs_between {b : Binding} (h : Between T lo hi b.spelled) :
    AllBetween T lo hi b.exprs := by
  obtain ⟨mid, h, hvalue⟩ := Between.append h
  exact ((spread_optional hvalue).flatMap fun _ _ _ => assigned_between).widen h.le (Nat.le_refl _)

mutual

theorem Stmt.exprs_between : ∀ (s : Stmt) {lo hi : Nat}, Between T lo hi s.spelled →
    AllBetween T lo hi s.exprs
  | .brace s ss, lo, hi, h => by
      obtain ⟨a, b, -, ha, hb, -, h⟩ := Between.spanning h
      have hss := h.inner.2
      rw [Stmt.spellings_eq_map] at hss
      rw [Stmt.exprs]
      exact (Stmt.allExprs_between ss (spread_items hss)).widen ha hb
  | .ret s k v, lo, hi, h => by
      obtain ⟨a, b, -, ha, hb, -, h⟩ := Between.spanning h
      obtain ⟨m, hk, hv⟩ := Between.append h
      rw [Stmt.exprs]
      exact (optional_between hv).widen (Nat.le_trans ha hk.le) hb
  | .loop s k e x, lo, hi, h => by
      obtain ⟨a, b, -, ha, hb, -, h⟩ := Between.spanning h
      obtain ⟨m', h, hx⟩ := Between.append h
      obtain ⟨m, hk, he⟩ := Between.append h
      rw [Stmt.exprs]
      exact (AllBetween.append ((e.parts_between he).widen hk.le hx.le)
        ((x.exprs_between hx).widen h.le (Nat.le_refl _))).widen ha hb
  | .cond s k e yes none, lo, hi, h => by
      obtain ⟨a, b, -, ha, hb, -, h⟩ := Between.spanning h
      obtain ⟨m', h, hx⟩ := Between.append h
      obtain ⟨m, hk, he⟩ := Between.append h
      rw [Stmt.exprs]
      exact (AllBetween.append ((e.parts_between he).widen hk.le hx.le)
        ((yes.exprs_between hx).widen h.le (Nat.le_refl _))).widen ha hb
  | .cond s k e yes (some (other, no)), lo, hi, h => by
      obtain ⟨a, b, -, ha, hb, -, h⟩ := Between.spanning h
      obtain ⟨m₂, h, hno⟩ := Between.append h
      obtain ⟨m₁, h', hyes⟩ := Between.append h
      obtain ⟨m, hk, he⟩ := Between.append h'
      obtain ⟨m₃, hother, hno'⟩ := Between.append hno
      rw [Stmt.exprs]
      have hfirst : AllBetween T a m₂ (e.parts ++ yes.exprs) :=
        .append ((e.parts_between he).widen hk.le hyes.le)
          ((yes.exprs_between hyes).widen h'.le (Nat.le_refl _))
      have hlast : AllBetween T m₂ b no.exprs :=
        (no.exprs_between hno').widen hother.le (Nat.le_refl _)
      exact (AllBetween.append (hfirst.widen (Nat.le_refl _) hno.le)
        (hlast.widen h.le (Nat.le_refl _))).widen ha hb
  | .assign s x y, lo, hi, h => by
      obtain ⟨a, b, -, ha, hb, -, h⟩ := Between.spanning h
      obtain ⟨m, hx, hy⟩ := Between.append h
      rw [Stmt.exprs]
      exact (AllBetween.append ((x.parts_between hx).widen (Nat.le_refl _) hy.le)
        ((assigned_between hy).widen hx.le (Nat.le_refl _))).widen ha hb
  | .expr s e, lo, hi, h => by
      obtain ⟨a, b, -, ha, hb, -, h⟩ := Between.spanning h
      rw [Stmt.exprs]
      exact (e.parts_between h).widen ha hb
  | .binding s d, lo, hi, h => by
      obtain ⟨a, b, -, ha, hb, -, h⟩ := Between.spanning h
      rw [Stmt.exprs]
      exact (Binding.exprs_between h).widen ha hb

theorem Stmt.allExprs_between : ∀ (ss : List Stmt) {lo hi : Nat},
    Spread T Stmt.spelled lo hi ss → AllBetween T lo hi (Stmt.allExprs ss)
  | [], lo, hi, h => .nil
  | s :: ss, lo, hi, h => by
      obtain ⟨mid, hs, hss⟩ := h
      rw [Stmt.allExprs]
      exact .append ((s.exprs_between hs).widen (Nat.le_refl _) hss.le)
        ((Stmt.allExprs_between ss hss).widen hs.le (Nat.le_refl _))

end

theorem Body.exprs_between (b : Body) (h : Between T lo hi b.spelled) :
    AllBetween T lo hi b.exprs := by
  cases b with
  | block b => exact b.exprs_between h
  | bundle vs =>
      refine (spread_all h.inner.2).flatMap fun v lo hi hv => ?_
      obtain ⟨a, b, -, ha, hb, -, hv⟩ := Between.spanning hv
      obtain ⟨m, heffect, hbody⟩ := Between.append hv
      exact (v.body.exprs_between hbody).widen (Nat.le_trans ha heffect.le) hb

theorem members_between {ms : List Decl} {P : Spelling}
    (hms : Spread T Decl.spelled lo hi ms → AllBetween T lo hi (Decl.allExprs ms))
    (h : Between T lo hi (P ++ (items (Decl.spellings ms)).inBraces)) :
    AllBetween T lo hi (Decl.allExprs ms) := by
  obtain ⟨mid, hP, h⟩ := Between.append h
  have hinner := h.inner.2
  rw [Decl.spellings_eq_map] at hinner
  exact hms ((spread_items hinner).widen hP.le (Nat.le_refl _))

theorem body_between {α : Type} {Q : α → Spelling} {f : α → List Expr} {o : Option α}
    {P : Spelling} (hf : ∀ x lo hi, Between T lo hi (Q x) → AllBetween T lo hi (f x))
    (h : Between T lo hi (P ++ Spelling.optional Q o)) :
    AllBetween T lo hi (o.toList.flatMap f) := by
  obtain ⟨mid, hP, h⟩ := Between.append h
  exact ((spread_optional h).flatMap hf).widen hP.le (Nat.le_refl _)

mutual

theorem Decl.exprs_between : ∀ (d : Decl) {lo hi : Nat}, Between T lo hi d.spelled →
    AllBetween T lo hi d.exprs
  | .space s k x ms, lo, hi, h => by
      obtain ⟨a, b, -, ha, hb, -, h⟩ := Between.spanning h
      rw [Decl.exprs]
      exact (members_between (Decl.allExprs_between ms) h).widen ha hb
  | .product s k x gs ms, lo, hi, h => by
      obtain ⟨a, b, -, ha, hb, -, h⟩ := Between.spanning h
      rw [Decl.exprs]
      exact (members_between (Decl.allExprs_between ms) h).widen ha hb
  | .associated s k x, lo, hi, h => .nil
  | .extension s k t ms, lo, hi, h => by
      obtain ⟨a, b, -, ha, hb, -, h⟩ := Between.spanning h
      rw [Decl.exprs]
      exact (members_between (Decl.allExprs_between ms) h).widen ha hb
  | .conformance s k t ts ms, lo, hi, h => by
      obtain ⟨a, b, -, ha, hb, -, h⟩ := Between.spanning h
      rw [Decl.exprs]
      exact (members_between (Decl.allExprs_between ms) h).widen ha hb
  | .trait s k x ms, lo, hi, h => by
      obtain ⟨a, b, -, ha, hb, -, h⟩ := Between.spanning h
      rw [Decl.exprs]
      exact (members_between (Decl.allExprs_between ms) h).widen ha hb
  | .typeAlias s k x t, lo, hi, h => .nil
  | .operator s k f fs x, lo, hi, h => .nil
  | .function s k x gs ps t b, lo, hi, h => by
      obtain ⟨a, b, -, ha, hb, -, h⟩ := Between.spanning h
      rw [Decl.exprs]
      exact (body_between (fun x _ _ => x.exprs_between) h).widen ha hb
  | .init s k ps b, lo, hi, h => by
      obtain ⟨a, b, -, ha, hb, -, h⟩ := Between.spanning h
      rw [Decl.exprs]
      exact (body_between (fun x _ _ => x.exprs_between) h).widen ha hb
  | .subscript s k x ps t b, lo, hi, h => by
      obtain ⟨a, b, -, ha, hb, -, h⟩ := Between.spanning h
      rw [Decl.exprs]
      exact (body_between (fun x _ _ => x.exprs_between) h).widen ha hb
  | .binding s d, lo, hi, h => by
      obtain ⟨a, b, -, ha, hb, -, h⟩ := Between.spanning h
      rw [Decl.exprs]
      exact (Binding.exprs_between h).widen ha hb

theorem Decl.allExprs_between : ∀ (ds : List Decl) {lo hi : Nat},
    Spread T Decl.spelled lo hi ds → AllBetween T lo hi (Decl.allExprs ds)
  | [], lo, hi, h => .nil
  | d :: ds, lo, hi, h => by
      obtain ⟨mid, hd, hds⟩ := h
      rw [Decl.allExprs]
      exact .append ((d.exprs_between hd).widen (Nat.le_refl _) hds.le)
        ((Decl.allExprs_between ds hds).widen hd.le (Nat.le_refl _))

end

theorem Holds.among {i : Nat} {us : List Token} (h : Holds T i us) :
    Span.among ⟨i, i + us.length⟩ T = us := by
  obtain ⟨before, after, rfl, rfl⟩ := h
  simp [Span.among]

theorem Between.among {s : Span} {P : Spelling} (h : Between T lo hi (.spanning s P)) :
    P s.start (s.among T) := by
  obtain ⟨a, us, -, -, hheld, rfl, hP⟩ := h
  rwa [hheld.among]

theorem Between.operand {e : Expr} {k : Nat} (h : Between T lo hi (e.operand e.core k)) :
    e.looseness ≤ k ∨ Spelling.parenthesized e.core e.span.start (e.span.among T) := by
  have hoperand := h.among
  split at hoperand
  · next hk => exact .inl hk
  · exact .inr hoperand

end

/-- The declarations that are read from a file are spelled by its tokens, without any left out or
used twice. Each expression is spelled by the tokens of its span. The operand on the left of an
operator of level `k` is in parentheses or no operation of a looser level, and the one on the right
in parentheses or no operation of the level `k` or a looser one. -/
theorem parse_respects_tokens {ts : List Token} {ds : List Decl} (h : parse ts = .ok ds) :
    fileSpelled ds 0 ts ∧ ∀ e ∈ Decl.allExprs ds,
      Spelling.enclosed e.core e.span.start (e.span.among ts) ∧
      ∀ s l op r, e = .binary s l op r → level op.text < precedence.length ∧
        (l.looseness ≤ level op.text + 1 ∨
          Spelling.parenthesized l.core l.span.start (l.span.among ts)) ∧
        (r.looseness ≤ level op.text ∨
          Spelling.parenthesized r.core r.span.start (r.span.among ts)) := by
  have hspelled := parse_spelled h
  have hfile : Between ts 0 ts.length (items (ds.map Decl.spelled)) :=
    ⟨0, ts, Nat.le_refl _, by simp, .all ts, hspelled⟩
  refine ⟨hspelled, fun e he => ?_⟩
  have hbetween := Decl.allExprs_between ds (spread_items hfile) e he
  refine ⟨hbetween.among, ?_⟩
  rintro s l op r rfl
  have hcore := hbetween.core
  obtain ⟨mid, hl, hrest⟩ := Between.append (hcore.mono fun _ _ hgiven => hgiven.2)
  obtain ⟨mid', -, hr⟩ := Between.append hrest
  obtain ⟨_, _, -, -, -, hlevel, -⟩ := hcore
  exact ⟨hlevel, hl.operand, hr.operand⟩

/-- `let n = (a + b,) * c + d;` with a comma in its parentheses, and a semicolon. -/
def sumTokens : List Token :=
  [.keyword .kwLet, .ident "n", .punct .assign, .punct .lparen, .ident "a", .op "+", .ident "b",
    .punct .comma, .punct .rparen, .op "*", .ident "c", .op "+", .ident "d", .punct .semi]

theorem sumTokens_respected : ∃ ds, parse sumTokens = .ok ds ∧ (Decl.allExprs ds).length = 7 ∧
    fileSpelled ds 0 sumTokens ∧ ∀ e ∈ Decl.allExprs ds,
      Spelling.enclosed e.core e.span.start (e.span.among sumTokens) := by
  have hrun : (match parse sumTokens with
      | .error _ => false
      | .ok ds => (Decl.allExprs ds).length == 7) = true := by
    decide +kernel
  cases hparse : parse sumTokens with
  | error s => simp [hparse] at hrun
  | ok ds =>
      rw [hparse] at hrun
      have hrespects := parse_respects_tokens hparse
      exact ⟨ds, rfl, by simpa using hrun, hrespects.1, fun e he => (hrespects.2 e he).1⟩

end LanguageService.Surface
