import LanguageService.Proofs.Reading
import LanguageService.Proofs.Soundness
import LanguageService.Proofs.SitesNest

namespace LanguageService

namespace Surface

def Stmt.isBinding : Stmt → Bool
  | binding _ _ => true
  | _ => false

mutual

def Stmt.inBlocks : Stmt → Bool
  | .brace _ ss => Stmt.allInBlocks ss
  | .loop _ _ _ b => !b.isBinding && b.inBlocks
  | .cond _ _ _ yes none => !yes.isBinding && yes.inBlocks
  | .cond _ _ _ yes (some (_, no)) =>
      !yes.isBinding && yes.inBlocks && (!no.isBinding && no.inBlocks)
  | _ => true

def Stmt.allInBlocks : List Stmt → Bool
  | [] => true
  | s :: ss => s.inBlocks && Stmt.allInBlocks ss

end

theorem Stmt.allInBlocks_iff (ss : List Stmt) :
    Stmt.allInBlocks ss = true ↔ ∀ s ∈ ss, s.inBlocks = true := by
  induction ss with
  | nil => simp [allInBlocks]
  | cons s ss ih => simp [allInBlocks, ih]

def Stmt.isArm (s : Stmt) : Bool := !s.isBinding && s.inBlocks

def Body.inBlocks : Body → Bool
  | block b => b.isArm
  | bundle vs => vs.all (·.body.isArm)

mutual

def Decl.inBlocks : Decl → Bool
  | .space _ _ _ ms => Decl.allInBlocks ms
  | .product _ _ _ _ ms => Decl.allInBlocks ms
  | .extension _ _ _ ms => Decl.allInBlocks ms
  | .conformance _ _ _ _ ms => Decl.allInBlocks ms
  | .trait _ _ _ ms => Decl.allInBlocks ms
  | .function _ _ _ _ _ _ b => b.all Body.inBlocks
  | .init _ _ _ b => b.all Stmt.isArm
  | .subscript _ _ _ _ _ b => b.all Stmt.isArm
  | _ => true

def Decl.allInBlocks : List Decl → Bool
  | [] => true
  | d :: ds => d.inBlocks && Decl.allInBlocks ds

end

theorem Decl.allInBlocks_iff (ds : List Decl) :
    Decl.allInBlocks ds = true ↔ ∀ d ∈ ds, d.inBlocks = true := by
  induction ds with
  | nil => simp [allInBlocks]
  | cons d ds ih => simp [allInBlocks, ih]

namespace Parser

variable {α β : Type} {p q : Parser α} {f : α → Parser β} {P Q : α → Prop} {R : β → Prop}

def Returns (p : Parser α) (P : α → Prop) : Prop :=
  ∀ c r a c' r', p c r = (some (a, c'), r') → P a

theorem returns_bind (hp : Returns p P) (hf : ∀ a, P a → Returns (f a) R) :
    Returns (p >>= f) R := by
  intro c r b c' r' h
  rw [bind_apply] at h
  split at h
  · next a c₁ r₁ ha => exact hf a (hp c r a c₁ r₁ ha) c₁ r₁ b c' r' h
  · cases h

theorem returns_then (hf : ∀ a, Returns (f a) R) : Returns (p >>= f) R :=
  returns_bind (P := fun _ => True) (fun _ _ _ _ _ _ => trivial) fun a _ => hf a

theorem returns_pure {a : α} (h : P a) : Returns (Pure.pure a) P := by
  intro c r b c' r' hb
  cases hb
  exact h

theorem Returns.map {g : α → β} (hp : Returns p P) (hg : ∀ a, P a → R (g a)) :
    Returns (do let a ← p; return g a) R :=
  returns_bind hp fun a ha => returns_pure (hg a ha)

theorem returns_fail : Returns (fail : Parser α) P := by
  intro c r a c' r' h
  cases h

theorem Returns.orElse (hp : Returns p P) (hq : Returns q P) : Returns (orElse p q) P := by
  intro c r a c' r' h
  rw [Parser.orElse] at h
  split at h
  · next x r₁ hx =>
      cases h
      exact hp c r a c' r' hx
  · next r₁ _ => exact hq c r₁ a c' r' h

theorem returns_choice {ps : List (Parser α)} (h : ∀ p ∈ ps, Returns p P) :
    Returns (choice ps) P := by
  induction ps with
  | nil => exact returns_fail
  | cons p ps ih => exact (h p (by simp)).orElse (ih fun q hq => h q (by simp [hq]))

theorem Returns.optional (hp : Returns p P) :
    Returns (Parser.optional p) fun a => ∀ x, a = some x → P x := by
  refine Returns.orElse (hp.map ?_) (returns_pure (by simp))
  rintro a ha x ⟨⟩
  exact ha

theorem returns_spanned {p : Parser (Span → α)} (hp : Returns p fun f => ∀ s, P (f s)) :
    Returns (spanned p) P := by
  intro c r a c' r' h
  rw [spanned] at h
  split at h
  · next f c₁ r₁ hf =>
      cases h
      exact hp c r f _ _ hf _
  · cases h

theorem Returns.many (hp : Returns p P) : Returns (many p) fun as => ∀ a ∈ as, P a := by
  have hupTo (n : Nat) : Returns (manyUpTo p n) fun as => ∀ a ∈ as, P a := by
    induction n with
    | zero => exact returns_pure (by simp)
    | succ n ih =>
        intro c r as c' r' h
        rw [manyUpTo_succ] at h
        split at h
        · next a c₁ r₁ ha =>
            have hrest : Returns (do return a :: (← manyUpTo p n)) fun as => ∀ a ∈ as, P a :=
              ih.map fun bs hbs => List.forall_mem_cons.mpr ⟨hp c r a c₁ r₁ ha, hbs⟩
            exact hrest c₁ r₁ as c' r' h
        · cases h
          simp
  exact fun c r as c' r' h => hupTo _ c r as c' r' h

theorem Returns.between {left right : Parser Unit} (hp : Returns p P) :
    Returns (between left right p) P :=
  returns_then fun _ => returns_bind hp fun _ ha => returns_then fun _ => returns_pure ha

end Parser

open Surface.Parser

theorem items_return {α : Type} {p : Parser α} {P : α → Prop} (hp : Returns p P) :
    Returns (many (terminated p)) fun as => ∀ a ∈ as, P a :=
  Returns.many (returns_bind hp fun _ ha => returns_then fun _ => returns_pure ha)

theorem blockOf_isArm {inner : Parser Stmt} (hinner : Returns inner fun s => s.inBlocks = true) :
    Returns (blockOf inner) fun s => s.isArm = true := by
  refine returns_spanned ((items_return hinner).between.map fun ss hss s => ?_)
  simpa [Stmt.isArm, Stmt.isBinding, Stmt.inBlocks, Stmt.allInBlocks_iff] using hss

theorem Stmt.inBlocks_of_isArm {s : Stmt} (h : s.isArm = true) : s.inBlocks = true := by
  rw [isArm, Bool.and_eq_true] at h
  exact h.2

section Statements

variable {block : Parser Stmt} (hblock : Returns block fun s => s.isArm = true)

include hblock

theorem conditionalAt_isArm (n : Nat) :
    Returns (conditionalAt block n) fun s => s.isArm = true := by
  induction n with
  | zero => exact returns_fail
  | succ n ih =>
      have helse : Returns (do
          let k ← keyword .kwElse
          return (k, ← orElse block (conditionalAt block n))) fun x => x.2.isArm = true :=
        returns_then fun _ => (hblock.orElse ih).map fun _ hs => hs
      refine returns_spanned (returns_then fun k => returns_then fun e =>
        returns_bind hblock fun yes hyes => returns_bind helse.optional fun failure hno =>
          returns_pure fun s => ?_)
      match failure, hno with
      | none, _ => simpa [Stmt.isArm, Stmt.isBinding, Stmt.inBlocks] using hyes
      | some (other, no), hno =>
          have hno := hno _ rfl
          have hloose : (Stmt.cond s k e yes (some (other, no))).isBinding = false := rfl
          simp only [Stmt.isArm, Bool.and_eq_true] at hyes hno
          simp [Stmt.isArm, hloose, Stmt.inBlocks, hyes.1, hyes.2, hno.1, hno.2]

theorem simpleStmt_inBlocks : Returns (simpleStmt block) fun s => s.inBlocks = true := by
  refine returns_spanned (returns_choice ?_)
  simp only [List.mem_cons, List.not_mem_nil, or_false, forall_eq_or_imp, forall_eq]
  refine ⟨?_, ?_, ?_, ?_⟩
  · exact returns_then fun _ => returns_then fun _ => returns_pure fun _ => rfl
  · refine returns_then fun _ => returns_then fun _ => hblock.map fun b hb s => ?_
    simpa [Stmt.inBlocks, Stmt.isArm] using hb
  · exact returns_then fun _ => returns_pure fun _ => rfl
  · refine returns_then fun _ => returns_then fun rhs => ?_
    cases rhs <;> exact returns_pure fun _ => rfl

end Statements

theorem stmtAt_inBlocks (n : Nat) : Returns (stmtAt n) fun s => s.inBlocks = true := by
  induction n with
  | zero => exact returns_fail
  | succ n ih =>
      have hblock := blockOf_isArm ih
      have hloose {p : Parser Stmt} (h : Returns p fun s => s.isArm = true) :
          Returns p fun s => s.inBlocks = true :=
        fun c r s c' r' hs => Stmt.inBlocks_of_isArm (h c r s c' r' hs)
      have hcond : Returns (fun c r =>
          conditionalAt (blockOf (stmtAt n)) (c.rest.length + 1) c r) fun s => s.isArm = true :=
        fun c r s c' r' h => conditionalAt_isArm hblock _ c r s c' r' h
      exact (hloose hblock).orElse ((hloose hcond).orElse
        ((simpleStmt_inBlocks hblock).orElse returns_fail))

theorem block_isArm : Returns block fun s => s.isArm = true :=
  blockOf_isArm fun c r s c' r' h => stmtAt_inBlocks _ c r s c' r' h

theorem funBody_inBlocks : Returns funBody fun b => b.inBlocks = true := by
  have hvariant : Returns variant fun v => v.body.isArm = true :=
    returns_spanned (returns_then fun _ => block_isArm.map fun _ hb _ => hb)
  have hvariants : Returns (many1 variant) fun vs => ∀ v ∈ vs, v.body.isArm = true :=
    returns_bind hvariant fun v hv => hvariant.many.map fun vs hvs =>
      List.forall_mem_cons.mpr ⟨hv, hvs⟩
  refine Returns.orElse (hvariants.between.map fun vs hvs => ?_) (block_isArm.map fun _ hb => hb)
  simpa [Body.inBlocks] using hvs

theorem function_inBlocks : Returns function fun f => ∀ s, (f s).inBlocks = true := by
  refine returns_then fun _ => returns_then fun _ => returns_then fun _ => returns_then fun _ =>
    returns_then fun _ => funBody_inBlocks.optional.map fun b hb s => ?_
  cases b <;> simp_all [Decl.inBlocks]

theorem initializer_inBlocks : Returns initializer fun f => ∀ s, (f s).inBlocks = true := by
  refine returns_then fun _ => returns_then fun _ => block_isArm.optional.map fun b hb s => ?_
  cases b <;> simp_all [Decl.inBlocks]

theorem subscript_inBlocks : Returns subscript fun f => ∀ s, (f s).inBlocks = true := by
  refine returns_then fun _ => returns_then fun _ => returns_then fun _ => returns_then fun _ =>
    block_isArm.optional.map fun b hb s => ?_
  cases b <;> simp_all [Decl.inBlocks]

theorem requirement_inBlocks : Returns requirement fun d => d.inBlocks = true := by
  refine returns_spanned (returns_choice ?_)
  simp only [List.mem_cons, List.not_mem_nil, or_false, forall_eq_or_imp, forall_eq]
  refine ⟨?_, function_inBlocks, initializer_inBlocks, subscript_inBlocks⟩
  exact returns_then fun _ => returns_then fun _ => returns_pure fun _ => rfl

theorem members_inBlocks {inner : Parser Decl} (hinner : Returns inner fun d => d.inBlocks = true) :
    Returns (braces (many (terminated inner))) fun ms => Decl.allInBlocks ms = true :=
  fun c r ms c' r' h => (Decl.allInBlocks_iff ms).mpr
    ((items_return hinner).between c r ms c' r' h)

theorem declAt_inBlocks (n : Nat) : Returns (declAt n) fun d => d.inBlocks = true := by
  induction n with
  | zero => exact returns_fail
  | succ n ih =>
      have hmembers := members_inBlocks ih
      refine returns_spanned (returns_choice ?_)
      simp only [List.mem_cons, List.not_mem_nil, or_false, forall_eq_or_imp, forall_eq]
      refine ⟨?_, ?_, ?_, ?_, ?_, ?_, ?_, function_inBlocks, initializer_inBlocks,
        subscript_inBlocks, ?_⟩
      · exact returns_then fun _ => returns_then fun _ => hmembers.map fun _ hms _ => hms
      · exact returns_then fun _ => returns_then fun _ => returns_then fun _ =>
          hmembers.map fun _ hms _ => hms
      · exact returns_then fun _ => returns_then fun _ => hmembers.map fun _ hms _ => hms
      · exact returns_then fun _ => returns_then fun _ => returns_then fun _ => returns_then fun _ =>
          hmembers.map fun _ hms _ => hms
      · exact returns_then fun _ => returns_then fun _ =>
          (members_inBlocks requirement_inBlocks).map fun _ hms _ => hms
      · exact returns_then fun _ => returns_then fun _ => returns_then fun _ => returns_then fun _ =>
          returns_pure fun _ => rfl
      · exact returns_then fun _ => returns_then fun _ => returns_then fun _ =>
          returns_pure fun _ => rfl
      · exact returns_then fun _ => returns_pure fun _ => rfl

theorem parse_inBlocks {ts : List Token} {ds : List Decl} (h : parse ts = .ok ds) :
    Decl.allInBlocks ds = true := by
  have hdecl : Returns decl fun d => d.inBlocks = true :=
    fun c r d c' r' h => declAt_inBlocks _ c r d c' r' h
  have hfile : Returns file fun ds => ∀ d ∈ ds, d.inBlocks = true :=
    returns_bind (items_return hdecl) fun _ hds => returns_then fun _ => returns_pure hds
  rw [parse] at h
  split at h
  · next ds' c' r' hds =>
      cases h
      exact (Decl.allInBlocks_iff ds).mpr (hfile _ _ ds c' r' hds)
  · cases h

end Surface

namespace Kind

def arms : Kind → List NodeId
  | function _ _ _ _ _ body => body.toList
  | variant _ _ body => [body]
  | init _ _ body _ => body.toList
  | subscript _ _ _ _ body => body.toList
  | loop _ _ body => [body]
  | cond _ _ success _ failure => success :: failure.toList
  | _ => []

def isDecl : Kind → Bool
  | decl _ => true
  | _ => false

theorem mem_children_of_mem_arms {k : Kind} {c : NodeId} (h : c ∈ k.arms) : c ∈ k.children := by
  cases k <;> simp_all [arms, children]

end Kind

namespace Tree

def IsArm (t : Tree) (c : NodeId) : Prop := c < t.size ∧ (t.kind c).isDecl = false

def DeclsInBlocks (t : Tree) : Prop := ∀ i, ∀ c ∈ (t.kind i).arms, (t.kind c).isDecl = false

structure GrowsInBlocks (t t' : Tree) : Prop where
  keeps : Keeps t t'
  arms : ∀ i, t.size ≤ i → i < t'.size → ∀ c ∈ (t'.kind i).arms, t'.IsArm c

variable {t t₁ t' : Tree}

theorem IsArm.later {c : NodeId} (h : t.IsArm c) (hkeeps : Keeps t t') : t'.IsArm c :=
  ⟨Nat.lt_of_lt_of_le h.1 hkeeps.size_le, by rw [hkeeps.kind_eq h.1, h.2]⟩

theorem GrowsInBlocks.refl (t : Tree) : GrowsInBlocks t t :=
  ⟨.refl t, fun _ hle hlt => absurd hlt (Nat.not_lt.mpr hle)⟩

theorem GrowsInBlocks.trans (h : GrowsInBlocks t t₁) (h' : GrowsInBlocks t₁ t') :
    GrowsInBlocks t t' where
  keeps := h.keeps.trans h'.keeps
  arms := by
    intro i hle hlt c hc
    by_cases hi : i < t₁.size
    · rw [h'.keeps.kind_eq hi] at hc
      exact (h.arms i hle hi c hc).later h'.keeps
    · exact h'.arms i (Nat.le_of_not_lt hi) hlt c hc

theorem growsInBlocks_insert {k : Kind} (s : Site) (h : ∀ c ∈ k.arms, t.IsArm c) :
    GrowsInBlocks t (t.insert k s).2 where
  keeps := keeps_insert t k s
  arms := by
    intro i hle hlt c hc
    rw [size_insert] at hlt
    obtain rfl : i = t.size := Nat.le_antisymm (Nat.le_of_lt_succ hlt) hle
    rw [kind_insert, if_pos rfl] at hc
    exact (h c hc).later (keeps_insert t k s)

end Tree

namespace Lowering

variable {α β : Type}

/-- If the nodes in `arms` are no declarations, then `m` adds nodes whose arms are none, and those
in `out` are none either. -/
def InBlocks (m : Lowering α) (arms : List NodeId) (out : α → List NodeId) : Prop :=
  ∀ t, (∀ c ∈ arms, t.IsArm c) →
    t.GrowsInBlocks (m t).2 ∧ ∀ c ∈ out (m t).1, (m t).2.IsArm c

theorem InBlocks.bind {m : Lowering α} {f : α → Lowering β} {arms : List NodeId}
    {mid : α → List NodeId} {out : β → List NodeId} (hm : InBlocks m [] mid)
    (hf : ∀ a, InBlocks (f a) (arms ++ mid a) out) : InBlocks (m >>= f) arms out := by
  intro t harms
  obtain ⟨hgrows, hmid⟩ := hm t (by simp)
  obtain ⟨hgrows', hout⟩ := hf (m t).1 (m t).2 fun c hc => by
    rcases List.mem_append.mp hc with hc | hc
    · exact (harms c hc).later hgrows.keeps
    · exact hmid c hc
  exact ⟨hgrows.trans hgrows', hout⟩

theorem InBlocks.andThen {m : Lowering α} {f : α → Lowering β} {arms : List NodeId}
    {mid : α → List NodeId} {out : β → List NodeId} (hm : InBlocks m arms mid)
    (hf : ∀ a, InBlocks (f a) (mid a) out) : InBlocks (m >>= f) arms out := by
  intro t harms
  obtain ⟨hgrows, hmid⟩ := hm t harms
  obtain ⟨hgrows', hout⟩ := hf (m t).1 (m t).2 hmid
  exact ⟨hgrows.trans hgrows', hout⟩

theorem InBlocks.pure {a : α} {arms : List NodeId} {out : α → List NodeId}
    (h : ∀ c ∈ out a, c ∈ arms) : InBlocks (pure a) arms out :=
  fun t harms => ⟨.refl t, fun c hc => harms c (h c hc)⟩

theorem InBlocks.insert {k : Kind} {s : Site} {arms : List NodeId}
    (h : ∀ c ∈ k.arms, c ∈ arms) : InBlocks (insert k s) arms fun _ => [] :=
  fun _ harms => ⟨Tree.growsInBlocks_insert s fun c hc => harms c (h c hc), by simp⟩

theorem InBlocks.insertArm {k : Kind} {s : Site} {arms : List NodeId}
    (h : ∀ c ∈ k.arms, c ∈ arms) (hk : k.isDecl = false) :
    InBlocks (Lowering.insert k s) arms fun i => [i] := by
  intro t harms
  refine ⟨Tree.growsInBlocks_insert s fun c hc => harms c (h c hc), ?_⟩
  have hfst : (Lowering.insert k s t).1 = t.size := Tree.fst_insert t k s
  simp only [List.mem_singleton, forall_eq, hfst]
  refine ⟨Nat.lt_of_lt_of_eq (Nat.lt_succ_self _) (Tree.size_insert t k s).symm, ?_⟩
  exact (congrArg Kind.isDecl ((Tree.kind_insert t k s t.size).trans (if_pos rfl))).trans hk

theorem InBlocks.cons {m : Lowering α} {ms : Lowering (List α)} (hm : InBlocks m [] fun _ => [])
    (hms : InBlocks ms [] fun _ => []) :
    InBlocks (do let a ← m; let as ← ms; return a :: as) [] fun _ => [] :=
  .bind hm fun _ => .bind hms fun _ => .pure (by simp)

variable (l : Layout)

mutual

theorem typeExpr_inBlocks : ∀ e : Surface.TypeExpr, InBlocks (typeExpr l e) [] fun _ => []
  | .name s x => by
      rw [typeExpr]
      exact .insert (by simp [Kind.arms])
  | .tuple s es => by
      rw [typeExpr]
      exact .bind (typeExprs_inBlocks es) fun _ => .insert (by simp [Kind.arms])

theorem typeExprs_inBlocks : ∀ es : List Surface.TypeExpr,
    InBlocks (typeExprs l es) [] fun _ => []
  | [] => by
      rw [typeExprs]
      exact .pure (by simp)
  | e :: es => by
      rw [typeExprs]
      exact .cons (typeExpr_inBlocks e) (typeExprs_inBlocks es)

end

theorem typeExpr?_inBlocks (e : Option Surface.TypeExpr) :
    InBlocks (typeExpr? l e) [] fun _ => [] := by
  cases e with
  | none => exact .pure (by simp)
  | some e => exact .bind (typeExpr_inBlocks l e) fun _ => .pure (by simp)

mutual

theorem expr_inBlocks : ∀ e : Surface.Expr, InBlocks (expr l e) [] fun _ => []
  | .literal s (.int x) => by
      rw [expr]
      exact .insert (by simp [Kind.arms])
  | .literal s (.float x) => by
      rw [expr]
      exact .insert (by simp [Kind.arms])
  | .literal s (.string x) => by
      rw [expr]
      exact .insert (by simp [Kind.arms])
  | .literal s (.bool b) => by
      rw [expr]
      exact .insert (by simp [Kind.arms])
  | .name s none x => by
      rw [expr]
      exact .insert (by simp [Kind.arms])
  | .name s (some d) x => by
      rw [expr]
      exact .bind (expr_inBlocks d) fun _ => .insert (by simp [Kind.arms])
  | .call s c as => by
      rw [expr]
      exact .bind (expr_inBlocks c) fun _ => .bind (args_inBlocks as) fun _ =>
        .insert (by simp [Kind.arms])
  | .subscript s c as => by
      rw [expr]
      exact .bind (expr_inBlocks c) fun _ => .bind (args_inBlocks as) fun _ =>
        .insert (by simp [Kind.arms])
  | .binary s lhs op rhs => by
      rw [expr]
      exact .bind (expr_inBlocks lhs) fun _ => .bind (expr_inBlocks rhs) fun _ =>
        .insert (by simp [Kind.arms])
  | .tuple s es => by
      rw [expr]
      exact .bind (exprs_inBlocks es) fun _ => .insert (by simp [Kind.arms])

theorem args_inBlocks : ∀ as : List (Option Surface.Name × Surface.Expr),
    InBlocks (args l as) [] fun _ => []
  | [] => by
      rw [args]
      exact .pure (by simp)
  | (label, e) :: as => by
      rw [args]
      exact .bind (expr_inBlocks e) fun _ => .bind (args_inBlocks as) fun _ => .pure (by simp)

theorem exprs_inBlocks : ∀ es : List Surface.Expr, InBlocks (exprs l es) [] fun _ => []
  | [] => by
      rw [exprs]
      exact .pure (by simp)
  | e :: es => by
      rw [exprs]
      exact .cons (expr_inBlocks e) (exprs_inBlocks es)

end

theorem expr?_inBlocks (e : Option Surface.Expr) : InBlocks (expr? l e) [] fun _ => [] := by
  cases e with
  | none => exact .pure (by simp)
  | some e => exact .bind (expr_inBlocks l e) fun _ => .pure (by simp)

mutual

theorem pattern_inBlocks : ∀ p : Surface.Pattern, InBlocks (pattern l p) [] fun _ => []
  | .name s x => by
      rw [pattern]
      exact .bind (.insert (by simp [Kind.arms])) fun _ => .insert (by simp [Kind.arms])
  | .tuple s es => by
      rw [pattern]
      exact .bind (patterns_inBlocks es) fun _ => .insert (by simp [Kind.arms])
  | .wildcard s => by
      rw [pattern]
      exact .insert (by simp [Kind.arms])

theorem patterns_inBlocks : ∀ ps : List Surface.Pattern, InBlocks (patterns l ps) [] fun _ => []
  | [] => by
      rw [patterns]
      exact .pure (by simp)
  | p :: ps => by
      rw [patterns]
      exact .cons (pattern_inBlocks p) (patterns_inBlocks ps)

end

theorem binding_inBlocks (site : Site) (b : Surface.Binding) :
    InBlocks (binding l site b) [] fun _ => [] :=
  .bind (pattern_inBlocks l b.pattern) fun _ => .bind (typeExpr?_inBlocks l b.ascription) fun _ =>
    .bind (.insert (by simp [Kind.arms])) fun _ => .bind (expr?_inBlocks l b.initializer) fun _ =>
      .insert (by simp [Kind.arms])

mutual

theorem stmt_inBlocks : ∀ s : Surface.Stmt, s.inBlocks = true →
    InBlocks (stmt l s) [] fun i => if s.isBinding then [] else [i]
  | .brace s ss, h => by
      rw [Surface.Stmt.inBlocks] at h
      rw [stmt]
      exact .bind (stmts_inBlocks ss h) fun _ => .insertArm (by simp [Kind.arms]) rfl
  | .ret s k v, _ => by
      rw [stmt]
      exact .bind (expr?_inBlocks l v) fun _ => .insertArm (by simp [Kind.arms]) rfl
  | .loop s k e b, h => by
      rw [Surface.Stmt.inBlocks, Bool.and_eq_true, Bool.not_eq_true'] at h
      have hb := stmt_inBlocks b h.2
      simp only [h.1, Bool.false_eq_true, if_false] at hb
      rw [stmt]
      exact .bind (expr_inBlocks l e) fun _ => .bind hb fun _ =>
        .insertArm (by simp [Kind.arms]) rfl
  | .cond s k e yes none, h => by
      rw [Surface.Stmt.inBlocks, Bool.and_eq_true, Bool.not_eq_true'] at h
      have hyes := stmt_inBlocks yes h.2
      simp only [h.1, Bool.false_eq_true, if_false] at hyes
      rw [stmt]
      exact .bind (expr_inBlocks l e) fun _ => .bind hyes fun _ =>
        .insertArm (by simp [Kind.arms]) rfl
  | .cond s k e yes (some (other, no)), h => by
      rw [Surface.Stmt.inBlocks, Bool.and_eq_true, Bool.and_eq_true, Bool.and_eq_true,
        Bool.not_eq_true', Bool.not_eq_true'] at h
      have hyes := stmt_inBlocks yes h.1.2
      have hno := stmt_inBlocks no h.2.2
      simp only [h.1.1, h.2.1, Bool.false_eq_true, if_false] at hyes hno
      rw [stmt]
      exact .bind (expr_inBlocks l e) fun _ => .bind hyes fun _ => .bind hno fun _ =>
        .insertArm (by simp [Kind.arms]) rfl
  | .assign s lhs rhs, _ => by
      rw [stmt]
      exact .bind (expr_inBlocks l lhs) fun _ => .bind (expr_inBlocks l rhs) fun _ =>
        .insertArm (by simp [Kind.arms]) rfl
  | .expr s e, _ => by
      rw [stmt]
      exact .bind (expr_inBlocks l e) fun _ => .insertArm (by simp [Kind.arms]) rfl
  | .binding s b, _ => by
      rw [stmt]
      exact .bind (binding_inBlocks l _ b) fun _ => .insert (by simp [Kind.arms])

theorem stmts_inBlocks : ∀ ss : List Surface.Stmt, Surface.Stmt.allInBlocks ss = true →
    InBlocks (stmts l ss) [] fun _ => []
  | [], _ => by
      rw [stmts]
      exact .pure (by simp)
  | s :: ss, h => by
      rw [Surface.Stmt.allInBlocks, Bool.and_eq_true] at h
      rw [stmts]
      exact .bind (stmt_inBlocks s h.1) fun _ => .bind (stmts_inBlocks ss h.2) fun _ =>
        .pure (by simp)

end

theorem arm_inBlocks {s : Surface.Stmt} (h : s.isArm = true) :
    InBlocks (stmt l s) [] fun i => [i] := by
  rw [Surface.Stmt.isArm, Bool.and_eq_true, Bool.not_eq_true'] at h
  simpa [h.1] using stmt_inBlocks l s h.2

theorem arm?_inBlocks {s : Option Surface.Stmt} (h : s.all Surface.Stmt.isArm = true) :
    InBlocks (stmt? l s) [] fun i => i.toList := by
  cases s with
  | none => exact .pure (by simp)
  | some s => exact .bind (arm_inBlocks l h) fun _ => .pure (by simp)

theorem generics_inBlocks : ∀ xs : List Surface.Name, InBlocks (generics l xs) [] fun _ => []
  | [] => .pure (by simp)
  | _ :: xs => .cons (.insert (by simp [Kind.arms])) (generics_inBlocks xs)

theorem params_inBlocks : ∀ ps : List Surface.Param, InBlocks (params l ps) [] fun _ => []
  | [] => .pure (by simp)
  | p :: ps => .cons (.bind (typeExpr?_inBlocks l p.ascription) fun _ =>
      .insert (by simp [Kind.arms])) (params_inBlocks ps)

theorem variants_inBlocks : ∀ vs : List Surface.Variant, vs.all (·.body.isArm) = true →
    InBlocks (variants l vs) [] fun _ => []
  | [], _ => .pure (by simp)
  | v :: vs, h => by
      rw [List.all_cons, Bool.and_eq_true] at h
      rw [variants]
      refine .bind (arm_inBlocks l h.1) fun b => ?_
      exact .andThen (.insert (by simp [Kind.arms])) fun _ =>
        .bind (variants_inBlocks vs h.2) fun _ => .pure (by simp)

theorem memberwiseParams_inBlocks : ∀ xs : List String,
    InBlocks (memberwiseParams xs) [] fun _ => []
  | [] => .pure (by simp)
  | _ :: xs => .cons (.insert (by simp [Kind.arms])) (memberwiseParams_inBlocks xs)

theorem memberwise_inBlocks (ms : List Surface.Decl) : InBlocks (memberwise ms) [] fun _ => [] := by
  rw [memberwise]
  split
  · exact .pure (by simp)
  · exact .bind (memberwiseParams_inBlocks _) fun _ => .bind (.insert (by simp [Kind.arms])) fun _ =>
      .pure (by simp)

mutual

theorem decl_inBlocks : ∀ d : Surface.Decl, d.inBlocks = true → InBlocks (decl l d) [] fun _ => []
  | .space s k x ms, h => by
      rw [Surface.Decl.inBlocks] at h
      rw [decl]
      exact .bind (decls_inBlocks ms h) fun _ => .insert (by simp [Kind.arms])
  | .product s k x gs ms, h => by
      rw [Surface.Decl.inBlocks] at h
      rw [decl]
      exact .bind (generics_inBlocks l gs) fun _ => .bind (decls_inBlocks ms h) fun _ =>
        .bind (memberwise_inBlocks ms) fun _ => .insert (by simp [Kind.arms])
  | .associated s k x, _ => by
      rw [decl]
      exact .insert (by simp [Kind.arms])
  | .extension s k t ms, h => by
      rw [Surface.Decl.inBlocks] at h
      rw [decl]
      exact .bind (typeExpr_inBlocks l t) fun _ => .bind (decls_inBlocks ms h) fun _ =>
        .insert (by simp [Kind.arms])
  | .conformance s k t ts ms, h => by
      rw [Surface.Decl.inBlocks] at h
      rw [decl]
      exact .bind (typeExpr_inBlocks l t) fun _ => .bind (typeExprs_inBlocks l ts) fun _ =>
        .bind (decls_inBlocks ms h) fun _ => .insert (by simp [Kind.arms])
  | .trait s k x ms, h => by
      rw [Surface.Decl.inBlocks] at h
      rw [decl]
      exact .bind (decls_inBlocks ms h) fun _ => .insert (by simp [Kind.arms])
  | .typeAlias s k x t, _ => by
      rw [decl]
      exact .bind (typeExpr_inBlocks l t) fun _ => .insert (by simp [Kind.arms])
  | .operator s k f fs x, _ => by
      rw [decl]
      exact .insert (by simp [Kind.arms])
  | .function s k x gs ps t (some (.bundle vs)), h => by
      rw [Surface.Decl.inBlocks, Option.all_some, Surface.Body.inBlocks] at h
      rw [decl]
      exact .bind (generics_inBlocks l gs) fun _ => .bind (params_inBlocks l ps) fun _ =>
        .bind (typeExpr?_inBlocks l t) fun _ => .bind (variants_inBlocks l vs h) fun _ =>
          .insert (by simp [Kind.arms])
  | .function s k x gs ps t (some (.block b)), h => by
      rw [Surface.Decl.inBlocks, Option.all_some, Surface.Body.inBlocks] at h
      rw [decl]
      exact .bind (generics_inBlocks l gs) fun _ => .bind (params_inBlocks l ps) fun _ =>
        .bind (typeExpr?_inBlocks l t) fun _ => .bind (arm_inBlocks l h) fun _ =>
          .insert (by simp [Kind.arms])
  | .function s k x gs ps t none, _ => by
      rw [decl]
      exact .bind (generics_inBlocks l gs) fun _ => .bind (params_inBlocks l ps) fun _ =>
        .bind (typeExpr?_inBlocks l t) fun _ => .insert (by simp [Kind.arms])
  | .init s k ps b, h => by
      rw [Surface.Decl.inBlocks] at h
      rw [decl]
      exact .bind (params_inBlocks l ps) fun _ => .bind (arm?_inBlocks l h) fun _ =>
        .insert (by simp [Kind.arms])
  | .subscript s k x ps t b, h => by
      rw [Surface.Decl.inBlocks] at h
      rw [decl]
      exact .bind (params_inBlocks l ps) fun _ => .bind (typeExpr_inBlocks l t) fun _ =>
        .bind (arm?_inBlocks l h) fun _ => .insert (by simp [Kind.arms])
  | .binding s b, _ => by
      rw [decl]
      exact binding_inBlocks l (l.site s) b

theorem decls_inBlocks : ∀ ds : List Surface.Decl, Surface.Decl.allInBlocks ds = true →
    InBlocks (decls l ds) [] fun _ => []
  | [], _ => by
      rw [decls]
      exact .pure (by simp)
  | d :: ds, h => by
      rw [Surface.Decl.allInBlocks, Bool.and_eq_true] at h
      rw [decls]
      exact .cons (decl_inBlocks d h.1) (decls_inBlocks ds h.2)

end

end Lowering

namespace Tree

theorem size_addModule (t : Tree) (m : NodeId) : (t.addModule m).size = t.size := by
  cases t <;> rfl

theorem parseUnit_growsInBlocks {t t₁ : Tree} {f : File} {u : NodeId}
    (h : t.parseUnit f = .ok (u, t₁)) : GrowsInBlocks t t₁ := by
  simp only [parseUnit] at h
  split at h
  · next ds hparse =>
      split at h
      · have hunit : Lowering.InBlocks (Lowering.unit (Layout.ofFile f) ds) [] fun _ => [] :=
          .bind (Lowering.decls_inBlocks _ ds (Surface.parse_inBlocks hparse)) fun _ =>
            .insert (by simp [Kind.arms])
        have hgrows := (hunit t (by simp)).1
        rw [Except.ok.injEq] at h
        rwa [h] at hgrows
      · cases h
  · cases h

theorem parseUnits_growsInBlocks (files : List File) (t : Tree) :
    GrowsInBlocks t (t.parseUnits files).2.2 := by
  induction files generalizing t with
  | nil => exact .refl t
  | cons f fs ih =>
      rw [parseUnits]
      split
      · next u t₁ hunit => exact (parseUnit_growsInBlocks hunit).trans (ih t₁)
      · exact ih t

theorem parseModule_growsInBlocks {base t : Tree} {name : String} {files : List File}
    (h : parseModule base name files = .ok t) : GrowsInBlocks base t := by
  have hextending : GrowsInBlocks base (extending base) := by
    refine ⟨keeps_extending base, fun i hle hlt => ?_⟩
    have hsize : (extending base).size = base.size := by simp [extending, size]
    exact absurd (Nat.lt_of_lt_of_eq hlt hsize) (Nat.not_lt.mpr hle)
  simp only [parseModule] at h
  split at h
  · rw [Except.ok.injEq] at h
    subst h
    have hmodule := growsInBlocks_insert (t := ((extending base).parseUnits files).2.2)
      (k := .module name ((extending base).parseUnits files).1) .synthesized (by simp [Kind.arms])
    refine hextending.trans ((parseUnits_growsInBlocks files _).trans (hmodule.trans ?_))
    refine ⟨keeps_addModule _ _, fun i hle hlt => absurd hlt (Nat.not_lt.mpr ?_)⟩
    rwa [size_addModule]
  · cases h

theorem Parsed.declsInBlocks {t : Tree} (h : t.Parsed) : t.DeclsInBlocks := by
  induction h with
  | empty =>
      intro i c hc
      have hkind : Tree.empty.kind i = .wildcard := rfl
      simp [hkind, Kind.arms] at hc
  | @module base t name files hbase h ih =>
      have hgrows := parseModule_growsInBlocks h
      intro i c hc
      have hi : i < t.size := lt_size_of_child (Kind.mem_children_of_mem_arms hc)
      rcases Nat.lt_or_ge i base.size with hold | hnew
      · rw [hgrows.keeps.kind_eq hold] at hc
        have hlt := hbase.wellFormed.child_lt i c (Kind.mem_children_of_mem_arms hc)
        rw [hgrows.keeps.kind_eq (Nat.lt_trans hlt hold)]
        exact ih i c hc
      · exact (hgrows.arms i hnew hi c hc).2

end Tree

end LanguageService
