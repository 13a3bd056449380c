import LanguageService.Proofs.TreeShape
import LanguageService.Tree.Parse
import Mathlib.Data.List.Nodup

namespace LanguageService

abbrev Part := (Kind → Bool) × NodeId

namespace Tree

variable {t t₁ t₂ : Tree} {ps qs : List Part}

theorem get?_insert (t : Tree) (k : Kind) (s : Site) (i : Nat) :
    (t.insert k s).2.get? i = if i = t.size then some ⟨k, s⟩ else t.get? i := by
  cases t with
  | root ns ms =>
      simp only [insert, get?, size, Array.getElem?_push]
      rfl
  | layer base ns ms =>
      simp only [insert, get?, size, Array.getElem?_push]
      by_cases hi : i < base.size
      · have hne : i ≠ base.size + ns.size := by omega
        simp [hi, hne]
      · have heq : (i - base.size = ns.size) = (i = base.size + ns.size) := by
          apply propext
          omega
        simp [hi, heq]

theorem get?_eq_none (t : Tree) {i : Nat} (hi : t.size ≤ i) : t.get? i = none := by
  cases t with
  | root ns ms => exact Array.getElem?_eq_none hi
  | layer base ns ms =>
      rw [size] at hi
      have hbase : ¬ i < base.size := by omega
      rw [get?, if_neg hbase]
      exact Array.getElem?_eq_none (by omega)

theorem kind_insert (t : Tree) (k : Kind) (s : Site) (i : Nat) :
    (t.insert k s).2.kind i = if i = t.size then k else t.kind i := by
  rw [kind, get?_insert]
  split <;> rfl

theorem children_of_size_le (t : Tree) {i : Nat} (hi : t.size ≤ i) : t.children i = [] := by
  rw [children, kind, get?_eq_none t hi]
  rfl

theorem lt_size_of_child {i c : NodeId} (hc : c ∈ t.children i) : i < t.size := by
  refine Nat.lt_of_not_le fun hle => ?_
  simp [children_of_size_le t hle] at hc

theorem children_insert (t : Tree) (k : Kind) (s : Site) (i : Nat) :
    (t.insert k s).2.children i = if i = t.size then k.children else t.children i := by
  rw [children, kind_insert]
  split <;> rfl

structure Grown (t t' : Tree) (ps : List Part) : Prop where
  wellFormed : t'.WellFormed
  size_le : t.size ≤ t'.size
  get?_eq : ∀ i < t.size, t'.get? i = t.get? i
  fresh : ∀ i, t.size ≤ i → ∀ c ∈ t'.children i, t.size ≤ c
  modules : t'.modules = t.modules
  inherited : t'.inheritedSize = t.inheritedSize
  since : ∀ p ∈ ps, t.size ≤ p.2
  before : ∀ p ∈ ps, p.2 < t'.size
  fits : ∀ p ∈ ps, p.1 (t'.kind p.2) = true
  root : ∀ p ∈ ps, ∀ i, p.2 ∉ t'.children i
  nodup : (ps.map (·.2)).Nodup

theorem Grown.refl (h : t.WellFormed) : Grown t t [] where
  wellFormed := h
  size_le := Nat.le_refl _
  get?_eq := fun _ _ => rfl
  fresh := by
    intro i hi c hc
    simp [children_of_size_le t hi] at hc
  modules := rfl
  inherited := rfl
  since := by simp
  before := by simp
  fits := by simp
  root := by simp
  nodup := by simp

theorem Grown.kind_eq {i : NodeId} (h : Grown t t₁ ps) (hi : i < t.size) :
    t₁.kind i = t.kind i := by
  rw [kind, kind, h.get?_eq i hi]

theorem Grown.trans (h : Grown t t₁ ps) (h' : Grown t₁ t₂ qs) : Grown t t₂ (ps ++ qs) where
  wellFormed := h'.wellFormed
  size_le := Nat.le_trans h.size_le h'.size_le
  get?_eq := by
    intro i hi
    rw [h'.get?_eq i (Nat.lt_of_lt_of_le hi h.size_le), h.get?_eq i hi]
  fresh := by
    intro i hi c hc
    by_cases hi₁ : i < t₁.size
    · rw [children, h'.kind_eq hi₁] at hc
      exact h.fresh i hi c hc
    · exact Nat.le_trans h.size_le (h'.fresh i (Nat.le_of_not_lt hi₁) c hc)
  modules := h'.modules.trans h.modules
  inherited := h'.inherited.trans h.inherited
  since := by
    intro p hp
    rcases List.mem_append.mp hp with hp | hp
    · exact h.since p hp
    · exact Nat.le_trans h.size_le (h'.since p hp)
  before := by
    intro p hp
    rcases List.mem_append.mp hp with hp | hp
    · exact Nat.lt_of_lt_of_le (h.before p hp) h'.size_le
    · exact h'.before p hp
  fits := by
    intro p hp
    rcases List.mem_append.mp hp with hp | hp
    · rw [h'.kind_eq (h.before p hp)]
      exact h.fits p hp
    · exact h'.fits p hp
  root := by
    intro p hp i hc
    rcases List.mem_append.mp hp with hp | hp
    · by_cases hi : i < t₁.size
      · rw [children, h'.kind_eq hi] at hc
        exact h.root p hp i hc
      · have hsince := h'.fresh i (Nat.le_of_not_lt hi) _ hc
        exact Nat.not_lt.mpr hsince (h.before p hp)
    · exact h'.root p hp i hc
  nodup := by
    rw [List.map_append, List.nodup_append]
    refine ⟨h.nodup, h'.nodup, ?_⟩
    intro i hi j hj heq
    obtain ⟨p, hp, rfl⟩ := List.mem_map.mp hi
    obtain ⟨q, hq, rfl⟩ := List.mem_map.mp hj
    have hlt := h.before p hp
    rw [heq] at hlt
    exact Nat.not_lt.mpr (h'.since q hq) hlt

theorem wellFormed_insert {k : Kind} {s : Site} (h : t.WellFormed)
    (hlt : ∀ p ∈ k.parts, p.2 < t.size) (hfits : ∀ p ∈ k.parts, p.1 (t.kind p.2) = true)
    (hroot : ∀ p ∈ k.parts, ∀ i, p.2 ∉ t.children i) (hnodup : (k.parts.map (·.2)).Nodup) :
    (t.insert k s).2.WellFormed := by
  have hpart {c : NodeId} (hc : c ∈ k.children) : ∃ p ∈ k.parts, p.2 = c := by
    rw [← Kind.parts_map_snd] at hc
    exact List.mem_map.mp hc
  refine ⟨fun i c hc => ?_, fun i j c hi hj => ?_, fun i => ?_, fun i p hp => ?_, ?_, ?_⟩
  · rw [children_insert] at hc
    split at hc
    · next hi =>
        obtain ⟨p, hp, rfl⟩ := hpart hc
        exact hi ▸ hlt p hp
    · exact h.child_lt i c hc
  · rw [children_insert] at hi hj
    split at hi
    · next hit =>
        obtain ⟨p, hp, rfl⟩ := hpart hi
        split at hj
        · next hjt => exact hit.trans hjt.symm
        · exact absurd hj (hroot p hp j)
    · split at hj
      · obtain ⟨p, hp, rfl⟩ := hpart hj
        exact absurd hi (hroot p hp i)
      · exact h.parent_unique i j c hi hj
  · rw [children_insert]
    split
    · rwa [← Kind.parts_map_snd]
    · exact h.children_nodup i
  · rw [kind_insert] at hp ⊢
    split at hp
    · rw [if_neg (Nat.ne_of_lt (hlt p hp))]
      exact hfits p hp
    · have hlt : p.2 < t.size := by
        have hmem : p.2 ∈ t.children i := by
          rw [children, ← Kind.parts_map_snd]
          exact List.mem_map.mpr ⟨p, hp, rfl⟩
        exact Nat.lt_trans (h.child_lt i _ hmem) (lt_size_of_child hmem)
      rw [if_neg (Nat.ne_of_lt hlt)]
      exact h.fits i p hp
  · cases t <;> exact h.modules_nodup
  · intro m hm
    rw [size_insert]
    have hm : m ∈ t.modules := by cases t <;> exact hm
    exact Nat.lt_succ_of_lt (h.modules_lt m hm)

theorem Grown.insert {k : Kind} {s : Site} {f : Kind → Bool} (h : Grown t t₁ ps)
    (hparts : k.parts = ps) (hf : f k = true) :
    Grown t (t₁.insert k s).2 [(f, (t₁.insert k s).1)] := by
  subst hparts
  have hsize := size_insert t₁ k s
  have hchild {i c : NodeId} (hc : c ∈ (t₁.insert k s).2.children i) : c < t₁.size := by
    rw [children_insert] at hc
    split at hc
    · rw [← Kind.parts_map_snd] at hc
      obtain ⟨p, hp, rfl⟩ := List.mem_map.mp hc
      exact h.before p hp
    · exact Nat.lt_trans (h.wellFormed.child_lt i c hc) (lt_size_of_child hc)
  refine ⟨wellFormed_insert h.wellFormed h.before h.fits h.root h.nodup, ?_, ?_, ?_, ?_, ?_, ?_,
    ?_, ?_, ?_, ?_⟩
  · rw [hsize]
    exact Nat.le_succ_of_le h.size_le
  · intro i hi
    rw [get?_insert, if_neg (Nat.ne_of_lt (Nat.lt_of_lt_of_le hi h.size_le))]
    exact h.get?_eq i hi
  · intro i hi c hc
    rw [children_insert] at hc
    split at hc
    · rw [← Kind.parts_map_snd] at hc
      obtain ⟨p, hp, rfl⟩ := List.mem_map.mp hc
      exact h.since p hp
    · exact h.fresh i hi c hc
  · rw [← h.modules]
    cases t₁ <;> rfl
  · rw [← h.inherited]
    cases t₁ <;> rfl
  · simpa [fst_insert] using h.size_le
  · simp [fst_insert, hsize]
  · simpa [fst_insert, kind_insert] using hf
  · intro p hp i hc
    have hlt := hchild hc
    simp only [List.mem_singleton] at hp
    subst hp
    rw [fst_insert] at hlt
    exact Nat.lt_irrefl _ hlt
  · simp

end Tree

namespace Lowering

open LanguageService.Tree (Grown)

variable {α β : Type}

/-- A way to say of a lowering which nodes it leaves without a parent: `P m ps qs` if `m` is run
when those in `ps` have none yet, and none of those in `qs` has one then. -/
structure Tracks (P : ∀ {α : Type}, Lowering α → List Part → (α → List Part) → Prop) : Prop where
  pure : ∀ {α : Type} {a : α} {ps : List Part} {qs : α → List Part}, qs a = ps → P (pure a) ps qs
  bind : ∀ {α β : Type} {m : Lowering α} {f : α → Lowering β} {ps : List Part}
    {qs : α → List Part} {rs : β → List Part}, P m [] qs → (∀ a, P (f a) (ps ++ qs a) rs) →
    P (m >>= f) ps rs
  andThen : ∀ {α β : Type} {m : Lowering α} {f : α → Lowering β} {ps : List Part}
    {qs : α → List Part} {rs : β → List Part}, P m ps qs → (∀ a, P (f a) (qs a) rs) →
    P (m >>= f) ps rs
  insert : ∀ {k : Kind} {s : Site} {f : Kind → Bool} {ps : List Part}, k.parts = ps →
    f k = true → P (insert k s) ps fun i => [(f, i)]

section Tracked

variable {P : ∀ {α : Type}, Lowering α → List Part → (α → List Part) → Prop} (h : Tracks P)
  (l : Layout)

include h

mutual

theorem typeExpr_tracked : ∀ e : Surface.TypeExpr, P (typeExpr l e) [] fun i => [(Kind.isType, i)]
  | .name s x => by
      rw [typeExpr]
      exact h.insert rfl rfl
  | .tuple s es => by
      rw [typeExpr]
      exact h.bind (typeExprs_tracked es)
        fun is => h.insert (by simp [Kind.parts]) rfl

theorem typeExprs_tracked : ∀ es : List Surface.TypeExpr,
    P (typeExprs l es) [] fun is => is.map (Kind.isType, ·)
  | [] => by
      rw [typeExprs]
      exact h.pure (by simp)
  | e :: es => by
      rw [typeExprs]
      exact h.bind (typeExpr_tracked e) fun i =>
        h.bind (typeExprs_tracked es) fun is => h.pure (by simp)

end

theorem typeExpr?_tracked (e : Option Surface.TypeExpr) :
    P (typeExpr? l e) [] fun i => i.toList.map (Kind.isType, ·) := by
  cases e with
  | none => exact h.pure (by simp)
  | some e => exact h.bind (typeExpr_tracked h l e) fun i => h.pure (by simp)

mutual

theorem expr_tracked : ∀ e : Surface.Expr, P (expr l e) [] fun i => [(Kind.isExpr, i)]
  | .literal s (.int x) => by
      rw [expr]
      exact h.insert rfl rfl
  | .literal s (.float x) => by
      rw [expr]
      exact h.insert rfl rfl
  | .literal s (.string x) => by
      rw [expr]
      exact h.insert rfl rfl
  | .literal s (.bool b) => by
      rw [expr]
      exact h.insert rfl rfl
  | .name s none x => by
      rw [expr]
      exact h.insert rfl rfl
  | .name s (some d) x => by
      rw [expr]
      exact h.bind (expr_tracked d) fun i => h.insert (by simp [Kind.parts]) rfl
  | .call s c as => by
      rw [expr]
      exact h.bind (expr_tracked c) fun i =>
        h.bind (args_tracked as) fun is => h.insert (by simp [Kind.parts]) rfl
  | .subscript s c as => by
      rw [expr]
      exact h.bind (expr_tracked c) fun i =>
        h.bind (args_tracked as) fun is => h.insert (by simp [Kind.parts]) rfl
  | .binary s lhs op rhs => by
      rw [expr]
      exact h.bind (expr_tracked lhs) fun i =>
        h.bind (expr_tracked rhs) fun j => h.insert (by simp [Kind.parts]) rfl
  | .tuple s es => by
      rw [expr]
      exact h.bind (exprs_tracked es) fun is => h.insert (by simp [Kind.parts]) rfl

theorem args_tracked : ∀ as : List (Option Surface.Name × Surface.Expr),
    P (args l as) [] fun is => is.map fun a => (Kind.isExpr, a.2)
  | [] => by
      rw [args]
      exact h.pure (by simp)
  | (label, e) :: as => by
      rw [args]
      exact h.bind (expr_tracked e) fun i =>
        h.bind (args_tracked as) fun is => h.pure (by simp)

theorem exprs_tracked : ∀ es : List Surface.Expr,
    P (exprs l es) [] fun is => is.map (Kind.isExpr, ·)
  | [] => by
      rw [exprs]
      exact h.pure (by simp)
  | e :: es => by
      rw [exprs]
      exact h.bind (expr_tracked e) fun i =>
        h.bind (exprs_tracked es) fun is => h.pure (by simp)

end

theorem expr?_tracked (e : Option Surface.Expr) :
    P (expr? l e) [] fun i => i.toList.map (Kind.isExpr, ·) := by
  cases e with
  | none => exact h.pure (by simp)
  | some e => exact h.bind (expr_tracked h l e) fun i => h.pure (by simp)

mutual

theorem pattern_tracked : ∀ p : Surface.Pattern,
    P (pattern l p) [] fun i => [(Kind.isPattern, i)]
  | .name s x => by
      rw [pattern]
      have hvar : P (insert (.var (l.name x)) (l.site x.span)) []
          fun i => [(Kind.isVar, i)] := h.insert rfl rfl
      exact h.bind hvar fun v => h.insert (by simp [Kind.parts]) rfl
  | .tuple s es => by
      rw [pattern]
      exact h.bind (patterns_tracked es) fun is =>
        h.insert (by simp [Kind.parts]) rfl
  | .wildcard s => by
      rw [pattern]
      exact h.insert rfl rfl

theorem patterns_tracked : ∀ xs : List Surface.Pattern,
    P (patterns l xs) [] fun is => is.map (Kind.isPattern, ·)
  | [] => by
      rw [patterns]
      exact h.pure (by simp)
  | x :: xs => by
      rw [patterns]
      exact h.bind (pattern_tracked x) fun i =>
        h.bind (patterns_tracked xs) fun is => h.pure (by simp)

end

theorem binding_tracked (site : Site) (b : Surface.Binding) {f : Kind → Bool}
    (hf : ∀ p i, f (.binding p i) = true) :
    P (binding l site b) [] fun i => [(f, i)] := by
  refine h.bind (pattern_tracked h l b.pattern) fun names =>
    h.bind (typeExpr?_tracked h l b.ascription) fun type => ?_
  refine h.andThen (h.insert (f := Kind.isBindingPattern) (by simp [Kind.parts])
    rfl) fun p => ?_
  exact h.bind (expr?_tracked h l b.initializer) fun value =>
    h.insert (by simp [Kind.parts]) (hf _ _)

mutual

theorem stmt_tracked : ∀ s : Surface.Stmt, P (stmt l s) [] fun i => [(Kind.isStmt, i)]
  | .brace s ss => by
      rw [stmt]
      exact h.bind (stmts_tracked ss) fun is => h.insert (by simp [Kind.parts]) rfl
  | .ret s k v => by
      rw [stmt]
      exact h.bind (expr?_tracked h l v) fun i => h.insert (by simp [Kind.parts]) rfl
  | .loop s k e b => by
      rw [stmt]
      exact h.bind (expr_tracked h l e) fun i =>
        h.bind (stmt_tracked b) fun j => h.insert (by simp [Kind.parts]) rfl
  | .cond s k e yes none => by
      rw [stmt]
      exact h.bind (expr_tracked h l e) fun i =>
        h.bind (stmt_tracked yes) fun j => h.insert (by simp [Kind.parts]) rfl
  | .cond s k e yes (some (other, no)) => by
      rw [stmt]
      exact h.bind (expr_tracked h l e) fun i => h.bind (stmt_tracked yes) fun j =>
        h.bind (stmt_tracked no) fun k => h.insert (by simp [Kind.parts]) rfl
  | .assign s lhs rhs => by
      rw [stmt]
      exact h.bind (expr_tracked h l lhs) fun i =>
        h.bind (expr_tracked h l rhs) fun j => h.insert (by simp [Kind.parts]) rfl
  | .expr s e => by
      rw [stmt]
      exact h.bind (expr_tracked h l e) fun i => h.insert (by simp [Kind.parts]) rfl
  | .binding s b => by
      rw [stmt]
      have hbinding := binding_tracked h l (l.site s) b (f := Kind.isBinding) fun _ _ => rfl
      exact h.bind hbinding fun i => h.insert (by simp [Kind.parts]) rfl

theorem stmts_tracked : ∀ xs : List Surface.Stmt,
    P (stmts l xs) [] fun is => is.map (Kind.isStmt, ·)
  | [] => by
      rw [stmts]
      exact h.pure (by simp)
  | x :: xs => by
      rw [stmts]
      exact h.bind (stmt_tracked x) fun i =>
        h.bind (stmts_tracked xs) fun is => h.pure (by simp)

end

theorem stmt?_tracked (s : Option Surface.Stmt) :
    P (stmt? l s) [] fun i => i.toList.map (Kind.isStmt, ·) := by
  cases s with
  | none => exact h.pure (by simp)
  | some s => exact h.bind (stmt_tracked h l s) fun i => h.pure (by simp)

theorem generics_tracked : ∀ xs : List Surface.Name,
    P (generics l xs) [] fun is => is.map (Kind.isGeneric, ·)
  | [] => by
      rw [generics]
      exact h.pure (by simp)
  | x :: xs => by
      rw [generics]
      exact h.bind (h.insert (f := Kind.isGeneric) rfl rfl) fun i =>
        h.bind (generics_tracked xs) fun is => h.pure (by simp)

theorem param_tracked (p : Surface.Param) :
    P (param l p) [] fun i => [(Kind.isParameter, i)] :=
  h.bind (typeExpr?_tracked h l p.ascription) fun type =>
    h.insert (by simp [Kind.parts]) rfl

theorem params_tracked : ∀ xs : List Surface.Param,
    P (params l xs) [] fun is => is.map (Kind.isParameter, ·)
  | [] => by
      rw [params]
      exact h.pure (by simp)
  | x :: xs => by
      rw [params]
      exact h.bind (param_tracked h l x) fun i =>
        h.bind (params_tracked xs) fun is => h.pure (by simp)

theorem variants_tracked : ∀ vs : List Surface.Variant,
    P (variants l vs) [] fun is => is.map (Kind.isVariant, ·)
  | [] => by
      rw [variants]
      exact h.pure (by simp)
  | v :: vs => by
      rw [variants]
      refine h.bind (stmt_tracked h l v.body) fun b => ?_
      refine h.andThen (h.insert (f := Kind.isVariant) (by simp [Kind.parts]) rfl)
        fun i => ?_
      exact h.bind (variants_tracked vs) fun is => h.pure (by simp)

theorem memberwiseParams_tracked : ∀ xs : List String,
    P (memberwiseParams xs) [] fun is => is.map (Kind.isParameter, ·)
  | [] => by
      rw [memberwiseParams]
      exact h.pure (by simp)
  | x :: xs => by
      rw [memberwiseParams]
      exact h.bind (h.insert (f := Kind.isParameter) rfl rfl) fun i =>
        h.bind (memberwiseParams_tracked xs) fun is => h.pure (by simp)

theorem memberwise_tracked (ms : List Surface.Decl) :
    P (memberwise ms) [] fun i => i.toList.map (Kind.isMemberwise, ·) := by
  rw [memberwise]
  split
  · exact h.pure (by simp)
  · refine h.bind (memberwiseParams_tracked h (storedNames ms)) fun ps => ?_
    exact h.andThen (h.insert (f := Kind.isMemberwise) (by simp [Kind.parts]) rfl)
      fun i => h.pure (by simp)

mutual

theorem decl_tracked : ∀ d : Surface.Decl, P (decl l d) [] fun i => [(Kind.isMember, i)]
  | .space s k x ms => by
      rw [decl]
      exact h.bind (decls_tracked ms) fun is => h.insert (by simp [Kind.parts]) rfl
  | .product s k x gs ms => by
      rw [decl]
      exact h.bind (generics_tracked h l gs) fun gs => h.bind (decls_tracked ms) fun is =>
        h.bind (memberwise_tracked h ms) fun m => h.insert (by simp [Kind.parts]) rfl
  | .associated s k x => by
      rw [decl]
      exact h.insert rfl rfl
  | .extension s k t ms => by
      rw [decl]
      exact h.bind (typeExpr_tracked h l t) fun t => h.bind (decls_tracked ms) fun is =>
        h.insert (by simp [Kind.parts]) rfl
  | .conformance s k t ts ms => by
      rw [decl]
      exact h.bind (typeExpr_tracked h l t) fun t => h.bind (typeExprs_tracked h l ts) fun ts =>
        h.bind (decls_tracked ms) fun is => h.insert (by simp [Kind.parts]) rfl
  | .trait s k x ms => by
      rw [decl]
      exact h.bind (decls_tracked ms) fun is => h.insert (by simp [Kind.parts]) rfl
  | .typeAlias s k x t => by
      rw [decl]
      exact h.bind (typeExpr_tracked h l t) fun t =>
        h.insert (by simp [Kind.parts]) rfl
  | .operator s k f fs x => by
      rw [decl]
      exact h.insert rfl rfl
  | .function s k x gs ps t (some (.bundle vs)) => by
      rw [decl]
      exact h.bind (generics_tracked h l gs) fun gs => h.bind (params_tracked h l ps) fun ps =>
        h.bind (typeExpr?_tracked h l t) fun t => h.bind (variants_tracked h l vs) fun vs =>
          h.insert (by simp [Kind.parts]) rfl
  | .function s k x gs ps t (some (.block b)) => by
      rw [decl]
      exact h.bind (generics_tracked h l gs) fun gs => h.bind (params_tracked h l ps) fun ps =>
        h.bind (typeExpr?_tracked h l t) fun t => h.bind (stmt_tracked h l b) fun b =>
          h.insert (by simp [Kind.parts]) rfl
  | .function s k x gs ps t none => by
      rw [decl]
      exact h.bind (generics_tracked h l gs) fun gs => h.bind (params_tracked h l ps) fun ps =>
        h.bind (typeExpr?_tracked h l t) fun t => h.insert (by simp [Kind.parts]) rfl
  | .init s k ps b => by
      rw [decl]
      exact h.bind (params_tracked h l ps) fun ps => h.bind (stmt?_tracked h l b) fun b =>
        h.insert (by simp [Kind.parts]) rfl
  | .subscript s k x ps t b => by
      rw [decl]
      exact h.bind (params_tracked h l ps) fun ps => h.bind (typeExpr_tracked h l t) fun t =>
        h.bind (stmt?_tracked h l b) fun b => h.insert (by simp [Kind.parts]) rfl
  | .binding s b => by
      rw [decl]
      exact binding_tracked h l (l.site s) b fun _ _ => rfl

theorem decls_tracked : ∀ xs : List Surface.Decl,
    P (decls l xs) [] fun is => is.map (Kind.isMember, ·)
  | [] => by
      rw [decls]
      exact h.pure (by simp)
  | x :: xs => by
      rw [decls]
      exact h.bind (decl_tracked x) fun i =>
        h.bind (decls_tracked xs) fun is => h.pure (by simp)

end

theorem unit_tracked (ds : List Surface.Decl) :
    P (unit l ds) [] fun i => [(Kind.isUnit, i)] :=
  h.bind (decls_tracked h l ds) fun is => h.insert (by simp [Kind.parts]) rfl

end Tracked

def Continues (m : Lowering α) (ps : List Part) (qs : α → List Part) : Prop :=
  ∀ t t₁, Grown t t₁ ps → Grown t (m t₁).2 (qs (m t₁).1)

theorem continues_tracks : Tracks Continues where
  pure := fun h _ _ ht => h ▸ ht
  bind := fun hm hf t t₁ ht => hf _ t _ (ht.trans (hm t₁ t₁ (.refl ht.wellFormed)))
  andThen := fun hm hf t t₁ ht => hf _ t _ (hm t t₁ ht)
  insert := fun hparts hf _ _ ht => ht.insert hparts hf

end Lowering

namespace Tree

theorem wellFormed_empty : Tree.empty.WellFormed where
  child_lt := by simp [empty, children, kind, get?, Kind.children]
  parent_unique := by simp [empty, children, kind, get?, Kind.children]
  children_nodup := by simp [empty, children, kind, get?, Kind.children]
  fits := by simp [empty, kind, get?, Kind.parts]
  modules_nodup := by simp [empty, modules]
  modules_lt := by simp [empty, modules]

theorem get?_extending (base : Tree) (i : NodeId) : (extending base).get? i = base.get? i := by
  rw [extending, get?]
  split
  · rfl
  · next hi => simpa using (get?_eq_none base (Nat.le_of_not_lt hi)).symm

theorem kind_extending (base : Tree) (i : NodeId) : (extending base).kind i = base.kind i := by
  rw [kind, get?_extending, kind]

theorem wellFormed_extending {base : Tree} (h : base.WellFormed) :
    (extending base).WellFormed where
  child_lt := by simpa only [children, kind_extending] using h.child_lt
  parent_unique := by simpa only [children, kind_extending] using h.parent_unique
  children_nodup := by simpa only [children, kind_extending] using h.children_nodup
  fits := by simpa only [kind_extending] using h.fits
  modules_nodup := h.modules_nodup
  modules_lt := by simpa [extending, size, modules] using h.modules_lt

theorem parseUnit_grown {t t₁ : Tree} {f : File} {u : NodeId} (h : t.WellFormed)
    (hunit : t.parseUnit f = .ok (u, t₁)) : Grown t t₁ [(Kind.isUnit, u)] := by
  simp only [parseUnit] at hunit
  split at hunit
  · next ds _ =>
      split at hunit
      · have hgrown := Lowering.unit_tracked Lowering.continues_tracks (Layout.ofFile f) ds t t
          (.refl h)
        rw [Except.ok.injEq] at hunit
        rwa [hunit] at hgrown
      · cases hunit
  · cases hunit

theorem parseUnits_grown (files : List File) (t : Tree) (h : t.WellFormed) :
    Grown t (t.parseUnits files).2.2 ((t.parseUnits files).1.map (Kind.isUnit, ·)) := by
  induction files generalizing t with
  | nil => exact Grown.refl h
  | cons f fs ih =>
      rw [parseUnits]
      split
      · next u t₁ hunit =>
          have hgrown := parseUnit_grown h hunit
          simpa using hgrown.trans (ih t₁ hgrown.wellFormed)
      · exact ih t h

theorem wellFormed_addModule {t : Tree} {m : NodeId} (h : t.WellFormed) (hm : m < t.size)
    (hnew : m ∉ t.modules) : (t.addModule m).WellFormed := by
  have hkind (i : NodeId) : (t.addModule m).kind i = t.kind i := by cases t <;> rfl
  have hmodules : (t.addModule m).modules = t.modules ++ [m] := by cases t <;> rfl
  have hsize : (t.addModule m).size = t.size := by cases t <;> rfl
  refine ⟨?_, ?_, ?_, ?_, ?_, ?_⟩
  · simpa only [children, hkind] using h.child_lt
  · simpa only [children, hkind] using h.parent_unique
  · simpa only [children, hkind] using h.children_nodup
  · simpa only [hkind] using h.fits
  · rw [hmodules, List.nodup_append]
    refine ⟨h.modules_nodup, by simp, ?_⟩
    intro i hi j hj heq
    simp only [List.mem_singleton] at hj
    exact hnew (hj ▸ heq ▸ hi)
  · intro i hi
    rw [hmodules, List.mem_append, List.mem_singleton] at hi
    rw [hsize]
    rcases hi with hi | rfl
    · exact h.modules_lt i hi
    · exact hm

theorem parseModule_wellFormed {base t : Tree} {name : String} {files : List File}
    (hbase : base.WellFormed) (h : parseModule base name files = .ok t) : t.WellFormed := by
  have hgrown := parseUnits_grown files _ (wellFormed_extending hbase)
  simp only [parseModule] at h
  split at h
  · rw [Except.ok.injEq] at h
    subst h
    have hmodule := hgrown.insert (k := .module name ((extending base).parseUnits files).1)
      (s := .synthesized) (f := fun _ => true) rfl rfl
    have hmem := List.mem_singleton_self ((fun _ => true : Kind → Bool),
      (((extending base).parseUnits files).2.2.insert
        (.module name ((extending base).parseUnits files).1) .synthesized).1)
    refine wellFormed_addModule hmodule.wellFormed (hmodule.before _ hmem) ?_
    intro hm
    rw [hmodule.modules] at hm
    have hlt := (wellFormed_extending hbase).modules_lt _ hm
    have hle := hmodule.since _ hmem
    exact Nat.not_lt.mpr hle hlt
  · cases h

end Tree

end LanguageService
