import LanguageService.Check.Stmt
import LanguageService.Proofs.TreeShape
import Mathlib.Data.List.Forall2

namespace LanguageService

namespace Ty

def isMetatype : Ty → Bool
  | metatype _ => true
  | _ => false

mutual

/-- Product types are declared as such, and what a function gives back is a value and no type. -/
def proper (t : Tree) : Ty → Bool
  | product d => (t.kind d).isProduct
  | tuple as => allProper t as
  | function _ o => o.proper t && !o.isMetatype
  | metatype a => a.proper t
  | _ => true

def allProper (t : Tree) : List Ty → Bool
  | [] => true
  | a :: as => a.proper t && allProper t as

end

def plain (t : Tree) (a : Ty) : Bool := a.proper t && !a.isMetatype

theorem allProper_eq_all (t : Tree) (as : List Ty) : allProper t as = as.all (proper t) := by
  induction as with
  | nil => rfl
  | cons a as ih => rw [allProper, ih, List.all_cons]

theorem proper_of_plain {t : Tree} {a : Ty} (h : a.plain t = true) : a.proper t = true := by
  rw [plain, Bool.and_eq_true] at h
  exact h.1

theorem plain_product {t : Tree} {d : NodeId} {introducer : Site} {x : Name} {gs ms : List NodeId}
    {memberwise : Option NodeId} (hk : t.kind d = .product introducer x gs ms memberwise) :
    (product d).plain t = true := by
  rw [plain, proper, hk]
  rfl

theorem plain_ofElements {t : Tree} {as : List Ty} (h : ∀ a ∈ as, a.proper t = true) :
    (ofElements as).plain t = true := by
  cases as with
  | nil => rfl
  | cons a as =>
      rw [ofElements, plain, proper, allProper_eq_all]
      simpa [isMetatype] using h

end Ty

def Kind.condition : Kind → Option NodeId
  | loop _ c _ => some c
  | cond _ c _ _ _ => some c
  | _ => none

def Tree.bodies (t : Tree) (d : NodeId) : List NodeId :=
  match t.kind d with
  | .function _ _ _ _ _ b => b.toList
  | .method _ _ _ _ _ vs => vs.filterMap (Check.variantBody t)
  | .init _ _ b _ => b.toList
  | .subscript _ _ _ _ b => b.toList
  | _ => []

namespace Program

variable (p : Program)

def HasValue (d : NodeId) (t : Ty) : Prop :=
  match p.tree.kind d with
  | .product _ _ _ _ _ => t = .metatype (.product d)
  | .trait _ _ _ => t = .metatype (.trait d)
  | .typeAlias _ _ _ => ∃ aliased, p.types.get? d = some aliased ∧ t = .metatype aliased
  | .associated _ _ => t = .metatype (.parameter d)
  | .generic _ => t = .metatype (.parameter d)
  | .space _ _ _ => t = .space d
  | _ => p.types.get? d = some t

def HasOutput (d : NodeId) (t : Ty) : Prop :=
  match p.tree.kind d with
  | .init _ _ _ _ => t = .void
  | _ => ∃ s, p.types.get? d = some s ∧ t = s.output

def Returns (t : Ty) (x : NodeId) : Prop :=
  ∀ introducer value, p.tree.kind x = .ret introducer value →
    match value with
    | some v => ∃ found, p.types.get? v = some found ∧ found.compatible t = true
    | none => Ty.void.compatible t = true

/-- The operator of an infix expression is built in, or a member of the type on its left. -/
def Operates (x : NodeId) (op : String) (lhs rhs t : Ty) : Prop :=
  t = .error ∨ (∃ b, Check.builtinResult op lhs rhs = some b ∧ t = .builtin b) ∨
    ∃ d operand, (p.tree.kind d).isDeclaration = true ∧
      p.references.get? x = some (.member d) ∧
      p.types.get? d = some (.function [operand] t) ∧ rhs.compatible operand = true

structure Accepts (x : NodeId) : Prop where
  condition : ∀ c, (p.tree.kind x).condition = some c →
    ∃ t, p.types.get? c = some t ∧ t.compatible .bool = true
  assignment : ∀ l r, p.tree.kind x = .assign l r →
    ∃ target value, p.types.get? l = some target ∧ p.types.get? r = some value ∧
      value.compatible target = true
  ascription : ∀ q i introducer how sub a, p.tree.kind x = .binding q (some i) →
    p.tree.kind q = .bindingPattern introducer how sub (some a) →
    ∃ expected found, p.types.get? a = some expected ∧ p.types.get? i = some found ∧
      found.compatible expected = true
  output : ∀ b ∈ p.tree.bodies x,
    ∃ t, p.HasOutput x t ∧ ∀ y, p.tree.Below b y → p.Returns t y
  call : ∀ callee args inputs t, p.tree.kind x = .call callee args →
    p.types.get? callee = some (.function inputs t) →
    p.types.get? x = some t ∧
      List.Forall₂ (fun a input => ∃ found, p.types.get? a.2 = some found ∧
        found.compatible input = true) args inputs
  operator : ∀ l op r, p.tree.kind x = .binary l op r →
    ∃ lhs rhs t, p.types.get? l = some lhs ∧ p.types.get? r = some rhs ∧
      p.types.get? x = some t ∧ p.Operates x op.text lhs rhs t
  name : ∀ domain n d, p.tree.kind x = .name domain n →
    (p.references.get? x = some (.direct d) ∨ p.references.get? x = some (.member d)) →
    (p.tree.kind d).isDeclaration = true ∧
      ∃ t, p.types.get? x = some t ∧ (t = .error ∨ p.HasValue d t)

end Program

def Kind.hasRule : Kind → Bool
  | function _ _ _ _ _ _ => true
  | method _ _ _ _ _ _ => true
  | init _ _ _ _ => true
  | subscript _ _ _ _ _ => true
  | binding _ _ => true
  | name _ _ => true
  | call _ _ => true
  | binary _ _ _ => true
  | assign _ _ => true
  | loop _ _ _ => true
  | cond _ _ _ _ _ => true
  | _ => false

theorem Kind.hasRule_of_isInert {k : Kind} (h : k.isInert = true) : k.hasRule = false := by
  cases k <;> first | rfl | cases h

theorem Kind.hasRule_of_condition {k : Kind} {c : NodeId} (h : k.condition = some c) :
    k.hasRule = true := by
  cases k <;> first | rfl | cases h

theorem Kind.isDeclaration_of_condition {k : Kind} {c : NodeId} (h : k.condition = some c) :
    k.isDeclaration = false := by
  cases k <;> first | rfl | cases h

theorem Kind.part_of_condition {k : Kind} {c : NodeId} (h : k.condition = some c) :
    (isExpr, c) ∈ k.parts := by
  cases k with
  | loop i e b =>
      cases h
      simp [parts]
  | cond i e b f g =>
      cases h
      simp [parts]
  | _ => cases h

theorem Tree.kind_of_mem_bodies {t : Tree} {d b : NodeId} (h : b ∈ t.bodies d) :
    (t.kind d).hasRule = true ∧ (t.kind d).isDeclaration = true ∧ (t.kind d).isVar = false := by
  rw [bodies] at h
  cases hk : t.kind d <;> rw [hk] at h <;> first | exact ⟨rfl, rfl, rfl⟩ | cases h

theorem Tree.parts_of_hasRule {t : Tree} {d : NodeId} (hd : (t.kind d).isDeclaration = true)
    (hb : (t.kind d).isBinding = false) (hrule : (t.kind d).hasRule = true) :
    ∀ p ∈ (t.kind d).parts,
      (p.1 = Kind.isType ∨ p.1 = Kind.isParameter ∨ p.1 = Kind.isGeneric) ∨ p.2 ∈ t.bodies d ∨
        p.1 = Kind.isVariant ∧ ∀ b, Check.variantBody t p.2 = some b → b ∈ t.bodies d := by
  rw [Tree.bodies]
  cases hk : t.kind d <;> rw [hk] at hd hb hrule <;>
    first | (cases hrule; done) | (cases hd; done) | (cases hb; done) | skip
  case function | init | subscript =>
    simp +contextual [Kind.parts, or_imp, forall_and]
  case method =>
    simp only [Kind.parts, List.mem_append, List.mem_map, List.mem_filterMap, Option.mem_toList]
    rintro _ (((⟨g, -, rfl⟩ | ⟨q, -, rfl⟩) | ⟨o, -, rfl⟩) | ⟨v, hv, rfl⟩)
    · simp
    · simp
    · simp
    · exact .inr (.inr ⟨rfl, fun b hb => ⟨v, hv, hb⟩⟩)

namespace Program.Accepts

variable {p : Program} {x : NodeId}

theorem of_hasRule (h : (p.tree.kind x).hasRule = false) : p.Accepts x where
  condition := fun c hc => absurd (Kind.hasRule_of_condition hc) (by simp [h])
  assignment := fun l r hk => by simp [hk, Kind.hasRule] at h
  ascription := fun q i introducer how sub a hk => by simp [hk, Kind.hasRule] at h
  output := fun b hb => absurd (Tree.kind_of_mem_bodies hb).1 (by simp [h])
  call := fun callee args inputs t hk => by simp [hk, Kind.hasRule] at h
  operator := fun l op r hk => by simp [hk, Kind.hasRule] at h
  name := fun domain n d hk => by simp [hk, Kind.hasRule] at h

theorem of_condition {c : NodeId} {t : Ty} (hk : (p.tree.kind x).condition = some c)
    (hc : p.types.get? c = some t) (h : t.compatible .bool = true) : p.Accepts x := by
  cases hkind : p.tree.kind x <;> rw [hkind] at hk <;>
    simp only [Kind.condition, reduceCtorEq, Option.some.injEq] at hk <;> subst hk <;>
    constructor <;> simp [hkind, Kind.condition, Tree.bodies, hc, h]

theorem of_assign {l r : NodeId} {target value : Ty} (hk : p.tree.kind x = .assign l r)
    (hl : p.types.get? l = some target) (hr : p.types.get? r = some value)
    (h : value.compatible target = true) : p.Accepts x := by
  constructor <;> simp [hk, Kind.condition, Tree.bodies]
  exact ⟨target, hl, value, hr, h⟩

theorem of_binding {q : NodeId} {initializer : Option NodeId}
    (hk : p.tree.kind x = .binding q initializer)
    (h : ∀ i introducer how sub a, initializer = some i →
      p.tree.kind q = .bindingPattern introducer how sub (some a) →
      ∃ expected found, p.types.get? a = some expected ∧ p.types.get? i = some found ∧
        found.compatible expected = true) : p.Accepts x where
  condition := by simp [hk, Kind.condition]
  assignment := by simp [hk]
  ascription := by
    intro q' i introducer how sub a hkind hq
    rw [hk] at hkind
    cases hkind
    exact h i introducer how sub a rfl hq
  output := by simp [hk, Tree.bodies]
  call := by simp [hk]
  operator := by simp [hk]
  name := by simp [hk]

theorem of_bodies (hk : (p.tree.kind x).isDeclaration = true)
    (hb : (p.tree.kind x).isBinding = false)
    (h : ∀ b ∈ p.tree.bodies x, ∃ t, p.HasOutput x t ∧ ∀ y, p.tree.Below b y → p.Returns t y) :
    p.Accepts x := by
  refine ⟨fun c hc => ?_, fun l r hkind => ?_, fun q i introducer how sub a hkind => ?_, h,
    fun callee args inputs t hkind => ?_, fun l op r hkind => ?_, fun domain n d hkind => ?_⟩
  · simp [Kind.isDeclaration_of_condition hc] at hk
  · simp [hkind, Kind.isDeclaration] at hk
  · simp [hkind, Kind.isBinding] at hb
  · simp [hkind, Kind.isDeclaration] at hk
  · simp [hkind, Kind.isDeclaration] at hk
  · simp [hkind, Kind.isDeclaration] at hk

theorem of_call {callee : NodeId} {args : List (Option Name × NodeId)}
    (hk : p.tree.kind x = .call callee args)
    (h : ∀ inputs t, p.types.get? callee = some (.function inputs t) →
      p.types.get? x = some t ∧ List.Forall₂ (fun a input => ∃ found,
        p.types.get? a.2 = some found ∧ found.compatible input = true) args inputs) :
    p.Accepts x where
  condition := by simp [hk, Kind.condition]
  assignment := by simp [hk]
  ascription := by simp [hk]
  output := by simp [hk, Tree.bodies]
  call := by
    intro callee' args' inputs t hkind
    rw [hk] at hkind
    cases hkind
    exact h inputs t
  operator := by simp [hk]
  name := by simp [hk]

theorem of_binary {l r : NodeId} {op : Name} {lhs rhs t : Ty}
    (hk : p.tree.kind x = .binary l op r) (hl : p.types.get? l = some lhs)
    (hr : p.types.get? r = some rhs) (ht : p.types.get? x = some t)
    (h : p.Operates x op.text lhs rhs t) : p.Accepts x where
  condition := by simp [hk, Kind.condition]
  assignment := by simp [hk]
  ascription := by simp [hk]
  output := by simp [hk, Tree.bodies]
  call := by simp [hk]
  operator := by
    intro l' op' r' hkind
    rw [hk] at hkind
    cases hkind
    exact ⟨lhs, rhs, t, hl, hr, ht, h⟩
  name := by simp [hk]

theorem of_name {domain : Option NodeId} {n : Name} {t : Ty}
    (hk : p.tree.kind x = .name domain n) (ht : p.types.get? x = some t)
    (h : ∀ d, p.references.get? x = some (.direct d) ∨ p.references.get? x = some (.member d) →
      (p.tree.kind d).isDeclaration = true ∧ (t = .error ∨ p.HasValue d t)) :
    p.Accepts x where
  condition := by simp [hk, Kind.condition]
  assignment := by simp [hk]
  ascription := by simp [hk]
  output := by simp [hk, Tree.bodies]
  call := by simp [hk]
  operator := by simp [hk]
  name := by
    intro domain' n' d _ href
    exact ⟨(h d href).1, t, ht, (h d href).2⟩

end Program.Accepts

namespace Tree

variable {t : Tree} (h : t.WellFormed)

include h

theorem isStmt_of_mem_bodies {d b : NodeId} (hb : b ∈ t.bodies d) :
    (t.kind b).isStmt = true ∧ t.Below d b := by
  have hbody (hpart : (Kind.isStmt, b) ∈ (t.kind d).parts) :
      (t.kind b).isStmt = true ∧ t.Below d b :=
    ⟨h.fits d _ hpart, below_child (child_of_part hpart)⟩
  rw [bodies] at hb
  split at hb
  · next hd => exact hbody (by simp_all [Kind.parts])
  · next vs hd =>
      obtain ⟨v, hv, hvb⟩ := List.mem_filterMap.mp hb
      have hchild : v ∈ t.children d := by simp [children, hd, Kind.children, hv]
      rw [Check.variantBody] at hvb
      split at hvb
      · next hkind =>
          cases hvb
          have hpart : (Kind.isStmt, b) ∈ (t.kind v).parts := by simp [hkind, Kind.parts]
          exact ⟨h.fits v _ hpart, (below_child hchild).trans (below_child (child_of_part hpart))⟩
      · cases hvb
  · next hd => exact hbody (by simp_all [Kind.parts])
  · next hd => exact hbody (by simp_all [Kind.parts])
  · simp at hb

end Tree

/-- A pattern has the shape of a type: wherever it is a tuple, the type is one of as many parts. -/
inductive Tree.Fits (t : Tree) : NodeId → Ty → Prop where
  | name {p v : NodeId} {ty : Ty} (hp : t.kind p = .namePattern v) : Fits t p ty
  | wildcard {p : NodeId} {ty : Ty} (hp : t.kind p = .wildcard) : Fits t p ty
  | tuple {p : NodeId} {ps : List NodeId} {ts : List Ty} (hp : t.kind p = .tuplePattern ps)
      (hlength : ts.length = ps.length) (hps : ∀ q ∈ ps.zip ts, Fits t q.1 q.2) :
      Fits t p (.tuple ts)

/-- A pattern for a value of the type `ty` gives the variable `v` a part of the type `a`. -/
inductive Tree.Gives (t : Tree) (v : NodeId) (a : Ty) : NodeId → Ty → Prop where
  | name {p : NodeId} (hp : t.kind p = .namePattern v) : Gives t v a p a
  | tuple {p : NodeId} {ps : List NodeId} {ts : List Ty} {q : NodeId × Ty}
      (hp : t.kind p = .tuplePattern ps) (hq : q ∈ ps.zip ts) (h : Gives t v a q.1 q.2) :
      Gives t v a p (.tuple ts)

theorem Tree.below_of_gives {t : Tree} {v p : NodeId} {a ty : Ty} (h : t.Gives v a p ty) :
    t.Below p v := by
  induction h with
  | name hp => exact below_child (by simp [children, hp, Kind.children])
  | @tuple p ps ts q hp hq _ ih =>
      exact .of_child (by simpa [children, hp, Kind.children] using (List.of_mem_zip hq).1) ih

theorem Tree.isVar_of_gives {t : Tree} (ht : t.WellFormed) {v p : NodeId} {a ty : Ty}
    (h : t.Gives v a p ty) : (t.kind v).isVar = true := by
  induction h with
  | @name p hp => exact ht.fits p (Kind.isVar, v) (by simp [hp, Kind.parts])
  | tuple _ _ _ ih => exact ih

def Tree.IsSteady (t : Tree) (x : NodeId) : Prop :=
  (t.kind x).isExpr = true ∨ t.IsAscription x

namespace Program

structure Extends (p q : Program) : Prop where
  tree : q.tree = p.tree
  decls : ∀ d t, (p.tree.kind d).isDeclaration = true → p.types.get? d = some t →
    ((p.tree.kind d).isVar = true → t ≠ .error) → q.types.get? d = some t

structure Settled (p q : Program) (x : NodeId) : Prop extends Extends p q where
  types : ∀ y, p.tree.Below x y → p.tree.IsSteady y → q.types.get? y = p.types.get? y
  references : ∀ y, p.tree.Below x y → p.tree.IsSteady y →
    q.references.get? y = p.references.get? y

section Known

variable {p q : Program} {x : NodeId} (hpq : Extends p q)

include hpq

theorem HasValue.stable {d : NodeId} {t : Ty} (hd : (p.tree.kind d).isDeclaration = true)
    (h : p.HasValue d t) (herror : t ≠ .error) : q.HasValue d t := by
  rw [HasValue] at h ⊢
  rw [hpq.tree]
  split at h <;> try exact h
  · obtain ⟨a, ha, rfl⟩ := h
    exact ⟨a, hpq.decls d a hd ha (by simp_all [Kind.isVar]), rfl⟩
  · exact hpq.decls d t hd h fun _ => herror

theorem HasOutput.stable {d : NodeId} {t : Ty} (hd : (p.tree.kind d).isDeclaration = true)
    (hvar : (p.tree.kind d).isVar = false) (h : p.HasOutput d t) : q.HasOutput d t := by
  rw [HasOutput] at h ⊢
  rw [hpq.tree]
  split at h
  · exact h
  · obtain ⟨s, hs, rfl⟩ := h
    exact ⟨s, hpq.decls d s hd hs (by simp [hvar]), rfl⟩

theorem Operates.stable {op : String} {lhs rhs t : Ty}
    (hx : q.references.get? x = p.references.get? x) (h : p.Operates x op lhs rhs t) :
    q.Operates x op lhs rhs t := by
  rcases h with herror | hbuiltin | ⟨d, operand, hd, href, htype, hcompatible⟩
  · exact .inl herror
  · exact .inr (.inl hbuiltin)
  · refine .inr (.inr ⟨d, operand, ?_, ?_, ?_, hcompatible⟩)
    · rwa [hpq.tree]
    · rw [hx, href]
    · exact hpq.decls d _ hd htype (by simp)

end Known

section Stable

variable {p q : Program} {x : NodeId} (hpq : Settled p q x) (ht : p.tree.WellFormed)

include hpq ht

theorem Settled.expr {f : Kind → Bool} {n c : NodeId} (hf : f = Kind.isExpr)
    (hn : p.tree.Below x n) (hc : (f, c) ∈ (p.tree.kind n).parts) :
    q.types.get? c = p.types.get? c := by
  have hexpr := ht.fits n _ hc
  rw [hf] at hexpr
  exact hpq.types c (hn.trans (Tree.below_child (Tree.child_of_part hc))) (.inl hexpr)

theorem Returns.stable {t : Ty} {y : NodeId} (hy : p.tree.Below x y) (h : p.Returns t y) :
    q.Returns t y := by
  intro introducer value hkind
  rw [hpq.tree] at hkind
  have hret := h introducer value hkind
  cases value with
  | none => exact hret
  | some v =>
      obtain ⟨found, hfound, hcompatible⟩ := hret
      refine ⟨found, ?_, hcompatible⟩
      rw [hpq.expr ht rfl hy (c := v) (by simp [hkind, Kind.parts]), hfound]

theorem Settled.arguments {callee : NodeId} {args : List (Option Name × NodeId)} {inputs : List Ty}
    (hk : p.tree.kind x = .call callee args)
    (h : List.Forall₂ (fun a input => ∃ found, p.types.get? a.2 = some found ∧
      found.compatible input = true) args inputs) :
    List.Forall₂ (fun a input => ∃ found, q.types.get? a.2 = some found ∧
      found.compatible input = true) args inputs := by
  rw [List.forall₂_iff_zip] at h ⊢
  refine ⟨h.1, fun {a input} hmem => ?_⟩
  obtain ⟨found, hfound, hcompatible⟩ := h.2 hmem
  have harg : (Kind.isExpr, a.2) ∈ (p.tree.kind x).parts := by
    simp only [hk, Kind.parts, List.mem_cons, List.mem_map]
    exact .inr ⟨a, (List.of_mem_zip hmem).1, rfl⟩
  exact ⟨found, by rw [hpq.expr ht rfl (.refl x) harg, hfound], hcompatible⟩

theorem Accepts.stable (h : p.Accepts x) : q.Accepts x where
  condition := by
    intro c hc
    rw [hpq.tree] at hc
    obtain ⟨t, htype, hcompatible⟩ := h.condition c hc
    refine ⟨t, ?_, hcompatible⟩
    rw [hpq.expr ht rfl (.refl x) (Kind.part_of_condition hc), htype]
  assignment := by
    intro l r hk
    rw [hpq.tree] at hk
    obtain ⟨target, value, hl, hr, hcompatible⟩ := h.assignment l r hk
    refine ⟨target, value, ?_, ?_, hcompatible⟩
    · rw [hpq.expr ht rfl (.refl x) (c := l) (by simp [hk, Kind.parts]), hl]
    · rw [hpq.expr ht rfl (.refl x) (c := r) (by simp [hk, Kind.parts]), hr]
  ascription := by
    intro b i introducer how sub a hk hb
    rw [hpq.tree] at hk hb
    obtain ⟨expected, found, ha, hi, hcompatible⟩ :=
      h.ascription b i introducer how sub a hk hb
    refine ⟨expected, found, ?_, ?_, hcompatible⟩
    · have hpattern : b ∈ p.tree.children x := by simp [Tree.children, hk, Kind.children]
      have hchild : a ∈ p.tree.children b := by simp [Tree.children, hb, Kind.children]
      rw [hpq.types a (.of_child hpattern (Tree.below_child hchild))
        (.inr ⟨b, introducer, how, sub, hb⟩), ha]
    · rw [hpq.expr ht rfl (.refl x) (c := i) (by simp [hk, Kind.parts]), hi]
  output := by
    intro b hb
    have hb' : b ∈ p.tree.bodies x := by rwa [hpq.tree] at hb
    obtain ⟨t, houtput, hreturns⟩ := h.output b hb'
    obtain ⟨-, hd, hvar⟩ := Tree.kind_of_mem_bodies hb'
    refine ⟨t, houtput.stable hpq.toExtends hd hvar, fun y hy => ?_⟩
    rw [hpq.tree] at hy
    exact (hreturns y hy).stable hpq ht ((Tree.isStmt_of_mem_bodies ht hb').2.trans hy)
  call := by
    intro callee args inputs t hk hcallee
    rw [hpq.tree] at hk
    rw [hpq.expr ht rfl (.refl x) (c := callee) (by simp [hk, Kind.parts])] at hcallee
    obtain ⟨htype, hargs⟩ := h.call callee args inputs t hk hcallee
    refine ⟨?_, ?_⟩
    · rw [hpq.types x (.refl x) (.inl (by simp [hk, Kind.isExpr])), htype]
    · exact hpq.arguments ht hk hargs
  operator := by
    intro l op r hk
    rw [hpq.tree] at hk
    obtain ⟨lhs, rhs, t, hl, hr, htype, hop⟩ := h.operator l op r hk
    have hx : (p.tree.kind x).isExpr = true := by simp [hk, Kind.isExpr]
    refine ⟨lhs, rhs, t, ?_, ?_, ?_, hop.stable hpq.toExtends ?_⟩
    · rw [hpq.expr ht rfl (.refl x) (c := l) (by simp [hk, Kind.parts]), hl]
    · rw [hpq.expr ht rfl (.refl x) (c := r) (by simp [hk, Kind.parts]), hr]
    · rw [hpq.types x (.refl x) (.inl hx), htype]
    · exact hpq.references x (.refl x) (.inl hx)
  name := by
    intro domain n d hk href
    rw [hpq.tree] at hk
    have hx : p.tree.IsSteady x := .inl (by simp [hk, Kind.isExpr])
    rw [hpq.references x (.refl x) hx] at href
    obtain ⟨hd, t, htype, hvalue⟩ := h.name domain n d hk href
    refine ⟨by rwa [hpq.tree], t, ?_, ?_⟩
    · rw [hpq.types x (.refl x) hx, htype]
    · by_cases herror : t = .error
      · exact .inl herror
      · exact .inr ((hvalue.resolve_left herror).stable hpq.toExtends hd herror)

end Stable

end Program

end LanguageService
