import LanguageService.Tree
import Mathlib.Logic.Relation

namespace LanguageService

namespace Kind

def isExpr : Kind → Bool
  | int _ => true
  | float _ => true
  | string _ => true
  | bool _ => true
  | name _ _ => true
  | call _ _ => true
  | subscriptCall _ _ => true
  | binary _ _ _ => true
  | tuple _ => true
  | _ => false

def isType : Kind → Bool
  | nameType _ => true
  | tupleType _ => true
  | _ => false

def isStmt : Kind → Bool
  | brace _ => true
  | ret _ _ => true
  | expr _ => true
  | assign _ _ => true
  | loop _ _ _ => true
  | cond _ _ _ _ _ => true
  | decl _ => true
  | _ => false

def isPattern : Kind → Bool
  | namePattern _ => true
  | tuplePattern _ => true
  | wildcard => true
  | _ => false

def isBindingPattern : Kind → Bool
  | bindingPattern _ _ _ _ => true
  | _ => false

def isBinding : Kind → Bool
  | binding _ _ => true
  | _ => false

def isVar : Kind → Bool
  | var _ => true
  | _ => false

def isParameter : Kind → Bool
  | parameter _ _ => true
  | _ => false

def isGeneric : Kind → Bool
  | generic _ => true
  | _ => false

def isVariant : Kind → Bool
  | variant _ _ _ => true
  | _ => false

def isUnit : Kind → Bool
  | unit _ => true
  | _ => false

def isProduct : Kind → Bool
  | product _ _ _ _ _ => true
  | _ => false

def isMember : Kind → Bool
  | space _ _ _ => true
  | product _ _ _ _ _ => true
  | extension _ _ _ => true
  | conformance _ _ _ _ => true
  | trait _ _ _ => true
  | associated _ _ => true
  | typeAlias _ _ _ => true
  | operator _ _ _ _ => true
  | function _ _ _ _ _ _ => true
  | method _ _ _ _ _ _ => true
  | init _ _ _ memberwise => !memberwise
  | subscript _ _ _ _ _ => true
  | binding _ _ => true
  | _ => false

def isMemberwise : Kind → Bool
  | init _ _ none _ => true
  | _ => false

def isInBinding (k : Kind) : Bool :=
  k.isBindingPattern || k.isPattern || k.isVar || k.isType || k.isExpr

def isInert (k : Kind) : Bool :=
  k.isType || k.isParameter || k.isGeneric || k.isBindingPattern || k.isPattern || k.isVar

def isOuter (k : Kind) : Bool := !k.isBinding && !k.isInBinding

def parts : Kind → List ((Kind → Bool) × NodeId)
  | module _ units => units.map (isUnit, ·)
  | unit decls => decls.map (isMember, ·)
  | space _ _ members => members.map (isMember, ·)
  | product _ _ generics members memberwise =>
      generics.map (isGeneric, ·) ++ members.map (isMember, ·) ++
        memberwise.toList.map (isMemberwise, ·)
  | extension _ subject members => (isType, subject) :: members.map (isMember, ·)
  | conformance _ subject traits members =>
      (isType, subject) :: traits.map (isType, ·) ++ members.map (isMember, ·)
  | trait _ _ members => members.map (isMember, ·)
  | associated _ _ => []
  | typeAlias _ _ aliased => [(isType, aliased)]
  | operator _ _ _ _ => []
  | function _ _ generics parameters output body =>
      generics.map (isGeneric, ·) ++ parameters.map (isParameter, ·) ++
        output.toList.map (isType, ·) ++ body.toList.map (isStmt, ·)
  | method _ _ generics parameters output variants =>
      generics.map (isGeneric, ·) ++ parameters.map (isParameter, ·) ++
        output.toList.map (isType, ·) ++ variants.map (isVariant, ·)
  | variant _ _ body => [(isStmt, body)]
  | init _ parameters body _ =>
      parameters.map (isParameter, ·) ++ body.toList.map (isStmt, ·)
  | subscript _ _ parameters output body =>
      parameters.map (isParameter, ·) ++ (isType, output) :: body.toList.map (isStmt, ·)
  | binding pattern initializer =>
      (isBindingPattern, pattern) :: initializer.toList.map (isExpr, ·)
  | var _ => []
  | parameter _ ascription => ascription.toList.map (isType, ·)
  | generic _ => []
  | int _ => []
  | float _ => []
  | string _ => []
  | bool _ => []
  | name domain _ => domain.toList.map (isExpr, ·)
  | call callee args => (isExpr, callee) :: args.map fun a => (isExpr, a.2)
  | subscriptCall callee args => (isExpr, callee) :: args.map fun a => (isExpr, a.2)
  | binary lhs _ rhs => [(isExpr, lhs), (isExpr, rhs)]
  | tuple elements => elements.map (isExpr, ·)
  | nameType _ => []
  | tupleType elements => elements.map (isType, ·)
  | brace stmts => stmts.map (isStmt, ·)
  | ret _ value => value.toList.map (isExpr, ·)
  | expr e => [(isExpr, e)]
  | assign lhs rhs => [(isExpr, lhs), (isExpr, rhs)]
  | loop _ condition body => [(isExpr, condition), (isStmt, body)]
  | cond _ condition success _ failure =>
      (isExpr, condition) :: (isStmt, success) :: failure.toList.map (isStmt, ·)
  | decl d => [(isBinding, d)]
  | bindingPattern _ _ subpattern ascription =>
      (isPattern, subpattern) :: ascription.toList.map (isType, ·)
  | namePattern v => [(isVar, v)]
  | tuplePattern elements => elements.map (isPattern, ·)
  | wildcard => []

attribute [local simp] parts isMember isType isExpr isPattern isBindingPattern isBinding isVar isStmt
  isVariant isParameter isGeneric isUnit isMemberwise

theorem parts_map_snd (k : Kind) : k.parts.map (·.2) = k.children := by
  cases k <;> simp [parts, children, Function.comp_def]

theorem not_part_of_module {k : Kind} {f : Kind → Bool} {c : NodeId} (h : (f, c) ∈ k.parts)
    {name : String} {units : List NodeId} : f (module name units) = false := by
  have hparts : ∀ p ∈ k.parts, p.1 (module name units) = false := by
    cases k <;> simp [parts, or_imp, forall_and, isUnit, isMember, isMemberwise, isGeneric, isType,
      isParameter, isStmt, isVariant, isBindingPattern, isExpr, isBinding, isPattern, isVar]
    case call | subscriptCall =>
      rintro _ _ _ _ _ rfl _
      rfl
  exact hparts _ h

theorem parts_of_isExpr {k : Kind} (hk : k.isExpr = true) : ∀ p ∈ k.parts, p.1 = isExpr := by
  cases k <;> simp_all [isExpr, parts]

theorem parts_of_isType {k : Kind} (hk : k.isType = true) : ∀ p ∈ k.parts, p.1 = isType := by
  cases k <;> simp_all [isType, parts]

theorem parts_of_isPattern {k : Kind} (hk : k.isPattern = true) :
    ∀ p ∈ k.parts, p.1 = isPattern ∨ p.1 = isVar := by
  cases k <;> simp_all [isPattern, parts]

theorem parts_of_isBindingPattern {k : Kind} (hk : k.isBindingPattern = true) :
    ∀ p ∈ k.parts, p.1 = isPattern ∨ p.1 = isType := by
  cases k <;> simp_all [isBindingPattern, parts]

theorem parts_of_isBinding {k : Kind} (hk : k.isBinding = true) :
    ∀ p ∈ k.parts, p.1 = isBindingPattern ∨ p.1 = isExpr := by
  cases k <;> simp_all [isBinding, parts]

theorem isInBinding_of_isBinding {k : Kind} (hk : k.isBinding = true) :
    k.isInBinding = false := by
  cases k <;> simp_all [isBinding, isInBinding, isBindingPattern, isPattern, isVar, isType, isExpr]

theorem isOuter_of_isStmt {k : Kind} (hk : k.isStmt = true) : k.isOuter = true := by
  cases k <;> simp_all [isOuter, isStmt, isBinding, isInBinding, isBindingPattern, isPattern, isVar,
    isType, isExpr]

theorem isOuter_of_isMember {k : Kind} (hk : k.isMember = true) (hb : k.isBinding = false) :
    k.isOuter = true := by
  cases k <;> simp_all [isOuter, isMember, isBinding, isInBinding, isBindingPattern, isPattern,
    isVar, isType, isExpr]

theorem isOuter_of_isVariant {k : Kind} (hk : k.isVariant = true) : k.isOuter = true := by
  cases k <;> simp_all [isOuter, isVariant, isBinding, isInBinding, isBindingPattern, isPattern,
    isVar, isType, isExpr]

theorem isBinding_of_isInert {k : Kind} (hk : k.isInert = true) : k.isBinding = false := by
  cases k <;> simp_all [isInert, isType, isParameter, isGeneric, isBindingPattern, isPattern, isVar,
    isBinding]

theorem isBinding_of_isExpr {k : Kind} (hk : k.isExpr = true) : k.isBinding = false := by
  cases k <;> simp_all [isExpr, isBinding]

theorem isDeclaration_of_isMember {k : Kind} (hk : k.isMember = true) :
    k.isDeclaration = true := by
  cases k <;> simp_all [isMember, isDeclaration]

theorem exists_of_isMemberwise {k : Kind} (hk : k.isMemberwise = true) :
    ∃ introducer ps synthesized, k = init introducer ps none synthesized := by
  cases k with
  | init introducer ps body synthesized => cases body <;> simp_all [isMemberwise]
  | _ => simp [isMemberwise] at hk

theorem exists_of_isUnit {k : Kind} (hk : k.isUnit = true) : ∃ decls, k = unit decls := by
  cases k <;> simp_all [isUnit]

theorem exists_of_isVariant {k : Kind} (hk : k.isVariant = true) :
    ∃ introducer effect body, k = variant introducer effect body := by
  cases k <;> simp_all [isVariant]

theorem exists_of_isBinding {k : Kind} (hk : k.isBinding = true) :
    ∃ p initializer, k = binding p initializer := by
  cases k <;> simp_all [isBinding]

theorem exists_of_isBindingPattern {k : Kind} (hk : k.isBindingPattern = true) :
    ∃ introducer how sub ascription, k = bindingPattern introducer how sub ascription := by
  cases k <;> simp_all [isBindingPattern]

theorem not_isExpr_of_isType {k : Kind} (hk : k.isType = true) : ¬ k.isExpr = true := by
  cases k <;> simp_all [isType, isExpr]

theorem isVar_of_isType {k : Kind} (hk : k.isType = true) : k.isVar = false := by
  cases k <;> simp_all [isType, isVar]

theorem isVar_of_isExpr {k : Kind} (hk : k.isExpr = true) : k.isVar = false := by
  cases k <;> simp_all [isExpr, isVar]

theorem parts_of_isVar {k : Kind} (hk : k.isVar = true) : k.parts = [] := by
  cases k <;> simp_all [isVar, parts]

theorem parts_of_isInert {k : Kind} (hk : k.isInert = true) :
    ∀ p ∈ k.parts, p.1 = isType ∨ p.1 = isPattern ∨ p.1 = isVar := by
  cases k <;> simp_all [isInert, isType, isParameter, isGeneric, isBindingPattern, isPattern,
    isVar, parts]

def sorts : List (Kind → Bool) :=
  [isUnit, isMember, isMemberwise, isGeneric, isType, isParameter, isBindingPattern, isExpr,
    isBinding, isPattern, isVar]

theorem not_of_mem_sorts {f : Kind → Bool} (hf : f ∈ sorts) {k : Kind} (hk : f k = true) :
    k.isStmt = false ∧ k.isVariant = false := by
  simp only [sorts, List.mem_cons, List.not_mem_nil, or_false] at hf
  rcases hf with rfl | rfl | rfl | rfl | rfl | rfl | rfl | rfl | rfl | rfl | rfl <;>
    cases k <;> first | exact ⟨rfl, rfl⟩ | cases hk

theorem isVariant_of_isStmt {k : Kind} (hk : k.isStmt = true) : k.isVariant = false := by
  cases k <;> simp_all [isStmt, isVariant]

end Kind

namespace Tree

structure WellFormed (t : Tree) : Prop where
  child_lt : ∀ i, ∀ c ∈ t.children i, c < i
  parent_unique : ∀ i j c, c ∈ t.children i → c ∈ t.children j → i = j
  children_nodup : ∀ i, (t.children i).Nodup
  fits : ∀ i, ∀ p ∈ (t.kind i).parts, p.1 (t.kind p.2) = true
  modules_nodup : t.modules.Nodup
  modules_lt : ∀ m ∈ t.modules, m < t.size

def Below (t : Tree) : NodeId → NodeId → Prop :=
  Relation.ReflTransGen fun n c => c ∈ t.children n

variable {t : Tree} {n x y : NodeId}

theorem Below.refl (n : NodeId) : t.Below n n := Relation.ReflTransGen.refl

theorem Below.trans (h : t.Below n x) (h' : t.Below x y) : t.Below n y :=
  Relation.ReflTransGen.trans h h'

theorem below_child {c : NodeId} (h : c ∈ t.children n) : t.Below n c :=
  Relation.ReflTransGen.single h

theorem Below.of_child {c : NodeId} (hc : c ∈ t.children n) (h : t.Below c x) : t.Below n x :=
  Relation.ReflTransGen.head hc h

theorem below_iff : t.Below n x ↔ x = n ∨ ∃ c ∈ t.children n, t.Below c x := by
  constructor
  · intro h
    rcases Relation.ReflTransGen.cases_head h with rfl | ⟨c, hc, h⟩
    · exact .inl rfl
    · exact .inr ⟨c, hc, h⟩
  · rintro (rfl | ⟨c, hc, h⟩)
    · exact .refl x
    · exact h.of_child hc

theorem Below.parent (h : t.Below n x) (hne : x ≠ n) :
    ∃ p, t.Below n p ∧ x ∈ t.children p := by
  rcases Relation.ReflTransGen.cases_tail h with rfl | ⟨p, hp, hx⟩
  · exact absurd rfl hne
  · exact ⟨p, hp, hx⟩

theorem kind_of_child (h : t.WellFormed) {c : NodeId} (hc : c ∈ t.children n) :
    ∃ f, (f, c) ∈ (t.kind n).parts ∧ f (t.kind c) = true := by
  rw [children, ← Kind.parts_map_snd] at hc
  obtain ⟨⟨f, c'⟩, hp, rfl⟩ := List.mem_map.mp hc
  exact ⟨f, hp, h.fits n _ hp⟩

theorem child_of_part {f : Kind → Bool} {c : NodeId} (h : (f, c) ∈ (t.kind n).parts) :
    c ∈ t.children n := by
  rw [children, ← Kind.parts_map_snd]
  exact List.mem_map.mpr ⟨_, h, rfl⟩

theorem kind_of_below (h : t.WellFormed) (good : Kind → Bool)
    (hgood : ∀ k, good k = true → ∀ p ∈ k.parts, ∀ k', p.1 k' = true → good k' = true)
    (hn : good (t.kind n) = true) (hx : t.Below n x) : good (t.kind x) = true := by
  induction hx with
  | refl => exact hn
  | tail _ hc ih =>
      obtain ⟨f, hf, hkind⟩ := kind_of_child h hc
      exact hgood _ ih _ hf _ hkind

theorem Below.le (h : t.WellFormed) (hx : t.Below n x) : x ≤ n := by
  induction hx with
  | refl => exact Nat.le_refl _
  | tail _ hc ih => exact Nat.le_of_lt (Nat.lt_of_lt_of_le (h.child_lt _ _ hc) ih)

theorem Below.antisymm (h : t.WellFormed) (hx : t.Below n x) (hn : t.Below x n) : x = n :=
  Nat.le_antisymm (hx.le h) (hn.le h)

theorem Below.linear (h : t.WellFormed) {m : NodeId} (hn : t.Below n x) (hm : t.Below m x) :
    t.Below n m ∨ t.Below m n := by
  induction hn with
  | refl => exact .inr hm
  | @tail p c hp hc ih =>
      by_cases hne : c = m
      · subst hne
        exact .inl (Relation.ReflTransGen.tail hp hc)
      · obtain ⟨q, hq, hcq⟩ := hm.parent hne
        obtain rfl := h.parent_unique _ _ _ hc hcq
        exact ih hq

theorem not_below_parent (h : t.WellFormed) {c : NodeId} (hc : c ∈ t.children n) :
    ¬ t.Below c n := by
  intro hn
  exact absurd (h.child_lt _ _ hc) (Nat.not_lt.mpr (hn.le h))

theorem siblings_disjoint (h : t.WellFormed) {c c' : NodeId} (hc : c ∈ t.children n)
    (hc' : c' ∈ t.children n) (hne : c ≠ c') : ¬ (t.Below c x ∧ t.Below c' x) := by
  have houtside {a b : NodeId} (ha : a ∈ t.children n) (hb : b ∈ t.children n) (hne : a ≠ b) :
      ¬ t.Below a b := by
    intro hab
    obtain ⟨p, hp, hbp⟩ := hab.parent hne.symm
    obtain rfl := h.parent_unique _ _ _ hb hbp
    exact not_below_parent h ha hp
  rintro ⟨hx, hx'⟩
  rcases hx.linear h hx' with hb | hb
  · exact houtside hc hc' hne hb
  · exact houtside hc' hc hne.symm hb

theorem children_pairwise (h : t.WellFormed) (n : NodeId) :
    (t.children n).Pairwise fun c c' => ∀ x, ¬ (t.Below c x ∧ t.Below c' x) :=
  (h.children_nodup n).imp_of_mem fun hc hc' hne _ => siblings_disjoint h hc hc' hne

section Kinds

variable (h : t.WellFormed)

include h

theorem isExpr_of_below (hn : (t.kind n).isExpr = true) (hx : t.Below n x) :
    (t.kind x).isExpr = true := by
  refine kind_of_below h _ (fun k hk p hp k' hk' => ?_) hn hx
  rwa [Kind.parts_of_isExpr hk p hp] at hk'

theorem isType_of_below (hn : (t.kind n).isType = true) (hx : t.Below n x) :
    (t.kind x).isType = true := by
  refine kind_of_below h _ (fun k hk p hp k' hk' => ?_) hn hx
  rwa [Kind.parts_of_isType hk p hp] at hk'

theorem isPattern_or_isVar_of_below (hn : (t.kind n).isPattern = true) (hx : t.Below n x) :
    (t.kind x).isPattern = true ∨ (t.kind x).isVar = true := by
  rw [← Bool.or_eq_true]
  refine kind_of_below h (fun k => k.isPattern || k.isVar) (fun k hk p hp k' hk' => ?_)
    (by simp [hn]) hx
  rw [Bool.or_eq_true] at hk ⊢
  rcases hk with hk | hk
  · rcases Kind.parts_of_isPattern hk p hp with heq | heq
    · exact .inl (heq ▸ hk')
    · exact .inr (heq ▸ hk')
  · simp [Kind.parts_of_isVar hk] at hp

theorem isInert_of_below (hn : (t.kind n).isInert = true) (hx : t.Below n x) :
    (t.kind x).isInert = true := by
  refine kind_of_below h _ (fun k hk p hp k' hk' => ?_) hn hx
  rcases Kind.parts_of_isInert hk p hp with heq | heq | heq <;> rw [heq] at hk' <;>
    simp [Kind.isInert, hk']

theorem isInBinding_of_below (hn : (t.kind n).isInBinding = true) (hx : t.Below n x) :
    (t.kind x).isInBinding = true := by
  refine kind_of_below h _ (fun k hk p hp k' hk' => ?_) hn hx
  simp only [Kind.isInBinding, Bool.or_eq_true] at hk ⊢
  rcases hk with (((hk | hk) | hk) | hk) | hk
  · rcases Kind.parts_of_isBindingPattern hk p hp with heq | heq <;> rw [heq] at hk' <;> simp [hk']
  · rcases Kind.parts_of_isPattern hk p hp with heq | heq <;> rw [heq] at hk' <;> simp [hk']
  · simp [Kind.parts_of_isVar hk] at hp
  · rw [Kind.parts_of_isType hk p hp] at hk'
    simp [hk']
  · rw [Kind.parts_of_isExpr hk p hp] at hk'
    simp [hk']

theorem isInBinding_of_below_binding {b : NodeId} (hb : (t.kind b).isBinding = true)
    (hx : t.Below b x) : x = b ∨ (t.kind x).isInBinding = true := by
  rcases below_iff.mp hx with rfl | ⟨c, hc, hx⟩
  · exact .inl rfl
  · obtain ⟨f, hf, hkind⟩ := kind_of_child h hc
    refine .inr (isInBinding_of_below h ?_ hx)
    rcases Kind.parts_of_isBinding hb _ hf with rfl | rfl
    · simp [Kind.isInBinding, hkind]
    · simp [Kind.isInBinding, hkind]

theorem binding_unique {b b' : NodeId} (hb : (t.kind b).isBinding = true)
    (hb' : (t.kind b').isBinding = true) (hx : t.Below b x) (hx' : t.Below b' x) : b = b' := by
  have hinner {a c : NodeId} (ha : (t.kind a).isBinding = true)
      (hc : (t.kind c).isBinding = true) (hac : t.Below a c) : c = a := by
    rcases isInBinding_of_below_binding h ha hac with heq | hin
    · exact heq
    · exact absurd hin (by simp [Kind.isInBinding_of_isBinding hc])
  rcases hx.linear h hx' with hbelow | hbelow
  · exact (hinner hb hb' hbelow).symm
  · exact hinner hb' hb hbelow

theorem not_below_binding {b : NodeId} (hb : (t.kind b).isBinding = true)
    (hx : (t.kind x).isOuter = true) : ¬ t.Below b x := by
  intro hbelow
  rw [Kind.isOuter, Bool.and_eq_true, Bool.not_eq_true', Bool.not_eq_true'] at hx
  rcases isInBinding_of_below_binding h hb hbelow with rfl | hin
  · simp [hb] at hx
  · simp [hin] at hx

theorem not_below_of_child {b c : NodeId} (hc : c ∈ t.children n)
    (hn : (t.kind n).isOuter = true) (hb : (t.kind b).isBinding = true)
    (hcb : (t.kind c).isBinding = false) : ¬ t.Below b c := by
  intro hbelow
  have hne : c ≠ b := by
    rintro rfl
    simp [hb] at hcb
  obtain ⟨p, hp, hcp⟩ := hbelow.parent hne
  obtain rfl := h.parent_unique _ _ _ hc hcp
  exact not_below_binding h hb hn hp

end Kinds

def IsAscription (t : Tree) (x : NodeId) : Prop :=
  ∃ p i how sub, t.kind p = .bindingPattern i how sub (some x)

theorem IsAscription.isType (h : t.WellFormed) (hx : t.IsAscription x) :
    (t.kind x).isType = true := by
  obtain ⟨p, i, how, sub, hp⟩ := hx
  exact h.fits p (Kind.isType, x) (by simp [hp, Kind.parts])

theorem IsAscription.parent (h : t.WellFormed) (hx : t.IsAscription x)
    (hn : x ∈ t.children n) : (t.kind n).isBindingPattern = true := by
  obtain ⟨p, i, how, sub, hp⟩ := hx
  obtain rfl : p = n := h.parent_unique _ _ x (by simp [children, hp, Kind.children]) hn
  simp [hp, Kind.isBindingPattern]

end Tree

end LanguageService
