import LanguageService.Outline
import LanguageService.Proofs.MarkSites

/-!
The outline of a document and its marks agree: the names that the outline shows are, in their
order, those that are marked as declared, but for the names of parameters and those in bodies.
-/
namespace LanguageService

def SymbolKind.markKind? : SymbolKind → Option MarkKind
  | space => some .space
  | typeAlias => some .type
  | method => some .method
  | field => some .property
  | constructor => none
  | interface => some .type
  | function => some .function
  | var => some .var
  | struct => some .type
  | operator => some .operator
  | typeParameter => some .typeParameter

namespace Symbol

def kind : Symbol → SymbolKind
  | mk _ _ k _ _ _ => k

mutual

def preorder : Symbol → List Symbol
  | mk x d k r s cs => mk x d k r s cs :: preorders cs

def preorders : List Symbol → List Symbol
  | [] => []
  | s :: ss => preorder s ++ preorders ss

end

/-- The symbol carries a name that is declared. Initializers have none, extensions and conformances
are shown by the type they are about, and a subscript that has no name by its introducer. -/
def isNamed : Symbol → Bool
  | mk _ _ .constructor _ _ _ => false
  | mk _ detail .space _ _ _ => detail.isNone
  | mk x none .method _ _ _ => x != "subscript"
  | _ => true

structure Agrees (s : Symbol) (m : Mark) : Prop where
  site : m.site = s.selection
  text : m.site.text = s.name
  kind : s.kind.markKind? = some m.kind

theorem preorders_append (ss ss' : List Symbol) :
    preorders (ss ++ ss') = preorders ss ++ preorders ss' := by
  induction ss with
  | nil => rfl
  | cons s ss ih => simp [preorders, ih]

theorem preorders_singleton (s : Symbol) : preorders [s] = s :: preorders s.children := by
  cases s
  simp [preorders, preorder, children]

theorem shown_eq {s : Symbol} (h : s.range.Includes s.selection) : s.shown = [s] := by
  rw [shown, if_pos]
  simp [Site.contains, h.file, h.start, h.stop]

end Symbol

namespace Tree

def innerNamesAt (t : Tree) (n : NodeId) : List Name :=
  match t.kind n with
  | .parameter x _ => [x]
  | .generic x => [x]
  | _ => (t.bodies n).flatMap fun b => (t.preorder b).filterMap t.varName?

def innerNames (t : Tree) (u : NodeId) : List Name :=
  ((t.preorder u).filter (!t.isSynthesized ·)).flatMap t.innerNamesAt

/-- The mark is on the name of a declaration that is no parameter and stands in no body. -/
def marksOuter (t : Tree) (u : NodeId) (m : Mark) : Bool :=
  m.isDeclaration && !(t.innerNames u).any (·.site == m.site)

end Tree

namespace Kind

def isInBody (k : Kind) : Bool := k.isStmt || k.isBinding || k.isInBinding

theorem isInBody_of_part {k : Kind} (hk : k.isInBody = true) :
    ∀ p ∈ k.parts, ∀ k', p.1 k' = true → k'.isInBody = true := by
  have hparts : ∀ p ∈ k.parts, p.1 = isStmt ∨ p.1 = isBinding ∨ p.1 = isBindingPattern ∨
      p.1 = isPattern ∨ p.1 = isVar ∨ p.1 = isType ∨ p.1 = isExpr := by
    cases k <;> simp_all [isInBody, parts, isStmt, isBinding, isInBinding, isBindingPattern,
      isPattern, isVar, isType, isExpr]
  intro p hp k' hk'
  rw [isInBody, isInBinding]
  rcases hparts p hp with h | h | h | h | h | h | h <;> simp [h ▸ hk']

theorem exists_of_isInBody {k : Kind} {x : Name} (hk : k.isInBody = true)
    (hx : k.declares = some x) : k = var x := by
  cases k <;> simp_all [isInBody, declares, isStmt, isBinding, isInBinding, isBindingPattern,
    isPattern, isVar, isType, isExpr]

theorem isInBody_of_isContainer {k : Kind} (hk : k.isContainer = true) : k.isInBody = false := by
  cases k <;> first | rfl | cases hk

end Kind

namespace Tree

variable {t : Tree}

theorem isInBody_of_below (ht : t.WellFormed) {n x : NodeId} (hn : (t.kind n).isInBody = true)
    (h : t.Below n x) : (t.kind x).isInBody = true :=
  kind_of_below ht _ (fun _ => Kind.isInBody_of_part) hn h

section Inner

variable (h : t.Parsed) {u : NodeId} (hu : u ∈ t.units)

include h hu

theorem own_of_var {v : NodeId} {y : Name} (hv : t.Below u v) (hk : t.kind v = .var y) :
    t.isSynthesized v = false := by
  refine own_of_declares h hu hv (x := y) ?_ (not_isImplied h.wellFormed ?_) <;> rw [hk] <;> rfl

def IsInner (t : Tree) (d : NodeId) : Prop :=
  (t.kind d).isParameter = true ∨ (t.kind d).isGeneric = true ∨ ∃ n, ∃ b ∈ t.bodies n, t.Below b d

theorem mem_innerNames {n : NodeId} {x : Name} (hn : t.Below u n)
    (hown : t.isSynthesized n = false) (hx : x ∈ t.innerNamesAt n) : x ∈ t.innerNames u := by
  refine List.mem_flatMap.mpr ⟨n, List.mem_filter.mpr ⟨?_, by simp [hown]⟩, hx⟩
  exact (mem_preorder h.wellFormed (lt_size_of_mem_units h.wellFormed hu)).mpr hn

theorem declares_of_mem_innerNames {y : Name} (hy : y ∈ t.innerNames u) :
    ∃ d, t.Below u d ∧ t.isSynthesized d = false ∧ (t.kind d).declares = some y ∧ t.IsInner d := by
  have ht := h.wellFormed
  obtain ⟨n, hn, hy⟩ := List.mem_flatMap.mp hy
  obtain ⟨hn, hown⟩ := List.mem_filter.mp hn
  rw [mem_preorder ht (lt_size_of_mem_units ht hu)] at hn
  rw [Bool.not_eq_true'] at hown
  rw [innerNamesAt] at hy
  split at hy
  · next x type hk =>
      obtain rfl := List.mem_singleton.mp hy
      exact ⟨n, hn, hown, by simp [hk, Kind.declares], .inl (by simp [hk, Kind.isParameter])⟩
  · next x hk =>
      obtain rfl := List.mem_singleton.mp hy
      exact ⟨n, hn, hown, by simp [hk, Kind.declares], .inr (.inl (by simp [hk, Kind.isGeneric]))⟩
  · obtain ⟨b, hb, hy⟩ := List.mem_flatMap.mp hy
    obtain ⟨v, hv, hy⟩ := List.mem_filterMap.mp hy
    obtain ⟨-, hbelow⟩ := isStmt_of_mem_bodies ht hb
    have hlt : b < t.size := Nat.lt_of_le_of_lt ((hn.trans hbelow).le ht)
      (lt_size_of_mem_units ht hu)
    rw [mem_preorder ht hlt] at hv
    have hk : t.kind v = .var y := by
      rw [varName?] at hy
      split at hy
      · next x hk => rw [hk, Option.some.inj hy]
      · cases hy
    exact ⟨v, hn.trans (hbelow.trans hv), own_of_var h hu (hn.trans (hbelow.trans hv)) hk,
      by simp [hk, Kind.declares], .inr (.inr ⟨n, b, hb, hv⟩)⟩

theorem marksOuter_of_declares {d : NodeId} {x : Name} {m : Mark} (hd : t.Below u d)
    (hown : t.isSynthesized d = false) (hx : (t.kind d).declares = some x) (houter : ¬ t.IsInner d)
    (hm : m.isDeclaration = true) (hsite : m.site = x.site) : t.marksOuter u m = true := by
  have hpiece := Kind.name_mem_of_declares hx
  obtain ⟨-, hwritten⟩ := (placed_of_below h hu hd).written hown _ hpiece
  simp only [marksOuter, hm, Bool.true_and, Bool.not_eq_true', List.any_eq_false, hsite]
  intro y hy heq
  obtain ⟨d', hd', hown', hy, hinner⟩ := declares_of_mem_innerNames h hu hy
  obtain ⟨-, hstart, hstop⟩ := Site.start_eq_of_beq heq
  have hlt : x.site.start < x.site.stop := hwritten.nonempty
  obtain ⟨rfl, -⟩ := h.word_unique hu hd hd' hown hown' hpiece (Kind.name_mem_of_declares hy)
    rfl rfl (o := x.site.start) ⟨Nat.le_refl _, hlt⟩
    ⟨Nat.le_of_eq hstart, Nat.lt_of_lt_of_eq hlt hstop.symm⟩
  exact houter hinner

omit h hu in
theorem filter_marksOuter_eq_nil {fuel : Nat} {s : Surroundings} {n : NodeId}
    (hinner : ∀ d x, t.Below n d → (t.kind d).declares = some x → x ∈ t.innerNames u) :
    (Highlight.marksAt t fuel s n).filter (t.marksOuter u) = [] := by
  rw [List.filter_eq_nil_iff]
  intro m hm houter
  rw [marksOuter, Bool.and_eq_true, Bool.not_eq_true'] at houter
  obtain ⟨d, x, hd, hx, hsite⟩ := Highlight.declares_of_mem_marksAt hm houter.1
  have hsame : (x.site == m.site) = true := by
    rw [hsite]
    simp [BEq.beq, instBEqSite.beq]
  rw [List.any_eq_false] at houter
  exact houter.2 x (hinner d x hd hx) hsame

end Inner

theorem isMember_of_IsMember (ht : t.WellFormed) {d : NodeId} (hd : t.IsMember d) :
    (t.kind d).isMember = true := by
  obtain ⟨p, hp⟩ := hd
  exact ht.fits p _ hp

theorem isInBody_of_bodies (ht : t.WellFormed) {n b x : NodeId} (hb : b ∈ t.bodies n)
    (hx : t.Below b x) : (t.kind x).isInBody = true :=
  isInBody_of_below ht (by simp [Kind.isInBody, (isStmt_of_mem_bodies ht hb).1]) hx

theorem not_isInner_of_isMember (ht : t.WellFormed) {d : NodeId} {x : Name} (hd : t.IsMember d)
    (hx : (t.kind d).declares = some x) : ¬ t.IsInner d := by
  have hmember := isMember_of_IsMember ht hd
  rintro (hk | hk | ⟨n, b, hb, hbelow⟩)
  · cases hkd : t.kind d <;> simp [hkd, Kind.isParameter, Kind.isMember] at hk hmember
  · cases hkd : t.kind d <;> simp [hkd, Kind.isGeneric, Kind.isMember] at hk hmember
  · have hvar := Kind.exists_of_isInBody (isInBody_of_bodies ht hb hbelow) hx
    simp [hvar, Kind.isMember] at hmember

theorem not_isInner_of_binding (ht : t.WellFormed) {d v : NodeId} {x : Name} (hd : t.IsMember d)
    (hbinding : (t.kind d).isBinding = true) (hv : t.Below d v) (hk : t.kind v = .var x) :
    ¬ t.IsInner v := by
  rintro (hkv | hkv | ⟨n, b, hb, hbelow⟩)
  · simp [hk, Kind.isParameter] at hkv
  · simp [hk, Kind.isGeneric] at hkv
  · have hstmt := (isStmt_of_mem_bodies ht hb).1
    have houtside : ¬ t.Below d b :=
      not_below_binding ht hbinding (Kind.isOuter_of_isStmt hstmt)
    rcases hv.linear ht hbelow with hdb | hbd
    · exact houtside hdb
    · -- A binding in a body stands in a statement, and this one stands in what holds members.
      have hne : d ≠ b := by
        rintro rfl
        exact houtside (.refl d)
      obtain ⟨q, hq, hdq⟩ := hbd.parent hne
      obtain ⟨p, hp⟩ := hd
      obtain rfl := ht.parent_unique _ _ _ hdq (child_of_part hp)
      have hcontainer := Kind.isInBody_of_isContainer (Kind.isContainer_of_member hp)
      simp [isInBody_of_bodies ht hb hq] at hcontainer

theorem parts_of_hasParameters {d : NodeId} (hd : (t.kind d).hasParameters = true) :
    ∀ p ∈ (t.kind d).parts, p.1 = Kind.isGeneric ∨ p.1 = Kind.isParameter ∨ p.1 = Kind.isType ∨
      p.2 ∈ t.bodies d ∨
      p.1 = Kind.isVariant ∧ ∀ b, Check.variantBody t p.2 = some b → b ∈ t.bodies d := by
  cases hk : t.kind d <;> simp [hk, Kind.hasParameters, Kind.parameters?] at hd <;>
    simp +contextual [Kind.parts, bodies, hk, or_imp, forall_and]
  exact fun v hv => .inr (.inr (.inr (.inr fun b hb => ⟨v, hv, hb⟩)))

end Tree

def Agree (t : Tree) (u : NodeId) (ss : List Symbol) (ms : List Mark) : Prop :=
  List.Forall₂ Symbol.Agrees ((Symbol.preorders ss).filter Symbol.isNamed)
    (ms.filter (t.marksOuter u))

namespace Agree

variable {t : Tree} {u : NodeId} {ss ss' : List Symbol} {ms ms' : List Mark}

theorem nil (h : ms.filter (t.marksOuter u) = []) : Agree t u [] ms := by
  rw [Agree, h]
  exact .nil

theorem append (h : Agree t u ss ms) (h' : Agree t u ss' ms') :
    Agree t u (ss ++ ss') (ms ++ ms') := by
  rw [Agree, Symbol.preorders_append, List.filter_append, List.filter_append]
  exact List.rel_append h h'

theorem plain {kind : MarkKind} {s : Site} (h : Agree t u ss ms) :
    Agree t u ss (Highlight.plain kind s :: ms) := by
  rw [Agree, List.filter_cons_of_neg (by simp [Tree.marksOuter])]
  exact h

theorem named {s : Symbol} {m : Mark} (hs : s.isNamed = true) (hm : t.marksOuter u m = true)
    (hagrees : s.Agrees m) (h : Agree t u s.children ms) : Agree t u [s] (m :: ms) := by
  rw [Agree, Symbol.preorders_singleton, List.filter_cons_of_pos hs, List.filter_cons_of_pos hm]
  exact .cons hagrees h

theorem unnamed {s : Symbol} (hs : s.isNamed = false) (h : Agree t u s.children ms) :
    Agree t u [s] ms := by
  rw [Agree, Symbol.preorders_singleton, List.filter_cons_of_neg (by simp [hs])]
  exact h

theorem silent {g : NodeId → List Mark} {is : List NodeId} (h : ∀ i ∈ is, Agree t u [] (g i)) :
    Agree t u [] (is.flatMap g) := by
  induction is with
  | nil => exact nil rfl
  | cons i is ih =>
      obtain ⟨hi, his⟩ := List.forall_mem_cons.mp h
      exact hi.append (ih his)

theorem flatMap {f : NodeId → List Symbol} {g : NodeId → List Mark} {is : List NodeId}
    (h : ∀ i ∈ is, Agree t u (f i) (g i)) : Agree t u (is.flatMap f) (is.flatMap g) := by
  induction is with
  | nil => exact nil rfl
  | cons i is ih =>
      obtain ⟨hi, his⟩ := List.forall_mem_cons.mp h
      exact hi.append (ih his)

end Agree

section Symbols

open Highlight (marksAt)

variable {t : Tree} (h : t.Parsed) {u : NodeId} (hu : u ∈ t.units)

include h hu

theorem agree_listed {d : NodeId} {x : Name} {m : Mark} {detail : Option String} {kind : SymbolKind}
    {range : Site} {cs : List Symbol} {ms : List Mark} (hd : t.Below u d)
    (hown : t.isSynthesized d = false) (hx : (t.kind d).declares = some x) (houter : ¬ t.IsInner d)
    (hrange : range.Includes (t.site d)) (hm : m.isDeclaration = true) (hsite : m.site = x.site)
    (hkind : kind.markKind? = some m.kind)
    (hnamed : x.text ≠ "subscript" → (Symbol.mk x.text detail kind range x.site cs).isNamed = true)
    (hrest : Agree t u cs ms) :
    Agree t u (Symbol.mk x.text detail kind range x.site cs).shown (m :: ms) := by
  obtain ⟨hinside, hwritten⟩ :=
    (Tree.placed_of_below h hu hd).written hown _ (Kind.name_mem_of_declares hx)
  obtain ⟨htext, hkeyword⟩ := hwritten.spelled
  have hplain : x.text ≠ "subscript" := by
    intro heq
    rw [heq] at hkeyword
    revert hkeyword
    decide
  rw [Symbol.shown_eq (s := .mk x.text detail kind range x.site cs) (hrange.trans hinside)]
  exact .named (hnamed hplain) (Tree.marksOuter_of_declares h hu hd hown hx houter hm hsite)
    ⟨hsite, hsite ▸ htext, hkind⟩ hrest

def varSymbols (t : Tree) (kind : SymbolKind) (range : Site) (is : List NodeId) : List Symbol :=
  (is.filterMap t.varName?).flatMap fun x => (Symbol.mk x.text none kind range x.site []).shown

omit h hu in
theorem varSymbols_visitAt {kind : SymbolKind} {range : Site} {fuel : Nat} {n : NodeId}
    (hn : t.varName? n = none) :
    varSymbols t kind range (t.visitAt (fun _ => true) (fuel + 1) n) =
      (t.children n).flatMap fun c =>
        varSymbols t kind range (t.visitAt (fun _ => true) fuel c) := by
  simp only [varSymbols, Tree.visitAt, if_true, List.filterMap_cons, hn, List.filterMap_flatMap,
    List.flatMap_assoc]

omit hu in
theorem silent_of_isType {n : NodeId} (hn : (t.kind n).isType = true) (fuel : Nat)
    (s : Surroundings) : (marksAt t fuel s n).filter (t.marksOuter u) = [] := by
  refine Tree.filter_marksOuter_eq_nil fun d x hd hx => ?_
  have hd := Tree.isType_of_below h.wellFormed hn hd
  cases hk : t.kind d <;> simp [hk, Kind.isType, Kind.declares] at hd hx

omit hu in
theorem silent_of_isExpr {n : NodeId} (hn : (t.kind n).isExpr = true) (fuel : Nat)
    (s : Surroundings) : (marksAt t fuel s n).filter (t.marksOuter u) = [] := by
  refine Tree.filter_marksOuter_eq_nil fun d x hd hx => ?_
  have hd := Tree.isExpr_of_below h.wellFormed hn hd
  cases hk : t.kind d <;> simp [hk, Kind.isExpr, Kind.declares] at hd hx

theorem agree_vars {d : NodeId} (hd : t.Below u d) (hmember : t.IsMember d)
    (hbinding : (t.kind d).isBinding = true) {inType : Bool}
    {fuel fuel' : Nat} {n : NodeId} (hn : t.Below d n)
    (hkind : (t.kind n).isBindingPattern = true ∨ (t.kind n).isPattern = true ∨
      (t.kind n).isVar = true ∨ (t.kind n).isType = true) (hfuel : n < fuel) (hfuel' : n < fuel')
    {s : Surroundings} (hs : s.inType = inType) :
    Agree t u (varSymbols t (if inType then .field else .var) (t.site d)
      (t.visitAt (fun _ => true) fuel n)) (marksAt t fuel' s n) := by
  have ht := h.wellFormed
  induction fuel generalizing n fuel' s with
  | zero => exact absurd hfuel (Nat.not_lt_zero n)
  | succ fuel ih =>
      obtain ⟨fuel', rfl⟩ := Nat.exists_eq_add_one.mpr (Nat.zero_lt_of_lt hfuel')
      have hchild {f : Kind → Bool} {c : NodeId} (hc : (f, c) ∈ (t.kind n).parts)
          (hf : ∀ k, f k = true → k.isBindingPattern = true ∨ k.isPattern = true ∨
            k.isVar = true ∨ k.isType = true) {s : Surroundings} (hs : s.inType = inType) :
          Agree t u (varSymbols t (if inType then .field else .var) (t.site d)
            (t.visitAt (fun _ => true) fuel c)) (marksAt t fuel' s c) := by
        have hmem := Tree.child_of_part hc
        have hlt := ht.child_lt n c hmem
        exact ih (hn.trans (Tree.below_child hmem)) (hf _ (ht.fits n _ hc))
          (Nat.lt_of_lt_of_le hlt (Nat.le_of_lt_succ hfuel))
          (Nat.lt_of_lt_of_le hlt (Nat.le_of_lt_succ hfuel')) hs
      cases hk : t.kind n with
      | bindingPattern k how p a =>
          rw [varSymbols_visitAt (by simp [Tree.varName?, hk]), marksAt, hk]
          simp only [Tree.children, hk, Kind.children, List.flatMap_cons, List.cons_append]
          refine .plain (.append (hchild (f := Kind.isPattern) (by simp [hk, Kind.parts])
            (fun _ h => .inr (.inl h)) hs) (.flatMap fun c hc => ?_))
          exact hchild (f := Kind.isType) (by simp [hk, Kind.parts, Option.mem_toList.mp hc])
            (fun _ h => .inr (.inr (.inr h))) hs
      | namePattern v =>
          rw [varSymbols_visitAt (by simp [Tree.varName?, hk]), marksAt, hk]
          simp only [Tree.children, hk, Kind.children, List.flatMap_cons, List.flatMap_nil,
            List.append_nil]
          exact hchild (f := Kind.isVar) (by simp [hk, Kind.parts])
            (fun _ h => .inr (.inr (.inl h))) hs
      | tuplePattern es =>
          rw [varSymbols_visitAt (by simp [Tree.varName?, hk]), marksAt, hk]
          simp only [Tree.children, hk, Kind.children]
          exact .flatMap fun c hc => hchild (f := Kind.isPattern) (by simp [hk, Kind.parts, hc])
            (fun _ h => .inr (.inl h)) hs
      | wildcard =>
          rw [varSymbols_visitAt (by simp [Tree.varName?, hk]), marksAt, hk]
          simp only [Tree.children, hk, Kind.children, List.flatMap_nil]
          exact .nil rfl
      | nameType x =>
          rw [varSymbols_visitAt (by simp [Tree.varName?, hk])]
          simp only [Tree.children, hk, Kind.children, List.flatMap_nil]
          exact .nil (silent_of_isType h (by simp [hk, Kind.isType]) _ s)
      | tupleType es =>
          rw [varSymbols_visitAt (by simp [Tree.varName?, hk]), marksAt, hk]
          simp only [Tree.children, hk, Kind.children]
          exact .flatMap fun c hc => hchild (f := Kind.isType) (by simp [hk, Kind.parts, hc])
            (fun _ h => .inr (.inr (.inr h))) hs
      | var x =>
          have hvar := Tree.own_of_var h hu (hd.trans hn) hk
          have hrange := Tree.includes_of_below h hu hd hn hvar
          have hlisted : Agree t u (Symbol.mk x.text none (if inType then .field else .var)
              (t.site d) x.site []).shown [⟨x.site, if s.inType then .property else .var,
                Mark.declaration + if s.readonly then Mark.readonly else 0⟩] := by
            refine agree_listed h hu (hd.trans hn) hvar (by simp [hk, Kind.declares])
              (Tree.not_isInner_of_binding ht hmember hbinding hn hk) hrange ?_ rfl ?_ ?_ (.nil rfl)
            · cases s.readonly <;> simp [Mark.isDeclaration, Mark.declaration, Mark.readonly]
            · subst hs
              cases s.inType <;> rfl
            · cases inType <;> simp [Symbol.isNamed]
          rw [marksAt, hk]
          simpa [varSymbols, Tree.visitAt, Tree.children, hk, Kind.children, Tree.varName?] using
            hlisted
      | _ => simp [hk, Kind.isBindingPattern, Kind.isPattern, Kind.isVar, Kind.isType] at hkind

theorem silent_of_parameter {n : NodeId} (hn : t.Below u n) (hown : t.isSynthesized n = false)
    (hkind : (t.kind n).isParameter = true ∨ (t.kind n).isGeneric = true) (fuel : Nat)
    (s : Surroundings) : (marksAt t fuel s n).filter (t.marksOuter u) = [] := by
  refine Tree.filter_marksOuter_eq_nil fun d x hd hx => ?_
  rcases Tree.below_iff.mp hd with rfl | ⟨c, hc, hd⟩
  · refine Tree.mem_innerNames h hu hn hown ?_
    cases hk : t.kind d <;>
      simp_all [Kind.isParameter, Kind.isGeneric, Kind.declares, Tree.innerNamesAt]
  · obtain ⟨f, hf, hc⟩ := Tree.kind_of_child h.wellFormed hc
    have htype : (t.kind c).isType = true := by
      cases hk : t.kind n <;> simp_all [Kind.isParameter, Kind.isGeneric, Kind.parts]
    have hd := Tree.isType_of_below h.wellFormed htype hd
    cases hk : t.kind d <;> simp [hk, Kind.isType, Kind.declares] at hd hx

theorem silent_of_body {n b : NodeId} (hn : t.Below u n) (hown : t.isSynthesized n = false)
    (hplain : (t.kind n).isParameter = false ∧ (t.kind n).isGeneric = false)
    (hb : b ∈ t.bodies n) (fuel : Nat) (s : Surroundings) :
    (marksAt t fuel s b).filter (t.marksOuter u) = [] := by
  have ht := h.wellFormed
  refine Tree.filter_marksOuter_eq_nil fun d x hd hx => ?_
  have hvar := Kind.exists_of_isInBody (Tree.isInBody_of_bodies ht hb hd) hx
  have hlt : b < t.size := Nat.lt_of_le_of_lt ((hn.trans (Tree.isStmt_of_mem_bodies ht hb).2).le ht)
    (Tree.lt_size_of_mem_units ht hu)
  refine Tree.mem_innerNames h hu hn hown ?_
  have hmem : x ∈ (t.bodies n).flatMap fun b => (t.preorder b).filterMap t.varName? := by
    refine List.mem_flatMap.mpr ⟨b, hb, List.mem_filterMap.mpr ⟨d, ?_, ?_⟩⟩
    · exact (Tree.mem_preorder ht hlt).mpr hd
    · simp [Tree.varName?, hvar]
  rw [Tree.innerNamesAt]
  split <;> simp_all [Kind.isParameter, Kind.isGeneric]

theorem silent_of_parts {d : NodeId} (hd : t.Below u d) (hown : t.isSynthesized d = false)
    (hps : (t.kind d).hasParameters = true) (fuel : Nat) (s : Surroundings) :
    Agree t u [] ((t.children d).flatMap (marksAt t fuel s)) := by
  have ht := h.wellFormed
  have hplain : (t.kind d).isParameter = false ∧ (t.kind d).isGeneric = false ∧
      (t.kind d).extras = [] := by
    cases hk : t.kind d <;> simp_all [Kind.hasParameters, Kind.parameters?, Kind.isParameter,
      Kind.isGeneric, Kind.extras]
  obtain ⟨hparameter, hgeneric, hextras⟩ := hplain
  have hinit : (t.kind d).isMemberwiseInit = false := by
    refine Bool.eq_false_iff.mpr fun hinit => ?_
    simp [((Tree.placed_of_below h hu hd).memberwise hinit).1] at hown
  refine .silent fun c hc => ?_
  have hbelow := hd.trans (Tree.below_child hc)
  have hpart := (Kind.mem_children_iff.mp hc).resolve_right (by simp [hextras])
  have hownc := Tree.own_of_part h hu hd hinit hpart
  obtain ⟨f, hf, hkind⟩ := Tree.kind_of_child ht hc
  rcases Tree.parts_of_hasParameters hps _ hf with rfl | rfl | rfl | hbody | ⟨rfl, hbody⟩
  · exact .nil (silent_of_parameter h hu hbelow hownc (.inr hkind) fuel s)
  · exact .nil (silent_of_parameter h hu hbelow hownc (.inl hkind) fuel s)
  · exact .nil (silent_of_isType h hkind fuel s)
  · exact .nil (silent_of_body h hu hd hown ⟨hparameter, hgeneric⟩ hbody fuel s)
  · obtain ⟨k, effect, b, hk⟩ := Kind.exists_of_isVariant hkind
    cases fuel with
    | zero => exact .nil rfl
    | succ fuel =>
        rw [marksAt, hk]
        have hb : b ∈ t.bodies d := hbody b (by simp [Check.variantBody, hk])
        exact .plain (.nil (silent_of_body h hu hd hown ⟨hparameter, hgeneric⟩ hb fuel _))

theorem silent_of_generics {d : NodeId} {gs : List NodeId} (hd : t.Below u d)
    (hinit : (t.kind d).isMemberwiseInit = false)
    (hgs : ∀ g ∈ gs, (Kind.isGeneric, g) ∈ (t.kind d).parts ∧ .part g ∈ (t.kind d).pieces)
    (fuel : Nat) (s : Surroundings) : Agree t u [] (gs.flatMap (marksAt t fuel s)) := by
  refine .silent fun g hg => .nil ?_
  obtain ⟨hpart, hpiece⟩ := hgs g hg
  exact silent_of_parameter h hu (hd.trans (Tree.below_child (Tree.child_of_part hpart)))
    (Tree.own_of_part h hu hd hinit hpiece) (.inr (h.wellFormed.fits d _ hpart)) fuel s

theorem agree_binding {d p : NodeId} {e : Option NodeId} (hd : t.Below u d) (hmember : t.IsMember d)
    (hk : t.kind d = .binding p e) {fuel : Nat} (hfuel : d ≤ fuel) (s : Surroundings) :
    Agree t u (varSymbols t (if s.inType then .field else .var) (t.site d) (t.preorder p))
      (marksAt t fuel s p ++ e.toList.flatMap (marksAt t fuel s)) := by
  have ht := h.wellFormed
  have hpattern := ht.fits d (Kind.isBindingPattern, p) (by simp [hk, Kind.parts])
  have hp : p ∈ t.children d := by simp [Tree.children, hk, Kind.children]
  have hlt := ht.child_lt d p hp
  have hvars : Agree t u (varSymbols t (if s.inType then .field else .var) (t.site d)
      (t.preorder p)) (marksAt t fuel s p) :=
    agree_vars h hu hd hmember (by simp [hk, Kind.isBinding]) (Tree.below_child hp)
      (.inl hpattern) (Nat.lt_succ_of_lt (Nat.lt_trans hlt (Tree.lt_size_of_child hp)))
      (Nat.lt_of_lt_of_le hlt hfuel) rfl
  have hvalue : Agree t u [] (e.toList.flatMap (marksAt t fuel s)) := by
    refine .silent fun c hc => .nil (silent_of_isExpr h ?_ fuel s)
    exact ht.fits d (Kind.isExpr, c) (by simp [hk, Kind.parts, Option.mem_toList.mp hc])
  have hall := hvars.append hvalue
  rwa [List.append_nil] at hall

section Members

variable {d : NodeId} (hd : t.Below u d) (hmember : t.IsMember d)
  (hown : t.isSynthesized d = false)

include hd hmember hown

theorem agree_named {x : Name} {detail : Option String}
    {kind : SymbolKind} {markKind : MarkKind} {cs : List Symbol} {ms : List Mark}
    (hx : (t.kind d).declares = some x) (hkind : kind.markKind? = some markKind)
    (hnamed : x.text ≠ "subscript" →
      (Symbol.mk x.text detail kind (t.site d) x.site cs).isNamed = true)
    (hrest : Agree t u cs ms) :
    Agree t u (Symbol.mk x.text detail kind (t.site d) x.site cs).shown
      (Highlight.declared markKind x :: ms) :=
  agree_listed h hu hd hown hx (Tree.not_isInner_of_isMember h.wellFormed hmember hx) (.refl _)
    (Highlight.isDeclaration_declared markKind x) rfl hkind hnamed hrest

omit hmember in
theorem agree_unnamed {x : String} {detail : Option String} {kind : SymbolKind} {p : Piece}
    {cs : List Symbol} {ms : List Mark} (hp : p ∈ (t.kind d).pieces)
    (hnamed : (Symbol.mk x detail kind (t.site d) (p.site t) cs).isNamed = false)
    (hrest : Agree t u cs ms) :
    Agree t u (Symbol.mk x detail kind (t.site d) (p.site t) cs).shown ms := by
  have hwritten := (Tree.placed_of_below h hu hd).written hown
  rw [Symbol.shown_eq (s := .mk x detail kind (t.site d) (p.site t) cs) (hwritten p hp).1]
  exact .unnamed hnamed hrest

/-- What has parameters is listed by its name alone, if it has one. -/
theorem agree_callable (hps : (t.kind d).hasParameters = true) (fuel fuel' : Nat)
    (s : Surroundings) :
    Agree t u (t.symbolsAt (fuel + 1) s.inType d) (marksAt t (fuel' + 1) s d) := by
  have hparts {cs : List NodeId} (hcs : t.children d = cs) (s : Surroundings) :
      Agree t u [] (cs.flatMap (marksAt t fuel' s)) := by
    rw [← hcs]
    exact silent_of_parts h hu hd hown hps fuel' s
  have hsite : (t.site d).isSynthesized = false := hown
  rw [Tree.symbolsAt, marksAt]
  simp only [hsite, Bool.false_eq_true, if_false]
  cases hk : t.kind d with
  | function k x gs ps o b =>
      refine .plain (agree_named h hu hd hmember hown (by simp [hk, Kind.declares]) ?_ ?_
        (hparts (by simp [Tree.children, hk, Kind.children]) _))
      · cases s.inType <;> rfl
      · cases s.inType <;> simp [Symbol.isNamed]
  | method k x gs ps o vs =>
      exact .plain (agree_named h hu hd hmember hown (by simp [hk, Kind.declares]) rfl
        (by simp [Symbol.isNamed]) (hparts (by simp [Tree.children, hk, Kind.children]) _))
  | init k ps b _ =>
      exact .plain (agree_unnamed h hu hd hown (p := .word k "init") (by simp [hk, Kind.pieces]) rfl
        (hparts (by simp [Tree.children, hk, Kind.children]) _))
  | subscript k x ps o b =>
      have hrest := hparts
        (show t.children d = ps ++ o :: b.toList by simp [Tree.children, hk, Kind.children])
        ⟨false, s.readonly, .value⟩
      cases x with
      | none =>
          exact .plain (agree_unnamed h hu hd hown (p := .word k "subscript")
            (by simp [hk, Kind.pieces]) rfl hrest)
      | some x =>
          exact .plain (agree_named h hu hd hmember hown (by simp [hk, Kind.declares]) rfl
            (fun _ => rfl) hrest)
  | _ => simp [hk, Kind.hasParameters, Kind.parameters?] at hps

/-- What has members is listed with them, if they are. -/
theorem agree_container (hcontainer : (t.kind d).isContainer = true) {fuel fuel' : Nat}
    (hmembers : ∀ m, (Kind.isMember, m) ∈ (t.kind d).parts → .part m ∈ (t.kind d).pieces →
      ∀ s : Surroundings, Agree t u (t.symbolsAt fuel s.inType m) (marksAt t fuel' s m))
    (s : Surroundings) :
    Agree t u (t.symbolsAt (fuel + 1) s.inType d) (marksAt t (fuel' + 1) s d) := by
  have htype {c : NodeId} (hc : (Kind.isType, c) ∈ (t.kind d).parts) (s : Surroundings) :
      Agree t u [] (marksAt t fuel' s c) :=
    .nil (silent_of_isType h (h.wellFormed.fits d _ hc) fuel' s)
  have hall {ms : List NodeId} (hms : ∀ m ∈ ms, (Kind.isMember, m) ∈ (t.kind d).parts)
      (hpieces : ∀ m ∈ ms, .part m ∈ (t.kind d).pieces) (s : Surroundings) :
      Agree t u (ms.flatMap (t.symbolsAt fuel s.inType)) (ms.flatMap (marksAt t fuel' s)) :=
    .flatMap fun m hm => hmembers m (hms m hm) (hpieces m hm) s
  have hsite : (t.site d).isSynthesized = false := hown
  have hkind := Tree.isMember_of_IsMember h.wellFormed hmember
  rw [Tree.symbolsAt, marksAt]
  simp only [hsite, Bool.false_eq_true, if_false]
  cases hk : t.kind d with
  | space k x ms =>
      exact .plain (agree_named h hu hd hmember hown (by simp [hk, Kind.declares]) rfl
        (fun _ => rfl) (hall (by simp [hk, Kind.parts]) (by simp [hk, Kind.pieces]) ⟨false, _, _⟩))
  | product k x gs ms memberwise =>
      dsimp only
      rw [List.cons_append, List.cons_append]
      refine .plain (agree_named h hu hd hmember hown (by simp [hk, Kind.declares]) rfl
        (fun _ => rfl) ?_)
      have hgenerics : ∀ g ∈ gs, (Kind.isGeneric, g) ∈ (t.kind d).parts ∧
          .part g ∈ (t.kind d).pieces := by
        simp +contextual [hk, Kind.parts, Kind.pieces]
      refine (silent_of_generics h hu hd (by rw [hk]; rfl) hgenerics fuel' _).append ?_
      exact hall (by simp +contextual [hk, Kind.parts]) (by simp +contextual [hk, Kind.pieces])
        ⟨true, _, _⟩
  | extension k subject ms =>
      refine .plain (agree_unnamed h hu hd hown (p := .part subject) (by simp [hk, Kind.pieces])
        rfl ?_)
      exact (htype (by simp [hk, Kind.parts]) _).append (hall
        (by simp +contextual [hk, Kind.parts]) (by simp +contextual [hk, Kind.pieces]) ⟨true, _, _⟩)
  | conformance k subject ts ms =>
      dsimp only
      rw [List.cons_append, List.cons_append, List.append_assoc]
      refine .plain (agree_unnamed h hu hd hown (p := .part subject) (by simp [hk, Kind.pieces])
        rfl ?_)
      have htraits : Agree t u [] (ts.flatMap (marksAt t fuel' { s with role := .value })) :=
        .silent fun c hc => htype (by simp [hk, Kind.parts, hc]) _
      exact (htype (by simp [hk, Kind.parts]) _).append (htraits.append (hall
        (by simp +contextual [hk, Kind.parts]) (by simp +contextual [hk, Kind.pieces])
          ⟨true, _, _⟩))
  | trait k x ms =>
      exact .plain (agree_named h hu hd hmember hown (by simp [hk, Kind.declares]) rfl
        (fun _ => rfl) (hall (by simp [hk, Kind.parts]) (by simp [hk, Kind.pieces]) ⟨true, _, _⟩))
  | module | unit => simp [hk, Kind.isMember] at hkind
  | _ => simp [hk, Kind.isContainer] at hcontainer

end Members

theorem agree_symbolsAt {fuel fuel' : Nat} {d : NodeId} (hd : t.Below u d) (hmember : t.IsMember d)
    (hown : t.isSynthesized d = false) (hfuel : d < fuel) (hfuel' : d < fuel') (s : Surroundings) :
    Agree t u (t.symbolsAt fuel s.inType d) (marksAt t fuel' s d) := by
  have ht := h.wellFormed
  induction fuel generalizing d fuel' s with
  | zero => exact absurd hfuel (Nat.not_lt_zero d)
  | succ fuel ih =>
      obtain ⟨fuel', rfl⟩ := Nat.exists_eq_add_one.mpr (Nat.zero_lt_of_lt hfuel')
      have hmembers : ∀ m, (Kind.isMember, m) ∈ (t.kind d).parts → .part m ∈ (t.kind d).pieces →
          ∀ s : Surroundings, Agree t u (t.symbolsAt fuel s.inType m) (marksAt t fuel' s m) := by
        intro m hm hpiece s
        have hwritten := (Tree.placed_of_below h hu hd).written hown
        have hchild := Tree.child_of_part hm
        have hlt := ht.child_lt d m hchild
        exact ih (hd.trans (Tree.below_child hchild)) ⟨d, hm⟩
          ((hwritten _ hpiece).1.isSynthesized_eq.trans hown)
          (Nat.lt_of_lt_of_le hlt (Nat.le_of_lt_succ hfuel))
          (Nat.lt_of_lt_of_le hlt (Nat.le_of_lt_succ hfuel')) s
      by_cases hcontainer : (t.kind d).isContainer = true
      · exact agree_container h hu hd hmember hown hcontainer hmembers s
      by_cases hps : (t.kind d).hasParameters = true
      · exact agree_callable h hu hd hmember hown hps fuel fuel' s
      have hsite : (t.site d).isSynthesized = false := hown
      have hkind := Tree.isMember_of_IsMember ht hmember
      rw [Tree.symbolsAt, marksAt]
      simp only [hsite, Bool.false_eq_true, if_false]
      cases hk : t.kind d with
      | associated k x =>
          exact .plain (agree_named h hu hd hmember hown (by simp [hk, Kind.declares]) rfl
            (fun _ => rfl) (.nil rfl))
      | typeAlias k x aliased =>
          have haliased := ht.fits d (Kind.isType, aliased) (by simp [hk, Kind.parts])
          exact .plain (agree_named h hu hd hmember hown (by simp [hk, Kind.declares]) rfl
            (fun _ => rfl) (.nil (silent_of_isType h haliased fuel' _)))
      | operator k _ f x =>
          exact .plain (.plain (agree_named h hu hd hmember hown (by simp [hk, Kind.declares]) rfl
            (fun _ => rfl) (.nil rfl)))
      | binding p e =>
          exact agree_binding h hu hd hmember hk (Nat.le_of_lt_succ hfuel')
            { s with role := .value }
      | _ =>
          simp [hk, Kind.isMember, Kind.isContainer, Kind.hasParameters, Kind.parameters?]
            at hkind hcontainer hps

end Symbols

/-- In the order of the text, the named symbols of a document are the names that are marked as
declared, those of parameters and of variables in bodies apart: each has the place and the text of
its mark, and their kinds say the same. -/
theorem outline_agrees_with_marks {t : Tree} (h : t.Parsed) {uri : String} {u : NodeId}
    (hu : t.unitOf? uri = some u) :
    List.Forall₂ Symbol.Agrees ((Symbol.preorders (t.outline uri)).filter Symbol.isNamed)
      ((Highlight.marks t uri).filter (t.marksOuter u)) := by
  have ht := h.wellFormed
  have hunit := h.mem_units_of_unitOf? hu
  obtain ⟨ds, hk⟩ := Kind.exists_of_isUnit (Tree.isUnit_of_mem_units ht hunit)
  rw [Highlight.filter_marks h hu fun m hm => (Bool.and_eq_true _ _ ▸ hm).1]
  rw [Tree.outline, hu, Highlight.marksAt]
  simp only [hk]
  refine Agree.flatMap fun d hd => ?_
  have hpart : (Kind.isMember, d) ∈ (t.kind u).parts := by simp [hk, Kind.parts, hd]
  have hchild := Tree.child_of_part hpart
  have hlt := ht.child_lt u d hchild
  have hsize := Tree.lt_size_of_mem_units ht hunit
  have hown : t.isSynthesized d = false := Tree.own_of_part h hunit (.refl u) (by rw [hk]; rfl)
    (by simp [hk, Kind.pieces, hd])
  exact agree_symbolsAt h hunit (Tree.below_child hchild) ⟨u, hpart⟩ hown
    (Nat.lt_succ_of_lt (Nat.lt_trans hlt hsize)) (Nat.lt_trans hlt hsize) ⟨false, false, .value⟩

def shapesDocument : File :=
  .document "file:///main.orca" "
    namespace Shapes \x7b fun scale(factor: Int) -> Int \x7b let twice = factor return twice \x7d \x7d
    type Box<T> \x7b
      var (w, h): (Int, Int)
      init(n: Int) \x7b let side = n \x7d
      fun area() -> Int \x7b let \x7b let a = w return a \x7d inout \x7b return h \x7d \x7d
      subscript(i: Int): Int \x7b let j = i return j \x7d
      subscript row(i: Int): Int
    \x7d
    extension Box \x7b fun grow() \x7b \x7d \x7d
    trait Shape \x7b type Unit fun area() -> Int \x7d
    conformance Box: Shape \x7b let sides = 4 \x7d
    // an operator
    operator infix <>
    typealias Size = (Int, Int)
    let (one, _) = (1, 2)"

def outlineNames (f : File) : Option (List String) :=
  match Tree.parseModule .empty "main" [f] with
  | .error _ => none
  | .ok t => (t.unitOf? f.uri).map fun _ =>
      ((Symbol.preorders (t.outline f.uri)).filter Symbol.isNamed).map Symbol.name

set_option maxRecDepth 4000 in
theorem shapesDocument_agrees : ∃ t u,
    Tree.parseModule .empty "main" [shapesDocument] = .ok t ∧
      t.unitOf? "file:///main.orca" = some u ∧
      ((Symbol.preorders (t.outline "file:///main.orca")).filter Symbol.isNamed).map Symbol.name =
        ["Shapes", "scale", "Box", "w", "h", "area", "row", "grow", "Shape", "Unit", "area",
          "sides", "<>", "Size", "one"] ∧
      List.Forall₂ Symbol.Agrees
        ((Symbol.preorders (t.outline "file:///main.orca")).filter Symbol.isNamed)
        ((Highlight.marks t "file:///main.orca").filter (t.marksOuter u)) := by
  have hrun : outlineNames shapesDocument = some ["Shapes", "scale", "Box", "w", "h", "area", "row",
      "grow", "Shape", "Unit", "area", "sides", "<>", "Size", "one"] := by
    rw [outlineNames, Tree.parseModule, Tree.parseUnits, Tree.parseUnit,
      Layout.ofFile_of_text shapesDocument rfl]
    decide +kernel
  rw [outlineNames] at hrun
  cases hparse : Tree.parseModule .empty "main" [shapesDocument] with
  | error e => simp [hparse] at hrun
  | ok t =>
      rw [hparse] at hrun
      obtain ⟨u, hu, hnames⟩ := Option.map_eq_some_iff.mp hrun
      exact ⟨t, u, rfl, hu, hnames, outline_agrees_with_marks (.module .empty hparse) hu⟩

end LanguageService
