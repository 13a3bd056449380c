import LanguageService.Proofs.EmittedDecl
import LanguageService.Proofs.Layers
import LanguageService.Proofs.ScopeMembers
import Mathlib.Data.List.Forall2

/-!
Product types of parsed trees are given memberwise initializers: unless one of the members that are
written is an initializer, there is one whose parameters have the names of the variables that the
members bind, in order.
-/
namespace LanguageService

open Declarations (varsOf)

namespace Tree

variable {t t' : Tree}

theorem Later.keeps (h : Later t t') : t.Keeps t' where
  size_le := by
    rw [← length_nodes, ← length_nodes]
    exact h.nodes.length_le
  get?_eq := fun i hi => h.get?_eq (by rwa [length_nodes])

def AreNamed (t : Tree) (vs : List NodeId) (xs : List String) : Prop :=
  List.Forall₂ (fun v x => ∃ y, t.kind v = .var y ∧ y.text = x) vs xs

theorem AreNamed.append {vs ws : List NodeId} {xs ys : List String} (h : t.AreNamed vs xs)
    (h' : t.AreNamed ws ys) : t.AreNamed (vs ++ ws) (xs ++ ys) :=
  List.rel_append h h'

end Tree

namespace Lowering

open Surface (Pattern Binding Decl)

variable {α β : Type} {l : Layout}

/-- After a lowering, its result is as `Q` says in the tree and in whatever the tree becomes. -/
def Gives (m : Lowering α) (Q : Tree → α → Prop) : Prop :=
  ∀ t, t.Keeps (m t).2 ∧ ∀ t', (m t).2.Keeps t' → t'.WellFormed → Q t' (m t).1

namespace Gives

variable {m : Lowering α} {f : α → Lowering β} {Q Q' : Tree → α → Prop} {R : Tree → β → Prop}

theorem mono (h : Gives m Q) (hQ : ∀ t a, t.WellFormed → Q t a → Q' t a) : Gives m Q' :=
  fun t => ⟨(h t).1, fun t' hkeeps ht' => hQ t' _ ht' ((h t).2 t' hkeeps ht')⟩

theorem pure {a : α} (h : ∀ t, Q t a) : Gives (pure a) Q :=
  fun t => ⟨.refl t, fun t' _ _ => h t'⟩

theorem bind (hm : Gives m Q) (hf : ∀ a, Gives (f a) fun t b => Q t a → R t b) :
    Gives (m >>= f) R := by
  intro t
  obtain ⟨hkeeps, hQ⟩ := hm t
  obtain ⟨hkeeps', hR⟩ := hf (m t).1 (m t).2
  exact ⟨hkeeps.trans hkeeps', fun t' hlater ht' =>
    hR t' hlater ht' (hQ t' (hkeeps'.trans hlater) ht')⟩

theorem insert {k : Kind} {s : Site} {Q : Tree → NodeId → Prop}
    (h : ∀ t i, t.WellFormed → t.kind i = k → Q t i) : Gives (insert k s) Q :=
  fun t => ⟨t.keeps_insert k s, fun t' hkeeps ht' =>
    h t' _ ht' (Tree.kind_of_insert hkeeps).1⟩

end Gives

theorem Extends.gives {m : Lowering α} {ps : List Part} {qs : α → List Part}
    (h : Extends m ps qs) : Gives m fun _ _ => True :=
  fun t => ⟨(h t).keeps, fun _ _ _ => trivial⟩

section Patterns

open Tree (AreNamed)

mutual

theorem pattern_named : ∀ p : Pattern,
    Gives (pattern l p) fun t i => t.AreNamed (t.patternVars i) (patternNames p)
  | .name s x => by
      rw [pattern, patternNames]
      refine .bind (.insert (Q := fun t v => t.kind v = .var (l.name x)) fun _ _ _ h => h)
        fun v => .insert fun t i ht hk hv => ?_
      rw [Tree.patternVars_eq ht, hk]
      exact .cons ⟨_, hv, rfl⟩ .nil
  | .tuple s ps => by
      rw [pattern, patternNames]
      refine .bind (patterns_named ps) fun is => .insert fun t i ht hk his => ?_
      rwa [Tree.patternVars_eq ht, hk]
  | .wildcard s => by
      rw [pattern, patternNames]
      refine .insert fun t i ht hk => ?_
      rw [Tree.patternVars_eq ht, hk]
      exact .nil

theorem patterns_named : ∀ ps : List Pattern,
    Gives (patterns l ps) fun t is => t.AreNamed (is.flatMap t.patternVars) (patternsNames ps)
  | [] => by
      rw [patterns, patternsNames]
      exact .pure fun _ => .nil
  | p :: ps => by
      rw [patterns, patternsNames]
      exact .bind (pattern_named p) fun i => .bind (patterns_named ps) fun is =>
        .pure fun t his hi => hi.append his

end

theorem binding_named (site : Site) (b : Binding) : Gives (binding l site b) fun t i =>
    ∃ p v, t.kind i = .binding p v ∧ t.AreNamed (t.patternVars p) (patternNames b.pattern) := by
  rw [binding]
  refine .bind (pattern_named b.pattern) fun names =>
    .bind (typeExpr?_tracked extends_tracks l b.ascription).gives fun type =>
      .bind (.insert (Q := fun t p => t.patternVars p = t.patternVars names) fun t p ht hp => ?_)
        fun p => .bind (expr?_tracked extends_tracks l b.initializer).gives fun value =>
          .insert fun t i _ hk _ hp _ hnames => ⟨p, value, hk, hp ▸ hnames⟩
  rw [Tree.patternVars_eq ht, hp]

end Patterns

end Lowering

namespace Tree

variable {t : Tree} {ms : List NodeId}

def NamedFor (t : Tree) (p v : NodeId) : Prop :=
  ∃ x, t.kind v = .var x ∧ t.kind p = .parameter ⟨x.text, .synthesized⟩ none

/-- The initializer that is given to a type: none if one of the members is an initializer, or else
one with a parameter for each variable that they bind. -/
def GivenTo (t : Tree) (ms : List NodeId) : Option NodeId → Prop
  | none => ∃ m ∈ ms, (t.kind m).isInit = true
  | some i => (∀ m ∈ ms, (t.kind m).isInit = false) ∧
      ∃ ps, t.kind i = .init .synthesized ps none true ∧
        List.Forall₂ t.NamedFor ps (ms.flatMap (varsOf t))

def Given (t : Tree) (n : NodeId) : Prop :=
  ∀ introducer x gs ms memberwise, t.kind n = .product introducer x gs ms memberwise →
    t.GivenTo ms memberwise

structure Lowered (t : Tree) (ds : List Surface.Decl) (is : List NodeId) : Prop where
  inits : (∃ i ∈ is, (t.kind i).isInit = true) ↔ Lowering.declaresInit ds = true
  named : t.AreNamed (is.flatMap (varsOf t)) (Lowering.storedNames ds)
  given : ∀ i ∈ is, ∀ n, t.Below i n → t.Given n

variable {i n : NodeId} {d : Surface.Decl} {ds : List Surface.Decl} {is : List NodeId}

theorem given_of_not_isProduct (hn : (t.kind n).isProduct = false) : t.Given n := by
  intro introducer x gs ms memberwise hk
  rw [hk] at hn
  cases hn

section Below

variable (ht : t.WellFormed)

include ht

theorem given_of_below (hi : (t.kind i).isContainer = false) (hn : t.Below i n) : t.Given n := by
  have hgood := kind_of_below ht (fun k => !k.isContainer) (fun k hk p hp k' hk' => ?_)
    (by simpa using hi) hn
  · refine given_of_not_isProduct ?_
    cases hk : t.kind n <;> simp_all [Kind.isProduct, Kind.isContainer]
  · rw [Bool.not_eq_true'] at hk ⊢
    by_contra hcontainer
    rw [Kind.isContainer_of_part hp hk' (by simpa using hcontainer)] at hk
    cases hk

theorem given_of_members (hself : t.Given i)
    (hparts : ∀ p ∈ (t.kind i).parts, p.2 ∈ is ∨ p.1 ∈ Kind.innerSorts)
    (his : ∀ m ∈ is, ∀ n, t.Below m n → t.Given n) (hn : t.Below i n) : t.Given n := by
  rcases below_iff.mp hn with rfl | ⟨c, hc, hn⟩
  · exact hself
  · obtain ⟨f, hf, hkind⟩ := kind_of_child ht hc
    rcases hparts _ hf with hmember | hinner
    · exact his c hmember n hn
    · refine given_of_below ht ?_ hn
      by_contra hcontainer
      have hnot := Kind.innerSorts_of_isContainer (by simpa using hcontainer) f hinner
      rw [hkind] at hnot
      cases hnot

end Below

namespace Lowered

theorem nil : t.Lowered [] [] where
  inits := by simp [Lowering.declaresInit]
  named := .nil
  given := by simp

theorem cons (h : t.Lowered [d] [i]) (h' : t.Lowered ds is) : t.Lowered (d :: ds) (i :: is) where
  inits := by
    have hcons : Lowering.declaresInit (d :: ds) =
        (Lowering.declaresInit [d] || Lowering.declaresInit ds) := by
      cases d <;> simp [Lowering.declaresInit]
    rw [hcons, Bool.or_eq_true, ← h.inits, ← h'.inits]
    simp
  named := by
    have hcons : Lowering.storedNames (d :: ds) =
        Lowering.storedNames [d] ++ Lowering.storedNames ds := by
      cases d <;> simp [Lowering.storedNames]
    rw [hcons, List.flatMap_cons]
    exact AreNamed.append (by simpa using h.named) h'.named
  given := List.forall_mem_cons.mpr ⟨h.given i List.mem_cons_self, h'.given⟩

theorem singleton (hinit : (t.kind i).isInit = Lowering.declaresInit [d])
    (hnamed : t.AreNamed (varsOf t i) (Lowering.storedNames [d]))
    (hgiven : ∀ n, t.Below i n → t.Given n) : t.Lowered [d] [i] where
  inits := by simp [hinit]
  named := by simpa using hnamed
  given := by simpa using hgiven

variable {k : Kind}

theorem of_not_isBinding (hi : t.kind i = k) (hk : k.isBinding = false)
    (hinit : k.isInit = Lowering.declaresInit [d]) (hnone : Lowering.storedNames [d] = [])
    (hgiven : ∀ n, t.Below i n → t.Given n) : t.Lowered [d] [i] := by
  subst hi
  refine .singleton hinit ?_ hgiven
  have hvars : varsOf t i = [] := by
    rw [varsOf]
    cases hkind : t.kind i <;> simp_all [Kind.isBinding]
  rw [hvars, hnone]
  exact .nil

theorem inner (ht : t.WellFormed) (hi : t.kind i = k) (hk : k.isContainer = false)
    (hbinding : k.isBinding = false) (hinit : k.isInit = Lowering.declaresInit [d])
    (hnone : Lowering.storedNames [d] = []) : t.Lowered [d] [i] :=
  .of_not_isBinding hi hbinding hinit hnone fun _ => given_of_below ht (hi ▸ hk)

theorem container (ht : t.WellFormed) (hi : t.kind i = k) (hk : k.isBinding = false)
    (hinit : k.isInit = Lowering.declaresInit [d]) (hnone : Lowering.storedNames [d] = [])
    (hparts : ∀ p ∈ k.parts, p.2 ∈ is ∨ p.1 ∈ Kind.innerSorts) (his : t.Lowered ds is)
    (hself : t.Given i) : t.Lowered [d] [i] :=
  .of_not_isBinding hi hk hinit hnone fun _ => given_of_members ht hself (hi ▸ hparts) his.given

end Lowered

end Tree

namespace Lowering

open Surface (Decl)
open Tree (Lowered)

variable {l : Layout}

theorem memberwiseParams_named (xs : List String) : Gives (memberwiseParams xs) fun t ps =>
    List.Forall₂ (fun p x => t.kind p = .parameter ⟨x, .synthesized⟩ none) ps xs := by
  induction xs with
  | nil => exact .pure fun _ => .nil
  | cons x xs ih =>
      rw [memberwiseParams]
      exact .bind (.insert (Q := fun t p => t.kind p = .parameter ⟨x, .synthesized⟩ none)
        fun _ _ _ h => h) fun p => .bind ih fun ps => .pure fun t hps hp => .cons hp hps

theorem namedFor_of_named {t : Tree} {ps vs : List NodeId} {xs : List String}
    (hps : List.Forall₂ (fun p x => t.kind p = .parameter ⟨x, .synthesized⟩ none) ps xs)
    (hvs : t.AreNamed vs xs) : List.Forall₂ t.NamedFor ps vs := by
  induction hps generalizing vs with
  | nil =>
      rw [List.forall₂_nil_right_iff.mp hvs]
      exact .nil
  | cons hp _ ih =>
      obtain ⟨v, vs, ⟨y, hy, rfl⟩, hrest, rfl⟩ := List.forall₂_cons_right_iff.mp hvs
      exact .cons ⟨y, hy, hp⟩ (ih hrest)

theorem memberwise_given (ds : List Decl) :
    Gives (memberwise ds) fun t m => ∀ is, t.Lowered ds is → t.GivenTo is m := by
  rw [memberwise]
  split
  · next hinit => exact .pure fun t is his => his.inits.mpr hinit
  · next hinit =>
      refine .bind (memberwiseParams_named _) fun ps =>
        .bind (.insert (Q := fun t i => t.kind i = .init .synthesized ps none true)
          fun _ _ _ h => h) fun i => .pure fun t hi hps is his => ⟨fun m hm => ?_, ps, hi,
            namedFor_of_named hps his.named⟩
      by_contra hm'
      exact hinit (his.inits.mp ⟨m, hm, by simpa using hm'⟩)

theorem decl_binding_lowered (s : Surface.Span) (b : Surface.Binding) :
    Gives (binding l (l.site s) b) fun t i => t.Lowered [.binding s b] [i] := by
  refine (binding_named _ b).mono ?_
  rintro t i ht ⟨p, v, hi, hnames⟩
  refine .singleton (by rw [hi]; rfl) ?_ fun n => Tree.given_of_below ht (by rw [hi]; rfl)
  rw [Declarations.varsOf, hi, storedNames, storedNames, List.append_nil]
  exact hnames

mutual

theorem decl_lowered : ∀ d : Decl, Gives (decl l d) fun t i => t.Lowered [d] [i]
  | .space s k x ms => by
      rw [decl]
      refine .bind (decls_lowered ms) fun is => .insert fun t i ht hi his => ?_
      refine .container ht hi rfl rfl rfl ?_ his (Tree.given_of_not_isProduct (by rw [hi]; rfl))
      simp +contextual [Kind.parts]
  | .product s k x gs ms => by
      rw [decl]
      refine .bind (generics_tracked extends_tracks l gs).gives fun gs =>
        .bind (decls_lowered ms) fun is => .bind (memberwise_given ms) fun m =>
          .insert fun t i ht hi hm his _ => ?_
      refine .container ht hi rfl rfl rfl ?_ his fun _ _ _ _ _ hk => ?_
      · simp +contextual [Kind.parts, Kind.innerSorts, or_imp, forall_and]
      · cases hi.symm.trans hk
        exact hm is his
  | .associated s k x => by
      rw [decl]
      exact .insert fun t i ht hi => .inner ht hi rfl rfl rfl rfl
  | .extension s k e ms => by
      rw [decl]
      refine .bind (typeExpr_tracked extends_tracks l e).gives fun e =>
        .bind (decls_lowered ms) fun is => .insert fun t i ht hi his _ => ?_
      refine .container ht hi rfl rfl rfl ?_ his (Tree.given_of_not_isProduct (by rw [hi]; rfl))
      simp +contextual [Kind.parts, Kind.innerSorts, or_imp]
  | .conformance s k e es ms => by
      rw [decl]
      refine .bind (typeExpr_tracked extends_tracks l e).gives fun e =>
        .bind (typeExprs_tracked extends_tracks l es).gives fun es =>
          .bind (decls_lowered ms) fun is => .insert fun t i ht hi his _ _ => ?_
      refine .container ht hi rfl rfl rfl ?_ his (Tree.given_of_not_isProduct (by rw [hi]; rfl))
      simp +contextual [Kind.parts, Kind.innerSorts, or_imp, forall_and]
  | .trait s k x ms => by
      rw [decl]
      refine .bind (decls_lowered ms) fun is => .insert fun t i ht hi his => ?_
      refine .container ht hi rfl rfl rfl ?_ his (Tree.given_of_not_isProduct (by rw [hi]; rfl))
      simp +contextual [Kind.parts]
  | .typeAlias s k x e => by
      rw [decl]
      exact .bind (typeExpr_tracked extends_tracks l e).gives fun e =>
        .insert fun t i ht hi _ => .inner ht hi rfl rfl rfl rfl
  | .operator s k f fs x => by
      rw [decl]
      exact .insert fun t i ht hi => .inner ht hi rfl rfl rfl rfl
  | .function s k x gs ps e (some (.bundle vs)) => by
      rw [decl]
      exact .bind (generics_tracked extends_tracks l gs).gives fun gs =>
        .bind (params_tracked extends_tracks l ps).gives fun ps =>
          .bind (typeExpr?_tracked extends_tracks l e).gives fun e =>
            .bind (variants_tracked extends_tracks l vs).gives fun vs =>
              .insert fun t i ht hi _ _ _ _ => .inner ht hi rfl rfl rfl rfl
  | .function s k x gs ps e (some (.block b)) => by
      rw [decl]
      exact .bind (generics_tracked extends_tracks l gs).gives fun gs =>
        .bind (params_tracked extends_tracks l ps).gives fun ps =>
          .bind (typeExpr?_tracked extends_tracks l e).gives fun e =>
            .bind (stmt_tracked extends_tracks l b).gives fun b =>
              .insert fun t i ht hi _ _ _ _ => .inner ht hi rfl rfl rfl rfl
  | .function s k x gs ps e none => by
      rw [decl]
      exact .bind (generics_tracked extends_tracks l gs).gives fun gs =>
        .bind (params_tracked extends_tracks l ps).gives fun ps =>
          .bind (typeExpr?_tracked extends_tracks l e).gives fun e =>
            .insert fun t i ht hi _ _ _ => .inner ht hi rfl rfl rfl rfl
  | .init s k ps b => by
      rw [decl]
      exact .bind (params_tracked extends_tracks l ps).gives fun ps =>
        .bind (stmt?_tracked extends_tracks l b).gives fun b =>
          .insert fun t i ht hi _ _ => .inner ht hi rfl rfl rfl rfl
  | .subscript s k x ps e b => by
      rw [decl]
      exact .bind (params_tracked extends_tracks l ps).gives fun ps =>
        .bind (typeExpr_tracked extends_tracks l e).gives fun e =>
          .bind (stmt?_tracked extends_tracks l b).gives fun b =>
            .insert fun t i ht hi _ _ _ => .inner ht hi rfl rfl rfl rfl
  | .binding s b => by
      rw [decl]
      exact decl_binding_lowered s b

theorem decls_lowered : ∀ ds : List Decl, Gives (decls l ds) fun t is => t.Lowered ds is
  | [] => by
      rw [decls]
      exact .pure fun _ => .nil
  | d :: ds => by
      rw [decls]
      exact .bind (decl_lowered d) fun i => .bind (decls_lowered ds) fun is =>
        .pure fun t his hi => hi.cons his

end

theorem unit_given (ds : List Decl) :
    Gives (unit l ds) fun t u => ∀ n, t.Below u n → t.Given n := by
  rw [unit]
  refine .bind (decls_lowered ds) fun is => .insert fun t u ht hu his n => ?_
  refine Tree.given_of_members ht (Tree.given_of_not_isProduct (by rw [hu]; rfl)) ?_ his.given
  simp +contextual [hu, Kind.parts]

end Lowering

namespace Tree

variable {base t t' : Tree} {u : NodeId}

def Supplied (t : Tree) (u : NodeId) : Prop :=
  ∀ t', t.Keeps t' → t'.WellFormed → ∀ n, t'.Below u n → t'.Given n

theorem Supplied.keeps (h : t.Supplied u) (hkeeps : t.Keeps t') : t'.Supplied u :=
  fun _ hlater => h _ (hkeeps.trans hlater)

theorem parseUnit_supplied {f : File} (h : t.parseUnit f = .ok (u, t')) : t'.Supplied u := by
  simp only [parseUnit] at h
  split at h
  · next ds _ =>
      split at h
      · have hgives := (Lowering.unit_given (l := .ofFile f) ds t).2
        rw [Except.ok.injEq] at h
        rwa [h] at hgives
      · cases h
  · cases h

theorem parseUnits_supplied (files : List File) (t : Tree) :
    ∀ u ∈ (t.parseUnits files).1, (t.parseUnits files).2.2.Supplied u := by
  induction files generalizing t with
  | nil => simp [parseUnits]
  | cons f fs ih =>
      rw [parseUnits]
      split
      · next u t₁ hunit =>
          have hkeeps := (parseUnits_later fs t₁).keeps
          exact List.forall_mem_cons.mpr ⟨(parseUnit_supplied hunit).keeps hkeeps, ih t₁⟩
      · exact ih t

theorem parseModule_supplied {name : String} {files : List File} (hbase : base.WellFormed)
    (h : parseModule base name files = .ok t) (hunits : ∀ u ∈ base.units, base.Supplied u) :
    ∀ u ∈ t.units, t.Supplied u := by
  obtain ⟨m, hmodules, hnew, hlater⟩ := parseModule_units h
  have hkeeps := (keeps_extending base).trans (parseModule_later h).keeps
  intro u hu
  obtain ⟨m', hm', hu⟩ := List.mem_flatMap.mp hu
  rw [hmodules, List.mem_append, List.mem_singleton] at hm'
  rcases hm' with hm' | rfl
  · rw [unitsOf, hkeeps.kind_eq (hbase.modules_lt m' hm')] at hu
    exact (hunits u (mem_units hm' hu)).keeps hkeeps
  · rw [hnew] at hu
    exact (parseUnits_supplied files _ u hu).keeps hlater

theorem Parsed.given (h : t.Parsed) {n : NodeId} (hu : u ∈ t.units) (hn : t.Below u n) :
    t.Given n := by
  have hsupplied : ∀ u ∈ t.units, t.Supplied u := by
    clear hu hn
    induction h with
    | empty => exact fun u hu => absurd hu List.not_mem_nil
    | module hbase h ih => exact parseModule_supplied hbase.wellFormed h ih
  exact hsupplied u hu t (.refl t) h.wellFormed n hn

end Tree

end LanguageService
