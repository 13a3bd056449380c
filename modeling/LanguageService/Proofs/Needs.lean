import LanguageService.Check.Signature
import LanguageService.Proofs.Pointing
import LanguageService.Proofs.Typing
import Mathlib.Logic.Relation

/-!
What the type of a declaration is worked out from, and the rule for the construction of a value,
which holds but for an initializer that needs itself.
-/
namespace LanguageService

namespace Tree

/-- The expression `n` asks for the type of the declaration `d`. The reference of a name that is
called may have been replaced by that of an initializer. -/
inductive Mentions (t : Tree) (refs : Table Reference) (n d : NodeId) : Prop
  | direct (h : refs.get? n = some (.direct d))
  | member (h : refs.get? n = some (.member d))
  | constructed (h : refs.get? n = some (.constructor d))
  | replaced {i : NodeId} (h : refs.get? n = some (.constructor i))
      {x : String} (hspelled : (t.kind n).spelled = some x)
      (hdeclared : (t.kind d).declared = some x) (htext : ¬ t.IsImplied d)
  | indexed {callee : NodeId} {args : List (Option Name × NodeId)} {o : Owner}
      (hn : t.kind n = .subscriptCall callee args)
      (hd : d ∈ (Declarations.ofTree t).subscriptsOf o)

inductive Needs (t : Tree) (refs : Table Reference) : NodeId → NodeId → Prop
  | parameter {d p : NodeId} (h : p ∈ t.children d) (hp : (t.kind p).isParameter = true) :
      Needs t refs d p
  | stored {p v : NodeId} (h : Check.storedFor ⟨t, .ofTree t⟩ p = some v) : Needs t refs p v
  | bound {v b : NodeId} (h : (Declarations.ofTree t).bindings.get? v = some b) : Needs t refs v b
  | mention {b n d : NodeId} (hb : (t.kind b).isBinding = true) (hn : t.Below b n)
      (hexpr : (t.kind n).isExpr = true) (h : t.Mentions refs n d) : Needs t refs b d

def IsCircular (t : Tree) (refs : Table Reference) (d : NodeId) : Prop :=
  Relation.TransGen (t.Needs refs) d d

/-- `b` stands outside of bodies, and binds `v`. -/
structure BindsOutside (t : Tree) (b v : NodeId) : Prop where
  bound : (Declarations.ofTree t).bindings.get? v = some b
  isBinding : (t.kind b).isBinding = true
  isVar : (t.kind v).isVar = true
  below : t.Below b v

/-- The parameter `p` sets the variable `v`, which is bound by `b`. -/
structure Sets (t : Tree) (p v b : NodeId) : Prop where
  unannotated : ∃ x, t.kind p = .parameter x none
  stored : Check.storedFor ⟨t, .ofTree t⟩ p = some v
  binds : t.BindsOutside b v

variable {t : Tree} {refs : Table Reference} {n d a b : NodeId} {r : Reference}

def KeepsNeeds (t : Tree) (refs refs' : Table Reference) : Prop :=
  ∀ a b, t.Needs refs a b → t.Needs refs' a b

theorem KeepsNeeds.refl (refs : Table Reference) : t.KeepsNeeds refs refs := fun _ _ => id

theorem KeepsNeeds.trans {refs₁ refs₂ : Table Reference} (h : t.KeepsNeeds refs refs₁)
    (h' : t.KeepsNeeds refs₁ refs₂) : t.KeepsNeeds refs refs₂ :=
  fun a b hab => h' a b (h a b hab)

theorem IsCircular.later {refs' : Table Reference} (hd : t.IsCircular refs d)
    (h : t.KeepsNeeds refs refs') : t.IsCircular refs' d :=
  Relation.TransGen.mono h _ _ hd

theorem KeepsNeeds.insert (h : (t.kind n).isExpr = true → ∀ d, t.Mentions refs n d →
    t.Mentions (refs.insert n r) n d) : t.KeepsNeeds refs (refs.insert n r) := by
  intro a b hab
  cases hab with
  | parameter hp hparameter => exact .parameter hp hparameter
  | stored hv => exact .stored hv
  | bound hb => exact .bound hb
  | @mention m _ hb hm hexpr hmention =>
      refine .mention hb hm hexpr ?_
      by_cases heq : n = m
      · subst heq
        exact h hexpr b hmention
      · have hsame : (refs.insert n r).get? m = refs.get? m := by
          rw [Table.get?_insert, if_neg heq]
        cases hmention with
        | direct h => exact .direct (hsame.trans h)
        | member h => exact .member (hsame.trans h)
        | constructed h => exact .constructed (hsame.trans h)
        | replaced h hspelled hdeclared htext =>
            exact .replaced (hsame.trans h) hspelled hdeclared htext
        | indexed hn hd => exact .indexed hn hd

theorem KeepsNeeds.insert_of_none (h : refs.get? n = none) :
    t.KeepsNeeds refs (refs.insert n r) := by
  refine .insert fun _ d hd => ?_
  cases hd with
  | indexed hn hd => exact .indexed hn hd
  | direct hd | member hd | constructed hd | replaced hd => simp [h] at hd

theorem KeepsNeeds.insert_of_not_isExpr (h : (t.kind n).isExpr = false) :
    t.KeepsNeeds refs (refs.insert n r) :=
  .insert fun hexpr => by simp [h] at hexpr

/-- What is called is found by its name before it turns out to be a type. -/
theorem KeepsNeeds.insert_constructor {i : NodeId}
    (hnot : ∀ i, refs.get? n ≠ some (.constructor i))
    (hname : ∀ d, refs.get? n = some (.direct d) ∨ refs.get? n = some (.member d) →
      (∃ x, (t.kind n).spelled = some x ∧ (t.kind d).declared = some x) ∧ ¬ t.IsImplied d) :
    t.KeepsNeeds refs (refs.insert n (.constructor i)) := by
  have hnew : (refs.insert n (.constructor i)).get? n = some (.constructor i) := by simp
  refine .insert fun _ d hd => ?_
  cases hd with
  | direct h =>
      obtain ⟨⟨x, hspelled, hdeclared⟩, htext⟩ := hname d (.inl h)
      exact .replaced hnew hspelled hdeclared htext
  | member h =>
      obtain ⟨⟨x, hspelled, hdeclared⟩, htext⟩ := hname d (.inr h)
      exact .replaced hnew hspelled hdeclared htext
  | constructed h => exact absurd h (hnot d)
  | replaced h => exact absurd h (hnot _)
  | indexed hn hd => exact .indexed hn hd

end Tree

namespace Program

/-- What the type of the declaration is worked out from leads back to it. -/
def IsCircular (p : Program) (d : NodeId) : Prop := p.tree.IsCircular p.references d

def Constructs (p : Program) (x : NodeId) : Prop :=
  ∀ callee args i, p.tree.kind x = .call callee args →
    p.references.get? callee = some (.constructor i) →
    p.IsCircular i ∨ ∃ d inputs output, i ∈ (Declarations.ofTree p.tree).initializersOf d ∧
      p.types.get? i = some (.function inputs output) ∧
        List.Forall₂ (fun a input => ∃ found, p.types.get? a.2 = some found ∧
          found.compatible input = true) args inputs

/-- A binding gives each variable the type of its part: it is the type that is written down, or else
that of the initial value, which is taken apart. -/
def TakesApart (p : Program) (x : NodeId) : Prop :=
  ∀ q i introducer how sub ascription n ty, p.tree.kind x = .binding q i →
    p.tree.kind q = .bindingPattern introducer how sub ascription →
    ascription.or i = some n → p.types.get? n = some ty → p.tree.Fits sub ty →
    ∀ v a, p.tree.Gives v a sub ty → a ≠ .error → p.types.get? v = some a

structure Lawful (p : Program) (x : NodeId) : Prop where
  accepts : p.Accepts x
  constructs : p.Constructs x
  takesApart : p.TakesApart x

variable {p q : Program} {x : NodeId}

theorem Accepts.lawful (h : p.Accepts x)
    (hcall : ∀ callee args, p.tree.kind x ≠ .call callee args)
    (hbinding : ∀ q i, p.tree.kind x ≠ .binding q i) : p.Lawful x where
  accepts := h
  constructs := fun callee args _ hk => absurd hk (hcall callee args)
  takesApart := fun q i _ _ _ _ _ _ hk => absurd hk (hbinding q i)

theorem Lawful.of_hasRule (h : (p.tree.kind x).hasRule = false) : p.Lawful x :=
  (Accepts.of_hasRule h).lawful (fun _ _ hk => by simp [hk, Kind.hasRule] at h)
    fun _ _ hk => by simp [hk, Kind.hasRule] at h

theorem Lawful.of_isDeclaration (h : p.Accepts x) (hx : (p.tree.kind x).isDeclaration = true)
    (hbinding : (p.tree.kind x).isBinding = false) : p.Lawful x :=
  h.lawful (fun _ _ hk => by simp [hk, Kind.isDeclaration] at hx)
    fun _ _ hk => by simp [hk, Kind.isBinding] at hbinding

theorem Lawful.of_isStmt (h : p.Accepts x) (hx : (p.tree.kind x).isStmt = true) : p.Lawful x :=
  h.lawful (fun _ _ hk => by simp [hk, Kind.isStmt] at hx)
    fun _ _ hk => by simp [hk, Kind.isStmt] at hx

theorem Constructs.stable (h : p.Constructs x) (hpq : Settled p q x) (ht : p.tree.WellFormed)
    (hkeeps : p.tree.KeepsNeeds p.references q.references) : q.Constructs x := by
  intro callee args i hk href
  rw [hpq.tree] at hk
  have hcallee : callee ∈ p.tree.children x := by simp [Tree.children, hk, Kind.children]
  have hexpr : (p.tree.kind callee).isExpr = true :=
    ht.fits x (Kind.isExpr, callee) (by simp [hk, Kind.parts])
  rw [hpq.references callee (Tree.below_child hcallee) (.inl hexpr)] at href
  rcases h callee args i hk href with hcircular | ⟨d, inputs, output, hd, hi, hargs⟩
  · left
    rw [IsCircular, hpq.tree]
    exact Tree.IsCircular.later hcircular hkeeps
  · refine .inr ⟨d, inputs, output, by rwa [hpq.tree], ?_, hpq.arguments ht hk hargs⟩
    exact hpq.decls i _ ((Declarations.sane_ofTree ht).initializersOf hd) hi (by simp)

theorem TakesApart.stable (h : p.TakesApart x) (hpq : Settled p q x) (ht : p.tree.WellFormed) :
    q.TakesApart x := by
  intro b i introducer how sub ascription n ty hk hb hn hty hfits v a hgives herror
  rw [hpq.tree] at hk hb hfits hgives
  have hchild : b ∈ p.tree.children x := by simp [Tree.children, hk, Kind.children]
  have hsame : q.types.get? n = p.types.get? n := by
    cases ascription with
    | some c =>
        cases hn
        have hpart : (Kind.isType, n) ∈ (p.tree.kind b).parts := by simp [hb, Kind.parts]
        exact hpq.types n (.of_child hchild (Tree.below_child (Tree.child_of_part hpart)))
          (.inr ⟨b, introducer, how, sub, hb⟩)
    | none =>
        cases hn
        exact hpq.expr ht rfl (.refl x) (by simp [hk, Kind.parts])
  exact hpq.decls v a (Kind.isDeclaration_of_isVar (Tree.isVar_of_gives ht hgives))
    (h b i introducer how sub ascription n ty hk hb hn (hsame ▸ hty) hfits v a hgives herror)
      fun _ => herror

theorem Lawful.stable (h : p.Lawful x) (hpq : Settled p q x) (ht : p.tree.WellFormed)
    (hkeeps : p.tree.KeepsNeeds p.references q.references) : q.Lawful x :=
  ⟨h.accepts.stable hpq ht, h.constructs.stable hpq ht hkeeps, h.takesApart.stable hpq ht⟩

end Program

end LanguageService
