import LanguageService.Check.Expr
import LanguageService.Proofs.Collected

/-!
What makes a reference right: it stands at a name, a type name or an operator, and leads to
something of that spelling that somebody has written, or from a type that is called to one of its
initializers.
-/
namespace LanguageService

namespace Kind

def spelled : Kind → Option String
  | name _ x => some x.text
  | nameType x => some x.text
  | binary _ op _ => some op.text
  | _ => none

def Offers (w : String) : Kind → Prop
  | name _ _ => w ∈ Check.builtinFunctions ∨ (Builtin.ofWord w).isSome = true
  | nameType _ => (Builtin.ofWord w).isSome = true
  | binary _ _ _ => ∃ a b c, Check.builtinOperator w a b = some c
  | _ => False

def isExplicitInit : Kind → Bool
  | init _ _ _ memberwise => !memberwise
  | _ => false

def members : Kind → List NodeId
  | product _ _ _ ms _ => ms
  | trait _ _ ms => ms
  | extension _ _ ms => ms
  | conformance _ _ _ ms => ms
  | _ => []

end Kind

/-- An initializer of a type: its memberwise one, or one that is declared in it, or in an extension
or a conformance that is filed under it. -/
inductive Tree.Initializes (t : Tree) (extended : Table Owner) (ty i : NodeId) : Prop
  | memberwise {introducer : Site} {x : Name} {gs ms : List NodeId}
      (hty : t.kind ty = .product introducer x gs ms (some i))
  | declared (hi : i ∈ (t.kind ty).members) (hinit : (t.kind i).isExplicitInit = true)
  | extended {ext : NodeId} (hext : extended.get? ext = some (.decl ty))
      (hi : i ∈ (t.kind ext).members) (hinit : (t.kind i).isExplicitInit = true)

namespace Tree

def IsImplied (t : Tree) (d : NodeId) : Prop :=
  ∃ i introducer ps body, t.kind i = .init introducer ps body true ∧ d ∈ ps

variable {t : Tree} (ht : t.WellFormed) {d : NodeId}

include ht

theorem not_isImplied (hd : (t.kind d).isParameter = false) : ¬ t.IsImplied d := by
  rintro ⟨i, introducer, ps, body, hk, hmem⟩
  have hparameter := ht.fits i (Kind.isParameter, d) (by simp [hk, Kind.parts, hmem])
  simp [hd] at hparameter

theorem not_isImplied_of_child {p : NodeId} (hd : (t.kind d).isMember = true)
    (hp : p ∈ t.children d) : ¬ t.IsImplied p := by
  rintro ⟨i, introducer, ps, body, hk, hmem⟩
  obtain rfl := ht.parent_unique d i p hp (by simp [children, hk, Kind.children, hmem])
  simp [hk, Kind.isMember] at hd

theorem Initializes.exists_init {extended : Table Owner} {ty i : NodeId}
    (h : t.Initializes extended ty i) :
    ∃ introducer ps body synthesized, t.kind i = .init introducer ps body synthesized := by
  cases h with
  | memberwise hty =>
      obtain ⟨introducer, ps, synthesized, hk⟩ := Kind.exists_of_isMemberwise
        (ht.fits ty (Kind.isMemberwise, i) (by simp [hty, Kind.parts]))
      exact ⟨introducer, ps, none, synthesized, hk⟩
  | declared _ hinit | extended _ _ hinit =>
      cases hk : t.kind i with
      | init introducer ps body synthesized => exact ⟨introducer, ps, body, synthesized, rfl⟩
      | _ => simp [hk, Kind.isExplicitInit] at hinit

end Tree

def Reference.InText (t : Tree) : Reference → Prop
  | .direct d | .member d => ¬ t.IsImplied d
  | _ => True

namespace Program

def Points (p : Program) (n : NodeId) : Reference → Prop
  | .direct d | .member d =>
      ∃ x, (p.tree.kind n).spelled = some x ∧ (p.tree.kind d).declared = some x
  | .constructor i => ∃ domain x call args ty, p.tree.kind n = .name domain x ∧
      p.tree.kind call = .call n args ∧ p.types.get? n = some (.metatype (.product ty)) ∧
      (p.tree.kind ty).isProduct = true ∧
      p.tree.Initializes (Declarations.ofTree p.tree).extended ty i
  | .builtin w => (p.tree.kind n).spelled = some w ∧ (p.tree.kind n).Offers w

variable {p q : Program} {n : NodeId} {r : Reference}

theorem Points.later (h : p.Points n r) (htree : q.tree = p.tree)
    (htype : ∀ i, r = .constructor i → q.types.get? n = p.types.get? n) : q.Points n r := by
  cases r with
  | direct d => simpa only [Points, htree] using h
  | member d => simpa only [Points, htree] using h
  | builtin w => simpa only [Points, htree] using h
  | constructor i => simpa only [Points, htree, htype i rfl] using h

end Program

end LanguageService
