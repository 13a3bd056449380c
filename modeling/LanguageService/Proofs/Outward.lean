import LanguageService.Proofs.LexicalTypes
import LanguageService.Proofs.StoredVariables
import LanguageService.Proofs.TrackingDecl

/-!
What is found in a scope stands outside of bodies: it is a member, or a variable that a member
binds, and then it is known which member that is.
-/
namespace LanguageService

namespace Declarations

variable {t : Tree} {ds : Declarations}

structure Bounded (t : Tree) (ds : Declarations) : Prop where
  binds : ∀ x b, ds.bindings.get? x = some b → t.Binds b x
  bound : ∀ b, ds.parents.get? b ≠ none → ∀ x, t.Binds b x → ds.bindings.get? x ≠ none

theorem get?_bound (ht : t.WellFormed) (v : Visit) (bindings : Table NodeId) (x : NodeId) :
    t.Binds v.member x ∧ (v.bound t bindings).get? x = some v.member ∨
      ¬ t.Binds v.member x ∧ (v.bound t bindings).get? x = bindings.get? x := by
  have hinsert (b : NodeId) (xs : List NodeId) : ∀ bindings : Table NodeId,
      (xs.foldl (fun bindings x => bindings.insert x b) bindings).get? x =
        if x ∈ xs then some b else bindings.get? x := by
    induction xs with
    | nil => simp
    | cons y xs ih =>
        intro bindings
        rw [List.foldl_cons, ih, Table.get?_insert]
        by_cases hx : x ∈ xs <;> by_cases hy : y = x <;> simp [hx, hy, eq_comm (a := x)]
  unfold Visit.bound
  split
  · next p i hb =>
      rw [hinsert, Tree.binds_iff ht hb]
      by_cases hx : x ∈ t.patternVars p <;> simp [hx]
  · next hnot =>
      refine .inr ⟨?_, rfl⟩
      rintro ⟨p, i, hb, -⟩
      exact hnot p i hb

theorem Bounded.visit (ht : t.WellFormed) (h : Bounded t ds) (v : Visit) :
    Bounded t (visit t ds v) := by
  have hbindings : (Declarations.visit t ds v).bindings = v.bound t ds.bindings := by
    rw [Declarations.visit, setParents, declare_eq]
    exact List.foldlRecOn (motive := fun ds : Declarations => ds.bindings = _) _ _ rfl
      fun _ h _ _ => h
  constructor
  · intro x b hx
    rw [hbindings] at hx
    rcases get?_bound ht v ds.bindings x with ⟨hbinds, hnew⟩ | ⟨-, hold⟩
    · rwa [← Option.some.inj (hnew.symm.trans hx)]
    · exact h.binds x b (hold.symm.trans hx)
  · intro b hb x hx
    rw [hbindings]
    rcases get?_bound ht v ds.bindings x with ⟨-, hnew⟩ | ⟨hnot, hold⟩
    · simp [hnew]
    · rw [hold]
      refine h.bound b ?_ x hx
      rw [get?_visit] at hb
      split at hb
      · next hsignature =>
          obtain ⟨f, hf, hpart⟩ := Kind.part_of_signature hsignature
          obtain ⟨p, i, hk, -⟩ := hx
          have hsort := ht.fits _ _ hpart
          simp only [Kind.signatureSorts, List.mem_cons, List.not_mem_nil, or_false] at hf
          rcases hf with rfl | rfl | rfl <;>
            simp [hk, Kind.isGeneric, Kind.isParameter, Kind.isVariant] at hsort
      · split at hb
        · next heq => exact absurd (heq ▸ hx) hnot
        · exact hb

theorem bounded_ofTree (ht : t.WellFormed) : Bounded t (ofTree t) :=
  ofTree_induction ⟨by simp [empty], by simp [empty]⟩ (fun _ v h => h.visit ht v)
    fun _ _ _ _ h => ⟨h.binds, h.bound⟩

variable {vs : List Visit}

theorem Accounts.bound (haccounts : Accounts t vs (ofTree t)) (ht : t.WellFormed) {v : Visit}
    (hv : v ∈ vs) {x : NodeId} (hx : t.Binds v.member x) : (ofTree t).bindings.get? x ≠ none :=
  (bounded_ofTree ht).bound v.member (haccounts.visited v hv) x hx

theorem Accounts.binds_of_mem_storedOf (haccounts : Accounts t vs (ofTree t)) (ht : t.WellFormed)
    {d x : NodeId} (hx : x ∈ (ofTree t).storedOf d) : ∃ v ∈ vs, t.Binds v.member x := by
  rw [storedOf, haccounts.stored, mem_lookup] at hx
  obtain ⟨v, hv, hx⟩ := List.mem_flatMap.mp hx
  rw [Visit.stored] at hx
  split at hx
  · next p i _ hb =>
      obtain ⟨y, hy, heq⟩ := List.mem_map.mp hx
      refine ⟨v, hv, ?_⟩
      rw [← (Prod.mk.inj heq).2]
      exact (Tree.binds_iff ht hb).mpr hy
  · cases hx

end Declarations

namespace Check

open Declarations

structure Env.Collected (e : Env) : Prop extends Env.Outward e where
  tree : e.tree.WellFormed
  letters : e.tree.Lettered
  sane : e.decls.Sane e.tree
  binds : ∀ v b, e.decls.bindings.get? v = some b → e.tree.Binds b v ∧ ¬ e.tree.IsLocal b

section Collecting

variable {t : Tree} (h : t.Parsed)

include h

theorem outward_ofTree : Env.Outward ⟨t, .ofTree t⟩ := by
  have ht := h.wellFormed
  obtain ⟨vs, haccounts⟩ := exists_accounts h
  have hsane : (ofTree t).Sane t := sane_ofTree ht
  have hmember {v : Visit} (hv : v ∈ vs) : (t.kind v.member).isVar = false :=
    isVar_of_mem_membersOf ht (haccounts.expected v hv).member
  have hvar {x : NodeId} (hx : (t.kind x).isVar = true) : (t.kind x).isBinding = false := by
    cases hk : t.kind x <;> simp_all [Kind.isVar, Kind.isBinding]
  constructor
  · intro s x d hd hsignature
    have hdeclared := (hsane.named hd).1
    rw [mem_named, haccounts.entries] at hd
    obtain ⟨v, hv, hd⟩ := List.mem_flatMap.mp hd
    obtain ⟨-, hd, hname⟩ := mem_names.mp hd
    refine ⟨hsignature, ?_, fun hvar => ?_⟩
    · cases hk : t.kind d <;> simp_all [Kind.isBinding, Kind.declared, Kind.declares]
    · rcases (mem_declaredBy_iff ht hname).mp hd with rfl | hbinds
      · exact absurd hvar (by simp [hmember hv])
      · exact haccounts.bound ht hv hbinds
  · intro ty i hi
    have hsignature := hsane.hasSignature_initializersOf hi
    rw [initializersOf, haccounts.initializers, mem_lookup] at hi
    obtain ⟨v, hv, hi⟩ := List.mem_flatMap.mp hi
    obtain ⟨-, rfl, hinit⟩ := mem_initializers.mp hi
    refine ⟨hsignature, ?_, fun hvar => absurd hvar (by simp [hmember hv])⟩
    cases hk : t.kind v.member <;> simp_all [Kind.isBinding, Kind.isInit]
  · intro o i hi
    have hsignature := hsane.hasSignature_subscriptsOf hi
    rw [subscriptsOf, haccounts.subscripts, mem_lookup] at hi
    obtain ⟨v, hv, hi⟩ := List.mem_flatMap.mp hi
    obtain ⟨-, rfl, hsubscript⟩ := mem_subscripts.mp hi
    refine ⟨hsignature, ?_, fun hvar => absurd hvar (by simp [hmember hv])⟩
    cases hk : t.kind v.member <;> simp_all [Kind.isBinding, Kind.isSubscript]
  · intro ty x hx
    have hsignature := hsane.hasSignature_storedOf hx
    obtain ⟨v, hv, hbinds⟩ := haccounts.binds_of_mem_storedOf ht hx
    obtain ⟨-, -, -, -, hisVar⟩ := id hbinds
    exact ⟨hsignature, hvar hisVar, fun _ => haccounts.bound ht hv hbinds⟩

theorem collected_ofTree : Env.Collected ⟨t, .ofTree t⟩ where
  toOutward := outward_ofTree h
  tree := h.wellFormed
  letters := h.lettered
  sane := sane_ofTree h.wellFormed
  binds := fun v b hb => ⟨(bounded_ofTree h.wellFormed).binds v b hb,
    not_isLocal_of_isMember h.wellFormed ((owned_ofTree h.wellFormed).bindings v b hb).2⟩

end Collecting

end Check

end LanguageService
