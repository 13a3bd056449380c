import LanguageService.Proofs.NameSites
import Mathlib.Data.List.Nodup

namespace LanguageService.Tree

def Binds (t : Tree) (b x : NodeId) : Prop :=
  ∃ p i, t.kind b = .binding p i ∧ t.Below p x ∧ (t.kind x).isVar = true

def Precedes (t : Tree) (x y : NodeId) : Prop := (t.site x).stop ≤ (t.site y).start

variable {t : Tree} {p x : NodeId}

theorem Binds.below {b : NodeId} (h : t.Binds b x) : t.Below b x := by
  obtain ⟨p, i, hb, hx, -⟩ := h
  exact .of_child (by simp [children, hb, Kind.children]) hx

section Patterns

variable (ht : t.WellFormed)

include ht

theorem below_of_mem_patternVars (hx : x ∈ t.patternVars p) : t.Below p x := by
  induction p using Nat.strongRecOn with
  | ind p ih =>
      have hchild {q : NodeId} (hq : q ∈ t.children p) (hx : x ∈ t.patternVars q) : t.Below p x :=
        .of_child hq (ih q (ht.child_lt p q hq) hx)
      rw [patternVars_eq ht] at hx
      cases hk : t.kind p with
      | bindingPattern i how sub a =>
          exact hchild (q := sub) (by simp [children, hk, Kind.children]) (by simpa [hk] using hx)
      | namePattern v =>
          obtain rfl : x = v := by simpa [hk] using hx
          exact below_child (by simp [children, hk, Kind.children])
      | tuplePattern es =>
          simp only [hk] at hx
          obtain ⟨q, hq, hx⟩ := List.mem_flatMap.mp hx
          exact hchild (by simpa [children, hk, Kind.children] using hq) hx
      | _ => simp [hk] at hx

theorem mem_patternVars_of_below (hp : (t.kind p).isBindingPattern = true ∨
    (t.kind p).isPattern = true) (hx : t.Below p x) (hvar : (t.kind x).isVar = true) :
    x ∈ t.patternVars p := by
  induction p using Nat.strongRecOn with
  | ind p ih =>
      have hne : x ≠ p := by
        rintro rfl
        cases hk : t.kind x <;> simp_all [Kind.isVar, Kind.isBindingPattern, Kind.isPattern]
      obtain ⟨c, hc, hcx⟩ := (below_iff.mp hx).resolve_left hne
      have hlt := ht.child_lt p c hc
      obtain ⟨f, hf, hkind⟩ := kind_of_child ht hc
      rw [patternVars_eq ht]
      cases hk : t.kind p with
      | bindingPattern i how sub a =>
          rw [hk, Kind.parts, List.mem_cons] at hf
          rcases hf with hf | hf
          · obtain ⟨rfl, rfl⟩ := Prod.mk.inj hf
            exact ih c hlt (.inr hkind) hcx
          · obtain ⟨b, -, hb⟩ := List.mem_map.mp hf
            obtain ⟨rfl, rfl⟩ := Prod.mk.inj hb
            simp [Kind.isVar_of_isType (isType_of_below ht hkind hcx)] at hvar
      | namePattern v =>
          obtain rfl : c = v := by simpa [children, hk, Kind.children] using hc
          rcases below_iff.mp hcx with rfl | ⟨d, hd, -⟩
          · simp
          · have hv : (t.kind c).isVar = true :=
              ht.fits p (Kind.isVar, c) (by simp [hk, Kind.parts])
            obtain ⟨g, hg, -⟩ := kind_of_child ht hd
            simp [Kind.parts_of_isVar hv] at hg
      | tuplePattern es =>
          have hes : c ∈ es := by simpa [children, hk, Kind.children] using hc
          have hpattern : (t.kind c).isPattern = true :=
            ht.fits p (Kind.isPattern, c) (by simp [hk, Kind.parts, hes])
          exact List.mem_flatMap.mpr ⟨c, hes, ih c hlt (.inr hpattern) hcx⟩
      | wildcard => simp [children, hk, Kind.children] at hc
      | _ => simp [hk, Kind.isBindingPattern, Kind.isPattern] at hp

theorem patternVars_nodup (p : NodeId) : (t.patternVars p).Nodup := by
  induction p using Nat.strongRecOn with
  | ind p ih =>
      have hchild {q : NodeId} (hq : q ∈ t.children p) : (t.patternVars q).Nodup :=
        ih q (ht.child_lt p q hq)
      rw [patternVars_eq ht]
      cases hk : t.kind p with
      | bindingPattern i how sub a => exact hchild (by simp [children, hk, Kind.children])
      | namePattern v => exact List.nodup_singleton v
      | tuplePattern es =>
          have hes := children_pairwise ht p
          rw [children, hk, Kind.children] at hes
          refine List.pairwise_flatMap.mpr ⟨fun q hq => ?_, hes.imp fun hapart x hx y hy heq => ?_⟩
          · exact hchild (by simpa [children, hk, Kind.children] using hq)
          · exact hapart x ⟨below_of_mem_patternVars ht hx, heq ▸ below_of_mem_patternVars ht hy⟩
      | _ => exact .nil

theorem binds_iff {b : NodeId} {i : Option NodeId} (hb : t.kind b = .binding p i) :
    t.Binds b x ↔ x ∈ t.patternVars p := by
  have hpattern : (t.kind p).isBindingPattern = true :=
    ht.fits b (Kind.isBindingPattern, p) (by simp [hb, Kind.parts])
  constructor
  · rintro ⟨q, j, hq, hx, hvar⟩
    obtain ⟨rfl, rfl⟩ := Kind.binding.inj (hb.symm.trans hq)
    exact mem_patternVars_of_below ht (.inl hpattern) hx hvar
  · exact fun hx => ⟨p, i, hb, below_of_mem_patternVars ht hx, isVar_of_mem_patternVarsAt ht hx⟩

end Patterns

section Places

variable (h : t.Parsed) {u : NodeId} (hu : u ∈ t.units)

include h hu

theorem own_of_mem_patternVars (hp : t.Below u p) (hx : x ∈ t.patternVars p) :
    t.isSynthesized x = false := by
  induction p using Nat.strongRecOn with
  | ind p ih =>
      have hchild {q : NodeId} (hq : q ∈ t.children p) (hx : x ∈ t.patternVars q) :
          t.isSynthesized x = false :=
        ih q (h.wellFormed.child_lt p q hq) (hp.trans (below_child hq)) hx
      rw [patternVars_eq h.wellFormed] at hx
      cases hk : t.kind p with
      | bindingPattern i how sub a =>
          exact hchild (q := sub) (by simp [children, hk, Kind.children]) (by simpa [hk] using hx)
      | namePattern v =>
          obtain rfl : x = v := by simpa [hk] using hx
          exact own_of_part h hu hp (by rw [hk]; rfl) (by simp [hk, Kind.pieces])
      | tuplePattern es =>
          simp only [hk] at hx
          obtain ⟨q, hq, hx⟩ := List.mem_flatMap.mp hx
          exact hchild (by simpa [children, hk, Kind.children] using hq) hx
      | _ => simp [hk] at hx

theorem own_of_binds {b : NodeId} (hb : t.Below u b) (hx : t.Binds b x) :
    t.isSynthesized x = false := by
  obtain ⟨p, i, hk, -⟩ := id hx
  refine own_of_mem_patternVars h hu (hb.trans (below_child ?_)) ((binds_iff h.wellFormed hk).mp hx)
  simp [children, hk, Kind.children]

theorem precedes_of_below {n c c' y : NodeId} (hn : t.Below u n) (hc : c ∈ t.children n)
    (hc' : c' ∈ t.children n) (hparts : t.Precedes c c') (hx : t.Below c x) (hy : t.Below c' y)
    (hxown : t.isSynthesized x = false) (hyown : t.isSynthesized y = false) :
    t.Precedes x y := by
  have hinside := includes_of_below h hu (hn.trans (below_child hc)) hx hxown
  have hinside' := includes_of_below h hu (hn.trans (below_child hc')) hy hyown
  exact Nat.le_trans hinside.stop (Nat.le_trans hparts hinside'.start)

theorem flatMap_precedes {n : NodeId} {cs : List NodeId} {f : NodeId → List NodeId}
    (hn : t.Below u n) (hcs : cs.Sublist (t.children n))
    (hown : ∀ c ∈ cs, t.isSynthesized c = false)
    (hbelow : ∀ c ∈ cs, ∀ x ∈ f c, t.Below c x ∧ t.isSynthesized x = false)
    (hrec : ∀ c ∈ cs, (f c).Pairwise t.Precedes) : (cs.flatMap f).Pairwise t.Precedes := by
  have hparts : cs.Pairwise t.Precedes := by
    have hordered := (placed_of_below h hu hn).toNests.ordered
    refine hordered.sublist ?_
    have hfilter := hcs.filter (!t.isSynthesized ·)
    rwa [List.filter_eq_self.mpr fun c hc => by simp [hown c hc]] at hfilter
  refine List.pairwise_flatMap.mpr ⟨hrec, hparts.imp_of_mem fun hc hc' hcc x hx y hy => ?_⟩
  exact precedes_of_below h hu hn (hcs.subset hc) (hcs.subset hc') hcc (hbelow _ hc x hx).1
    (hbelow _ hc' y hy).1 (hbelow _ hc x hx).2 (hbelow _ hc' y hy).2

theorem patternVars_precedes (hp : t.Below u p) : (t.patternVars p).Pairwise t.Precedes := by
  induction p using Nat.strongRecOn with
  | ind p ih =>
      have hchild {q : NodeId} (hq : q ∈ t.children p) : (t.patternVars q).Pairwise t.Precedes :=
        ih q (h.wellFormed.child_lt p q hq) (hp.trans (below_child hq))
      rw [patternVars_eq h.wellFormed]
      cases hk : t.kind p with
      | bindingPattern i how sub a =>
          exact hchild (by simp [children, hk, Kind.children])
      | namePattern v => exact List.pairwise_singleton _ v
      | tuplePattern es =>
          have hes : es = t.children p := by rw [children, hk, Kind.children]
          refine flatMap_precedes h hu hp (by rw [hes]) (fun q hq => ?_) (fun q hq x hx => ?_)
            fun q hq => hchild (hes ▸ hq)
          · exact own_of_part h hu hp (by rw [hk]; rfl) (by simp [hk, Kind.pieces, hq])
          · exact ⟨below_of_mem_patternVars h.wellFormed hx,
              own_of_mem_patternVars h hu (hp.trans (below_child (hes ▸ hq))) hx⟩
      | _ => exact .nil

end Places

end LanguageService.Tree
