import LanguageService.Proofs.BoundVars
import LanguageService.Proofs.NameTables
import Mathlib.Data.List.Perm.Subperm

namespace LanguageService

namespace Declarations

variable {t : Tree} {ds ds' : Declarations} {vs vs' : List Visit} {n d e : NodeId} {s : Scope}
  {v : Visit}

section Complete

variable (haccounts : Accounts t vs (ofTree t)) (h : t.Parsed)

include haccounts h

theorem Accounts.exists_scope (hn : Reached t (ofTree t) n) :
    ∃ s, scopeOf t (ofTree t) n = some s := by
  cases hn with
  | module hm =>
      obtain ⟨place, hplace⟩ := List.getElem?_of_mem hm
      exact ⟨.module place, scopeOf_of_place h haccounts.listed hplace⟩
  | member _ _ hs => exact Option.isSome_iff_exists.mp hs

theorem Accounts.members_sublist (hn : Reached t (ofTree t) n)
    (hs : scopeOf t (ofTree t) n = some s) : ((t.membersOf n).map (Visit.mk n s)).Sublist vs := by
  induction hn generalizing s with
  | module hm =>
      obtain ⟨place, hplace⟩ := List.getElem?_of_mem hm
      obtain rfl := Option.some.inj ((scopeOf_of_place h haccounts.listed hplace).symm.trans hs)
      exact haccounts.modules place _ hplace
  | @member p m hp hm _ ih =>
      obtain ⟨outer, houter⟩ := haccounts.exists_scope h hp
      have hvisited : (⟨p, outer, m⟩ : Visit) ∈ vs :=
        (ih houter).subset (List.mem_map_of_mem hm)
      exact haccounts.closed _ hvisited (by simp [pending_ofTree h.wellFormed]) s hs

theorem Accounts.mem_iff : v ∈ vs ↔ Expected t (ofTree t) v := by
  refine ⟨haccounts.expected v, fun hv => ?_⟩
  exact (haccounts.members_sublist h hv.reached hv.scope).subset
    (List.mem_map.mpr ⟨v.member, hv.member, rfl⟩)

theorem Accounts.parent (hn : Reached t (ofTree t) n) (hd : d ∈ t.membersOf n) :
    (ofTree t).parents.get? d = some n := by
  obtain ⟨s, hs⟩ := haccounts.exists_scope h hn
  have hvisited := haccounts.visited ⟨n, s, d⟩ ((haccounts.mem_iff h).mpr ⟨hn, hd, hs⟩)
  obtain ⟨p, hp⟩ := Option.ne_none_iff_exists'.mp hvisited
  rw [hp, (haccounts.held d p hp).unique h.wellFormed (.inl hd)]

theorem Accounts.filter_owner (hn : Reached t (ofTree t) n)
    (hs : scopeOf t (ofTree t) n = some s) :
    vs.filter (fun v => v.owner = n) = (t.membersOf n).map (Visit.mk n s) := by
  have hsub : ((t.membersOf n).map (Visit.mk n s)).Sublist
      (vs.filter fun v => v.owner = n) := by
    have hfilter := (haccounts.members_sublist h hn hs).filter fun v => v.owner = n
    rwa [List.filter_eq_self.mpr (by simp)] at hfilter
  refine (hsub.eq_of_length_le (List.Nodup.subperm ?_ fun v hv => ?_).length_le).symm
  · exact (haccounts.apart.filter _).imp fun hne heq => hne (congrArg Visit.member heq)
  · obtain ⟨hvisited, rfl⟩ : v ∈ vs ∧ v.owner = n := by simpa using hv
    have hexpected := haccounts.expected v hvisited
    refine List.mem_map.mpr ⟨v.member, hexpected.member, ?_⟩
    rw [← Option.some.inj (hexpected.scope.symm.trans hs)]

end Complete

section Declared

theorem kind_of_mem_membersOf (ht : t.WellFormed) (hd : d ∈ t.membersOf n) :
    (t.kind d).isMember = true ∨ (t.kind d).isMemberwise = true := by
  rw [Tree.membersOf] at hd
  cases hk : t.kind n with
  | module name us =>
      simp only [hk] at hd
      obtain ⟨u, -, hd⟩ := List.mem_flatMap.mp hd
      rw [declsOfUnit] at hd
      split at hd
      · next hu => exact .inl (ht.fits u (Kind.isMember, d) (by simp [hu, Kind.parts, hd]))
      · cases hd
  | product i x gs ms memberwise =>
      simp only [hk, List.mem_append] at hd
      rcases hd with hd | hd
      · exact .inl (ht.fits n (Kind.isMember, d) (by simp [hk, Kind.parts, hd]))
      · exact .inr (ht.fits n (Kind.isMemberwise, d)
          (by simp [hk, Kind.parts, Option.mem_toList.mp hd]))
  | space i x ms | trait i x ms | extension i x ms | conformance i x ts ms =>
      simp only [hk] at hd
      exact .inl (ht.fits n (Kind.isMember, d) (by simp [hk, Kind.parts, hd]))
  | _ => simp [hk] at hd

theorem isVar_of_mem_membersOf (ht : t.WellFormed) (hd : d ∈ t.membersOf n) :
    (t.kind d).isVar = false := by
  rcases kind_of_mem_membersOf ht hd with hk | hk <;>
    cases h : t.kind d <;> simp_all [Kind.isMember, Kind.isMemberwise, Kind.isVar]

variable {m x : NodeId}

theorem mem_declaredBy_iff (ht : t.WellFormed) {y : String} (hy : (t.kind x).declared = some y) :
    x ∈ t.declaredBy m ↔ x = m ∨ t.Binds m x := by
  cases hm : t.kind m with
  | binding p i =>
      have hne : x ≠ m := by
        rintro rfl
        simp [hm, Kind.declared, Kind.declares] at hy
      rw [Tree.declaredBy, hm, Tree.binds_iff ht hm, or_iff_right hne]
  | _ =>
      have hnot : ¬ t.Binds m x := by
        rintro ⟨p, i, hb, -⟩
        simp [hm] at hb
      rw [Tree.declaredBy_of_isBinding (by rw [hm]; rfl), List.mem_singleton, or_iff_left hnot]

theorem declaredBy_nodup (ht : t.WellFormed) (m : NodeId) : (t.declaredBy m).Nodup := by
  rw [Tree.declaredBy]
  split
  · exact Tree.patternVars_nodup ht _
  · exact List.nodup_singleton m

theorem declaredBy_unique (ht : t.WellFormed) {m' : NodeId} (hm : (t.kind m).isVar = false)
    (hm' : (t.kind m').isVar = false) (hx : x ∈ t.declaredBy m) (hx' : x ∈ t.declaredBy m') :
    m = m' := by
  have hbound {m : NodeId} (hx : x ∈ t.declaredBy m) : x = m ∨ (t.kind x).isVar = true ∧
      (t.kind m).isBinding = true ∧ t.Below m x := by
    rw [Tree.declaredBy] at hx
    split at hx
    · next p i hk =>
        obtain ⟨q, j, hq, hbelow, hvar⟩ := (Tree.binds_iff ht hk).mpr hx
        refine .inr ⟨hvar, by rw [hk]; rfl, .of_child ?_ hbelow⟩
        simp [Tree.children, hq, Kind.children]
    · exact .inl (List.mem_singleton.mp hx)
  rcases hbound hx with rfl | ⟨hvar, hb, hbelow⟩ <;>
    rcases hbound hx' with rfl | ⟨hvar', hb', hbelow'⟩
  · rfl
  · simp [hm] at hvar'
  · simp [hm'] at hvar
  · exact Tree.binding_unique ht hb hb' hbelow hbelow'

end Declared

section Lookups

variable {κ : Type} {i : NodeId}

section

variable [DecidableEq κ] {k : κ} {es : List (κ × NodeId)}

theorem mem_lookup : i ∈ es.filterMap (fun e => if e.1 = k then some e.2 else none) ↔
    (k, i) ∈ es := by
  simp only [List.mem_filterMap, Option.ite_none_right_eq_some, Option.some.injEq]
  constructor
  · rintro ⟨e, he, rfl, rfl⟩
    exact he
  · exact fun h => ⟨_, h, rfl, rfl⟩

theorem nodup_lookup (h : (es.map (·.2)).Nodup) :
    (es.filterMap fun e => if e.1 = k then some e.2 else none).Nodup := by
  refine List.pairwise_filterMap.mpr ((List.pairwise_map.mp h).imp fun hne i hi j hj => ?_)
  simp only [Option.ite_none_right_eq_some, Option.some.injEq] at hi hj
  rw [← hi.2, ← hj.2]
  exact hne

end

theorem nodup_flatMap {f : Visit → List (κ × NodeId)}
    (hapart : vs.Pairwise fun v w => v.member ≠ w.member)
    (hf : ∀ v ∈ vs, ((f v).map (·.2)).Nodup ∧ ∀ e ∈ f v, e.2 = v.member) :
    ((vs.flatMap f).map (·.2)).Nodup := by
  rw [List.map_flatMap]
  refine List.pairwise_flatMap.mpr ⟨fun v hv => (hf v hv).1,
    hapart.imp_of_mem fun hv hw hne i hi j hj => ?_⟩
  obtain ⟨e, he, rfl⟩ := List.mem_map.mp hi
  obtain ⟨e', he', rfl⟩ := List.mem_map.mp hj
  rw [(hf _ hv).2 e he, (hf _ hw).2 e' he']
  exact hne

theorem mem_initializers {ty : NodeId} : (ty, i) ∈ v.initializers t ↔
    v.scope = .type (.decl ty) ∧ i = v.member ∧ (t.kind v.member).isInit = true := by
  rw [Visit.initializers]
  cases v.scope with
  | type o => cases o <;> cases t.kind v.member <;> simp [Kind.isInit, eq_comm]
  | _ => simp

theorem mem_subscripts {o : Owner} : (o, i) ∈ v.subscripts t ↔
    v.scope = .type o ∧ i = v.member ∧ (t.kind v.member).isSubscript = true := by
  rw [Visit.subscripts]
  cases v.scope with
  | type o => cases t.kind v.member <;> simp [Kind.isSubscript, eq_comm]
  | _ => simp

theorem nodup_initializers (hapart : vs.Pairwise fun v w => v.member ≠ w.member) :
    ((vs.flatMap (Visit.initializers t)).map (·.2)).Nodup := by
  refine nodup_flatMap hapart fun v _ => ⟨?_, fun e he => (mem_initializers.mp he).2.1⟩
  rw [Visit.initializers]
  split <;> simp

theorem nodup_subscripts (hapart : vs.Pairwise fun v w => v.member ≠ w.member) :
    ((vs.flatMap (Visit.subscripts t)).map (·.2)).Nodup := by
  refine nodup_flatMap hapart fun v _ => ⟨?_, fun e he => (mem_subscripts.mp he).2.1⟩
  rw [Visit.subscripts]
  split <;> simp

def varsOf (t : Tree) (m : NodeId) : List NodeId :=
  match t.kind m with
  | .binding p _ => t.patternVars p
  | _ => []

theorem mem_varsOf (ht : t.WellFormed) {m x : NodeId} : x ∈ varsOf t m ↔ t.Binds m x := by
  rw [varsOf]
  split
  · next p j hk => exact (Tree.binds_iff ht hk).symm
  · next hnot =>
      refine iff_of_false List.not_mem_nil ?_
      rintro ⟨p, j, hk, -⟩
      exact hnot p j hk

theorem stored_lookup (hv : Expected t ds v) {ty : NodeId} :
    (v.stored t).filterMap (fun e => if e.1 = ty then some e.2 else none) =
      if v.owner = ty ∧ (t.kind v.owner).isProduct = true then varsOf t v.member else [] := by
  have hscope := hv.scope
  rw [Visit.stored]
  cases hk : t.kind v.owner with
  | product i x gs ms memberwise =>
      obtain hs : v.scope = .type (.decl v.owner) := by
        rw [scopeOf, hk] at hscope
        exact (Option.some.inj hscope).symm
      rw [hs, varsOf]
      cases hm : t.kind v.member <;> by_cases hty : v.owner = ty <;>
        simp [Kind.isProduct, hty, List.filterMap_map]
  | _ =>
      rw [if_neg (by simp [Kind.isProduct])]
      split <;> simp_all

end Lookups

section Complete

variable (haccounts : Accounts t vs (ofTree t)) (h : t.Parsed)

include haccounts h

theorem Accounts.mem_entries {e : Entry} : e ∈ (ofTree t).entries ↔
    ∃ n m, Reached t (ofTree t) n ∧ scopeOf t (ofTree t) n = some e.scope ∧ m ∈ t.membersOf n ∧
      (e.decl = m ∨ t.Binds m e.decl) ∧ (t.kind e.decl).declared = some e.name := by
  rw [haccounts.entries, List.mem_flatMap]
  constructor
  · rintro ⟨v, hv, he⟩
    obtain ⟨hscope, hdecl, hname⟩ := mem_names.mp he
    have hexpected := haccounts.expected v hv
    exact ⟨v.owner, v.member, hexpected.reached, hscope ▸ hexpected.scope, hexpected.member,
      (mem_declaredBy_iff h.wellFormed hname).mp hdecl, hname⟩
  · rintro ⟨n, m, hn, hs, hm, hdecl, hname⟩
    refine ⟨⟨n, e.scope, m⟩, (haccounts.mem_iff h).mpr ⟨hn, hm, hs⟩, mem_names.mpr ⟨rfl, ?_, hname⟩⟩
    exact (mem_declaredBy_iff h.wellFormed hname).mpr hdecl

theorem Accounts.entries_nodup : ((ofTree t).entries.map (·.decl)).Nodup := by
  have ht := h.wellFormed
  rw [haccounts.entries, List.map_flatMap]
  refine List.pairwise_flatMap.mpr ⟨fun v _ => ?_,
    haccounts.apart.imp_of_mem fun {v w} hv hw hne x hx y hy heq => ?_⟩
  · refine List.pairwise_map.mpr (List.pairwise_filterMap.mpr ?_)
    refine (declaredBy_nodup ht v.member).imp fun hne e he e' he' => ?_
    obtain ⟨y, -, rfl⟩ := Option.map_eq_some_iff.mp he
    obtain ⟨y', -, rfl⟩ := Option.map_eq_some_iff.mp he'
    exact hne
  · obtain ⟨e, he, rfl⟩ := List.mem_map.mp hx
    obtain ⟨e', he', rfl⟩ := List.mem_map.mp hy
    refine hne (declaredBy_unique ht ?_ ?_ (mem_names.mp he).2.1 (heq ▸ (mem_names.mp he').2.1))
    · exact isVar_of_mem_membersOf ht (haccounts.expected v hv).member
    · exact isVar_of_mem_membersOf ht (haccounts.expected w hw).member

theorem Accounts.initializersOf (ty : NodeId) : ((ofTree t).initializersOf ty).Nodup ∧
    ∀ i, i ∈ (ofTree t).initializersOf ty ↔ ∃ n, Reached t (ofTree t) n ∧
      scopeOf t (ofTree t) n = some (.type (.decl ty)) ∧ i ∈ t.membersOf n ∧
        (t.kind i).isInit = true := by
  rw [Declarations.initializersOf]
  refine ⟨nodup_lookup (by rw [haccounts.initializers]; exact nodup_initializers haccounts.apart),
    fun i => ?_⟩
  rw [mem_lookup, haccounts.initializers, List.mem_flatMap]
  constructor
  · rintro ⟨v, hv, hi⟩
    obtain ⟨hscope, rfl, hinit⟩ := mem_initializers.mp hi
    have hexpected := haccounts.expected v hv
    exact ⟨v.owner, hexpected.reached, hscope ▸ hexpected.scope, hexpected.member, hinit⟩
  · rintro ⟨n, hn, hs, hi, hinit⟩
    exact ⟨⟨n, _, i⟩, (haccounts.mem_iff h).mpr ⟨hn, hi, hs⟩,
      mem_initializers.mpr ⟨rfl, rfl, hinit⟩⟩

theorem Accounts.subscriptsOf (o : Owner) : ((ofTree t).subscriptsOf o).Nodup ∧
    ∀ i, i ∈ (ofTree t).subscriptsOf o ↔ ∃ n, Reached t (ofTree t) n ∧
      scopeOf t (ofTree t) n = some (.type o) ∧ i ∈ t.membersOf n ∧
        (t.kind i).isSubscript = true := by
  rw [Declarations.subscriptsOf]
  refine ⟨nodup_lookup (by rw [haccounts.subscripts]; exact nodup_subscripts haccounts.apart),
    fun i => ?_⟩
  rw [mem_lookup, haccounts.subscripts, List.mem_flatMap]
  constructor
  · rintro ⟨v, hv, hi⟩
    obtain ⟨hscope, rfl, hsubscript⟩ := mem_subscripts.mp hi
    have hexpected := haccounts.expected v hv
    exact ⟨v.owner, hexpected.reached, hscope ▸ hexpected.scope, hexpected.member, hsubscript⟩
  · rintro ⟨n, hn, hs, hi, hsubscript⟩
    exact ⟨⟨n, _, i⟩, (haccounts.mem_iff h).mpr ⟨hn, hi, hs⟩,
      mem_subscripts.mpr ⟨rfl, rfl, hsubscript⟩⟩

omit haccounts h in
theorem flatMap_ite {α β : Type} (p : α → Prop) [DecidablePred p] (g : α → List β) (l : List α) :
    (l.flatMap fun a => if p a then g a else []) = (l.filter fun a => p a).flatMap g := by
  induction l with
  | nil => rfl
  | cons a l ih => by_cases hp : p a <;> simp [hp, ih]

theorem Accounts.storedOf_eq (hd : Reached t (ofTree t) d)
    (hproduct : (t.kind d).isProduct = true) :
    (ofTree t).storedOf d = (t.membersOf d).flatMap (varsOf t) := by
  have hscope : scopeOf t (ofTree t) d = some (.type (.decl d)) := by
    rw [scopeOf]
    cases hk : t.kind d <;> simp_all [Kind.isProduct]
  calc (ofTree t).storedOf d
      = vs.flatMap fun v => (v.stored t).filterMap fun e => if e.1 = d then some e.2 else none := by
        rw [Declarations.storedOf, haccounts.stored, List.filterMap_flatMap]
    _ = vs.flatMap fun v => if v.owner = d then varsOf t v.member else [] := by
        rw [List.flatMap_def, List.flatMap_def]
        refine congrArg List.flatten (List.map_congr_left fun v hv => ?_)
        rw [stored_lookup (haccounts.expected v hv)]
        by_cases howner : v.owner = d <;> simp [howner, hproduct]
    _ = (t.membersOf d).flatMap (varsOf t) := by
        rw [flatMap_ite, haccounts.filter_owner h hd hscope, List.flatMap_map]

omit haccounts in
theorem flatMap_varsOf_nodup (d : NodeId) : ((t.membersOf d).flatMap (varsOf t)).Nodup := by
  have ht := h.wellFormed
  refine List.pairwise_flatMap.mpr ⟨fun m _ => ?_,
    (Tree.membersOf_pairwise ht d).imp fun hapart x hx y hy heq => ?_⟩
  · rw [varsOf]
    split
    · exact Tree.patternVars_nodup ht _
    · exact .nil
  · exact hapart x ⟨((mem_varsOf ht).mp hx).below, heq ▸ ((mem_varsOf ht).mp hy).below⟩

omit haccounts in
theorem exists_unit_of_isProduct (hproduct : (t.kind d).isProduct = true) :
    ∃ u ∈ t.units, t.Below u d := by
  have hlt : d < t.size := by
    by_contra hge
    simp [Tree.kind, Tree.get?_eq_none t (Nat.le_of_not_lt hge), Kind.isProduct] at hproduct
  refine h.reached hlt ?_
  cases hk : t.kind d <;> simp_all [Kind.isProduct, Tree.isModule]

omit haccounts in
theorem flatMap_varsOf_members {i : Site} {x : Name} {gs ms : List NodeId}
    {memberwise : Option NodeId} (hk : t.kind d = .product i x gs ms memberwise) :
    (t.membersOf d).flatMap (varsOf t) = ms.flatMap (varsOf t) := by
  have hlast : memberwise.toList.flatMap (varsOf t) = [] := by
    refine List.flatMap_eq_nil_iff.mpr fun m hm => ?_
    obtain ⟨_, _, _, hinit⟩ := Kind.exists_of_isMemberwise
      (h.wellFormed.fits d (Kind.isMemberwise, m)
        (by simp [hk, Kind.parts, Option.mem_toList.mp hm]))
    rw [varsOf, hinit]
  rw [Tree.membersOf, hk]
  dsimp only
  rw [List.flatMap_append, hlast, List.append_nil]

omit haccounts in
theorem flatMap_varsOf_precedes (hproduct : (t.kind d).isProduct = true) :
    ((t.membersOf d).flatMap (varsOf t)).Pairwise t.Precedes := by
  have ht := h.wellFormed
  cases hk : t.kind d with
  | product i x gs ms memberwise =>
      obtain ⟨u, hu, hd⟩ := exists_unit_of_isProduct h hproduct
      have hms : ms.Sublist (t.children d) := by simp [Tree.children, hk, Kind.children]
      rw [flatMap_varsOf_members h hk]
      have hbelow {m : NodeId} (hm : m ∈ ms) : t.Below u m :=
        hd.trans (Tree.below_child (hms.subset hm))
      refine Tree.flatMap_precedes h hu hd hms (fun m hm => ?_) (fun m hm x hx => ?_) fun m hm => ?_
      · exact Tree.own_of_part h hu hd (by rw [hk]; rfl) (by simp [hk, Kind.pieces, hm])
      · have hbinds := (mem_varsOf ht).mp hx
        exact ⟨hbinds.below, Tree.own_of_binds h hu (hbelow hm) hbinds⟩
      · rw [varsOf]
        split
        · next p i hb =>
            refine Tree.patternVars_precedes h hu ((hbelow hm).trans (Tree.below_child ?_))
            simp [Tree.children, hb, Kind.children]
        · exact .nil
  | _ => simp [hk, Kind.isProduct] at hproduct

end Complete

/-- No declaration is lost, and none is declared twice: all that is declared is what the members of
reached scopes declare. -/
structure Complete (t : Tree) (ds : Declarations) : Prop where
  scopes : ∀ n, Reached t ds n → ∃ s, scopeOf t ds n = some s
  names : ∀ e, e ∈ ds.entries ↔ ∃ n m, Reached t ds n ∧ scopeOf t ds n = some e.scope ∧
    m ∈ t.membersOf n ∧ (e.decl = m ∨ t.Binds m e.decl) ∧ (t.kind e.decl).declared = some e.name
  once : (ds.entries.map (·.decl)).Nodup
  initializers : ∀ ty, (ds.initializersOf ty).Nodup ∧ ∀ i, i ∈ ds.initializersOf ty ↔
    ∃ n, Reached t ds n ∧ scopeOf t ds n = some (.type (.decl ty)) ∧ i ∈ t.membersOf n ∧
      (t.kind i).isInit = true
  subscripts : ∀ o, (ds.subscriptsOf o).Nodup ∧ ∀ i, i ∈ ds.subscriptsOf o ↔
    ∃ n, Reached t ds n ∧ scopeOf t ds n = some (.type o) ∧ i ∈ t.membersOf n ∧
      (t.kind i).isSubscript = true
  stored : ∀ d, Reached t ds d → (t.kind d).isProduct = true → (ds.storedOf d).Nodup ∧
    (ds.storedOf d).Pairwise t.Precedes ∧
      ∀ x, x ∈ ds.storedOf d ↔ ∃ m ∈ t.membersOf d, t.Binds m x
  parents : ∀ n, Reached t ds n → ∀ m ∈ t.membersOf n, ds.parents.get? m = some n

theorem complete_ofTree (h : t.Parsed) : Complete t (ofTree t) := by
  obtain ⟨vs, haccounts⟩ := exists_accounts h
  refine ⟨fun n => haccounts.exists_scope h, fun e => haccounts.mem_entries h,
    haccounts.entries_nodup h, haccounts.initializersOf h, haccounts.subscriptsOf h,
    fun d hd hproduct => ?_, fun n hn m hm => haccounts.parent h hn hm⟩
  rw [haccounts.storedOf_eq h hd hproduct]
  refine ⟨flatMap_varsOf_nodup h d, flatMap_varsOf_precedes h hproduct, fun x => ?_⟩
  simp only [List.mem_flatMap, mem_varsOf h.wellFormed]

section Tables

variable (hsame : Same ds ds')

include hsame

theorem Same.reached_iff : Reached t ds' n ↔ Reached t ds n :=
  ⟨fun h => h.mono fun d _ hs => (hsame.scopeOf_eq d).symm.trans hs,
    fun h => h.mono fun d _ hs => (hsame.scopeOf_eq d).trans hs⟩

theorem Same.perm_entries : ds'.entries.Perm ds.entries := by
  refine List.perm_iff_count.mpr fun e => ?_
  have htable (ds : Declarations) : (ds.tableOf e.scope).count e = ds.entries.count e :=
    List.count_filter (by simp)
  rw [← htable, ← htable, hsame.tables]

theorem Complete.of_same (h : Complete t ds) : Complete t ds' := by
  have hinitializers := hsame.field Declarations.initializers fun _ => rfl
  have hsubscripts := hsame.field Declarations.subscripts fun _ => rfl
  have hstored := hsame.field Declarations.stored fun _ => rfl
  constructor
  · simpa only [hsame.reached_iff, hsame.scopeOf_eq] using h.scopes
  · simpa only [hsame.reached_iff, hsame.scopeOf_eq, hsame.perm_entries.mem_iff] using h.names
  · exact (hsame.perm_entries.map _).nodup_iff.mpr h.once
  · simpa only [hsame.reached_iff, hsame.scopeOf_eq, Declarations.initializersOf, hinitializers]
      using h.initializers
  · simpa only [hsame.reached_iff, hsame.scopeOf_eq, Declarations.subscriptsOf, hsubscripts]
      using h.subscripts
  · simpa only [hsame.reached_iff, storedOf, hstored] using h.stored
  · simpa only [hsame.reached_iff, hsame.parents] using h.parents

end Tables

/-- However names are kept, every member of a scope that is reached is declared in it, once, and
nothing else is. -/
theorem members_declared (h : t.Parsed) : Complete t (ofTree t) ∧ Complete t (inTables t) ∧
    ∀ s, (inTables t).tableOf s = (ofTree t).tableOf s :=
  have hsame := same_inTables h.wellFormed
  ⟨complete_ofTree h, (complete_ofTree h).of_same hsame, hsame.tables⟩

/-- A document with scopes in scopes, and extensions in extensions, of a type, of a built-in type,
and of none. -/
def shopDocument : File :=
  .document "file:///main.orca" "
    namespace Shop \x7b
      trait Priced \x7b type Unit; fun price() -> Unit \x7d
      type Item \x7b
        var (a, b) = (1, 2)
        let c = 3
        subscript at(i: Int): Int \x7b return a \x7d
      \x7d
      extension Item \x7b
        init(n: Int) \x7b return \x7d
        extension Item \x7b let rate = 4 \x7d
      \x7d
    \x7d
    extension Int \x7b fun next() -> Int \x7b return self \x7d \x7d
    extension Gone \x7b let lost = 5 \x7d"

set_option maxRecDepth 4000 in
theorem shopDocument_declared : ∃ t, Tree.parseModule .empty "main" [shopDocument] = .ok t ∧
    (ofTree t).entries.map (·.name) =
      ["Shop", "Priced", "Unit", "price", "Item", "a", "b", "c", "at", "next", "rate"] ∧
    (ofTree t).initializersOf 30 = [29, 36] ∧ (ofTree t).storedOf 30 = [4, 6, 14] ∧
    Complete t (ofTree t) ∧ Complete t (inTables t) ∧
      ∀ s, (inTables t).tableOf s = (ofTree t).tableOf s := by
  have hrun : ((Tree.parseModule .empty "main" [shopDocument]).toOption.any fun t =>
      decide ((ofTree t).entries.map (·.name) =
        ["Shop", "Priced", "Unit", "price", "Item", "a", "b", "c", "at", "next", "rate"]) &&
      (decide ((ofTree t).initializersOf 30 = [29, 36]) &&
        decide ((ofTree t).storedOf 30 = [4, 6, 14]))) = true := by
    rw [Tree.parseModule, Tree.parseUnits, Tree.parseUnit, Layout.ofFile_of_text shopDocument rfl]
    decide +kernel
  cases hparse : Tree.parseModule .empty "main" [shopDocument] with
  | error e =>
      rw [hparse] at hrun
      simp [Except.toOption] at hrun
  | ok t =>
      rw [hparse] at hrun
      simp only [Except.toOption, Option.any_some, Bool.and_eq_true, decide_eq_true_eq] at hrun
      exact ⟨t, rfl, hrun.1, hrun.2.1, hrun.2.2, members_declared (.module .empty hparse)⟩

end Declarations

end LanguageService
