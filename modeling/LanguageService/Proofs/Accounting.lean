import LanguageService.Proofs.Visits
import Mathlib.Data.List.Nodup

/-!
Visits account for all that is collected of a program. A scope is reached if it is a module, or if
it is opened by a direct member of one that is reached, and just the members of such scopes are
visited: those of modules and of what they contain first, and then those of one extension after
another.
-/
namespace LanguageService

namespace Declarations

inductive Reached (t : Tree) (ds : Declarations) : NodeId → Prop where
  | module {m : NodeId} (hm : m ∈ t.modules) : Reached t ds m
  | member {n m : NodeId} (hn : Reached t ds n) (hm : m ∈ t.membersOf n)
      (hs : (scopeOf t ds m).isSome = true) : Reached t ds m

structure Expected (t : Tree) (ds : Declarations) (v : Visit) : Prop where
  reached : Reached t ds v.owner
  member : v.member ∈ t.membersOf v.owner
  scope : scopeOf t ds v.owner = some v.scope

structure Tallies (t : Tree) (vs : List Visit) (ds : Declarations) : Prop where
  entries : ds.entries = vs.flatMap (Visit.names t)
  initializers : ds.initializers = vs.flatMap (Visit.initializers t)
  subscripts : ds.subscripts = vs.flatMap (Visit.subscripts t)
  stored : ds.stored = vs.flatMap (Visit.stored t)
  visited : ∀ v ∈ vs, ds.parents.get? v.member ≠ none
  held : ∀ d p, ds.parents.get? d = some p → t.Holds p d
  pending : ∀ e ∈ ds.pending, ∃ v ∈ vs, v.member = e ∧ (t.kind e).waits = true

/-- Visits account for all that has been collected: only what is expected has been visited, once,
and of what has been visited just the extensions that wait have members that have not been. -/
structure Accounts (t : Tree) (vs : List Visit) (ds : Declarations) : Prop
    extends Tallies t vs ds where
  apart : vs.Pairwise fun v w => v.member ≠ w.member
  expected : ∀ v ∈ vs, Expected t ds v
  listed : ds.modules = t.modules
  modules : ∀ (place : Nat) (m : NodeId), t.modules[place]? = some m →
    ((t.membersOf m).map (Visit.mk m (.module place))).Sublist vs
  closed : ∀ v ∈ vs, v.member ∉ ds.pending → ∀ s, scopeOf t ds v.member = some s →
    ((t.membersOf v.member).map (Visit.mk v.member s)).Sublist vs

variable {t : Tree} {ds ds' : Declarations} {vs vs' : List Visit} {n d e : NodeId} {s : Scope}
  {v : Visit}

section Scopes

theorem scopeOf_of_opened? (h : t.opened? d = some s) : scopeOf t ds d = some s := by
  rw [Tree.opened?] at h
  rw [scopeOf]
  cases hk : t.kind d <;> simp_all

theorem scopeOf_of_waits (h : (t.kind d).waits = true) :
    scopeOf t ds d = (ds.extended.get? d).map .type := by
  rw [scopeOf]
  cases hk : t.kind d <;> simp_all [Kind.waits]

theorem scopeOf_of_isModule (h : t.isModule d = true) :
    scopeOf t ds d = (ds.modules.idxOf? d).map .module := by
  rw [scopeOf]
  cases hk : t.kind d <;> simp_all [Tree.isModule]

theorem idxOf?_eq_some {ms : List NodeId} (hnodup : ms.Nodup) {place m : Nat}
    (hm : ms[place]? = some m) : ms.idxOf? m = some place := by
  obtain ⟨hlt, rfl⟩ := List.getElem?_eq_some_iff.mp hm
  refine List.idxOf?_eq_some_iff.mpr ⟨hlt, rfl, fun j hj heq => ?_⟩
  exact absurd (hnodup.getElem_inj_iff.mp heq) (Nat.ne_of_lt hj)

theorem scopeOf_of_place (h : t.Parsed) (hlisted : ds.modules = t.modules) {place m : Nat}
    (hm : t.modules[place]? = some m) : scopeOf t ds m = some (.module place) := by
  rw [scopeOf_of_isModule (h.isModule (List.mem_of_getElem? hm)).1, hlisted,
    idxOf?_eq_some h.wellFormed.modules_nodup hm]
  rfl

theorem opened?_or_of_scopeOf (h : scopeOf t ds d = some s) :
    t.opened? d = some s ∨ (t.kind d).waits = true ∨ t.isModule d = true := by
  rw [scopeOf] at h
  rw [Tree.opened?, Tree.isModule]
  cases hk : t.kind d <;> simp_all [Kind.waits]

theorem Reached.mono (h : Reached t ds n)
    (hkeep : ∀ d s, scopeOf t ds d = some s → scopeOf t ds' d = some s) : Reached t ds' n := by
  induction h with
  | module hm => exact .module hm
  | member _ hm hs ih =>
      obtain ⟨s, hs⟩ := Option.isSome_iff_exists.mp hs
      exact .member ih hm (by rw [hkeep _ s hs]; rfl)

theorem Expected.mono (h : Expected t ds v)
    (hkeep : ∀ d s, scopeOf t ds d = some s → scopeOf t ds' d = some s) : Expected t ds' v :=
  ⟨h.reached.mono hkeep, h.member, hkeep _ _ h.scope⟩

theorem Expected.of_mem_visitsAt {fuel : Nat} {owner : NodeId} (h : Expected t ds ⟨owner, s, d⟩)
    (hv : v ∈ visitsAt t fuel owner s d) : Expected t ds v := by
  refine forall_mem_visitsAt (P := Expected t ds) (fun v h inner hinner m hm => ?_) h v hv
  have hscope : scopeOf t ds v.member = some inner := scopeOf_of_opened? hinner
  exact ⟨.member h.reached h.member (by rw [hscope]; rfl), hm, hscope⟩

end Scopes

section Modules

theorem modules_visits (t : Tree) (vs : List Visit) (ds : Declarations) :
    (vs.foldl (visit t) ds).modules = ds.modules := by
  have hparents (p : NodeId) (ds : Declarations) (is : List NodeId) :
      (setParents p ds is).modules = ds.modules :=
    List.foldlRecOn (motive := fun ds' : Declarations => ds'.modules = ds.modules) is _ rfl
      fun _ h _ _ => h
  refine List.foldlRecOn (motive := fun ds' : Declarations => ds'.modules = ds.modules) vs _ rfl
    fun ds' h v _ => ?_
  rw [visit, hparents, declare_eq]
  exact h

def moduleVisits (t : Tree) (m : NodeId × Nat) : List Visit :=
  visits t m.1 (.module m.2) (t.membersOf m.1)

theorem collectModule_eq {m : NodeId} (hm : t.isModule m = true) (ds : Declarations) :
    collectModule t ds m =
      { (moduleVisits t (m, ds.modules.length)).foldl (visit t) ds with
        modules := ds.modules ++ [m] } := by
  cases hk : t.kind m with
  | module name us =>
      have hmembers : t.membersOf m = us.flatMap (declsOfUnit t) := by rw [Tree.membersOf, hk]
      rw [collectModule, hk]
      simp only [collect_eq, modules_visits, moduleVisits, hmembers]
  | _ => simp [Tree.isModule, hk] at hm

theorem holds_of_mem_visits {owner : NodeId} (hv : v ∈ visits t owner s (t.membersOf owner)) :
    t.Holds v.owner v.member := by
  obtain ⟨i, hi, hv⟩ := List.mem_flatMap.mp hv
  exact .inl (mem_membersOf_of_mem_visitsAt hi hv)

theorem gains_collectModule {m : NodeId} (hm : t.isModule m = true) (ds : Declarations) :
    Gains t (moduleVisits t (m, ds.modules.length)) ds (collectModule t ds m) := by
  have hgains : Gains t _ ds ((moduleVisits t (m, ds.modules.length)).foldl (visit t) ds) :=
    gains_visits (fun v hv => holds_of_mem_visits hv) ds
  rw [collectModule_eq hm]
  exact ⟨hgains.extended, hgains.entries, hgains.initializers, hgains.subscripts, hgains.stored,
    hgains.pending, hgains.parents, hgains.seen, hgains.visited⟩

theorem gains_modules {ms : List NodeId} (hms : ∀ m ∈ ms, t.isModule m = true)
    (ds : Declarations) :
    Gains t ((ms.zipIdx ds.modules.length).flatMap (moduleVisits t)) ds
        (ms.foldl (collectModule t) ds) ∧
      (ms.foldl (collectModule t) ds).modules = ds.modules ++ ms := by
  induction ms generalizing ds with
  | nil => exact ⟨.refl ds, (List.append_nil _).symm⟩
  | cons m ms ih =>
      rw [List.forall_mem_cons] at hms
      have hmodules : (collectModule t ds m).modules = ds.modules ++ [m] := by
        rw [collectModule_eq hms.1]
      obtain ⟨hgains, hrest⟩ := ih hms.2 (collectModule t ds m)
      rw [hmodules, List.length_append, List.length_singleton] at hgains
      rw [List.zipIdx_cons, List.flatMap_cons, List.foldl_cons]
      exact ⟨(gains_collectModule hms.1 ds).trans hgains, by rw [hrest, hmodules, List.append_assoc,
        List.singleton_append]⟩

variable (ht : t.WellFormed)

include ht

theorem below_of_mem_visits {owner : NodeId} (hv : v ∈ visits t owner s (t.membersOf owner)) :
    t.Below owner v.member := by
  obtain ⟨i, hi, hv⟩ := List.mem_flatMap.mp hv
  exact (Tree.below_of_mem_membersOf ht hi).trans (below_of_mem_visitsAt ht hv)

theorem flatMap_moduleVisits_pairwise {ms : List (NodeId × Nat)}
    (hms : ∀ m ∈ ms, t.isModule m.1 = true) (hnodup : ms.Pairwise fun m m' => m.1 ≠ m'.1) :
    (ms.flatMap (moduleVisits t)).Pairwise fun v w => v.member ≠ w.member := by
  refine List.pairwise_flatMap.mpr ⟨fun m _ => visits_pairwise ht (Tree.membersOf_pairwise ht m.1),
    hnodup.imp_of_mem fun {m m'} hm hm' hne v hv w hw heq => ?_⟩
  have hv := below_of_mem_visits ht hv
  have hw := below_of_mem_visits ht hw
  rw [← heq] at hw
  have houtside {a b : NodeId} (hb : t.isModule b = true) (hab : t.Below a b) : b = a := by
    cases hk : t.kind b with
    | module name us => exact Tree.eq_of_below_module ht hk hab
    | _ => simp [Tree.isModule, hk] at hb
  rcases hv.linear ht hw with hbelow | hbelow
  · exact hne (houtside (hms m' hm') hbelow).symm
  · exact hne (houtside (hms m hm) hbelow)

end Modules

section Accounting

theorem mem_pending_iff {pending : List NodeId} {x : NodeId} :
    x ∈ pending ++ vs.flatMap (Visit.waiting t) ↔
      x ∈ pending ∨ ∃ v ∈ vs, v.member = x ∧ (t.kind v.member).waits = true := by
  rw [List.mem_append, List.mem_flatMap]
  refine or_congr_right ⟨?_, ?_⟩
  · rintro ⟨v, hv, hx⟩
    rw [Visit.waiting] at hx
    split at hx
    · next hwaits => exact ⟨v, hv, (List.mem_singleton.mp hx).symm, hwaits⟩
    · cases hx
  · rintro ⟨v, hv, rfl, hwaits⟩
    exact ⟨v, hv, by simp [Visit.waiting, hwaits]⟩

theorem scopeOf_congr (hmodules : ds'.modules = ds.modules)
    (hextended : ds'.extended.get? d = ds.extended.get? d) :
    scopeOf t ds' d = scopeOf t ds d := by
  rw [scopeOf, scopeOf, hmodules, hextended]

theorem expected_of_mem_visits {owner : NodeId} (hreached : Reached t ds owner)
    (hscope : scopeOf t ds owner = some s) (hv : v ∈ visits t owner s (t.membersOf owner)) :
    Expected t ds v := by
  obtain ⟨i, hi, hv⟩ := List.mem_flatMap.mp hv
  exact .of_mem_visitsAt ⟨hreached, hi, hscope⟩ hv

theorem Gains.not_waits (h : Gains t vs ds ds') (hv : v ∈ vs) (hnot : v.member ∉ ds'.pending) :
    (t.kind v.member).waits = false := by
  rw [h.pending, mem_pending_iff, not_or] at hnot
  by_contra hwaits
  exact hnot.2 ⟨v, hv, rfl, by simpa using hwaits⟩

theorem tallies_empty : Tallies t [] empty := by
  constructor <;> simp [empty]

theorem Tallies.gains (h : Tallies t vs ds) (hgains : Gains t vs' ds ds') :
    Tallies t (vs ++ vs') ds' where
  entries := by rw [hgains.entries, h.entries, List.flatMap_append]
  initializers := by rw [hgains.initializers, h.initializers, List.flatMap_append]
  subscripts := by rw [hgains.subscripts, h.subscripts, List.flatMap_append]
  stored := by rw [hgains.stored, h.stored, List.flatMap_append]
  visited := fun v hv => (List.mem_append.mp hv).elim
    (fun hv => hgains.seen _ (h.visited v hv)) (hgains.visited v)
  held := fun d p hp => (hgains.parents d p hp).elim (h.held d p) id
  pending := by
    intro x hx
    rw [hgains.pending, mem_pending_iff] at hx
    rcases hx with hx | ⟨v, hv, rfl, hwaits⟩
    · obtain ⟨v, hv, hx⟩ := h.pending x hx
      exact ⟨v, List.mem_append_left _ hv, hx⟩
    · exact ⟨v, List.mem_append_right _ hv, rfl, hwaits⟩

theorem Tallies.pop {rest : List NodeId} (h : Tallies t vs ds) (hpending : ds.pending = e :: rest)
    (filed : Table Owner) : Tallies t vs { ds with pending := rest, extended := filed } :=
  ⟨h.entries, h.initializers, h.subscripts, h.stored, h.visited, h.held,
    fun x hx => h.pending x (hpending ▸ List.mem_cons_of_mem e hx)⟩

theorem Accounts.pop {rest : List NodeId} (h : Accounts t vs ds)
    (hpending : ds.pending = e :: rest) (hnone : scopeOf t ds e = none) :
    Accounts t vs { ds with pending := rest } where
  toTallies := h.toTallies.pop hpending ds.extended
  apart := h.apart
  expected := fun v hv => (h.expected v hv).mono fun _ _ hs => hs
  listed := h.listed
  modules := h.modules
  closed := by
    intro v hv hwaits s hs
    have hne : v.member ≠ e := by
      rintro rfl
      exact absurd (hnone.symm.trans hs) (by simp)
    exact h.closed v hv (by simp [hpending, hne, hwaits]) s hs

variable (ht : t.WellFormed)

include ht

theorem closed_visits {owner : NodeId} {inner : Scope}
    (hv : v ∈ visits t owner s (t.membersOf owner)) (hwaits : (t.kind v.member).waits = false)
    (hinner : scopeOf t ds v.member = some inner) :
    ((t.membersOf v.member).map (Visit.mk v.member inner)).Sublist
      (visits t owner s (t.membersOf owner)) := by
  rcases opened?_or_of_scopeOf hinner with hopened | hwaiting | hmodule
  · exact members_sublist_visits ht (fun i hi => Tree.lt_size_of_mem_membersOf ht hi) hv hopened
  · simp [hwaits] at hwaiting
  · obtain ⟨i, hi, hvi⟩ := List.mem_flatMap.mp hv
    have hmember := mem_membersOf_of_mem_visitsAt hi hvi
    simp [Tree.isModule_of_mem_membersOf ht hmember] at hmodule

theorem Accounts.file {rest : List NodeId} (h : Accounts t vs ds) (hready : Ready t ds)
    (hpending : ds.pending = e :: rest) (hwaits : (t.kind e).waits = true) (o : Owner) :
    Accounts t (vs ++ visits t e (.type o) (t.membersOf e))
      ((visits t e (.type o) (t.membersOf e)).foldl (visit t)
        { ds with pending := rest, extended := ds.extended.insert e o }) := by
  have hgains := gains_visits (t := t)
    (fun v (hv : v ∈ visits t e (.type o) (t.membersOf e)) => holds_of_mem_visits hv)
    { ds with pending := rest, extended := ds.extended.insert e o }
  have hmodules := modules_visits t (visits t e (.type o) (t.membersOf e))
    { ds with pending := rest, extended := ds.extended.insert e o }
  generalize List.foldl _ _ _ = ds' at hgains hmodules
  have he : e ∈ ds.pending := by simp [hpending]
  have hsame (d : NodeId) (hd : d ≠ e) : scopeOf t ds' d = scopeOf t ds d := by
    refine scopeOf_congr hmodules ?_
    rw [hgains.extended, Table.get?_insert, if_neg (Ne.symm hd)]
  have hfiled : scopeOf t ds' e = some (.type o) := by
    rw [scopeOf_of_waits hwaits, hgains.extended, Table.get?_insert, if_pos rfl]
    rfl
  have hkeep (d : NodeId) (s : Scope) (hs : scopeOf t ds d = some s) :
      scopeOf t ds' d = some s := by
    rw [hsame d, hs]
    rintro rfl
    rw [scopeOf_of_waits hwaits, hready.filed.unfiled d he] at hs
    cases hs
  have hreached : Reached t ds' e := by
    obtain ⟨v, hv, rfl, -⟩ := h.pending e he
    have hexpected := (h.expected v hv).mono hkeep
    exact .member hexpected.reached hexpected.member (by rw [hfiled]; rfl)
  refine ⟨(h.toTallies.pop hpending _).gains hgains, ?_, ?_, hmodules.trans h.listed, ?_, ?_⟩
  · refine List.pairwise_append.mpr ⟨h.apart,
      visits_pairwise ht (Tree.membersOf_pairwise ht e), fun v hv w hw heq => ?_⟩
    -- What stands in an extension that waits has not been visited.
    obtain ⟨m, hm, hw⟩ := List.mem_flatMap.mp hw
    have hmodule : t.isModule e = false := by
      cases hk : t.kind e <;> simp_all [Kind.waits, Tree.isModule]
    have hunseen := hready.filed.unseen e he m ((Tree.membersOf_sublist hmodule).subset hm)
      w.member (below_of_mem_visitsAt ht hw)
    exact h.visited v hv (heq ▸ hunseen)
  · intro v hv
    rcases List.mem_append.mp hv with hv | hv
    · exact (h.expected v hv).mono hkeep
    · exact expected_of_mem_visits hreached hfiled hv
  · exact fun place m hm => (h.modules place m hm).trans (List.sublist_append_left _ _)
  · intro v hv hnot s hs
    rcases List.mem_append.mp hv with hv | hv
    · by_cases hne : v.member = e
      · rw [hne] at hs ⊢
        obtain rfl := Option.some.inj (hfiled.symm.trans hs)
        exact (map_sublist_visits _).trans (List.sublist_append_right _ _)
      · rw [hsame _ hne] at hs
        refine (h.closed v hv ?_ s hs).trans (List.sublist_append_left _ _)
        rw [hgains.pending, List.mem_append, not_or] at hnot
        simpa [hpending, hne] using hnot.1
    · exact (closed_visits ht hv (hgains.not_waits hv hnot) hs).trans
        (List.sublist_append_right _ _)

theorem Accounts.settle {rest : List NodeId} (h : Accounts t vs ds) (hready : Ready t ds)
    (htracked : Tracked t ds) (hpending : ds.pending = e :: rest) :
    ∃ vs', Accounts t vs' (settle t ds e rest) := by
  obtain ⟨-, -, -, hwaits⟩ := h.pending e (by simp [hpending])
  have hmembers : (t.kind e).members = t.membersOf e := by
    rw [Tree.membersOf]
    cases hk : t.kind e <;> simp_all [Kind.waits, Kind.members]
  obtain ⟨n, hn⟩ : ∃ n, (t.kind e).subject? = some n := by
    cases hk : t.kind e <;> simp_all [Kind.waits, Kind.subject?]
  rw [Declarations.settle, hn]
  dsimp only
  rw [collectExtension, subjectOwner_pop ht hready htracked hpending e n]
  cases subjectOwner t ds e n with
  | none =>
      refine ⟨vs, h.pop hpending ?_⟩
      rw [scopeOf_of_waits hwaits, hready.filed.unfiled e (by simp [hpending])]
      rfl
  | some o =>
      dsimp only
      rw [collect_eq, hmembers]
      exact ⟨_, h.file ht hready hpending hwaits o⟩

theorem Accounts.collectPending (h : Accounts t vs ds) (hready : Ready t ds)
    (htracked : Tracked t ds) (fuel : Nat) : ∃ vs', Accounts t vs' (collectPending t fuel ds) := by
  induction fuel generalizing ds vs with
  | zero => exact ⟨vs, h⟩
  | succ fuel ih =>
      cases hpending : ds.pending with
      | nil =>
          rw [Declarations.collectPending, hpending]
          exact ⟨vs, h⟩
      | cons e rest =>
          obtain ⟨vs', h'⟩ := h.settle ht hready htracked hpending
          have hsettles := settles ht hready htracked hpending
          rw [collectPending_cons hpending]
          exact ih h' hsettles.ready (htracked.settles hsettles)

end Accounting

theorem accounts_modules (h : t.Parsed) :
    Accounts t (t.modules.zipIdx.flatMap (moduleVisits t))
      (t.modules.foldl (collectModule t) empty) := by
  have ht := h.wellFormed
  have hisModule (m : NodeId) (hm : m ∈ t.modules) : t.isModule m = true := (h.isModule hm).1
  obtain ⟨hgains, hmodules⟩ := gains_modules hisModule empty
  change Gains t (t.modules.zipIdx.flatMap (moduleVisits t)) _ _ at hgains
  change _ = t.modules at hmodules
  generalize t.modules.foldl (collectModule t) empty = ds at hgains hmodules
  have hplace {m : NodeId × Nat} (hm : m ∈ t.modules.zipIdx) : t.modules[m.2]? = some m.1 :=
    List.mem_zipIdx_iff_getElem?.mp hm
  have hwithin {m : NodeId × Nat} (hm : m ∈ t.modules.zipIdx) :
      (moduleVisits t m).Sublist (t.modules.zipIdx.flatMap (moduleVisits t)) :=
    List.sublist_flatten_of_mem (List.mem_map_of_mem hm)
  refine ⟨tallies_empty.gains hgains, ?_, fun v hv => ?_, hmodules, fun place m hm => ?_,
    fun v hv hnot s hs => ?_⟩
  · refine flatMap_moduleVisits_pairwise ht (fun m hm => ?_) (List.pairwise_map.mp ?_)
    · exact hisModule m.1 (List.mem_of_getElem? (hplace hm))
    · rw [List.zipIdx_map_fst]
      exact ht.modules_nodup
  · obtain ⟨m, hm, hv⟩ := List.mem_flatMap.mp hv
    exact expected_of_mem_visits (.module (List.mem_of_getElem? (hplace hm)))
      (scopeOf_of_place h hmodules (hplace hm)) hv
  · have hm : (m, place) ∈ t.modules.zipIdx := List.mk_mem_zipIdx_iff_getElem?.mpr hm
    exact (map_sublist_visits _).trans (hwithin hm)
  · obtain ⟨m, hm, hvm⟩ := List.mem_flatMap.mp hv
    exact (closed_visits ht hvm (hgains.not_waits hv hnot) hs).trans (hwithin hm)

theorem exists_accounts (h : t.Parsed) : ∃ vs, Accounts t vs (ofTree t) := by
  have ht := h.wellFormed
  exact (accounts_modules h).collectPending ht (ready_modules ht) (gathers_modules ht).toTracked _

end Declarations

end LanguageService
