import LanguageService.Proofs.Extending
import Mathlib.Data.List.Flatten

/-!
Declarations are collected by visiting the members of one scope after another. What is collected
is what the visits add, each for itself, so that a list of visits accounts for all the tables.
-/
namespace LanguageService

namespace Kind

def signature : Kind → List NodeId
  | product _ _ gs _ _ => gs
  | function _ _ gs ps _ _ => gs ++ ps
  | method _ _ gs ps _ vs => gs ++ ps ++ vs
  | init _ ps _ _ => ps
  | subscript _ _ ps _ _ => ps
  | _ => []

theorem signature_subset (k : Kind) : k.signature ⊆ k.children := by
  cases k with
  | method i x gs ps o vs => simp +contextual [signature, children, List.subset_def, or_imp]
  | _ => simp [signature, children]

end Kind

namespace Tree

/-- The direct members of a node: what is declared in the units of a module, and in a type also
the memberwise initializer. -/
def membersOf (t : Tree) (n : NodeId) : List NodeId :=
  match t.kind n with
  | .module _ us => us.flatMap (Declarations.declsOfUnit t)
  | .space _ _ ms => ms
  | .product _ _ _ ms memberwise => ms ++ memberwise.toList
  | .trait _ _ ms => ms
  | .extension _ _ ms => ms
  | .conformance _ _ _ ms => ms
  | _ => []

def opened? (t : Tree) (d : NodeId) : Option Scope :=
  match t.kind d with
  | .space _ _ _ => some (.space d)
  | .product _ _ _ _ _ => some (.type (.decl d))
  | .trait _ _ _ => some (.type (.decl d))
  | _ => none

def Holds (t : Tree) (p d : NodeId) : Prop := d ∈ t.membersOf p ∨ d ∈ (t.kind p).signature

variable {t : Tree} {n p q d m : NodeId}

theorem membersOf_sublist (hn : t.isModule n = false) :
    (t.membersOf n).Sublist (t.children n) := by
  rw [membersOf, children]
  cases hk : t.kind n <;> simp_all [Kind.children, isModule]

theorem exists_unit_of_mem_membersOf (ht : t.WellFormed) (hn : t.isModule n = true)
    (hm : m ∈ t.membersOf n) :
    ∃ u ∈ t.children n, (t.kind u).isUnit = true ∧ m ∈ t.children u := by
  cases hk : t.kind n with
  | module name us =>
      rw [membersOf, hk] at hm
      obtain ⟨u, hu, hm⟩ := List.mem_flatMap.mp hm
      refine ⟨u, ?_, ht.fits n (Kind.isUnit, u) (by simp [hk, Kind.parts, hu]),
        Declarations.child_of_declsOfUnit hm⟩
      rwa [children, hk, Kind.children]
  | _ => simp [isModule, hk] at hn

theorem below_of_mem_membersOf (ht : t.WellFormed) (hm : m ∈ t.membersOf n) : t.Below n m := by
  cases hn : t.isModule n with
  | false => exact below_child ((membersOf_sublist hn).subset hm)
  | true =>
      obtain ⟨u, hu, -, hmu⟩ := exists_unit_of_mem_membersOf ht hn hm
      exact .of_child hu (below_child hmu)

theorem lt_of_mem_membersOf (ht : t.WellFormed) (hm : m ∈ t.membersOf n) : m < n := by
  cases hn : t.isModule n with
  | false => exact ht.child_lt n m ((membersOf_sublist hn).subset hm)
  | true =>
      obtain ⟨u, hu, -, hmu⟩ := exists_unit_of_mem_membersOf ht hn hm
      exact Nat.lt_trans (ht.child_lt u m hmu) (ht.child_lt n u hu)

theorem lt_size_of_mem_membersOf (ht : t.WellFormed) (hm : m ∈ t.membersOf n) : m < t.size := by
  refine Nat.lt_trans (lt_of_mem_membersOf ht hm) ?_
  cases hn : t.isModule n with
  | false => exact lt_size_of_child ((membersOf_sublist hn).subset hm)
  | true =>
      obtain ⟨u, hu, -, -⟩ := exists_unit_of_mem_membersOf ht hn hm
      exact lt_size_of_child hu

theorem isModule_of_mem_membersOf (ht : t.WellFormed) (hm : m ∈ t.membersOf n) :
    t.isModule m = false := by
  have hlt := lt_of_mem_membersOf ht hm
  cases hk : t.kind m with
  | module name us =>
      rw [eq_of_below_module ht hk (below_of_mem_membersOf ht hm)] at hlt
      exact absurd hlt (Nat.lt_irrefl n)
  | _ => simp [isModule, hk]

theorem membersOf_pairwise (ht : t.WellFormed) (n : NodeId) :
    (t.membersOf n).Pairwise fun c c' => ∀ x, ¬ (t.Below c x ∧ t.Below c' x) := by
  cases hk : t.kind n with
  | module name us =>
      have hunits := children_pairwise ht n
      rw [children, hk, Kind.children] at hunits
      rw [membersOf, hk]
      exact Declarations.declsOfUnits_pairwise ht hunits
  | _ => exact (children_pairwise ht n).sublist (membersOf_sublist (by simp [isModule, hk]))

theorem Holds.child_or (ht : t.WellFormed) (h : t.Holds p d) :
    (t.kind p).isUnit = false ∧ d ∈ t.children p ∨
      ∃ u, u ∈ t.children p ∧ (t.kind u).isUnit = true ∧ d ∈ t.children u := by
  rcases h with hd | hd
  · cases hp : t.isModule p with
    | true =>
        obtain ⟨u, hu⟩ := exists_unit_of_mem_membersOf ht hp hd
        exact .inr ⟨u, hu⟩
    | false =>
        refine .inl ⟨?_, (membersOf_sublist hp).subset hd⟩
        cases hk : t.kind p <;> simp_all [membersOf, Kind.isUnit]
  · refine .inl ⟨?_, Kind.signature_subset _ hd⟩
    cases hk : t.kind p <;> simp_all [Kind.signature, Kind.isUnit]

theorem Holds.unique (ht : t.WellFormed) (h : t.Holds p d) (h' : t.Holds q d) : p = q := by
  rcases h.child_or ht with ⟨hp, hd⟩ | ⟨u, hu, hunit, hd⟩ <;>
    rcases h'.child_or ht with ⟨hq, hd'⟩ | ⟨u', hu', hunit', hd'⟩
  · exact ht.parent_unique _ _ _ hd hd'
  · obtain rfl := ht.parent_unique _ _ _ hd hd'
    simp [hp] at hunit'
  · obtain rfl := ht.parent_unique _ _ _ hd hd'
    simp [hq] at hunit
  · obtain rfl := ht.parent_unique _ _ _ hd hd'
    exact ht.parent_unique _ _ _ hu hu'

end Tree

def Tree.entry? (t : Tree) (s : Scope) (d : NodeId) : Option Entry :=
  (t.kind d).declared.map fun x => ⟨s, x, d⟩

namespace Declarations

structure Visit where
  owner : NodeId
  scope : Scope
  member : NodeId

namespace Visit

variable (t : Tree) (v : Visit)

def names : List Entry := (t.declaredBy v.member).filterMap (t.entry? v.scope)

def initializers : List (NodeId × NodeId) :=
  match v.scope, t.kind v.member with
  | .type (.decl ty), .init _ _ _ _ => [(ty, v.member)]
  | _, _ => []

def subscripts : List (Owner × NodeId) :=
  match v.scope, t.kind v.member with
  | .type o, .subscript _ _ _ _ _ => [(o, v.member)]
  | _, _ => []

def stored : List (NodeId × NodeId) :=
  match v.scope, t.kind v.owner, t.kind v.member with
  | .type (.decl ty), .product _ _ _ _ _, .binding p _ => (t.patternVars p).map fun x => (ty, x)
  | _, _, _ => []

def waiting : List NodeId := if (t.kind v.member).waits then [v.member] else []

def bound (bindings : Table NodeId) : Table NodeId :=
  match t.kind v.member with
  | .binding p _ => (t.patternVars p).foldl (fun bindings x => bindings.insert x v.member) bindings
  | _ => bindings

end Visit

def visit (t : Tree) (ds : Declarations) (v : Visit) : Declarations :=
  setParents v.member (declare t v.owner v.scope (setParent v.owner ds v.member) v.member)
    (t.kind v.member).signature

def visitsAt (t : Tree) : Nat → NodeId → Scope → NodeId → List Visit
  | 0, _, _, _ => []
  | fuel + 1, owner, s, d =>
      ⟨owner, s, d⟩ ::
        match t.opened? d with
        | some inner => (t.membersOf d).flatMap (visitsAt t fuel d inner)
        | none => []

def visits (t : Tree) (owner : NodeId) (s : Scope) (is : List NodeId) : List Visit :=
  is.flatMap (visitsAt t (t.size + 1) owner s)

variable {t : Tree} {ds ds₁ ds' : Declarations} {owner d : NodeId} {s : Scope}
  {vs vs' : List Visit} {v : Visit}

theorem mem_names {e : Entry} : e ∈ v.names t ↔
    e.scope = v.scope ∧ e.decl ∈ t.declaredBy v.member ∧
      (t.kind e.decl).declared = some e.name := by
  obtain ⟨s, y, d⟩ := e
  simp only [Visit.names, Tree.entry?, List.mem_filterMap, Option.map_eq_some_iff, Entry.mk.injEq]
  constructor
  · rintro ⟨d, hd, y, hy, rfl, rfl, rfl⟩
    exact ⟨rfl, hd, hy⟩
  · rintro ⟨rfl, hd, hy⟩
    exact ⟨d, hd, y, hy, rfl, rfl, rfl⟩

section Visiting

theorem collectAt_succ (t : Tree) (fuel : Nat) (owner : NodeId) (s : Scope) (ds : Declarations)
    (d : NodeId) : collectAt t (fuel + 1) owner s ds d =
      match t.opened? d with
      | some inner => (t.membersOf d).foldl (collectAt t fuel d inner) (visit t ds ⟨owner, s, d⟩)
      | none => visit t ds ⟨owner, s, d⟩ := by
  rw [collectAt]
  cases hk : t.kind d <;>
    simp [Tree.opened?, Tree.membersOf, visit, Kind.signature, setParents, hk]

theorem collectAt_eq (t : Tree) (fuel : Nat) (owner : NodeId) (s : Scope) (ds : Declarations)
    (d : NodeId) :
    collectAt t fuel owner s ds d = (visitsAt t fuel owner s d).foldl (visit t) ds := by
  induction fuel generalizing owner s ds d with
  | zero => rfl
  | succ fuel ih =>
      rw [collectAt_succ, visitsAt, List.foldl_cons]
      cases t.opened? d with
      | none => rfl
      | some inner =>
          simp only [List.foldl_flatMap]
          exact List.foldl_ext _ _ _ fun ds m _ => ih d inner ds m

theorem collect_eq (t : Tree) (owner : NodeId) (s : Scope) (ds : Declarations)
    (is : List NodeId) : collect t owner s ds is = (visits t owner s is).foldl (visit t) ds := by
  rw [collect, visits, List.foldl_flatMap]
  exact List.foldl_ext _ _ _ fun ds d _ => collectAt_eq t _ owner s ds d

end Visiting

section Gaining

structure Gains (t : Tree) (vs : List Visit) (ds ds' : Declarations) : Prop where
  extended : ds'.extended = ds.extended
  entries : ds'.entries = ds.entries ++ vs.flatMap (Visit.names t)
  initializers : ds'.initializers = ds.initializers ++ vs.flatMap (Visit.initializers t)
  subscripts : ds'.subscripts = ds.subscripts ++ vs.flatMap (Visit.subscripts t)
  stored : ds'.stored = ds.stored ++ vs.flatMap (Visit.stored t)
  pending : ds'.pending = ds.pending ++ vs.flatMap (Visit.waiting t)
  parents : ∀ d p, ds'.parents.get? d = some p → ds.parents.get? d = some p ∨ t.Holds p d
  seen : ∀ d, ds.parents.get? d ≠ none → ds'.parents.get? d ≠ none
  visited : ∀ v ∈ vs, ds'.parents.get? v.member ≠ none

theorem Gains.refl (ds : Declarations) : Gains t [] ds ds := by
  constructor <;> simp +contextual

theorem Gains.trans (h : Gains t vs ds ds₁) (h' : Gains t vs' ds₁ ds') :
    Gains t (vs ++ vs') ds ds' where
  extended := h'.extended.trans h.extended
  entries := by rw [h'.entries, h.entries, List.flatMap_append, List.append_assoc]
  initializers := by rw [h'.initializers, h.initializers, List.flatMap_append, List.append_assoc]
  subscripts := by rw [h'.subscripts, h.subscripts, List.flatMap_append, List.append_assoc]
  stored := by rw [h'.stored, h.stored, List.flatMap_append, List.append_assoc]
  pending := by rw [h'.pending, h.pending, List.flatMap_append, List.append_assoc]
  parents := fun d p hp => (h'.parents d p hp).elim (h.parents d p) .inr
  seen := fun d hd => h'.seen d (h.seen d hd)
  visited := by
    intro v hv
    rcases List.mem_append.mp hv with hv | hv
    · exact h'.seen _ (h.visited v hv)
    · exact h'.visited v hv

theorem gains_setParent (h : t.Holds owner d) (ds : Declarations) :
    Gains t [] ds (setParent owner ds d) := by
  refine ⟨rfl, by simp [setParent], by simp [setParent], by simp [setParent], by simp [setParent],
    by simp [setParent], fun x p hp => ?_, fun x hx => ?_, List.forall_mem_nil _⟩
  · rw [setParent, Table.get?_insert] at hp
    split at hp
    · next heq =>
        cases hp
        exact .inr (heq ▸ h)
    · exact .inl hp
  · rw [setParent, Table.get?_insert]
    split
    · simp
    · exact hx

theorem gains_setParents {is : List NodeId} (his : ∀ i ∈ is, t.Holds owner i)
    (ds : Declarations) : Gains t [] ds (setParents owner ds is) := by
  rw [setParents]
  exact List.foldlRecOn is _ (.refl ds) fun _ h i hi => h.trans (gains_setParent (his i hi) _)

theorem addName_eq (t : Tree) (s : Scope) (ds : Declarations) (d : NodeId) :
    addName t s ds d = { ds with entries := ds.entries ++ [d].filterMap (t.entry? s) } := by
  rw [addName]
  cases hx : (t.kind d).declares <;> simp [Tree.entry?, Kind.declared, hx]

theorem addVars_eq (t : Tree) (s : Scope) (b : NodeId) (ds : Declarations) (xs : List NodeId) :
    xs.foldl (addVar t s b) ds =
      { ds with
        entries := ds.entries ++ xs.filterMap (t.entry? s)
        bindings := xs.foldl (fun bindings x => bindings.insert x b) ds.bindings } := by
  induction xs generalizing ds with
  | nil => simp
  | cons x xs ih =>
      rw [List.foldl_cons, ih, addVar, addName_eq]
      simp only [List.foldl_cons, List.append_assoc, ← List.filterMap_append, List.singleton_append]

theorem addStored_eq (t : Tree) (v : Visit) (ds : Declarations) {p : NodeId} {i : Option NodeId}
    (hk : t.kind v.member = .binding p i) :
    addStored t v.owner v.scope ds (t.patternVars p) =
      { ds with stored := ds.stored ++ v.stored t } := by
  unfold addStored Visit.stored
  rw [hk]
  split <;> simp_all

theorem addInitializer_eq (t : Tree) (v : Visit) (ds : Declarations)
    (hk : (t.kind v.member).isInit = true) :
    addInitializer v.scope ds v.member =
      { ds with initializers := ds.initializers ++ v.initializers t } := by
  unfold addInitializer Visit.initializers
  cases hm : t.kind v.member <;> simp [hm, Kind.isInit] at hk
  split <;> simp_all

theorem addSubscript_eq (t : Tree) (v : Visit) (ds : Declarations)
    (hk : (t.kind v.member).isSubscript = true) :
    addSubscript v.scope ds v.member =
      { ds with subscripts := ds.subscripts ++ v.subscripts t } := by
  unfold addSubscript Visit.subscripts
  cases hm : t.kind v.member <;> simp [hm, Kind.isSubscript] at hk
  split <;> simp_all

theorem declare_eq (t : Tree) (v : Visit) (ds : Declarations) :
    declare t v.owner v.scope ds v.member =
      { ds with
        entries := ds.entries ++ v.names t
        initializers := ds.initializers ++ v.initializers t
        subscripts := ds.subscripts ++ v.subscripts t
        stored := ds.stored ++ v.stored t
        bindings := v.bound t ds.bindings
        pending := ds.pending ++ v.waiting t } := by
  rw [declare]
  cases hk : t.kind v.member with
  | binding p i =>
      simp only [addStored_eq t v ds hk, addVars_eq, Visit.names, Visit.initializers,
        Visit.subscripts, Visit.bound, Visit.waiting, Tree.declaredBy, hk]
      simp [Kind.waits]
  | init i ps b m =>
      simp only [addInitializer_eq t v ds (by rw [hk]; rfl), Visit.names,
        Visit.subscripts, Visit.stored, Visit.bound, Visit.waiting, Tree.declaredBy, hk]
      simp [Kind.waits, Tree.entry?, Kind.declared, Kind.declares, hk]
  | subscript i x ps o b =>
      simp only [addSubscript_eq t v ds (by rw [hk]; rfl), addName_eq, Visit.names,
        Visit.initializers, Visit.stored, Visit.bound, Visit.waiting, Tree.declaredBy, hk]
      simp [Kind.waits]
  | extension i n ms | conformance i n ts ms =>
      simp [Visit.names, Visit.initializers, Visit.subscripts,
        Visit.stored, Visit.bound, Visit.waiting, Tree.declaredBy, Tree.entry?, Kind.declared,
        Kind.declares, Kind.waits, hk]
  | _ =>
      simp only [addName_eq, Visit.names, Visit.initializers, Visit.subscripts,
        Visit.stored, Visit.bound, Visit.waiting, Tree.declaredBy, hk]
      simp [Kind.waits]

theorem gains_visit (v : Visit) (hv : t.Holds v.owner v.member) (ds : Declarations) :
    Gains t [v] ds (visit t ds v) := by
  have hparent := gains_setParent hv ds
  have hdeclare : Gains t [v] (setParent v.owner ds v.member)
      (declare t v.owner v.scope (setParent v.owner ds v.member) v.member) := by
    rw [declare_eq]
    refine ⟨rfl, ?_, ?_, ?_, ?_, ?_, fun _ _ => .inl, fun _ => id, ?_⟩ <;> simp [setParent]
  exact hparent.trans (hdeclare.trans (gains_setParents (fun _ => .inr) _))

theorem gains_visits (hvs : ∀ v ∈ vs, t.Holds v.owner v.member) (ds : Declarations) :
    Gains t vs ds (vs.foldl (visit t) ds) := by
  induction vs generalizing ds with
  | nil => exact .refl ds
  | cons v vs ih =>
      rw [List.forall_mem_cons] at hvs
      exact (gains_visit v hvs.1 ds).trans (ih hvs.2 _)

end Gaining

section Walking

variable {fuel : Nat}

theorem forall_mem_visitsAt {P : Visit → Prop}
    (hstep : ∀ v, P v → ∀ inner, t.opened? v.member = some inner →
      ∀ m ∈ t.membersOf v.member, P ⟨v.member, inner, m⟩)
    (h : P ⟨owner, s, d⟩) : ∀ v ∈ visitsAt t fuel owner s d, P v := by
  induction fuel generalizing owner s d with
  | zero => exact List.forall_mem_nil _
  | succ fuel ih =>
      rw [visitsAt, List.forall_mem_cons]
      refine ⟨h, fun v hv => ?_⟩
      cases hinner : t.opened? d with
      | none => simp [hinner] at hv
      | some inner =>
          rw [hinner] at hv
          obtain ⟨m, hm, hv⟩ := List.mem_flatMap.mp hv
          exact ih (hstep ⟨owner, s, d⟩ h inner hinner m hm) v hv

theorem mem_membersOf_of_mem_visitsAt (hd : d ∈ t.membersOf owner)
    (hv : v ∈ visitsAt t fuel owner s d) : v.member ∈ t.membersOf v.owner :=
  forall_mem_visitsAt (P := fun v => v.member ∈ t.membersOf v.owner) (fun _ _ _ _ _ hm => hm)
    hd v hv

variable (ht : t.WellFormed)

include ht

theorem below_of_mem_visitsAt (hv : v ∈ visitsAt t fuel owner s d) : t.Below d v.member :=
  forall_mem_visitsAt (P := fun v => t.Below d v.member)
    (fun _ h _ _ _ hm => h.trans (Tree.below_of_mem_membersOf ht hm)) (.refl d) v hv

theorem flatMap_visitsAt_pairwise {is : List NodeId}
    (his : is.Pairwise fun c c' => ∀ x, ¬ (t.Below c x ∧ t.Below c' x))
    (hrec : ∀ i ∈ is, (visitsAt t fuel owner s i).Pairwise fun v w => v.member ≠ w.member) :
    (is.flatMap (visitsAt t fuel owner s)).Pairwise fun v w => v.member ≠ w.member := by
  refine List.pairwise_flatMap.mpr ⟨hrec, his.imp fun hapart v hv w hw heq => ?_⟩
  exact hapart v.member ⟨below_of_mem_visitsAt ht hv, heq ▸ below_of_mem_visitsAt ht hw⟩

theorem visitsAt_pairwise (fuel : Nat) (owner : NodeId) (s : Scope) (d : NodeId) :
    (visitsAt t fuel owner s d).Pairwise fun v w => v.member ≠ w.member := by
  induction fuel generalizing owner s d with
  | zero => exact .nil
  | succ fuel ih =>
      rw [visitsAt, List.pairwise_cons]
      cases t.opened? d with
      | none => exact ⟨List.forall_mem_nil _, .nil⟩
      | some inner =>
          refine ⟨fun v hv => ?_, flatMap_visitsAt_pairwise ht (Tree.membersOf_pairwise ht d)
            fun m _ => ih d inner m⟩
          obtain ⟨m, hm, hv⟩ := List.mem_flatMap.mp hv
          rintro rfl
          exact absurd (Tree.lt_of_mem_membersOf ht hm)
            (Nat.not_lt.mpr ((below_of_mem_visitsAt ht hv).le ht))

theorem visits_pairwise {is : List NodeId}
    (his : is.Pairwise fun c c' => ∀ x, ¬ (t.Below c x ∧ t.Below c' x)) :
    (visits t owner s is).Pairwise fun v w => v.member ≠ w.member :=
  flatMap_visitsAt_pairwise ht his fun i _ => visitsAt_pairwise ht _ owner s i

omit ht in
theorem map_sublist_flatMap_visitsAt {is : List NodeId} (hfuel : ∀ i ∈ is, 0 < fuel) :
    (is.map (Visit.mk owner s)).Sublist (is.flatMap (visitsAt t fuel owner s)) := by
  rw [← List.flatMap_singleton' (is.map _), List.flatMap_map]
  refine List.Sublist.flatMap_right is fun i hi => ?_
  obtain ⟨fuel, rfl⟩ := Nat.exists_eq_add_one_of_ne_zero (Nat.ne_of_gt (hfuel i hi))
  rw [visitsAt]
  exact (List.nil_sublist _).cons_cons _

omit ht in
theorem map_sublist_visits (is : List NodeId) :
    (is.map (Visit.mk owner s)).Sublist (visits t owner s is) :=
  map_sublist_flatMap_visitsAt fun _ _ => Nat.succ_pos _

theorem members_sublist_visitsAt {inner : Scope} (hfuel : d < fuel)
    (hv : v ∈ visitsAt t fuel owner s d) (hinner : t.opened? v.member = some inner) :
    ((t.membersOf v.member).map (Visit.mk v.member inner)).Sublist (visitsAt t fuel owner s d) := by
  induction fuel generalizing owner s d with
  | zero => exact absurd hfuel (Nat.not_lt_zero d)
  | succ fuel ih =>
      rw [visitsAt] at hv ⊢
      rcases List.mem_cons.mp hv with rfl | hv
      · rw [hinner]
        refine .cons _ (map_sublist_flatMap_visitsAt fun m hm => ?_)
        have hlt : m < d := Tree.lt_of_mem_membersOf ht hm
        exact Nat.lt_of_le_of_lt (Nat.zero_le m) (Nat.lt_of_lt_of_le hlt (Nat.le_of_lt_succ hfuel))
      · cases hd : t.opened? d with
        | none => simp [hd] at hv
        | some scope =>
            rw [hd] at hv
            obtain ⟨m, hm, hv⟩ := List.mem_flatMap.mp hv
            have hlt : m < d := Tree.lt_of_mem_membersOf ht hm
            refine .cons _ ((ih (Nat.lt_of_lt_of_le hlt (Nat.le_of_lt_succ hfuel)) hv).trans ?_)
            exact List.sublist_flatten_of_mem (List.mem_map_of_mem hm)

theorem members_sublist_visits {inner : Scope} {is : List NodeId} (his : ∀ i ∈ is, i < t.size)
    (hv : v ∈ visits t owner s is) (hinner : t.opened? v.member = some inner) :
    ((t.membersOf v.member).map (Visit.mk v.member inner)).Sublist (visits t owner s is) := by
  obtain ⟨i, hi, hv⟩ := List.mem_flatMap.mp hv
  refine (members_sublist_visitsAt ht (Nat.lt_succ_of_lt (his i hi)) hv hinner).trans ?_
  exact List.sublist_flatten_of_mem (List.mem_map_of_mem hi)

end Walking

theorem get?_setParents (p : NodeId) (ds : Declarations) (is : List NodeId) (x : NodeId) :
    (setParents p ds is).parents.get? x = if x ∈ is then some p else ds.parents.get? x := by
  induction is generalizing ds with
  | nil => simp [setParents]
  | cons i is ih =>
      rw [setParents, List.foldl_cons, ← setParents, ih, setParent, Table.get?_insert]
      by_cases hx : x ∈ is <;> by_cases hi : i = x <;> simp [hx, hi, eq_comm (a := x)]

theorem get?_visit (t : Tree) (ds : Declarations) (v : Visit) (x : NodeId) :
    (visit t ds v).parents.get? x =
      if x ∈ (t.kind v.member).signature then some v.member
      else if v.member = x then some v.owner else ds.parents.get? x := by
  rw [visit, get?_setParents, declare_eq]
  simp only [setParent, Table.get?_insert]

theorem ofTree_induction {P : Declarations → Prop} (hempty : P empty)
    (hvisit : ∀ ds v, P ds → P (visit t ds v))
    (hrest : ∀ ds modules extended pending, P ds →
      P { ds with modules := modules, extended := extended, pending := pending }) :
    P (ofTree t) := by
  have hcollect {ds : Declarations} (h : P ds) (owner : NodeId) (s : Scope) (is : List NodeId) :
      P (collect t owner s ds is) := by
    rw [collect_eq]
    exact List.foldlRecOn _ _ h fun ds h v _ => hvisit ds v h
  have hpending (fuel : Nat) {ds : Declarations} (h : P ds) : P (collectPending t fuel ds) := by
    induction fuel generalizing ds with
    | zero => exact h
    | succ fuel ih =>
        cases hcase : ds.pending with
        | nil => rwa [collectPending, hcase]
        | cons ext rest =>
            have hpopped : P { ds with pending := rest } := hrest ds ds.modules ds.extended rest h
            rw [collectPending_cons hcase, settle]
            refine ih ?_
            split
            · rw [collectExtension]
              split
              · next o _ =>
                  exact hcollect (hrest ds ds.modules (ds.extended.insert ext o) rest h) _ _ _
              · exact hpopped
            · exact hpopped
  refine hpending _ (List.foldlRecOn _ _ hempty fun ds h m _ => ?_)
  rw [collectModule]
  split
  · exact hrest _ _ _ _ (hcollect h m _ _)
  · exact h

end Declarations

end LanguageService
