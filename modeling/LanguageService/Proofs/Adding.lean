import LanguageService.Proofs.Filed

/-!
What collecting a declaration adds to the tables. Nothing is taken back, and what is new stands in
the scope that was given, or in one that the declaration opens itself.
-/
namespace LanguageService

namespace Kind

def isSubscript : Kind → Bool
  | subscript _ _ _ _ _ => true
  | _ => false

theorem waits_of_isGeneric {k : Kind} (h : k.isGeneric = true) : k.waits = false := by
  cases k <;> first | rfl | cases h

theorem waits_of_isParameter {k : Kind} (h : k.isParameter = true) : k.waits = false := by
  cases k <;> first | rfl | cases h

theorem waits_of_isVariant {k : Kind} (h : k.isVariant = true) : k.waits = false := by
  cases k <;> first | rfl | cases h

end Kind

namespace Tree

def declaredBy (t : Tree) (m : NodeId) : List NodeId :=
  match t.kind m with
  | .binding p _ => t.patternVars p
  | _ => [m]

def Declares (t : Tree) (m : NodeId) (x : String) : Prop :=
  ∃ v ∈ t.declaredBy m, (t.kind v).declared = some x

theorem declaredBy_of_isBinding {t : Tree} {m : NodeId} (h : (t.kind m).isBinding = false) :
    t.declaredBy m = [m] := by
  rw [declaredBy]
  split
  · next hk => simp [hk, Kind.isBinding] at h
  · rfl

end Tree

def Tree.Opens (t : Tree) (d : NodeId) (s : Scope) : Prop :=
  ∃ c, t.Below d c ∧ (s = .space c ∨ s = .type (.decl c))

namespace Declarations

def Due (t : Tree) (s : Scope) (d : NodeId) (e : Entry) : Prop :=
  e.scope = s ∧ t.Declares d e.name ∨ t.Opens d e.scope

structure Adds (t : Tree) (new : Entry → Prop) (ds ds' : Declarations) : Prop where
  modules : ds'.modules = ds.modules
  extended : ds'.extended = ds.extended
  entries : ∃ added, ds'.entries = ds.entries ++ added ∧ ∀ e ∈ added, new e ∧
    ((t.kind e.decl).isVar = true ∨ ds'.parents.get? e.decl ≠ none)
  initializers : ds.initializers <+: ds'.initializers
  subscripts : ds.subscripts <+: ds'.subscripts
  pending : ds.pending <+: ds'.pending
  seen : ∀ d, ds.parents.get? d ≠ none → ds'.parents.get? d ≠ none
  parents : ∀ d p, ds'.parents.get? d = some p → ds.parents.get? d = some p ∨ t.Below p d
  waits : ∀ d, (t.kind d).waits = true → ds'.parents.get? d ≠ none →
    ds.parents.get? d ≠ none ∨ d ∈ ds'.pending

structure Lists (t : Tree) (ds : Declarations) (o : Owner) (m : NodeId) : Prop where
  names : ∀ v ∈ t.declaredBy m, ∀ x, (t.kind v).declared = some x → v ∈ ds.named (.type o) x
  initializer : (t.kind m).isInit = true → ∀ ty, o = .decl ty → m ∈ ds.initializersOf ty
  subscript : (t.kind m).isSubscript = true → m ∈ ds.subscriptsOf o

variable {t : Tree} {ds ds₁ ds' : Declarations} {new new' : Entry → Prop} {s : Scope}
  {owner d m : NodeId}

theorem Adds.refl (ds : Declarations) : Adds t new ds ds where
  modules := rfl
  extended := rfl
  entries := ⟨[], by simp, List.forall_mem_nil _⟩
  initializers := List.prefix_rfl
  subscripts := List.prefix_rfl
  pending := List.prefix_rfl
  seen := fun _ => id
  parents := fun _ _ => .inl
  waits := fun _ _ => .inl

theorem Adds.trans (h : Adds t new ds ds₁) (h' : Adds t new ds₁ ds') : Adds t new ds ds' where
  modules := h'.modules.trans h.modules
  extended := h'.extended.trans h.extended
  entries := by
    obtain ⟨added, heq, hadded⟩ := h.entries
    obtain ⟨added', heq', hadded'⟩ := h'.entries
    refine ⟨added ++ added', by rw [heq', heq, List.append_assoc], fun e he => ?_⟩
    rcases List.mem_append.mp he with he | he
    · exact ⟨(hadded e he).1, (hadded e he).2.imp_right (h'.seen e.decl)⟩
    · exact hadded' e he
  initializers := h.initializers.trans h'.initializers
  subscripts := h.subscripts.trans h'.subscripts
  pending := h.pending.trans h'.pending
  seen := fun d hd => h'.seen d (h.seen d hd)
  parents := fun d p hp => (h'.parents d p hp).elim (h.parents d p) .inr
  waits := by
    intro d hd hseen
    rcases h'.waits d hd hseen with hseen | hpending
    · exact (h.waits d hd hseen).imp_right fun hpending => h'.pending.subset hpending
    · exact .inr hpending

theorem Adds.widen (h : Adds t new ds ds') (hsub : ∀ e, new e → new' e) : Adds t new' ds ds' where
  modules := h.modules
  extended := h.extended
  entries := by
    obtain ⟨added, heq, hadded⟩ := h.entries
    exact ⟨added, heq, fun e he => ⟨hsub e (hadded e he).1, (hadded e he).2⟩⟩
  initializers := h.initializers
  subscripts := h.subscripts
  pending := h.pending
  seen := h.seen
  parents := h.parents
  waits := h.waits

theorem Adds.foldl {f : Declarations → NodeId → Declarations} {is : List NodeId}
    (hf : ∀ ds, ∀ i ∈ is, Adds t new ds (f ds i)) (ds : Declarations) :
    Adds t new ds (is.foldl f ds) := by
  induction is generalizing ds with
  | nil => exact .refl ds
  | cons i is ih =>
      have hrest := ih (fun ds j hj => hf ds j (List.mem_cons_of_mem i hj)) (f ds i)
      exact (hf ds i List.mem_cons_self).trans hrest

theorem mem_named {x : String} : d ∈ ds.named s x ↔ (⟨s, x, d⟩ : Entry) ∈ ds.entries := by
  rw [named, List.mem_filterMap]
  constructor
  · rintro ⟨e, he, hsome⟩
    split at hsome
    · next h =>
        cases hsome
        obtain ⟨rfl, rfl⟩ := h
        exact he
    · cases hsome
  · exact fun he => ⟨_, he, by simp⟩

theorem Adds.named_eq {x : String} (h : Adds t new ds ds')
    (hnone : ∀ e, new e → ¬ (e.scope = s ∧ e.name = x)) : ds'.named s x = ds.named s x := by
  obtain ⟨added, heq, hadded⟩ := h.entries
  have hnil : added.filterMap (fun e => if e.scope = s ∧ e.name = x then some e.decl else none)
      = [] := List.filterMap_eq_nil_iff.mpr fun e he => if_neg (hnone e (hadded e he).1)
  rw [named, named, heq, List.filterMap_append, hnil, List.append_nil]

theorem Adds.lists {o : Owner} (h : Adds t new ds ds') (hm : Lists t ds o m) :
    Lists t ds' o m where
  names := by
    intro v hv x hx
    obtain ⟨added, heq, -⟩ := h.entries
    rw [mem_named, heq]
    exact List.mem_append_left added (mem_named.mp (hm.names v hv x hx))
  initializer := fun hinit ty hty =>
    (h.initializers.filterMap _).subset (hm.initializer hinit ty hty)
  subscript := fun hsubscript => (h.subscripts.filterMap _).subset (hm.subscript hsubscript)

section Declaring

theorem adds_setParent (hbelow : t.Below owner d)
    (hwaits : (t.kind d).waits = true → d ∈ ds.pending) :
    Adds t new ds (setParent owner ds d) := by
  refine ⟨rfl, rfl, ⟨[], by simp [setParent]⟩, List.prefix_rfl, List.prefix_rfl, List.prefix_rfl,
    fun x hx => ?_, fun x p hp => ?_, fun x hx hseen => ?_⟩
  · rw [setParent, Table.get?_insert]
    split
    · simp
    · exact hx
  · rw [setParent, Table.get?_insert] at hp
    split at hp
    · next heq =>
        cases hp
        exact .inr (heq ▸ hbelow)
    · exact .inl hp
  · rw [setParent, Table.get?_insert] at hseen
    split at hseen
    · next heq =>
        obtain rfl := heq
        exact .inr (hwaits hx)
    · exact .inl hseen

theorem adds_setParents {is : List NodeId} (his : ∀ i ∈ is, i ∈ t.children owner)
    (hwaits : ∀ i ∈ is, (t.kind i).waits = false) (ds : Declarations) :
    Adds t new ds (setParents owner ds is) :=
  .foldl (fun _ i hi => adds_setParent (Tree.below_child (his i hi)) (by simp [hwaits i hi])) ds

theorem adds_addName (hnew : ∀ x, (t.kind d).declared = some x → new ⟨s, x, d⟩)
    (hseen : (t.kind d).isVar = true ∨ ds.parents.get? d ≠ none) :
    Adds t new ds (addName t s ds d) := by
  rw [addName]
  split
  · next x hx =>
      refine ⟨rfl, rfl, ⟨[⟨s, x.text, d⟩], rfl, List.forall_mem_singleton.mpr ⟨hnew _ ?_, hseen⟩⟩,
        List.prefix_rfl, List.prefix_rfl, List.prefix_rfl, fun _ => id, fun _ _ => .inl,
        fun _ _ => .inl⟩
      rw [Kind.declared, hx, Option.map_some]
  · exact .refl ds

theorem adds_addSubscript (s : Scope) (ds : Declarations) (d : NodeId) :
    Adds t new ds (addSubscript s ds d) := by
  unfold addSubscript
  split
  · exact ⟨rfl, rfl, ⟨[], by simp⟩, List.prefix_rfl, List.prefix_append _ _, List.prefix_rfl,
      fun _ => id, fun _ _ => .inl, fun _ _ => .inl⟩
  · exact .refl ds

theorem adds_addInitializer (s : Scope) (ds : Declarations) (d : NodeId) :
    Adds t new ds (addInitializer s ds d) := by
  unfold addInitializer
  split
  · exact ⟨rfl, rfl, ⟨[], by simp⟩, List.prefix_append _ _, List.prefix_rfl, List.prefix_rfl,
      fun _ => id, fun _ _ => .inl, fun _ _ => .inl⟩
  · exact .refl ds

theorem adds_addVars {b : NodeId} {vs : List NodeId} (hvar : ∀ v ∈ vs, (t.kind v).isVar = true)
    (hnew : ∀ v ∈ vs, ∀ x, (t.kind v).declared = some x → new ⟨s, x, v⟩) (ds : Declarations) :
    Adds t new ds (vs.foldl (addVar t s b) ds) :=
  .foldl (fun ds v hv => by
    have hbound : Adds t new ds { ds with bindings := ds.bindings.insert v b } :=
      ⟨rfl, rfl, ⟨[], by simp⟩, List.prefix_rfl, List.prefix_rfl, List.prefix_rfl, fun _ => id,
        fun _ _ => .inl, fun _ _ => .inl⟩
    exact hbound.trans (adds_addName (hnew v hv) (.inl (hvar v hv)))) ds

theorem adds_addStored (owner : NodeId) (s : Scope) (ds : Declarations) (vs : List NodeId) :
    Adds t new ds (addStored t owner s ds vs) := by
  unfold addStored
  split
  · exact ⟨rfl, rfl, ⟨[], by simp⟩, List.prefix_rfl, List.prefix_rfl, List.prefix_rfl, fun _ => id,
      fun _ _ => .inl, fun _ _ => .inl⟩
  · exact .refl ds

theorem adds_declare (ht : t.WellFormed) (hwaits : (t.kind d).waits = false)
    (hseen : ds.parents.get? d ≠ none) : Adds t (Due t s d) ds (declare t owner s ds d) := by
  have hname {ds : Declarations} (hb : (t.kind d).isBinding = false)
      (hseen : ds.parents.get? d ≠ none) : Adds t (Due t s d) ds (addName t s ds d) := by
    refine adds_addName (fun x hx => .inl ⟨rfl, d, ?_, hx⟩) (.inr hseen)
    simp [Tree.declaredBy_of_isBinding hb]
  rw [declare]
  split
  · next p i hk =>
      refine (adds_addStored owner s ds _).trans (adds_addVars (fun v hv => ?_) ?_ _)
      · exact Tree.isVar_of_mem_patternVarsAt ht hv
      · intro v hv x hx
        exact .inl ⟨rfl, v, by simpa [Tree.declaredBy, hk] using hv, hx⟩
  · next hk => simp [hk, Kind.waits] at hwaits
  · next hk => simp [hk, Kind.waits] at hwaits
  · exact adds_addInitializer s ds d
  · next hk =>
      have hsubscript : Adds t (Due t s d) ds (addSubscript s ds d) := adds_addSubscript s ds d
      exact hsubscript.trans (hname (by rw [hk]; rfl) (hsubscript.seen d hseen))
  · next hb _ _ _ _ =>
      refine hname ?_ hseen
      cases hk : t.kind d with
      | binding p i => exact absurd hk (hb p i)
      | _ => rfl

theorem adds_enter (ht : t.WellFormed) (hbelow : t.Below owner d) (ds : Declarations) :
    Adds t (Due t s d) ds (declare t owner s (setParent owner ds d) d) := by
  cases hwaits : (t.kind d).waits with
  | false =>
      have hparent : Adds t (Due t s d) ds (setParent owner ds d) :=
        adds_setParent hbelow (by simp [hwaits])
      exact hparent.trans (adds_declare ht hwaits (by simp [setParent]))
  | true =>
      have hpending : Adds t (Due t s d) ds { ds with pending := ds.pending ++ [d] } :=
        ⟨rfl, rfl, ⟨[], by simp⟩, List.prefix_rfl, List.prefix_rfl, List.prefix_append _ _,
          fun _ => id, fun _ _ => .inl, fun _ _ => .inl⟩
      rw [declare_of_waits hwaits]
      exact hpending.trans (adds_setParent hbelow (by simp))

theorem Adds.mem_entries (h : Adds t new ds ds') {e : Entry} (he : e ∈ ds.entries) :
    e ∈ ds'.entries := by
  obtain ⟨added, heq, -⟩ := h.entries
  rw [heq]
  exact List.mem_append_left added he

theorem mem_addName {x : String} (hx : (t.kind d).declared = some x) (ds : Declarations) :
    (⟨s, x, d⟩ : Entry) ∈ (addName t s ds d).entries := by
  obtain ⟨y, hy, rfl⟩ := Option.map_eq_some_iff.mp hx
  simp [addName, hy]

theorem subscripts_addName (s : Scope) (ds : Declarations) (d : NodeId) :
    (addName t s ds d).subscripts = ds.subscripts := by
  rw [addName]
  split <;> rfl

theorem mem_addVars {b v : NodeId} {vs : List NodeId} (hvar : ∀ v ∈ vs, (t.kind v).isVar = true)
    (hv : v ∈ vs) {x : String} (hx : (t.kind v).declared = some x) (ds : Declarations) :
    (⟨s, x, v⟩ : Entry) ∈ (vs.foldl (addVar t s b) ds).entries := by
  induction vs generalizing ds with
  | nil => exact absurd hv List.not_mem_nil
  | cons w vs ih =>
      have hrest := List.forall_mem_cons.mp hvar
      rcases List.mem_cons.mp hv with rfl | hv
      · have hadds : Adds t (fun _ => True) _ (vs.foldl (addVar t s b) (addVar t s b ds v)) :=
          adds_addVars hrest.2 (fun _ _ _ _ => trivial) _
        exact hadds.mem_entries (mem_addName hx _)
      · exact ih hrest.2 hv _

theorem lists_declare (ht : t.WellFormed) (owner : NodeId) (o : Owner) (ds : Declarations)
    (m : NodeId) : Lists t (declare t owner (.type o) ds m) o m := by
  have hname {ds : Declarations} (hb : (t.kind m).isBinding = false) :
      ∀ v ∈ t.declaredBy m, ∀ x, (t.kind v).declared = some x →
        v ∈ (addName t (.type o) ds m).named (.type o) x := by
    intro v hv x hx
    rw [Tree.declaredBy_of_isBinding hb, List.mem_singleton] at hv
    exact mem_named.mpr (hv ▸ mem_addName (hv ▸ hx) ds)
  rw [declare]
  cases hk : t.kind m with
  | binding p i =>
      refine ⟨fun v hv x hx => mem_named.mpr (mem_addVars (fun v hv => ?_) ?_ hx _), ?_, ?_⟩
      · exact Tree.isVar_of_mem_patternVarsAt ht hv
      · simpa [Tree.declaredBy, hk] using hv
      · simp [hk, Kind.isInit]
      · simp [hk, Kind.isSubscript]
  | extension i n ms | conformance i n ts ms =>
      refine ⟨fun v hv x hx => ?_, by simp [hk, Kind.isInit], by simp [hk, Kind.isSubscript]⟩
      rw [Tree.declaredBy_of_isBinding (by rw [hk]; rfl), List.mem_singleton] at hv
      simp [hv, hk, Kind.declared, Kind.declares] at hx
  | init i ps b memberwise =>
      refine ⟨fun v hv x hx => ?_, ?_, by simp [hk, Kind.isSubscript]⟩
      · rw [Tree.declaredBy_of_isBinding (by rw [hk]; rfl), List.mem_singleton] at hv
        simp [hv, hk, Kind.declared, Kind.declares] at hx
      · rintro - ty rfl
        simp [addInitializer, initializersOf]
  | subscript i x ps out b =>
      refine ⟨hname (by rw [hk]; rfl), by simp [hk, Kind.isInit], fun _ => ?_⟩
      rw [subscriptsOf, subscripts_addName]
      simp [addSubscript]
  | _ =>
      refine ⟨hname (by rw [hk]; rfl), by simp [hk, Kind.isInit], by simp [hk, Kind.isSubscript]⟩

end Declaring

section Collecting

theorem Due.opens {e : Entry} (hm : m ∈ t.children d)
    (hs : s = .space d ∨ s = .type (.decl d)) (h : Due t s m e) : t.Opens d e.scope := by
  rcases h with ⟨hscope, -⟩ | ⟨c, hc, hscope⟩
  · exact ⟨d, .refl d, hscope ▸ hs⟩
  · exact ⟨c, .of_child hm hc, hscope⟩

variable (ht : t.WellFormed)

include ht

theorem adds_parts {fuel : Nat}
    (hrec : ∀ {ds : Declarations} {owner d : NodeId} {s : Scope}, t.Below owner d →
      Adds t (Due t s d) ds (collectAt t fuel owner s ds d)) (owner d : NodeId) (s : Scope)
    (ds : Declarations) :
    Adds t (fun e => t.Opens d e.scope) (declare t owner s (setParent owner ds d) d)
      (collectAt t (fuel + 1) owner s ds d) := by
  have hparts {is : List NodeId} {s : Scope} (his : ∀ i ∈ is, i ∈ t.children d)
      (hs : s = .space d ∨ s = .type (.decl d)) (ds : Declarations) :
      Adds t (fun e => t.Opens d e.scope) ds (is.foldl (collectAt t fuel d s) ds) :=
    .foldl (fun ds i hi => (hrec (Tree.below_child (his i hi))).widen fun e he =>
      he.opens (his i hi) hs) ds
  have hparents {is : List NodeId} (his : ∀ i ∈ is, (Kind.isGeneric, i) ∈ (t.kind d).parts ∨
      (Kind.isParameter, i) ∈ (t.kind d).parts ∨ (Kind.isVariant, i) ∈ (t.kind d).parts)
      (ds : Declarations) : Adds t (fun e => t.Opens d e.scope) ds (setParents d ds is) := by
    refine adds_setParents (fun i hi => ?_) (fun i hi => ?_) ds
    · rcases his i hi with h | h | h <;> exact Tree.child_of_part h
    · rcases his i hi with h | h | h
      · exact Kind.waits_of_isGeneric (ht.fits d _ h)
      · exact Kind.waits_of_isParameter (ht.fits d _ h)
      · exact Kind.waits_of_isVariant (ht.fits d _ h)
  rw [collectAt]
  cases hk : t.kind d with
  | space i x ms => exact hparts (by simp [Tree.children, hk, Kind.children]) (.inl rfl) _
  | product i x gs ms memberwise =>
      refine (hparents ?_ _).trans ((hparts ?_ (.inr rfl) _).trans (hparts ?_ (.inr rfl) _))
      · simp +contextual [hk, Kind.parts]
      · simp +contextual [Tree.children, hk, Kind.children]
      · simp +contextual [Tree.children, hk, Kind.children]
  | trait i x ms => exact hparts (by simp [Tree.children, hk, Kind.children]) (.inr rfl) _
  | function i x gs ps o b => exact hparents (by simp +contextual [hk, Kind.parts, or_imp]) _
  | method i x gs ps o vs => exact hparents (by simp +contextual [hk, Kind.parts, or_imp]) _
  | init i ps b memberwise => exact hparents (by simp +contextual [hk, Kind.parts]) _
  | subscript i x ps o b => exact hparents (by simp +contextual [hk, Kind.parts]) _
  | _ => exact .refl _

theorem adds_collectAt (fuel : Nat) (hbelow : t.Below owner d) (ds : Declarations) :
    Adds t (Due t s d) ds (collectAt t fuel owner s ds d) := by
  induction fuel generalizing ds owner s d with
  | zero => exact .refl ds
  | succ fuel ih =>
      have hparts := adds_parts ht (fun hbelow => ih hbelow _) owner d s ds
      exact (adds_enter ht hbelow ds).trans (hparts.widen fun _ => .inr)

theorem lists_collect {o : Owner} {ms : List NodeId} (hms : ∀ m ∈ ms, t.Below owner m)
    (hm : m ∈ ms) (ds : Declarations) : Lists t (collect t owner (.type o) ds ms) o m := by
  induction ms generalizing ds with
  | nil => exact absurd hm List.not_mem_nil
  | cons i ms ih =>
      have hrest := List.forall_mem_cons.mp hms
      rcases List.mem_cons.mp hm with rfl | hm
      · have hlisted := lists_declare ht owner o (setParent owner ds m) m
        have hparts := adds_parts ht (fun hbelow => adds_collectAt ht t.size hbelow _) owner m
          (.type o) ds
        have hothers : Adds t (fun _ => True) _ (ms.foldl (collectAt t (t.size + 1) owner (.type o))
            (collectAt t (t.size + 1) owner (.type o) ds m)) :=
          .foldl (fun ds i hi => (adds_collectAt ht _ (hrest.2 i hi) ds).widen fun _ _ => trivial) _
        exact hothers.lists (hparts.lists hlisted)
      · exact ih hrest.2 hm _

end Collecting

end Declarations

end LanguageService
