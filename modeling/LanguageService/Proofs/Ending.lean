import LanguageService.Proofs.LexicalScope
import LanguageService.Proofs.Walking
import Mathlib.Data.Finset.Card
import Mathlib.Data.List.Basic

/-!
Collecting declarations comes to an end. Here what runs out of fuel has no result, and fuel beyond
the size of a tree turns out to be enough for all that is collected from it.
-/
namespace LanguageService

section Folding

variable {α β : Type} {as : List α}

theorem foldlM_eq_some {f : β → α → β} {g : β → α → Option β}
    (h : ∀ b, ∀ a ∈ as, g b a = some (f b a)) (b : β) :
    as.foldlM g b = some (as.foldl f b) := by
  induction as generalizing b with
  | nil => rfl
  | cons a as ih =>
      rw [List.foldlM_cons, h b a List.mem_cons_self]
      exact ih (fun b a ha => h b a (List.mem_cons_of_mem _ ha)) (f b a)

theorem mapM_eq_some {f : α → β} {g : α → Option β} (h : ∀ a ∈ as, g a = some (f a)) :
    as.mapM g = some (as.map f) := by
  induction as with
  | nil => rfl
  | cons a as ih =>
      rw [List.mapM_cons, h a List.mem_cons_self,
        ih fun a ha => h a (List.mem_cons_of_mem _ ha)]
      rfl

end Folding

def Tree.patternVars? (t : Tree) : Nat → NodeId → Option (List NodeId)
  | 0, _ => none
  | fuel + 1, p =>
      match t.kind p with
      | .bindingPattern _ _ sub _ => t.patternVars? fuel sub
      | .namePattern v => some [v]
      | .tuplePattern es => (es.mapM (t.patternVars? fuel)).map List.flatten
      | _ => some []

namespace Declarations

def declare? (t : Tree) (fuel : Nat) (owner : NodeId) (s : Scope) (ds : Declarations) (d : NodeId) :
    Option Declarations :=
  match t.kind d with
  | .binding p _ =>
      (t.patternVars? fuel p).map fun vs => vs.foldl (addVar t s d) (addStored t owner s ds vs)
  | _ => some (declare t owner s ds d)

def collectAt? (t : Tree) : Nat → NodeId → Scope → Declarations → NodeId → Option Declarations
  | 0, _, _, _, _ => none
  | fuel + 1, owner, s, ds, d => do
      let ds ← declare? t fuel owner s (setParent owner ds d) d
      match t.kind d with
      | .space _ _ ms => ms.foldlM (collectAt? t fuel d (.space d)) ds
      | .product _ _ gs ms memberwise => do
          let ds ← ms.foldlM (collectAt? t fuel d (.type (.decl d))) (setParents d ds gs)
          memberwise.toList.foldlM (collectAt? t fuel d (.type (.decl d))) ds
      | .trait _ _ ms => ms.foldlM (collectAt? t fuel d (.type (.decl d))) ds
      | .function _ _ gs ps _ _ => return setParents d ds (gs ++ ps)
      | .method _ _ gs ps _ vs => return setParents d ds (gs ++ ps ++ vs)
      | .init _ ps _ _ => return setParents d ds ps
      | .subscript _ _ ps _ _ => return setParents d ds ps
      | _ => return ds

def ancestors? (ds : Declarations) : Nat → NodeId → Option (List NodeId)
  | 0, _ => none
  | fuel + 1, d =>
      match ds.parents.get? d with
      | some p => (ds.ancestors? fuel p).map (d :: ·)
      | none => some [d]

def visible? (t : Tree) (fuel : Nat) (ds : Declarations) (d : NodeId) : Option (List Scope) :=
  (ds.ancestors? fuel d).map fun chain =>
    chain.filterMap (scopeOf t ds) ++
      (ds.modules.zipIdx.reverse.filter fun m => !chain.contains m.1).map fun m => .module m.2

def lookup? (t : Tree) (fuel : Nat) (ds : Declarations) (d : NodeId) (x : String) :
    Option (List NodeId) :=
  (visible? t fuel ds d).map fun scopes =>
    (scopes.findSome? fun s =>
      match ds.named s x with
      | [] => none
      | found => some found).getD []

def subjectOwner? (t : Tree) (fuel : Nat) (ds : Declarations) (ext subject : NodeId) :
    Option (Option Owner) :=
  match t.kind subject with
  | .nameType x =>
      match Builtin.ofWord x.text with
      | some b => some (some (.builtin b))
      | none =>
          match ds.parents.get? ext with
          | some parent =>
              (lookup? t fuel ds parent x.text).map fun found =>
                found.findSome? fun d =>
                  match t.kind d with
                  | .product _ _ _ _ _ => some (.decl d)
                  | .trait _ _ _ => some (.decl d)
                  | _ => none
          | none => some none
  | _ => some none

def collectExtension? (t : Tree) (fuel : Nat) (ds : Declarations) (ext subject : NodeId)
    (ms : List NodeId) : Option Declarations := do
  match ← subjectOwner? t fuel ds ext subject with
  | some o =>
      ms.foldlM (collectAt? t fuel ext (.type o)) { ds with extended := ds.extended.insert ext o }
  | none => return ds

def collectPending? (t : Tree) (fuel : Nat) : Nat → Declarations → Option Declarations
  | 0, _ => none
  | rounds + 1, ds =>
      match ds.pending with
      | [] => some ds
      | ext :: rest =>
          let ds := { ds with pending := rest }
          match t.kind ext with
          | .extension _ subject ms => do
              collectPending? t fuel rounds (← collectExtension? t fuel ds ext subject ms)
          | .conformance _ subject _ ms => do
              collectPending? t fuel rounds (← collectExtension? t fuel ds ext subject ms)
          | _ => collectPending? t fuel rounds ds

def collectModule? (t : Tree) (fuel : Nat) (ds : Declarations) (m : NodeId) :
    Option Declarations :=
  match t.kind m with
  | .module _ units => do
      let ds ← (units.flatMap (declsOfUnit t)).foldlM
        (collectAt? t fuel m (.module ds.modules.length)) ds
      return { ds with modules := ds.modules ++ [m] }
  | _ => some ds

def ofTree? (t : Tree) (fuel : Nat) : Option Declarations := do
  let ds ← t.modules.foldlM (collectModule? t fuel) empty
  collectPending? t fuel fuel ds

end Declarations

section Nesting

variable {t : Tree} (ht : t.WellFormed)

include ht

theorem Tree.patternVars?_eq {fuel fuel' p : Nat} (h : p < fuel) (h' : p < fuel') :
    t.patternVars? fuel p = some (t.patternVarsAt fuel' p) := by
  induction fuel generalizing fuel' p with
  | zero => exact absurd h (Nat.not_lt_zero p)
  | succ fuel ih =>
      obtain ⟨fuel', rfl⟩ := Nat.exists_eq_add_one_of_ne_zero (Nat.ne_zero_of_lt h')
      have hchild {q : Nat} (hq : q ∈ t.children p) :
          t.patternVars? fuel q = some (t.patternVarsAt fuel' q) := by
        have hlt : q < p := ht.child_lt p q hq
        exact ih (by omega) (by omega)
      rw [patternVars?, patternVarsAt]
      cases hp : t.kind p with
      | bindingPattern i how sub a => exact hchild (by simp [children, hp, Kind.children])
      | tuplePattern es =>
          have hes : es.mapM (t.patternVars? fuel) = some (es.map (t.patternVarsAt fuel')) :=
            mapM_eq_some fun q hq => hchild (by simpa [children, hp, Kind.children] using hq)
          simp only [hes, Option.map_some, List.flatMap]
      | _ => rfl

namespace Declarations

theorem declare?_eq {fuel d : Nat} (h : d ≤ fuel) (owner : NodeId) (s : Scope)
    (ds : Declarations) : declare? t fuel owner s ds d = some (declare t owner s ds d) := by
  rw [declare?]
  split
  · next p i hk =>
      have hp : p ∈ t.children d := by simp [Tree.children, hk, Kind.children]
      have hlt : p < d := ht.child_lt d p hp
      have hsize : d < t.size := Tree.lt_size_of_child hp
      have hvars : t.patternVars? fuel p = some (t.patternVars p) :=
        Tree.patternVars?_eq ht (Nat.lt_of_lt_of_le hlt h)
          (Nat.lt_succ_of_lt (Nat.lt_trans hlt hsize))
      rw [declare, hk, hvars]
      rfl
  · rfl

theorem collectAt?_eq {fuel fuel' d : Nat} (h : d < fuel) (h' : d < fuel') (owner : NodeId)
    (s : Scope) (ds : Declarations) :
    collectAt? t fuel owner s ds d = some (collectAt t fuel' owner s ds d) := by
  induction fuel generalizing fuel' d owner s ds with
  | zero => exact absurd h (Nat.not_lt_zero d)
  | succ fuel ih =>
      obtain ⟨fuel', rfl⟩ := Nat.exists_eq_add_one_of_ne_zero (Nat.ne_zero_of_lt h')
      have hmembers {ms : List NodeId} (hms : ∀ m ∈ ms, m ∈ t.children d) (s : Scope)
          (ds : Declarations) : ms.foldlM (collectAt? t fuel d s) ds =
            some (ms.foldl (collectAt t fuel' d s) ds) := by
        refine foldlM_eq_some (fun ds m hm => ?_) ds
        have hlt : m < d := ht.child_lt d m (hms m hm)
        exact ih (Nat.lt_of_lt_of_le hlt (Nat.le_of_lt_succ h))
          (Nat.lt_of_lt_of_le hlt (Nat.le_of_lt_succ h')) d s ds
      rw [collectAt?, declare?_eq ht (Nat.le_of_lt_succ h), collectAt]
      simp only [Option.bind_eq_bind, Option.bind_some]
      cases hk : t.kind d with
      | space i x ms => exact hmembers (by simp [Tree.children, hk, Kind.children]) _ _
      | product i x gs ms memberwise =>
          simp only []
          rw [hmembers (by simp +contextual [Tree.children, hk, Kind.children]), Option.bind_some,
            hmembers (by simp +contextual [Tree.children, hk, Kind.children])]
      | trait i x ms => exact hmembers (by simp [Tree.children, hk, Kind.children]) _ _
      | _ => rfl

theorem collectModule?_eq {fuel m : Nat} (h : t.size < fuel) (ds : Declarations) :
    collectModule? t fuel ds m = some (collectModule t ds m) := by
  rw [collectModule?, collectModule]
  cases hk : t.kind m with
  | module name us =>
      have hunits : (us.flatMap (declsOfUnit t)).foldlM
          (collectAt? t fuel m (.module ds.modules.length)) ds =
            some (collect t m (.module ds.modules.length) ds (us.flatMap (declsOfUnit t))) := by
        refine foldlM_eq_some (fun ds d hd => ?_) ds
        obtain ⟨u, -, hd⟩ := List.mem_flatMap.mp hd
        have hd : d ∈ t.children u := child_of_declsOfUnit hd
        have hlt : d < t.size := Nat.lt_trans (ht.child_lt u d hd) (Tree.lt_size_of_child hd)
        exact collectAt?_eq ht (Nat.lt_trans hlt h) (Nat.lt_succ_of_lt hlt) _ _ _
      simp only [hunits]
      rfl
  | _ => rfl

end Declarations

end Nesting

namespace Declarations

variable {t : Tree} {ds : Declarations}

def Housed (t : Tree) (ds : Declarations) : Prop :=
  ∀ d p : Nat, ds.parents.get? d = some p → p < t.size

theorem housed_empty : Housed t .empty := by
  simp [Housed, empty]

theorem Housed.setParent (h : Housed t ds) {owner : NodeId} (howner : owner < t.size)
    (d : NodeId) : Housed t (setParent owner ds d) := by
  intro i p hp
  rw [Declarations.setParent, Table.get?_insert] at hp
  split at hp
  · cases hp
    exact howner
  · exact h i p hp

theorem Housed.setParents (h : Housed t ds) {owner : NodeId} {is : List NodeId}
    (his : ∀ i ∈ is, i ∈ t.children owner) : Housed t (setParents owner ds is) :=
  List.foldlRecOn is _ h fun _ h i hi => h.setParent (Tree.lt_size_of_child (his i hi)) i

theorem Housed.collectAt (fuel : Nat) (h : Housed t ds) {owner : NodeId} (howner : owner < t.size)
    (s : Scope) (d : NodeId) : Housed t (collectAt t fuel owner s ds d) := by
  induction fuel generalizing ds owner s d with
  | zero => exact h
  | succ fuel ih =>
      have hdeclare : Housed t (declare t owner s (Declarations.setParent owner ds d) d) := by
        rw [Housed, (declare_frame t owner s (Declarations.setParent owner ds d) d).1]
        exact h.setParent howner d
      have hmembers {ms : List NodeId} (hms : ∀ m ∈ ms, m ∈ t.children d) (s : Scope)
          {ds' : Declarations} (h : Housed t ds') :
          Housed t (ms.foldl (Declarations.collectAt t fuel d s) ds') :=
        List.foldlRecOn ms _ h fun _ h m hm => ih h (Tree.lt_size_of_child (hms m hm)) s m
      rw [Declarations.collectAt]
      cases hk : t.kind d with
      | space i x ms => exact hmembers (by simp [Tree.children, hk, Kind.children]) _ hdeclare
      | product i x gs ms memberwise =>
          refine hmembers ?_ _ (hmembers ?_ _ (hdeclare.setParents ?_)) <;>
            simp +contextual [Tree.children, hk, Kind.children]
      | trait i x ms => exact hmembers (by simp [Tree.children, hk, Kind.children]) _ hdeclare
      | function i x gs ps o b =>
          exact hdeclare.setParents (by simp +contextual [Tree.children, hk, Kind.children, or_imp])
      | method i x gs ps o vs =>
          exact hdeclare.setParents (by simp +contextual [Tree.children, hk, Kind.children, or_imp])
      | init i ps b memberwise =>
          exact hdeclare.setParents (by simp +contextual [Tree.children, hk, Kind.children])
      | subscript i x ps o b =>
          exact hdeclare.setParents (by simp +contextual [Tree.children, hk, Kind.children])
      | _ => exact hdeclare

theorem Housed.collect (h : Housed t ds) {owner : NodeId} {is : List NodeId}
    (his : is ≠ [] → owner < t.size) (s : Scope) : Housed t (collect t owner s ds is) :=
  List.foldlRecOn is _ h fun _ h i hi => h.collectAt _ (his (List.ne_nil_of_mem hi)) s i

theorem Housed.collectModule (h : Housed t ds) {m : NodeId} (hm : m < t.size) :
    Housed t (collectModule t ds m) := by
  rw [Declarations.collectModule]
  split
  · exact h.collect (fun _ => hm) _
  · exact h

structure Ready (t : Tree) (ds : Declarations) : Prop where
  filed : Filed t ds
  owned : Owned t ds
  housed : Housed t ds

theorem get?_eq_none_of_size_le {α : Type} {a : Table α} {i : Nat} (h : a.slots.size ≤ i) :
    a.get? i = none := by
  rw [Table.get?, Array.getElem?_eq_none h]
  rfl

theorem Ready.ancestorsAt_eq (h : Ready t ds) {fuel fuel' d : Nat} (hpos : 0 < fuel)
    (hfuel : t.size < fuel + d) (hpos' : 0 < fuel')
    (hfuel' : ds.parents.slots.size < fuel' + d) :
    ds.ancestors? fuel d = some (ds.ancestorsAt fuel' d) := by
  induction fuel generalizing fuel' d with
  | zero => exact absurd hpos (Nat.lt_irrefl 0)
  | succ fuel ih =>
      obtain ⟨fuel', rfl⟩ := Nat.exists_eq_add_one_of_ne_zero (Nat.ne_zero_of_lt hpos')
      rw [ancestors?, ancestorsAt]
      cases hp : ds.parents.get? d with
      | none => rfl
      | some p =>
          have hdp : d < p := h.owned.parents d p hp
          have hsize := h.housed d p hp
          have hslots : d < ds.parents.slots.size := by
            by_contra hge
            simp [get?_eq_none_of_size_le (Nat.le_of_not_lt hge)] at hp
          have houter : ds.ancestors? fuel p = some (ds.ancestorsAt fuel' p) :=
            ih (by omega) (by omega) (by omega) (by omega)
          simp only [houter, Option.map_some]

theorem Ready.ancestors_eq (h : Ready t ds) {fuel : Nat} (hfuel : t.size < fuel) (d : NodeId) :
    ds.ancestors? fuel d = some (ds.ancestors d) :=
  h.ancestorsAt_eq (Nat.zero_lt_of_lt hfuel) (Nat.lt_add_right d hfuel) (Nat.succ_pos _)
    (Nat.lt_add_right d (Nat.lt_succ_self _))

theorem Ready.subjectOwner_eq (h : Ready t ds) {fuel : Nat} (hfuel : t.size < fuel)
    (ext subject : NodeId) :
    subjectOwner? t fuel ds ext subject = some (subjectOwner t ds ext subject) := by
  rw [subjectOwner?, subjectOwner]
  cases t.kind subject with
  | nameType x =>
      simp only []
      cases Builtin.ofWord x.text with
      | some b => rfl
      | none =>
          simp only []
          cases ds.parents.get? ext with
          | none => rfl
          | some parent =>
              simp only [lookup?, visible?, h.ancestors_eq hfuel, Option.map_some]
              rfl
  | _ => rfl

def waiting (t : Tree) (ds : Declarations) : Finset Nat :=
  (Finset.range t.size).filter fun x => x ∈ ds.pending ∨ ds.parents.get? x = none

theorem mem_waiting {x : Nat} : x ∈ waiting t ds ↔
    x < t.size ∧ (x ∈ ds.pending ∨ ds.parents.get? x = none) := by
  simp [waiting]

section Pending

variable {ext : NodeId} {rest : List NodeId}

theorem Filed.ne_of_waits (h : Filed t ds) (hpending : ds.pending = ext :: rest) {x : NodeId}
    (hx : x ∈ rest ∨ ds.parents.get? x = none) : x ≠ ext := by
  rintro rfl
  rcases hx with hx | hx
  · have hnodup := h.nodup
    rw [hpending, List.nodup_cons] at hnodup
    exact hnodup.1 hx
  · exact h.seen x (by simp [hpending]) hx

theorem Filed.waiting_pop (h : Filed t ds) (hpending : ds.pending = ext :: rest) :
    waiting t { ds with pending := rest } ⊆ (waiting t ds).erase ext := by
  intro x hx
  obtain ⟨hlt, hx⟩ := mem_waiting.mp hx
  refine Finset.mem_erase.mpr ⟨h.ne_of_waits hpending hx, mem_waiting.mpr ⟨hlt, ?_⟩⟩
  exact hx.imp_left fun hx => by simp [hpending, hx]

theorem Filed.waiting_collectExtension (ht : t.WellFormed) (h : Filed t ds)
    (hpending : ds.pending = ext :: rest) {subject : NodeId} {ms : List NodeId}
    (hms : (t.kind ext).members = ms) (hsub : ms.Sublist (t.children ext)) :
    waiting t (Declarations.collectExtension t { ds with pending := rest } ext subject ms) ⊆
      (waiting t ds).erase ext := by
  refine Finset.Subset.trans ?_ (h.waiting_pop hpending)
  rw [Declarations.collectExtension]
  split
  · next o _ =>
      have hmembers := h.collectMembers ht hpending hms hsub o
      have hunseen (x : NodeId) (hx : ∃ m ∈ ms, t.Below m x) : ds.parents.get? x = none := by
        obtain ⟨m, hm, hx⟩ := hx
        exact (h.fresh_of_pending ht hpending (hsub.subset hm) x hx).1
      intro x hx
      obtain ⟨hlt, hx⟩ := mem_waiting.mp hx
      refine mem_waiting.mpr ⟨hlt, ?_⟩
      rcases hx with hx | hx
      · exact (hmembers.pending x hx).imp_right (hunseen x)
      · by_cases hin : ∃ m ∈ ms, t.Below m x
        · exact .inr (hunseen x hin)
        · exact .inr ((hmembers.parents x hin).symm.trans hx)
  · exact Finset.Subset.refl _

theorem Ready.pop (h : Ready t ds) (hpending : ds.pending = ext :: rest) :
    Ready t { ds with pending := rest } where
  filed := h.filed.pop hpending
  owned := ⟨h.owned.parents, h.owned.bindings,
    fun d hd => h.owned.pending d (by simp [hpending, hd])⟩
  housed := h.housed

theorem Ready.collectExtension (ht : t.WellFormed) (h : Ready t ds)
    (hpending : ds.pending = ext :: rest) {subject : NodeId} {ms : List NodeId}
    (hms : (t.kind ext).members = ms) (hsub : ms.Sublist (t.children ext))
    (hparts : ∀ m ∈ ms, (Kind.isMember, m) ∈ (t.kind ext).parts) :
    Ready t (collectExtension t { ds with pending := rest } ext subject ms) where
  filed := h.filed.collectExtension ht hpending hms hsub
  owned := (h.pop hpending).owned.collectExtension ht
    (h.owned.pending ext (by simp [hpending])) hparts
  housed := by
    rw [Declarations.collectExtension]
    split
    · next o _ =>
        have hfiled : Housed t
            { ds with pending := rest, extended := ds.extended.insert ext o } := h.housed
        refine hfiled.collect (fun hne => ?_) _
        obtain ⟨m, hm⟩ := List.exists_mem_of_ne_nil ms hne
        exact Tree.lt_size_of_child (hsub.subset hm)
    · exact h.housed

end Pending

theorem collectExtension?_eq (ht : t.WellFormed) (h : Ready t ds) {fuel : Nat}
    (hfuel : t.size < fuel) {ext : NodeId} (subject : NodeId) {ms : List NodeId}
    (hms : ∀ m ∈ ms, m ∈ t.children ext) :
    collectExtension? t fuel ds ext subject ms =
      some (collectExtension t ds ext subject ms) := by
  rw [collectExtension?, h.subjectOwner_eq hfuel, collectExtension]
  cases subjectOwner t ds ext subject with
  | none => rfl
  | some o =>
      refine foldlM_eq_some (fun ds m hm => ?_) _
      have hlt : m < t.size :=
        Nat.lt_trans (ht.child_lt ext m (hms m hm)) (Tree.lt_size_of_child (hms m hm))
      exact collectAt?_eq ht (Nat.lt_trans hlt hfuel) (Nat.lt_succ_of_lt hlt) _ _ _

theorem collectPending?_eq (ht : t.WellFormed) (h : Ready t ds) {fuel rounds rounds' : Nat}
    (hfuel : t.size < fuel) (hrounds : (waiting t ds).card < rounds)
    (hrounds' : (waiting t ds).card < rounds') :
    collectPending? t fuel rounds ds = some (collectPending t rounds' ds) := by
  induction rounds generalizing ds rounds' with
  | zero => exact absurd hrounds (Nat.not_lt_zero _)
  | succ rounds ih =>
      obtain ⟨rounds', rfl⟩ := Nat.exists_eq_add_one_of_ne_zero (Nat.ne_zero_of_lt hrounds')
      rw [collectPending?, collectPending]
      cases hpending : ds.pending with
      | nil => rfl
      | cons ext rest =>
          obtain ⟨u, hu, hbelow⟩ := h.owned.pending ext (by simp [hpending])
          have hsize : ext < t.size :=
            Nat.lt_of_le_of_lt (hbelow.le ht) (Tree.lt_size_of_mem_units ht hu)
          have hext : ext ∈ waiting t ds := mem_waiting.mpr ⟨hsize, .inl (by simp [hpending])⟩
          have hfewer {ds' : Declarations} (h' : Ready t ds')
              (hsub : waiting t ds' ⊆ (waiting t ds).erase ext) :
              collectPending? t fuel rounds ds' = some (collectPending t rounds' ds') := by
            have hcard := Finset.card_le_card hsub
            rw [Finset.card_erase_of_mem hext] at hcard
            have hpos := Finset.card_pos.mpr ⟨ext, hext⟩
            exact ih h' (by omega) (by omega)
          have hextension {subject : NodeId} {ms : List NodeId} (hms : (t.kind ext).members = ms)
              (hsub : ms.Sublist (t.children ext))
              (hparts : ∀ m ∈ ms, (Kind.isMember, m) ∈ (t.kind ext).parts) :
              ((collectExtension? t fuel { ds with pending := rest } ext subject ms).bind
                (collectPending? t fuel rounds)) =
              some (collectPending t rounds'
                (collectExtension t { ds with pending := rest } ext subject ms)) := by
            rw [collectExtension?_eq ht (h.pop hpending) hfuel subject fun m hm => hsub.subset hm]
            exact hfewer (h.collectExtension ht hpending hms hsub hparts)
              (h.filed.waiting_collectExtension ht hpending hms hsub)
          simp only []
          cases hk : t.kind ext with
          | extension i subject ms =>
              exact hextension (by rw [hk]; rfl) (by simp [Tree.children, hk, Kind.children])
                (by simp +contextual [hk, Kind.parts])
          | conformance i subject ts ms =>
              exact hextension (by rw [hk]; rfl) (by simp [Tree.children, hk, Kind.children])
                (by simp +contextual [hk, Kind.parts])
          | _ => exact hfewer (h.pop hpending) (h.filed.waiting_pop hpending)

theorem ready_modules (ht : t.WellFormed) :
    Ready t (t.modules.foldl (collectModule t) empty) where
  filed := .collectModules ht ht.modules_nodup (filed_empty t) fun m _ _ _ _ => fresh_empty t m
  owned := .foldl (fun _ _ hm h => h.collectModule ht hm) owned_empty
  housed := List.foldlRecOn t.modules _ housed_empty fun _ h m hm =>
    h.collectModule (ht.modules_lt m hm)

theorem Ready.collectPending (ht : t.WellFormed) (h : Ready t ds) (fuel : Nat) :
    Ready t (collectPending t fuel ds) := by
  induction fuel generalizing ds with
  | zero => exact h
  | succ fuel ih =>
      rw [Declarations.collectPending]
      cases hpending : ds.pending with
      | nil => exact h
      | cons ext rest =>
          simp only []
          cases hk : t.kind ext with
          | extension i subject ms =>
              exact ih (h.collectExtension ht hpending (by rw [hk]; rfl)
                (by simp [Tree.children, hk, Kind.children]) (by simp +contextual [hk, Kind.parts]))
          | conformance i subject ts ms =>
              exact ih (h.collectExtension ht hpending (by rw [hk]; rfl)
                (by simp [Tree.children, hk, Kind.children]) (by simp +contextual [hk, Kind.parts]))
          | _ => exact ih (h.pop hpending)

theorem ready_ofTree (ht : t.WellFormed) : Ready t (ofTree t) :=
  (ready_modules ht).collectPending ht _

theorem ofTree?_eq (ht : t.WellFormed) {fuel : Nat} (hfuel : t.size < fuel) :
    ofTree? t fuel = some (ofTree t) := by
  have hmodules : t.modules.foldlM (collectModule? t fuel) empty =
      some (t.modules.foldl (collectModule t) empty) :=
    foldlM_eq_some (fun ds m _ => collectModule?_eq ht hfuel ds) empty
  have hwaiting : (waiting t (t.modules.foldl (collectModule t) empty)).card ≤ t.size := by
    rw [waiting]
    simpa using Finset.card_filter_le (Finset.range t.size) _
  rw [ofTree?, hmodules]
  exact collectPending?_eq ht (ready_modules ht) hfuel (Nat.lt_of_le_of_lt hwaiting hfuel)
    (Nat.lt_succ_of_le hwaiting)

end Declarations

end LanguageService
