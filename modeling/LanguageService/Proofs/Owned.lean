import LanguageService.Proofs.Collected
import LanguageService.Proofs.LexicalScope

namespace LanguageService

namespace Tree

def Reached (t : Tree) (n : NodeId) : Prop := ∃ u ∈ t.units, t.Below u n

theorem Reached.child {t : Tree} {n c : NodeId} (h : t.Reached n) (hc : c ∈ t.children n) :
    t.Reached c := by
  obtain ⟨u, hu, hn⟩ := h
  exact ⟨u, hu, hn.trans (below_child hc)⟩

def IsMember (t : Tree) (d : NodeId) : Prop := ∃ p, (Kind.isMember, d) ∈ (t.kind p).parts

structure Collects (t : Tree) (d : NodeId) : Prop where
  reached : t.Reached d
  member : (t.kind d).isBinding = true → t.IsMember d

theorem Collects.of_member {t : Tree} {n m : NodeId} (h : t.Reached n)
    (hm : (Kind.isMember, m) ∈ (t.kind n).parts) : t.Collects m :=
  ⟨h.child (child_of_part hm), fun _ => ⟨n, hm⟩⟩

end Tree

namespace Declarations

structure Owned (t : Tree) (ds : Declarations) : Prop where
  parents : ∀ d p, ds.parents.get? d = some p → d < p
  bindings : ∀ v b, ds.bindings.get? v = some b → t.Reached b ∧ t.IsMember b
  pending : ∀ d ∈ ds.pending, t.Reached d

variable {t : Tree} {ds : Declarations}

theorem owned_empty : Owned t .empty := by
  constructor <;> simp [empty]

theorem Owned.foldl {f : Declarations → NodeId → Declarations} {is : List NodeId}
    (hf : ∀ ds, ∀ i ∈ is, Owned t ds → Owned t (f ds i)) (h : Owned t ds) :
    Owned t (is.foldl f ds) := by
  induction is generalizing ds with
  | nil => exact h
  | cons i is ih =>
      exact ih (fun ds j hj => hf ds j (by simp [hj])) (hf ds i (by simp) h)

theorem Owned.setParent (h : Owned t ds) {parent d : NodeId} (hd : d < parent) :
    Owned t (setParent parent ds d) where
  parents := by
    intro i p hp
    rw [Declarations.setParent, Table.get?_insert] at hp
    split at hp
    · next heq =>
        cases hp
        exact heq ▸ hd
    · exact h.parents i p hp
  bindings := h.bindings
  pending := h.pending

theorem Owned.setParents (h : Owned t ds) {parent : NodeId} {is : List NodeId}
    (his : ∀ i ∈ is, i < parent) : Owned t (setParents parent ds is) :=
  .foldl (fun _ i hi h => h.setParent (his i hi)) h

theorem Owned.addName (h : Owned t ds) (s : Scope) (d : NodeId) : Owned t (addName t s ds d) := by
  rw [Declarations.addName]
  split <;> exact ⟨h.parents, h.bindings, h.pending⟩

theorem Owned.addVar (h : Owned t ds) (s : Scope) {b : NodeId} (v : NodeId)
    (hb : t.Reached b ∧ t.IsMember b) : Owned t (addVar t s b ds v) := by
  have hbound : Owned t { ds with bindings := ds.bindings.insert v b } := by
    refine ⟨h.parents, fun w c hc => ?_, h.pending⟩
    rw [Table.get?_insert] at hc
    split at hc
    · cases hc
      exact hb
    · exact h.bindings w c hc
  exact hbound.addName s v

theorem Owned.declare (h : Owned t ds) (owner : NodeId) (s : Scope) {d : NodeId}
    (hd : t.Collects d) : Owned t (declare t owner s ds d) := by
  have hpending : Owned t { ds with pending := ds.pending ++ [d] } := by
    refine ⟨h.parents, h.bindings, fun i hi => ?_⟩
    rcases List.mem_append.mp hi with hi | hi
    · exact h.pending i hi
    · rw [List.mem_singleton.mp hi]
      exact hd.reached
  rw [Declarations.declare]
  split
  · next p i hk =>
      have hstored : Owned t (addStored t owner s ds (t.patternVars p)) := by
        unfold addStored
        split <;> exact ⟨h.parents, h.bindings, h.pending⟩
      refine .foldl (fun ds v _ h => h.addVar s v ⟨hd.reached, hd.member ?_⟩) hstored
      rw [hk]
      rfl
  · exact hpending
  · exact hpending
  · unfold addInitializer
    split <;> exact ⟨h.parents, h.bindings, h.pending⟩
  · refine Owned.addName ?_ s d
    unfold addSubscript
    split <;> exact ⟨h.parents, h.bindings, h.pending⟩
  · exact h.addName s d

variable (ht : t.WellFormed)

include ht

theorem Owned.collectAt (fuel : Nat) (h : Owned t ds) {owner d : NodeId} (s : Scope)
    (hd : t.Collects d) (hlt : d < owner) : Owned t (collectAt t fuel owner s ds d) := by
  induction fuel generalizing ds owner s d with
  | zero => exact h
  | succ fuel ih =>
      have hdeclare := (h.setParent hlt).declare owner s hd
      have hchild {c : NodeId} (hc : c ∈ t.children d) : c < d := ht.child_lt d c hc
      have hmembers {ms : List NodeId} {ds' : Declarations} (s : Scope)
          (hms : ∀ m ∈ ms, (Kind.isMember, m) ∈ (t.kind d).parts) (h : Owned t ds') :
          Owned t (ms.foldl (Declarations.collectAt t fuel d s) ds') :=
        .foldl (fun _ m hm h => ih h s (.of_member hd.reached (hms m hm))
          (hchild (Tree.child_of_part (hms m hm)))) h
      rw [Declarations.collectAt]
      split
      · next hk => exact hmembers _ (by simp [hk, Kind.parts]) hdeclare
      · next gs ms memberwise hk =>
          have hgenerics := hdeclare.setParents fun g (hg : g ∈ gs) =>
            hchild (by simp [Tree.children, hk, Kind.children, hg])
          refine .foldl (fun _ i hi h => ?_)
            (hmembers _ (by simp +contextual [hk, Kind.parts]) hgenerics)
          have hi : (Kind.isMemberwise, i) ∈ (t.kind d).parts := by
            simp [hk, Kind.parts, Option.mem_toList.mp hi]
          obtain ⟨_, _, _, hinit⟩ := Kind.exists_of_isMemberwise (ht.fits d _ hi)
          refine ih h _ ⟨hd.reached.child (Tree.child_of_part hi), fun hb => ?_⟩
            (hchild (Tree.child_of_part hi))
          simp [hinit, Kind.isBinding] at hb
      · next hk => exact hmembers _ (by simp [hk, Kind.parts]) hdeclare
      · next gs ps _ _ hk =>
          refine hdeclare.setParents fun i hi => hchild ?_
          rw [Tree.children, hk, Kind.children, List.append_assoc (gs ++ ps)]
          exact List.mem_append_left _ hi
      · next gs ps _ vs hk =>
          refine hdeclare.setParents fun i hi => hchild ?_
          rw [Tree.children, hk, Kind.children]
          rcases List.mem_append.mp hi with hi | hi
          · exact List.mem_append_left _ (List.mem_append_left _ hi)
          · exact List.mem_append_right _ hi
      · next hk =>
          refine hdeclare.setParents fun i hi => hchild ?_
          simp [Tree.children, hk, Kind.children, hi]
      · next hk =>
          refine hdeclare.setParents fun i hi => hchild ?_
          simp [Tree.children, hk, Kind.children, hi]
      · exact hdeclare

theorem Owned.collectExtension (h : Owned t ds) {ext subject : NodeId} {ms : List NodeId}
    (hext : t.Reached ext) (hms : ∀ m ∈ ms, (Kind.isMember, m) ∈ (t.kind ext).parts) :
    Owned t (collectExtension t ds ext subject ms) := by
  rw [Declarations.collectExtension]
  split
  · next o _ =>
      have hextended : Owned t { ds with extended := ds.extended.insert ext o } :=
        ⟨h.parents, h.bindings, h.pending⟩
      exact .foldl (fun _ m hm h => h.collectAt ht _ _ (.of_member hext (hms m hm))
        (ht.child_lt ext m (Tree.child_of_part (hms m hm)))) hextended
  · exact h

theorem Owned.collectPending (fuel : Nat) (h : Owned t ds) :
    Owned t (collectPending t fuel ds) := by
  induction fuel generalizing ds with
  | zero => exact h
  | succ fuel ih =>
      rw [Declarations.collectPending]
      split
      · exact h
      · next ext rest hpending =>
          have hrest : Owned t { ds with pending := rest } :=
            ⟨h.parents, h.bindings, fun d hd => h.pending d (by simp [hpending, hd])⟩
          have hext : t.Reached ext := h.pending ext (by simp [hpending])
          dsimp only
          split
          · next hk =>
              exact ih (hrest.collectExtension ht hext (by simp +contextual [hk, Kind.parts]))
          · next hk =>
              exact ih (hrest.collectExtension ht hext (by simp +contextual [hk, Kind.parts]))
          · exact ih hrest

theorem Owned.collectModule (h : Owned t ds) {m : NodeId} (hm : m ∈ t.modules) :
    Owned t (collectModule t ds m) := by
  rw [Declarations.collectModule]
  split
  · next units hk =>
      have hcollect : Owned t (collect t m (.module ds.modules.length) ds
          (units.flatMap (declsOfUnit t))) := by
        refine .foldl (fun _ d hd h => ?_) h
        obtain ⟨u, hu, hd⟩ := List.mem_flatMap.mp hd
        rw [declsOfUnit] at hd
        split at hd
        · next decls huk =>
            have hmember : (Kind.isMember, d) ∈ (t.kind u).parts := by simp [huk, Kind.parts, hd]
            have hunit : u ∈ t.units :=
              List.mem_flatMap.mpr ⟨m, hm, by simpa [Tree.unitsOf, hk] using hu⟩
            refine h.collectAt ht _ _ (.of_member ⟨u, hunit, .refl u⟩ hmember) ?_
            exact Nat.lt_trans (ht.child_lt u d (Tree.child_of_part hmember))
              (ht.child_lt m u (by simpa [Tree.children, hk, Kind.children] using hu))
        · simp at hd
      exact ⟨hcollect.parents, hcollect.bindings, hcollect.pending⟩
  · exact h

theorem owned_ofTree : Owned t (ofTree t) :=
  .collectPending ht _ (.foldl (fun _ _ hm h => h.collectModule ht hm) owned_empty)

omit ht in
theorem Owned.le_of_mem_ancestors (h : Owned t ds) {d q : NodeId} (hq : q ∈ ds.ancestors d) :
    d ≤ q := by
  have hat (k : Nat) : ∀ d, q ∈ ds.ancestorsAt k d → d ≤ q := by
    induction k with
    | zero => simp [ancestorsAt]
    | succ k ih =>
        intro d hq
        rw [ancestorsAt] at hq
        split at hq
        · next p hp =>
            rcases List.mem_cons.mp hq with rfl | hq
            · exact Nat.le_refl q
            · exact Nat.le_trans (Nat.le_of_lt (h.parents d p hp)) (ih p hq)
        · rw [List.mem_singleton.mp hq]
  exact hat _ d hq

end Declarations

end LanguageService
