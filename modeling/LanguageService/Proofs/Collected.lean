import LanguageService.Proofs.TreeShape
import LanguageService.Scope

namespace LanguageService

namespace Kind

def declared (k : Kind) : Option String := k.declares.map (·.text)

theorem isDeclaration_of_declares {k : Kind} {x : Name} (h : k.declares = some x) :
    k.isDeclaration = true := by
  cases k <;> simp_all [declares, isDeclaration]

theorem isDeclaration_of_declared {k : Kind} {x : String} (h : k.declared = some x) :
    k.isDeclaration = true := by
  obtain ⟨y, hy, -⟩ := Option.map_eq_some_iff.mp h
  exact isDeclaration_of_declares hy

theorem isDeclaration_of_isParameter {k : Kind} (h : k.isParameter = true) :
    k.isDeclaration = true := by
  cases k <;> simp_all [isParameter, isDeclaration]

theorem isDeclaration_of_isVar {k : Kind} (h : k.isVar = true) : k.isDeclaration = true := by
  cases k <;> simp_all [isVar, isDeclaration]

theorem isParameter_of_isVar {k : Kind} (h : k.isVar = true) : k.isParameter = false := by
  cases k <;> simp_all [isVar, isParameter]

theorem isParameter_of_isGeneric {k : Kind} (h : k.isGeneric = true) : k.isParameter = false := by
  cases k <;> simp_all [isGeneric, isParameter]

theorem isParameter_of_isMember {k : Kind} (h : k.isMember = true) : k.isParameter = false := by
  cases k <;> simp_all [isMember, isParameter]

def hasSignature : Kind → Bool
  | typeAlias _ _ _ => false
  | k => k.isDeclaration

theorem isDeclaration_of_hasSignature {k : Kind} (h : k.hasSignature = true) :
    k.isDeclaration = true := by
  cases k <;> simp_all [hasSignature, isDeclaration]

theorem hasSignature_of_isVar {k : Kind} (h : k.isVar = true) : k.hasSignature = true := by
  cases k <;> simp_all [isVar, hasSignature, isDeclaration]

end Kind

theorem Tree.isVar_of_mem_patternVarsAt {t : Tree} (h : t.WellFormed) {fuel : Nat} {p v : NodeId}
    (hv : v ∈ t.patternVarsAt fuel p) : (t.kind v).isVar = true := by
  induction fuel generalizing p with
  | zero => simp [patternVarsAt] at hv
  | succ fuel ih =>
      rw [patternVarsAt] at hv
      split at hv
      · exact ih hv
      · next w hp =>
          obtain rfl : v = w := by simpa using hv
          exact h.fits p (Kind.isVar, v) (by simp [hp, Kind.parts])
      · obtain ⟨q, _, hq⟩ := List.mem_flatMap.mp hv
        exact ih hq
      · simp at hv

namespace Declarations

structure Sane (t : Tree) (ds : Declarations) : Prop where
  entries : ∀ e ∈ ds.entries,
    (t.kind e.decl).declared = some e.name ∧ (t.kind e.decl).isParameter = false
  initializers : ∀ e ∈ ds.initializers, (t.kind e.2).hasSignature = true
  subscripts : ∀ e ∈ ds.subscripts, (t.kind e.2).hasSignature = true
  stored : ∀ e ∈ ds.stored, (t.kind e.2).hasSignature = true
  bindings : ∀ v b, ds.bindings.get? v = some b → (t.kind b).isBinding = true

variable {t : Tree} {ds : Declarations}

theorem sane_empty : Sane t .empty := by
  constructor <;> simp [empty]

theorem Sane.foldl {α : Type} {f : Declarations → α → Declarations} {as : List α}
    (hf : ∀ ds, ∀ a ∈ as, Sane t ds → Sane t (f ds a)) (h : Sane t ds) :
    Sane t (as.foldl f ds) := by
  induction as generalizing ds with
  | nil => exact h
  | cons a as ih => exact ih (fun ds b hb => hf ds b (by simp [hb])) (hf ds a (by simp) h)

theorem Sane.setParent (h : Sane t ds) (parent d : NodeId) : Sane t (setParent parent ds d) :=
  ⟨h.entries, h.initializers, h.subscripts, h.stored, h.bindings⟩

theorem Sane.setParents (h : Sane t ds) (parent : NodeId) (is : List NodeId) :
    Sane t (setParents parent ds is) :=
  Sane.foldl (fun _ _ _ h => h.setParent _ _) h

theorem Sane.addName (h : Sane t ds) (s : Scope) {d : NodeId}
    (hd : (t.kind d).isParameter = false) : Sane t (addName t s ds d) := by
  rw [Declarations.addName]
  split
  · next x hx =>
      refine ⟨fun e he => ?_, h.initializers, h.subscripts, h.stored, h.bindings⟩
      rcases List.mem_append.mp he with he | he
      · exact h.entries e he
      · obtain rfl : e = ⟨s, x.text, d⟩ := by simpa using he
        exact ⟨by rw [Kind.declared, hx, Option.map_some], hd⟩
  · exact h

theorem Sane.addVar (h : Sane t ds) (s : Scope) {b v : NodeId}
    (hb : (t.kind b).isBinding = true) (hv : (t.kind v).isVar = true) :
    Sane t (addVar t s b ds v) := by
  have hbound : Sane t { ds with bindings := ds.bindings.insert v b } := by
    refine ⟨h.entries, h.initializers, h.subscripts, h.stored, fun w c hc => ?_⟩
    rw [Table.get?_insert] at hc
    split at hc
    · cases hc
      exact hb
    · exact h.bindings w c hc
  exact hbound.addName s (Kind.isParameter_of_isVar hv)

theorem Sane.addStored (h : Sane t ds) (owner : NodeId) (s : Scope) {vs : List NodeId}
    (hvs : ∀ v ∈ vs, (t.kind v).hasSignature = true) :
    Sane t (addStored t owner s ds vs) := by
  unfold Declarations.addStored
  split
  · refine ⟨h.entries, h.initializers, h.subscripts, fun e he => ?_, h.bindings⟩
    rcases List.mem_append.mp he with he | he
    · exact h.stored e he
    · obtain ⟨v, hv, rfl⟩ := List.mem_map.mp he
      exact hvs v hv
  · exact h

theorem Sane.declare (ht : t.WellFormed) (h : Sane t ds) (owner : NodeId) (s : Scope)
    {d : NodeId} (hd : (t.kind d).isParameter = false) : Sane t (declare t owner s ds d) := by
  have hentry (k : Kind) (hk : t.kind d = k) (hdecl : k.hasSignature = true) :
      (t.kind d).hasSignature = true := by rw [hk, hdecl]
  rw [Declarations.declare]
  split
  · next p i hk =>
      have hvs : ∀ v ∈ t.patternVars p, (t.kind v).isVar = true := fun v hv =>
        Tree.isVar_of_mem_patternVarsAt ht hv
      refine Sane.foldl (fun ds v hv h => h.addVar s ?_ (hvs v hv))
        (h.addStored owner s fun v hv => Kind.hasSignature_of_isVar (hvs v hv))
      rw [hk]
      rfl
  · exact ⟨h.entries, h.initializers, h.subscripts, h.stored, h.bindings⟩
  · exact ⟨h.entries, h.initializers, h.subscripts, h.stored, h.bindings⟩
  · next hk =>
      unfold addInitializer
      split
      · refine ⟨h.entries, fun e he => ?_, h.subscripts, h.stored, h.bindings⟩
        rcases List.mem_append.mp he with he | he
        · exact h.initializers e he
        · obtain rfl := List.mem_singleton.mp he
          exact hentry _ hk rfl
      · exact h
  · next hk =>
      refine Sane.addName ?_ s hd
      unfold addSubscript
      split
      · refine ⟨h.entries, h.initializers, fun e he => ?_, h.stored, h.bindings⟩
        rcases List.mem_append.mp he with he | he
        · exact h.subscripts e he
        · obtain rfl := List.mem_singleton.mp he
          exact hentry _ hk rfl
      · exact h
  · exact h.addName s hd

theorem Sane.collectAt (ht : t.WellFormed) (fuel : Nat) (h : Sane t ds) (owner : NodeId)
    (s : Scope) {d : NodeId} (hd : (t.kind d).isParameter = false) :
    Sane t (collectAt t fuel owner s ds d) := by
  induction fuel generalizing ds owner s d with
  | zero => exact h
  | succ fuel ih =>
      have hdeclare := (h.setParent owner d).declare ht owner s hd
      have hmembers {ms : List NodeId} {ds' : Declarations} (s : Scope)
          (hms : ∀ m ∈ ms, (Kind.isMember, m) ∈ (t.kind d).parts) (h : Sane t ds') :
          Sane t (ms.foldl (Declarations.collectAt t fuel d s) ds') :=
        Sane.foldl (fun _ m hm h =>
          ih h _ _ (Kind.isParameter_of_isMember (ht.fits d _ (hms m hm)))) h
      rw [Declarations.collectAt]
      split
      · next hk => exact hmembers _ (by simp [hk, Kind.parts]) hdeclare
      · next gs ms memberwise hk =>
          refine Sane.foldl (fun _ i hi h => ih h _ _ ?_)
            (hmembers _ (by simp +contextual [hk, Kind.parts]) (hdeclare.setParents _ _))
          obtain ⟨_, _, _, hinit⟩ := Kind.exists_of_isMemberwise
            (ht.fits d (Kind.isMemberwise, i) (by simp [hk, Kind.parts, Option.mem_toList.mp hi]))
          rw [hinit]
          rfl
      · next hk => exact hmembers _ (by simp [hk, Kind.parts]) hdeclare
      · exact hdeclare.setParents _ _
      · exact hdeclare.setParents _ _
      · exact hdeclare.setParents _ _
      · exact hdeclare.setParents _ _
      · exact hdeclare

theorem Sane.collect (ht : t.WellFormed) (h : Sane t ds) (owner : NodeId) (s : Scope)
    {is : List NodeId} (his : ∀ i ∈ is, (t.kind i).isMember = true) :
    Sane t (collect t owner s ds is) :=
  Sane.foldl (fun _ i hi h => h.collectAt ht _ _ _ (Kind.isParameter_of_isMember (his i hi))) h

theorem Sane.collectExtension (ht : t.WellFormed) (h : Sane t ds) (ext subject : NodeId)
    {ms : List NodeId} (hms : ∀ m ∈ ms, (Kind.isMember, m) ∈ (t.kind ext).parts) :
    Sane t (collectExtension t ds ext subject ms) := by
  rw [Declarations.collectExtension]
  split
  · next o _ =>
      have hextended : Sane t { ds with extended := ds.extended.insert ext o } :=
        ⟨h.entries, h.initializers, h.subscripts, h.stored, h.bindings⟩
      exact hextended.collect ht _ _ fun m hm => ht.fits ext _ (hms m hm)
  · exact h

theorem Sane.collectPending (ht : t.WellFormed) (fuel : Nat) (h : Sane t ds) :
    Sane t (collectPending t fuel ds) := by
  induction fuel generalizing ds with
  | zero => exact h
  | succ fuel ih =>
      rw [Declarations.collectPending]
      split
      · exact h
      · next ext rest _ =>
          have hrest : Sane t { ds with pending := rest } :=
            ⟨h.entries, h.initializers, h.subscripts, h.stored, h.bindings⟩
          dsimp only
          split
          · next hk =>
              exact ih (hrest.collectExtension ht _ _ (by simp +contextual [hk, Kind.parts]))
          · next hk =>
              exact ih (hrest.collectExtension ht _ _ (by simp +contextual [hk, Kind.parts]))
          · exact ih hrest

theorem Sane.collectModule (ht : t.WellFormed) (h : Sane t ds) (m : NodeId) :
    Sane t (collectModule t ds m) := by
  rw [Declarations.collectModule]
  split
  · next units _ =>
      have hdecls : ∀ d ∈ units.flatMap (declsOfUnit t), (t.kind d).isMember = true := by
        intro d hd
        obtain ⟨u, -, hd⟩ := List.mem_flatMap.mp hd
        rw [declsOfUnit] at hd
        split at hd
        · next hk => exact ht.fits u (Kind.isMember, d) (by simp [hk, Kind.parts, hd])
        · simp at hd
      have hcollect := h.collect ht m (.module ds.modules.length) hdecls
      exact ⟨hcollect.entries, hcollect.initializers, hcollect.subscripts, hcollect.stored,
        hcollect.bindings⟩
  · exact h

theorem sane_ofTree (ht : t.WellFormed) : Sane t (ofTree t) :=
  Sane.collectPending ht _ (Sane.foldl (fun _ _ _ h => h.collectModule ht _) sane_empty)

theorem Sane.named (h : Sane t ds) {s : Scope} {x : String} {d : NodeId}
    (hd : d ∈ ds.named s x) :
    (t.kind d).declared = some x ∧ (t.kind d).isParameter = false := by
  obtain ⟨e, he, hsome⟩ := List.mem_filterMap.mp hd
  split at hsome
  · next hscope =>
      cases hsome
      rw [← hscope.2]
      exact h.entries e he
  · cases hsome

theorem exists_named_of_lookup {n d : NodeId} {x : String}
    (hd : (ds.lookup t n x).head? = some d) : ∃ s, d ∈ ds.named s x := by
  have hmem := List.mem_of_mem_head? hd
  rw [Declarations.lookup] at hmem
  generalize hfind : List.findSome? _ (visible t ds n) = found at hmem
  cases found with
  | none => simp at hmem
  | some found =>
      obtain ⟨s, _, hs⟩ := List.exists_of_findSome?_eq_some hfind
      refine ⟨s, ?_⟩
      split at hs
      · cases hs
      · cases hs
        exact hmem

theorem Sane.lookup (h : Sane t ds) {n d : NodeId} {x : String}
    (hd : (ds.lookup t n x).head? = some d) :
    (t.kind d).declared = some x ∧ (t.kind d).isParameter = false := by
  obtain ⟨s, hs⟩ := exists_named_of_lookup hd
  exact h.named hs

theorem Sane.member (h : Sane t ds) {o : Owner} {x : String} {d : NodeId}
    (hd : ds.member o x = some d) :
    (t.kind d).declared = some x ∧ (t.kind d).isParameter = false :=
  h.named (List.mem_of_mem_head? hd)

theorem Sane.hasSignature_initializersOf (h : Sane t ds) {d i : NodeId}
    (hi : i ∈ ds.initializersOf d) :
    (t.kind i).hasSignature = true := by
  obtain ⟨e, he, hsome⟩ := List.mem_filterMap.mp hi
  split at hsome
  · cases hsome
    exact h.initializers e he
  · cases hsome

theorem Sane.initializersOf (h : Sane t ds) {d i : NodeId} (hi : i ∈ ds.initializersOf d) :
    (t.kind i).isDeclaration = true :=
  Kind.isDeclaration_of_hasSignature (h.hasSignature_initializersOf hi)

theorem Sane.hasSignature_subscriptsOf (h : Sane t ds) {o : Owner} {i : NodeId}
    (hi : i ∈ ds.subscriptsOf o) :
    (t.kind i).hasSignature = true := by
  obtain ⟨e, he, hsome⟩ := List.mem_filterMap.mp hi
  split at hsome
  · cases hsome
    exact h.subscripts e he
  · cases hsome

theorem Sane.subscriptsOf (h : Sane t ds) {o : Owner} {i : NodeId} (hi : i ∈ ds.subscriptsOf o) :
    (t.kind i).isDeclaration = true :=
  Kind.isDeclaration_of_hasSignature (h.hasSignature_subscriptsOf hi)

theorem Sane.hasSignature_storedOf (h : Sane t ds) {d v : NodeId} (hv : v ∈ ds.storedOf d) :
    (t.kind v).hasSignature = true := by
  obtain ⟨e, he, hsome⟩ := List.mem_filterMap.mp hv
  split at hsome
  · cases hsome
    exact h.stored e he
  · cases hsome

theorem Sane.storedOf (h : Sane t ds) {d v : NodeId} (hv : v ∈ ds.storedOf d) :
    (t.kind v).isDeclaration = true :=
  Kind.isDeclaration_of_hasSignature (h.hasSignature_storedOf hv)

end Declarations

end LanguageService
