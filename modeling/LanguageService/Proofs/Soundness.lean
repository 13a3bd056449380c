import LanguageService.Check
import LanguageService.Proofs.CheckedDecl
import LanguageService.Proofs.Filed
import LanguageService.Proofs.Lowered

namespace LanguageService

namespace Check

variable {e : Env} (ht : e.tree.WellFormed) (hds : e.decls.Sane e.tree)
  (hinits : ∀ d, ∀ i ∈ e.decls.initializersOf d,
    e.tree.Initializes (Declarations.ofTree e.tree).extended d i)
  (hdecls : e.decls = .ofTree e.tree)

theorem step_records (run : Run) : Records (step e run) :=
  fun d _ a s' h hidle => signature_records d hidle a s' h

theorem perform_records (fuel : Nat) : Records (perform e fuel) := by
  cases fuel with
  | zero =>
      intro d s a s' h
      cases h
  | succ fuel => exact step_records (perform e fuel)

include ht hds hinits hdecls

theorem step_obeys {run : Run} (hrun : Obeys e.tree run) (hrecords : Records run) :
    Obeys e.tree (step e run) := by
  intro opened j s hinv hready
  cases j with
  | decl d => exact (decl_spec ht hrun hinv hready).bind fun _ _ h => .pure h
  | signature d => exact signature_spec ht hds hrun hdecls hrecords hinv hready
  | typeAlias d => exact typeAlias_spec ht hrun hinv hready
  | subject ext => exact subject_spec ht hrun ext hinv
  | typeExpr n ctx => exact typeExpr_spec ht hds hrun hinv hready
  | binding b ctx inBody => exact (binding_spec ht hrun hinv hready).bind fun _ _ h => .pure h
  | pattern p ty inBody =>
      exact (pattern_spec ht hrun hinv hready).bind fun _ _ h => .pure ⟨h.1, h.2 _⟩
  | stmt n ctx => exact (stmt_spec ht hrun hinv hready).bind fun _ _ h => .pure ⟨h.1, h.2 _⟩
  | expr n ctx => exact expr_spec ht hds hrun hinits hdecls hinv hready

theorem perform_obeys (fuel : Nat) : Obeys e.tree (perform e fuel) := by
  induction fuel with
  | zero =>
      intro opened j s _ _ a s' h
      cases h
  | succ fuel ih =>
      intro opened j s hinv hready
      exact step_obeys ht hds hinits hdecls ih (perform_records fuel) opened j s hinv hready

omit ht hds hinits hdecls in
theorem checkDecls_eq_each (fuel : Nat) (ds : List NodeId) :
    checkDecls e fuel ds = each (perform e fuel) (ds.map .decl) := by
  induction ds with
  | nil => rfl
  | cons d ds ih =>
      rw [checkDecls, ih]
      simp [each]

omit ht hds hinits hdecls in
theorem invariant_initial (t : Tree) (ds : DiagnosticSet) :
    Invariant t nowhere (.initial ds) where
  done := by simp [State.initial, State.IsChecked, Table.contains]
  bound := by simp [State.initial, State.Soft]
  untouched := by simp [State.initial]
  frames := by simp [State.initial]
  proper := by simp [State.initial]
  plain := by simp [State.initial]
  subjects := by simp [State.initial]
  metatypes := by simp [State.initial]
  points := by simp [State.initial]
  inText := by simp [State.initial]
  entered := by simp [State.initial]
  stored := by simp [State.initial]
  inputs := by simp [State.initial]

end Check

namespace Tree

variable {t : Tree} (ht : t.WellFormed)

include ht

theorem units_nodup : t.units.Nodup := by
  have hunits : ∀ m, ∀ u ∈ t.unitsOf m, u ∈ t.children m := by
    intro m u hu
    rw [unitsOf] at hu
    split at hu
    · next hk => simpa [children, hk, Kind.children] using hu
    · simp at hu
  refine List.nodup_flatMap.mpr ⟨fun m _ => ?_, ht.modules_nodup.imp fun hne => ?_⟩
  · rw [unitsOf]
    split
    · next hk => simpa [children, hk, Kind.children] using ht.children_nodup m
    · exact .nil
  · intro u hu hu'
    exact hne (ht.parent_unique _ _ u (hunits _ u hu) (hunits _ u hu'))

omit ht in
theorem module_of_unit {u : NodeId} (hu : u ∈ t.units) :
    ∃ m name us, t.kind m = .module name us ∧ u ∈ t.children m := by
  obtain ⟨m, -, hu⟩ := List.mem_flatMap.mp hu
  rw [unitsOf] at hu
  split at hu
  · next name us hk => exact ⟨m, name, us, hk, by simpa [children, hk, Kind.children] using hu⟩
  · simp at hu

theorem isUnit_of_mem_units {u : NodeId} (hu : u ∈ t.units) : (t.kind u).isUnit = true := by
  obtain ⟨m, name, us, hm, hum⟩ := module_of_unit hu
  exact ht.fits m (Kind.isUnit, u) (by simpa [children, hm, Kind.children, Kind.parts] using hum)

theorem units_apart {u u' x : NodeId} (hu : u ∈ t.units) (hu' : u' ∈ t.units) (hne : u ≠ u') :
    ¬ (t.Below u x ∧ t.Below u' x) := by
  have houtside {a b : NodeId} (hb : b ∈ t.units) (ha : a ∈ t.units) (hne : a ≠ b) :
      ¬ t.Below a b := by
    intro hab
    obtain ⟨m, name, us, hm, hbm⟩ := module_of_unit hb
    obtain ⟨q, hq, hbq⟩ := hab.parent hne.symm
    obtain rfl := ht.parent_unique _ _ _ hbm hbq
    obtain rfl := eq_of_below_module ht hm hq
    obtain ⟨m', _, _, hm', ham'⟩ := module_of_unit ha
    obtain ⟨f, hf, hkind⟩ := kind_of_child ht ham'
    rw [hm] at hkind
    simp [Kind.not_part_of_module hf] at hkind
  rintro ⟨hx, hx'⟩
  rcases hx.linear ht hx' with h | h
  · exact houtside hu' hu hne h
  · exact houtside hu hu' hne.symm h

omit ht in
theorem part_cases {t : Tree} (d : NodeId) : ∀ p ∈ (t.kind d).parts, p.1 ∈ Kind.sorts ∨
    p.1 = Kind.isStmt ∧
      ((t.kind d).isStmt = true ∨ (t.kind d).isVariant = true ∨ p.2 ∈ t.bodies d) ∨
    p.1 = Kind.isVariant ∧ ∀ b, Check.variantBody t p.2 = some b → b ∈ t.bodies d := by
  cases hk : t.kind d <;> simp +contextual [hk, Kind.parts, Kind.isStmt, Kind.isVariant, Kind.sorts,
    Tree.bodies, or_imp, forall_and]
  exact fun v hv => .inr (.inr fun b hb => ⟨v, hv, hb⟩)

theorem enclosing {u x : NodeId} (hu : (t.kind u).isUnit = true)
    (hx : t.Below u x) :
    ((t.kind x).isStmt = true → ∃ d b, t.Below u d ∧ b ∈ t.bodies d ∧ t.Below b x) ∧
      ((t.kind x).isVariant = true →
        ∃ d, t.Below u d ∧ ∀ b, Check.variantBody t x = some b → b ∈ t.bodies d) := by
  induction hx with
  | refl =>
      obtain ⟨ds, hk⟩ := Kind.exists_of_isUnit hu
      simp [hk, Kind.isStmt, Kind.isVariant]
  | @tail q y hq hy ih =>
      obtain ⟨f, hf, hkind⟩ := kind_of_child ht hy
      rcases part_cases q _ hf with hsort | ⟨rfl, hstmt⟩ | ⟨rfl, hvariant⟩
      · simp [Kind.not_of_mem_sorts hsort hkind]
      · refine ⟨fun _ => ?_, by simp [Kind.isVariant_of_isStmt hkind]⟩
        rcases hstmt with hstmt | hvariant | hbody
        · obtain ⟨d, b, hd, hb, hbelow⟩ := ih.1 hstmt
          exact ⟨d, b, hd, hb, hbelow.trans (below_child hy)⟩
        · obtain ⟨d, hd, hbodies⟩ := ih.2 hvariant
          obtain ⟨_, _, b, hk⟩ := Kind.exists_of_isVariant hvariant
          obtain rfl : y = b := by simpa [children, hk, Kind.children] using hy
          exact ⟨d, y, hd, hbodies y (by simp [Check.variantBody, hk]), .refl y⟩
        · exact ⟨q, y, hq, hbody, .refl y⟩
      · refine ⟨fun hstmt => ?_, fun _ => ⟨q, hq, hvariant⟩⟩
        simp [Kind.isVariant_of_isStmt hstmt] at hkind

end Tree

namespace Check

variable {t : Tree} (ht : t.WellFormed)

include ht

theorem ownDecls_pairwise :
    (ownDecls t).Pairwise fun d d' => ∀ x, ¬ (t.Below d x ∧ t.Below d' x) := by
  refine Declarations.declsOfUnits_pairwise ht ?_
  refine ((Tree.units_nodup ht).filter _).imp_of_mem fun hu hu' hne x => ?_
  exact Tree.units_apart ht (List.mem_of_mem_filter hu) (List.mem_of_mem_filter hu') hne

theorem isMember_of_mem_ownDecls {d : NodeId} (hd : d ∈ ownDecls t) :
    (t.kind d).isMember = true := by
  obtain ⟨u, -, hd⟩ := List.mem_flatMap.mp hd
  rw [Declarations.declsOfUnit] at hd
  split at hd
  · next hk => exact ht.fits u (Kind.isMember, d) (by simp [hk, Kind.parts, hd])
  · simp at hd

omit ht in
theorem exists_final_of_typeCheck {p : Program} (hcheck : typeCheck t = .ok p) :
    ∃ s, final t (fuelFor t) = some s ∧ s.Clean ∧ p = s.program t := by
  rw [typeCheck] at hcheck
  split at hcheck
  · cases hcheck
  · next s hfinal =>
      split at hcheck
      · cases hcheck
      · next hclean =>
          cases hcheck
          exact ⟨s, hfinal, by simpa [State.Clean] using hclean, rfl⟩

theorem final_spec {fuel : Nat} {s : State} (h : final t fuel = some s) :
    Invariant t nowhere s ∧ ∀ d ∈ ownDecls t, Finished t d s := by
  obtain ⟨⟨v, s'⟩, hrun, rfl⟩ := Option.map_eq_some_iff.mp h
  rw [checkDecls_eq_each] at hrun
  have hapart : ((ownDecls t).map Job.decl).Pairwise (Job.Apart t) :=
    List.pairwise_map.mpr (ownDecls_pairwise ht)
  have hobeys : Obeys t (perform ⟨t, .ofTree t⟩ fuel) :=
    perform_obeys (e := ⟨t, .ofTree t⟩) ht (Declarations.sane_ofTree ht)
      (fun _ _ => Declarations.initializes_ofTree ht) rfl fuel
  have hready : ∀ j ∈ (ownDecls t).map Job.decl, j.Ready t nowhere
      (.initial (Declarations.duplicates t (.ofTree t))) := by
    intro j hj
    obtain ⟨d, hd, rfl⟩ := List.mem_map.mp hj
    refine ⟨isMember_of_mem_ownDecls ht hd, fun a => ?_, fun _ _ _ _ => rfl⟩
    simp [State.IsActive, State.initial, nowhere]
  obtain ⟨hmoves, hresults⟩ := each_spec ht hobeys hapart (invariant_initial t _) hready v s' hrun
  refine ⟨hmoves.invariant, fun d hd => ?_⟩
  obtain ⟨a, hfinished⟩ := hresults _ (List.mem_map_of_mem hd)
  exact hfinished

theorem final_lawful {fuel : Nat} {s : State} (h : final t fuel = some s) (hclean : s.Clean)
    {u x : NodeId} (hu : u ∈ t.units) (hown : t.isInherited u = false) (hx : t.Below u x) :
    (s.program t).Lawful x := by
  obtain ⟨ds, hk⟩ := Kind.exists_of_isUnit (Tree.isUnit_of_mem_units ht hu)
  rcases Tree.below_iff.mp hx with rfl | ⟨d, hd, hx⟩
  · exact .of_hasRule (by simp [State.program, hk, Kind.hasRule])
  · refine ((final_spec ht h).2 d ?_).lawful hclean x hx
    refine List.mem_flatMap.mpr ⟨u, List.mem_filter.mpr ⟨hu, by simp [hown]⟩, ?_⟩
    simpa [Declarations.declsOfUnit, Tree.children, hk, Kind.children] using hd

end Check

inductive Tree.Parsed : Tree → Prop
  | empty : Parsed .empty
  | module {base t : Tree} {name : String} {files : List File} (hbase : Parsed base)
      (h : parseModule base name files = .ok t) : Parsed t

theorem Tree.Parsed.wellFormed {t : Tree} (h : t.Parsed) : t.WellFormed := by
  induction h with
  | empty => exact wellFormed_empty
  | module _ h ih => exact parseModule_wellFormed ih h

/-- If the check of a parsed module finds nothing wrong, then what it has recorded obeys the
typing rules everywhere in the module. -/
theorem typeCheck_sound {base t : Tree} {name : String} {files : List File} {p : Program}
    (hbase : base.Parsed) (hparse : Tree.parseModule base name files = .ok t)
    (hcheck : typeCheck t = .ok p) {u x : NodeId} (hu : u ∈ t.units)
    (hown : t.isInherited u = false) (hx : t.Below u x) :
    p.tree = t ∧ p.Accepts x ∧ ∀ introducer value, t.kind x = .ret introducer value →
      ∃ d b ty, b ∈ t.bodies d ∧ t.Below b x ∧ p.HasOutput d ty ∧ p.Returns ty x := by
  have ht := Tree.parseModule_wellFormed hbase.wellFormed hparse
  obtain ⟨s, hfinal, hclean, rfl⟩ := Check.exists_final_of_typeCheck hcheck
  refine ⟨rfl, (Check.final_lawful ht hfinal hclean hu hown hx).accepts, ?_⟩
  intro introducer value hk
  have hunit := Tree.isUnit_of_mem_units ht hu
  obtain ⟨d, b, hd, hb, hbelow⟩ := (Tree.enclosing ht hunit hx).1 (by simp [hk, Kind.isStmt])
  obtain ⟨ty, houtput, hreturns⟩ :=
    (Check.final_lawful ht hfinal hclean hu hown hd).accepts.output b hb
  exact ⟨d, b, ty, hb, hbelow, houtput, hreturns x hbelow⟩

def vectorDocument : File :=
  .document "file:///main.orca" "
    type Vec \x7b
      var x: Int
      init(x: Int) \x7b return; \x7d
      fun +(other: Vec) -> Vec \x7b return Vec(x + other.x); \x7d
    \x7d
    let limit: Int = 10
    fun sum(a: Vec, b: Vec) -> Vec \x7b return a + b; \x7d
    fun run() \x7b
      var n = 0
      while n < limit \x7b n = n + 1; \x7d
      if n == limit \x7b return; \x7d
      let v = sum(Vec(n), Vec(limit))
    \x7d"

set_option maxRecDepth 4000 in
theorem vectorDocument_accepts : ∃ t p, Tree.parseModule .empty "main" [vectorDocument] = .ok t ∧
    typeCheck t = .ok p ∧ ∃ u ∈ t.units, t.isInherited u = false ∧
      ∀ x, t.Below u x → p.Accepts x := by
  have hrun : (match Tree.parseModule .empty "main" [vectorDocument] with
      | .error _ => false
      | .ok t => match typeCheck t with
        | .error _ => false
        | .ok _ => t.units.any fun u => !t.isInherited u) = true := by
    rw [Tree.parseModule, Tree.parseUnits, Tree.parseUnit,
      Layout.ofFile_of_text vectorDocument rfl]
    decide +kernel
  cases hparse : Tree.parseModule .empty "main" [vectorDocument] with
  | error e => simp [hparse] at hrun
  | ok t =>
      cases hcheck : typeCheck t with
      | error e => simp [hparse, hcheck] at hrun
      | ok p =>
          simp only [hparse, hcheck, List.any_eq_true, Bool.not_eq_true'] at hrun
          obtain ⟨u, hu, hown⟩ := hrun
          exact ⟨t, p, rfl, hcheck, u, hu, hown,
            fun x hx => (typeCheck_sound .empty hparse hcheck hu hown hx).2.1⟩

end LanguageService
