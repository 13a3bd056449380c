import LanguageService.Proofs.FulfillingDecl
import LanguageService.Proofs.References
import LanguageService.Proofs.ScopeMembers
import LanguageService.Proofs.NameSites

namespace LanguageService

namespace Check

variable {e : Env}

section Runs

variable (ht : e.tree.WellFormed) (hds : e.decls.Sane e.tree) (hletters : e.tree.Lettered)

include ht hds hletters

theorem step_thorough {run : Run} (hrun : Thorough e run) : Thorough e (step e run) := by
  intro j s hs hj
  have hvoid {m : CheckM Unit} {j : Job} (hnone : j.Unsettles e.tree = nowhere)
      (hexpr : ∀ n ctx, j ≠ .expr n ctx) (hm : Proceeds e m s fun _ s' => j.Done e.tree s') :
      Ends (m >>= fun _ => pure Ty.void) s fun a s' => Keeps e (j.Unsettles e.tree) s s' ∧
        a.rooted e.tree = true ∧ j.Done e.tree s' ∧
          ∀ n ctx, j = .expr n ctx → s'.types.get? n = some a := by
    rw [hnone]
    exact Ends.bind hm fun _ s' h => .pure ⟨h.1, rfl, h.2, fun n ctx hk => absurd hk (hexpr n ctx)⟩
  have hty {m : CheckM Ty} {j : Job} (hnone : j.Unsettles e.tree = nowhere)
      (hexpr : ∀ n ctx, j ≠ .expr n ctx)
      (hm : Proceeds e m s fun a s' => a.rooted e.tree = true ∧ j.Done e.tree s') :
      Ends m s fun a s' => Keeps e (j.Unsettles e.tree) s s' ∧
        a.rooted e.tree = true ∧ j.Done e.tree s' ∧
          ∀ n ctx, j = .expr n ctx → s'.types.get? n = some a := by
    rw [hnone]
    exact Ends.mono hm fun _ _ h => ⟨h.1, h.2.1, h.2.2, fun n ctx hk => absurd hk (hexpr n ctx)⟩
  cases j with
  | decl d => exact hvoid rfl nofun (decl_proceeds ht hrun hs hj)
  | signature d => exact hty rfl nofun (signature_proceeds ht hrun hds hs hj)
  | typeAlias d => exact hty rfl nofun (typeAlias_proceeds ht hrun hs hj)
  | subject ext => exact hty rfl nofun (subject_proceeds ht hrun hs ext)
  | typeExpr n ctx => exact hty rfl nofun (typeExpr_proceeds ht hrun hs hj.2 hj.1)
  | binding b ctx inBody => exact hvoid rfl nofun (binding_proceeds ht hrun hj.1 hs hj.2 inBody)
  | pattern p ty inBody => exact hvoid rfl nofun (pattern_proceeds ht hrun hs p hj inBody)
  | stmt n ctx => exact hvoid rfl nofun (stmt_proceeds ht hrun hs hj.1 hj.2)
  | expr n ctx =>
      refine (expr_ends ht hrun hds hj.1 hletters hs hj.2).mono fun a s' h => ?_
      refine ⟨h.1, h.2.1, trivial, ?_⟩
      rintro _ _ ⟨⟩
      exact h.2.2

theorem perform_thorough (fuel : Nat) : Thorough e (perform e fuel) := by
  induction fuel with
  | zero => exact fun j s _ _ a s' h => nomatch h
  | succ fuel ih => exact fun j s hs hj => step_thorough ht hds hletters ih j s hs hj

end Runs

variable {t : Tree} {s : State}

theorem final_thorough (h : t.Parsed) {fuel : Nat} (hfinal : final t fuel = some s) :
    (∀ n, s.Answers ⟨t, .ofTree t⟩ n) ∧ (∀ d ty, s.types.get? d = some ty → ty.rooted t = true) ∧
      (∀ d, s.inProgress.get? d = none) ∧
      ∀ d ∈ ownDecls t, ∀ n, t.Below d n → s.Looks t n := by
  have ht := h.wellFormed
  have hrun : Thorough ⟨t, .ofTree t⟩ (perform ⟨t, .ofTree t⟩ fuel) :=
    perform_thorough ht (Declarations.sane_ofTree ht) h.lettered fuel
  have hs (ds : DiagnosticSet) : State.Orderly t (.initial ds) := by
    constructor <;> simp [State.initial]
  obtain ⟨⟨_, s'⟩, hcheck, rfl⟩ := Option.map_eq_some_iff.mp hfinal
  rw [checkDecls_eq_each] at hcheck
  obtain ⟨hkeeps, hdone⟩ := hrun.each (hs _) (fun j hj => by
    obtain ⟨d, hd, rfl⟩ := List.mem_map.mp hj
    obtain ⟨u, -, -, hmember⟩ := mem_ownDecls hd
    exact ht.fits u _ hmember) (fun j hj => by
    obtain ⟨d, -, rfl⟩ := List.mem_map.mp hj
    exact fun _ => id) _ _ hcheck
  refine ⟨fun n => hkeeps.answers n id ?_, hkeeps.orderly.types, fun d => ?_, fun d hd n hn => ?_⟩
  · constructor <;> simp [State.initial, State.IsChecked, Table.contains]
  · rw [hkeeps.inProgress]
    simp [State.initial]
  · exact hdone (.decl d) (List.mem_map_of_mem hd) n hn

end Check

namespace Kind

/-- What a part has to be that is no type, no parameter and no pattern with an introducer. -/
def otherSorts : List (Kind → Bool) :=
  [isUnit, isMember, isMemberwise, isGeneric, isExpr, isBinding, isPattern, isVar, isStmt,
    isVariant]

theorem not_otherSort {k : Kind}
    (h : k.isType = true ∨ k.isParameter = true ∨ k.isBindingPattern = true) :
    ∀ g ∈ otherSorts, g k = false := by
  cases k <;> first | simp [isType, isParameter, isBindingPattern] at h; done |
    simp [otherSorts, isUnit, isMember, isMemberwise, isGeneric, isExpr, isBinding, isPattern,
      isVar, isStmt, isVariant]

/-- Where a type is written: in a type, in a signature, after an extension, or at a binding. -/
def Writes (k : Kind) (c : NodeId) : Prop :=
  c ∈ k.writtenTypes ∨ k.subject? = some c ∨
    (∃ introducer subject ts ms, k = conformance introducer subject ts ms ∧ c ∈ ts) ∨
      ∃ introducer how sub, k = bindingPattern introducer how sub (some c)

theorem sort_of_part (k : Kind) : ∀ p ∈ k.parts, p.1 ∈ otherSorts ∨
    (p.1 = isType ∧ k.Writes p.2) ∨
    (p.1 = isParameter ∧ ∃ ps, k.parameters? = some ps ∧ p.2 ∈ ps) ∨
    p.1 = isBindingPattern ∧ ∃ i, k = binding p.2 i := by
  cases k <;> first
    | exact List.forall_mem_nil _
    | simp +contextual [parts, otherSorts, Writes, writtenTypes, subject?, parameters?, or_imp,
        forall_and]

theorem not_isType_of_isParameter {k : Kind} (h : k.isParameter = true) : k.isType = false := by
  cases k <;> first | rfl | cases h

theorem not_isBindingPattern_of_isType {k : Kind} (h : k.isType = true) :
    k.isBindingPattern = false := by
  cases k <;> first | rfl | cases h

theorem not_isBindingPattern_of_isParameter {k : Kind} (h : k.isParameter = true) :
    k.isBindingPattern = false := by
  cases k <;> first | rfl | cases h

section Parts

variable {k k' : Kind} {f : Kind → Bool} {c : NodeId} (h : (f, c) ∈ k.parts) (hf : f k' = true)

include h hf

theorem writes_of_part (hk' : k'.isType = true) : k.Writes c := by
  rcases sort_of_part k _ h with hother | ⟨-, hwrites⟩ | ⟨rfl, -⟩ | ⟨rfl, -⟩
  · simp [not_otherSort (.inl hk') f hother] at hf
  · exact hwrites
  · simp [not_isType_of_isParameter hf] at hk'
  · simp [not_isBindingPattern_of_isType hk'] at hf

theorem parameter_of_part (hk' : k'.isParameter = true) :
    ∃ ps, k.parameters? = some ps ∧ c ∈ ps := by
  rcases sort_of_part k _ h with hother | ⟨rfl, -⟩ | ⟨-, hps⟩ | ⟨rfl, -⟩
  · simp [not_otherSort (.inr (.inl hk')) f hother] at hf
  · simp [not_isType_of_isParameter hk'] at hf
  · exact hps
  · simp [not_isBindingPattern_of_isParameter hk'] at hf

theorem binding_of_part (hk' : k'.isBindingPattern = true) : ∃ i, k = binding c i := by
  rcases sort_of_part k _ h with hother | ⟨rfl, -⟩ | ⟨rfl, -⟩ | ⟨-, hbinding⟩
  · simp [not_otherSort (.inr (.inr hk')) f hother] at hf
  · simp [not_isBindingPattern_of_isType hf] at hk'
  · simp [not_isBindingPattern_of_isParameter hf] at hk'
  · exact hbinding

end Parts

theorem sorts_of_writtenTypes {k : Kind} {c : NodeId} (h : c ∈ k.writtenTypes) :
    k.isType = true ∨ k.isParameter = true ∨ k.hasParameters = true ∨ k.isTypeAlias = true := by
  cases k <;> simp_all [writtenTypes, isType, isParameter, hasParameters, parameters?, isTypeAlias]

theorem notUnit_of_member {k : Kind} (hk : k.isMember = true ∨ k.isMemberwise = true) :
    k.isUnit = false := by
  cases k <;> first | rfl | simp [isMember, isMemberwise] at hk

end Kind

namespace Tree

variable {t : Tree}

def Unfiled (t : Tree) (n : NodeId) : Prop :=
  ∃ outer, (t.kind outer).waits = true ∧ (Declarations.ofTree t).extended.get? outer = none ∧
    t.Below outer n ∧ n ≠ outer

theorem Unfiled.below {n x : NodeId} (ht : t.WellFormed) (h : t.Unfiled n) (hx : t.Below n x) :
    t.Unfiled x := by
  obtain ⟨outer, hwaits, hunfiled, hn, hne⟩ := h
  refine ⟨outer, hwaits, hunfiled, hn.trans hx, ?_⟩
  rintro rfl
  exact hne (hn.antisymm ht hx)

def Overlooked (t : Tree) (n : NodeId) : Prop :=
  ∃ ext m, t.Unfiled ext ∧ (t.kind ext).subject? = some m ∧ t.Below m n

theorem waits_of_scopeOf {n : NodeId} {ds : Declarations} (hn : (t.kind n).isContainer = true)
    (hunit : (t.kind n).isUnit = false) (hmodule : t.isModule n = false)
    (hs : Declarations.scopeOf t ds n = none) : (t.kind n).waits = true := by
  rw [isModule] at hmodule
  rw [Declarations.scopeOf] at hs
  cases hk : t.kind n <;>
    simp [hk, Kind.isContainer, Kind.isUnit] at hn hunit hmodule hs <;> rfl

theorem mem_membersOf_of_isContainer (ht : t.WellFormed) {n c : NodeId} (hc : c ∈ t.children n)
    (hkind : (t.kind c).isContainer = true) (hn : (t.kind n).isUnit = false)
    (hmodule : t.isModule n = false) : c ∈ t.membersOf n := by
  obtain ⟨f, hf, hfits⟩ := kind_of_child ht hc
  have hparts : ∀ p ∈ (t.kind n).parts, p.1 ∈ Kind.innerSorts ∨ p.2 ∈ t.membersOf n := by
    have hcontainer := isContainer_of_child ht hc hkind
    clear hf hc hkind
    rw [membersOf]
    rw [isModule] at hmodule
    cases hk : t.kind n <;> simp only [hk] at hcontainer hn hmodule <;>
      first | cases hcontainer; done | cases hn; done | cases hmodule; done |
        simp +contextual [Kind.parts, Kind.innerSorts, or_imp, forall_and]
  refine (hparts _ hf).resolve_left fun hmem => ?_
  simp [Kind.innerSorts_of_isContainer hkind f hmem] at hfits

theorem mem_membersOf_of_unit (ht : t.WellFormed) {u n : NodeId} (hu : u ∈ t.units)
    (hn : n ∈ t.children u) : ∃ m ∈ t.modules, n ∈ t.membersOf m := by
  obtain ⟨m, hm, hum⟩ := List.mem_flatMap.mp hu
  obtain ⟨ds, hk⟩ := Kind.exists_of_isUnit (isUnit_of_mem_units ht hu)
  refine ⟨m, hm, ?_⟩
  rw [unitsOf] at hum
  split at hum
  · next name us hkm =>
      rw [membersOf, hkm]
      refine List.mem_flatMap.mpr ⟨u, hum, ?_⟩
      simpa [Declarations.declsOfUnit, children, hk, Kind.children] using hn
  · cases hum

variable (h : t.Parsed) {u : NodeId} (hu : u ∈ t.units)

include h hu

theorem exists_reached {n : NodeId} (hn : t.Below u n) (hne : n ≠ u)
    (hkind : (t.kind n).isContainer = true) :
    (∃ p, Declarations.Reached t (.ofTree t) p ∧ n ∈ t.membersOf p) ∨ t.Unfiled n := by
  have ht := h.wellFormed
  induction hn with
  | refl => exact absurd rfl hne
  | @tail q n hq hn ih =>
      by_cases hqu : q = u
      · subst hqu
        obtain ⟨m, hm, hmember⟩ := mem_membersOf_of_unit ht hu hn
        exact .inl ⟨m, .module hm, hmember⟩
      · have hcontainer := isContainer_of_child ht hn hkind
        have hmodule := notModule_of_below h hu hq
        rcases ih hqu hcontainer with ⟨p, hp, hqp⟩ | hunfiled
        · have hunit := Kind.notUnit_of_member (Declarations.kind_of_mem_membersOf ht hqp)
          have hmember := mem_membersOf_of_isContainer ht hn hkind hunit hmodule
          cases hs : Declarations.scopeOf t (.ofTree t) q with
          | some s => exact .inl ⟨q, .member hp hqp (by simp [hs]), hmember⟩
          | none =>
              have hwaits := waits_of_scopeOf hcontainer hunit hmodule hs
              rw [Declarations.scopeOf_of_waits hwaits, Option.map_eq_none_iff] at hs
              exact .inr ⟨q, hwaits, hs, below_child hn, (ht.child_lt q n hn).ne⟩
        · exact .inr (hunfiled.below ht (below_child hn))

theorem unfiled_of_parents {ext : NodeId} (hext : t.Below u ext)
    (hwaits : (t.kind ext).waits = true)
    (hparent : (Declarations.ofTree t).parents.get? ext = none) : t.Unfiled ext := by
  have hcontainer : (t.kind ext).isContainer = true := by
    cases hk : t.kind ext <;> simp_all [Kind.waits, Kind.isContainer]
  have hne : ext ≠ u := by
    rintro rfl
    have hunit := isUnit_of_mem_units h.wellFormed hu
    cases hk : t.kind ext <;> simp_all [Kind.waits, Kind.isUnit]
  refine (exists_reached h hu hext hne hcontainer).resolve_left ?_
  rintro ⟨p, hp, hmember⟩
  have hsome := (Declarations.complete_ofTree h).parents p hp ext hmember
  simp [hparent] at hsome

end Tree

namespace Check

variable {t : Tree} {s : State} {d n : NodeId}

section Written

variable (h : t.Parsed) (hanswers : ∀ n, s.Answers ⟨t, .ofTree t⟩ n)
  (hlooks : ∀ n, t.Below d n → s.Looks t n) (hmember : (t.kind d).isMember = true)

include h hanswers hlooks hmember

theorem ascription_typed {introducer : Site} {how : Introducer} {sub a : NodeId} (hn : t.Below d n)
    (hk : t.kind n = .bindingPattern introducer how sub (some a)) : s.types.get? a ≠ none := by
  have hne : n ≠ d := by
    rintro rfl
    simp [hk, Kind.isMember] at hmember
  obtain ⟨b, hb, hchild⟩ := hn.parent hne
  obtain ⟨f, hf, hfits⟩ := Tree.kind_of_child h.wellFormed hchild
  obtain ⟨i, hbinding⟩ := Kind.binding_of_part hf hfits (by rw [hk]; rfl)
  exact (hanswers b).ascription n i introducer how sub a hbinding hk
    ((hlooks b hb).checked (by rw [hbinding]; rfl))

variable (hidle : ∀ d, s.inProgress.get? d = none)

include hidle

theorem parameter_typed (hn : t.Below d n) (hkind : (t.kind n).isParameter = true) :
    s.types.get? n ≠ none := by
  have htyped {n : NodeId} (hn : s.Holds n) : s.types.get? n ≠ none :=
    hn.resolve_right (by simp [hidle])
  have hne : n ≠ d := by
    rintro rfl
    cases hk : t.kind n <;> simp_all [Kind.isMember, Kind.isParameter]
  obtain ⟨q, hq, hchild⟩ := hn.parent hne
  obtain ⟨f, hf, hfits⟩ := Tree.kind_of_child h.wellFormed hchild
  obtain ⟨ps, hps, hmem⟩ := Kind.parameter_of_part hf hfits hkind
  have hholds := (hlooks q hq).holds (.inl (by simp [Kind.hasParameters, hps]))
  exact htyped (((hanswers q).typed (htyped hholds)).parameters ps hps n hmem)

theorem typed_or_overlooked {u : NodeId} (hu : u ∈ t.units) (hd : t.Below u d)
    (hn : t.Below d n) (hkind : (t.kind n).isType = true) :
    s.types.get? n ≠ none ∨ t.Overlooked n := by
  have ht := h.wellFormed
  induction hn with
  | refl => cases hk : t.kind d <;> simp_all [Kind.isMember, Kind.isType]
  | @tail q n hq hn ih =>
      obtain ⟨f, hf, hfits⟩ := Tree.kind_of_child ht hn
      rcases Kind.writes_of_part hf hfits hkind with
        hwritten | hsubject | ⟨introducer, subject, ts, ms, hk, hmem⟩ |
          ⟨introducer, how, sub, hk⟩
      · have hsafe (hq : s.types.get? q ≠ none) : s.types.get? n ≠ none :=
          ((hanswers q).typed hq).written n hwritten
        rcases Kind.sorts_of_writtenTypes hwritten with htype | hparameter | hholds
        · refine (ih htype).imp hsafe ?_
          rintro ⟨ext, m, hunfiled, hm, hbelow⟩
          exact ⟨ext, m, hunfiled, hm, hbelow.trans (Tree.below_child hn)⟩
        · exact .inl (hsafe (parameter_typed h hanswers hlooks hmember hidle hq hparameter))
        · exact .inl (hsafe (((hlooks q hq).holds hholds).resolve_right (by simp [hidle])))
      · have hwaits := Kind.waits_of_subject? hsubject
        by_cases hparent : (Declarations.ofTree t).parents.get? q = none
        · exact .inr ⟨q, n, Tree.unfiled_of_parents h hu (hd.trans hq) hwaits hparent, hsubject,
            .refl n⟩
        · exact .inl ((hanswers q).subject n hsubject hparent ((hlooks q hq).subject hwaits))
      · exact .inl ((hlooks q hq).traits introducer subject ts ms hk n hmem)
      · exact .inl (ascription_typed h hanswers hlooks hmember hq hk)

end Written

/-- In an accepted program all expressions that are not inherited have been looked at. A name that
stands alone refers to something, and so does the name of a type, unless it has been overlooked. A
name that stands after a dot refers to something unless nothing is known of the members of what
stands before it. -/
theorem accepted_resolves (h : t.Parsed) {p : Program} (hcheck : typeCheck t = .ok p)
    {u : NodeId} (hu : u ∈ t.units) (hown : t.isInherited u = false) (hn : t.Below u n) :
    ((t.kind n).isExpr = true → p.types.get? n ≠ none) ∧
      (∀ x, t.IsName n x → p.references.get? n ≠ none) ∧
      (∀ x, t.kind n = .nameType x → x.text ≠ "Self" →
        p.references.get? n ≠ none ∨ t.Overlooked n) ∧
      ∀ q x, t.kind n = .name (some q) x → p.references.get? n = none →
        ∃ ty, p.types.get? q = some ty ∧ ty.isOpaque t = true := by
  have ht := h.wellFormed
  obtain ⟨s, hfinal, -, -⟩ := final_lexical h
  obtain ⟨hclean, rfl⟩ := eq_program_of_typeCheck hfinal hcheck
  obtain ⟨hanswers, -, hidle, hlooks⟩ := final_thorough h hfinal
  have hexpr (hkind : (t.kind n).isExpr = true) := accepted_refers h hcheck hu hown hn hkind
  refine ⟨fun hkind => (hexpr hkind).1, fun x hx => ?_, fun x hk hself => ?_,
    fun q x hk hnone => ?_⟩
  · exact (hexpr (by rw [hx.1]; rfl)).2 x hx
  · have hne : n ≠ u := by
      rintro rfl
      have hunit := Tree.isUnit_of_mem_units ht hu
      simp [hk, Kind.isUnit] at hunit
    obtain ⟨d, hd, hbelow⟩ := exists_ownDecl ht hu hown hn hne
    obtain ⟨u', hu', -, hmember⟩ := mem_ownDecls hd
    have htyped := typed_or_overlooked h hanswers (hlooks d hd) (ht.fits u' _ hmember) hidle hu'
      (Tree.below_child (Tree.child_of_part hmember)) hbelow (by rw [hk]; rfl)
    refine htyped.imp_left fun htyped => ?_
    exact (((hanswers n).typed htyped).named x hk).resolve_left hself |>.resolve_right
      (not_not_intro hclean)
  · have htyped := (hexpr (by rw [hk]; rfl)).1
    exact (((hanswers n).typed htyped).qualified q x hk).resolve_left (not_not_intro hnone)
      |>.resolve_left (not_not_intro hclean)

def overlookedDocument : File :=
  .document "file:///main.orca" "type P \x7b\x7d
typealias A = P
extension A \x7b extension Nope \x7b\x7d \x7d
fun id<T>(x: T) -> Int \x7b return x.size \x7d"

def isLoose (t : Tree) (p : Program) (x : String) (n : NodeId) : Bool :=
  (p.references.get? n).isNone && match t.kind n with
    | .nameType y => y.text = x
    | .name (some _) y => y.text = x
    | _ => false

section Loose

variable {p : Program} {x : String} (hloose : isLoose t p x n = true)

include hloose

theorem none_of_isLoose : p.references.get? n = none := by
  simpa using (Bool.and_eq_true_iff.mp hloose).1

theorem nameType_of_isLoose (hkind : (t.kind n).isType = true) :
    ∃ y, t.kind n = .nameType y ∧ y.text = x := by
  have htext := (Bool.and_eq_true_iff.mp hloose).2
  cases hk : t.kind n with
  | nameType y => exact ⟨y, rfl, by simpa [hk] using htext⟩
  | name domain y => simp [hk, Kind.isType] at hkind
  | _ => simp [hk] at htext

theorem name_of_isLoose (hkind : (t.kind n).isExpr = true) :
    ∃ q y, t.kind n = .name (some q) y := by
  have htext := (Bool.and_eq_true_iff.mp hloose).2
  cases hk : t.kind n with
  | nameType y => simp [hk, Kind.isExpr] at hkind
  | name domain y => cases domain with
      | none => simp [hk] at htext
      | some q => exact ⟨q, y, rfl⟩
  | _ => simp [hk] at htext

end Loose

set_option maxRecDepth 4000 in
theorem overlookedDocument_resolves : ∃ t p,
    Tree.parseModule .empty "main" [overlookedDocument] = .ok t ∧ typeCheck t = .ok p ∧
      (∃ n, isLoose t p "Nope" n ∧ t.Overlooked n) ∧
      ∃ n q y ty, isLoose t p "size" n ∧ t.kind n = .name (some q) y ∧
        p.types.get? q = some ty ∧ ty.isOpaque t = true := by
  have hrun : (Tree.parseModule .empty "main" [overlookedDocument]).toOption.any (fun t =>
      (typeCheck t).toOption.any fun p => t.units.any fun u => !t.isInherited u &&
        ((t.children u).any fun outer => (t.children outer).any fun ext =>
          (t.children ext).any fun n => (t.kind n).isType && isLoose t p "Nope" n) &&
        (t.children u).any fun f => (t.children f).any fun body => (t.children body).any fun ret =>
          (t.children ret).any fun n => (t.kind n).isExpr && isLoose t p "size" n) = true := by
    rw [Tree.parseModule, Tree.parseUnits, Tree.parseUnit,
      Layout.ofFile_of_text overlookedDocument rfl]
    decide +kernel
  obtain ⟨t, hparse, hrun⟩ := exists_ok_of_any hrun
  obtain ⟨p, hcheck, hrun⟩ := exists_ok_of_any hrun
  simp only [List.any_eq_true, Bool.and_eq_true, Bool.not_eq_true'] at hrun
  obtain ⟨u, hu, ⟨hown, outer, houter, ext, hext, n, hn, htype, hloose⟩,
    f, hf, body, hbody, ret, hret, m, hm, hexpr, hloose'⟩ := hrun
  have hresolves {n : NodeId} (hn : t.Below u n) :=
    accepted_resolves (.module .empty hparse) hcheck hu hown hn
  refine ⟨t, p, hparse, hcheck, ⟨n, hloose, ?_⟩, ?_⟩
  · obtain ⟨x, hk, hx⟩ := nameType_of_isLoose hloose htype
    have hbelow : t.Below u n := .of_child houter (.of_child hext (Tree.below_child hn))
    exact ((hresolves hbelow).2.2.1 x hk (by simp [hx])).resolve_left
      (not_not_intro (none_of_isLoose hloose))
  · obtain ⟨q, y, hk⟩ := name_of_isLoose hloose' hexpr
    have hbelow : t.Below u m :=
      .of_child hf (.of_child hbody (.of_child hret (Tree.below_child hm)))
    obtain ⟨ty, hty, hopaque⟩ := (hresolves hbelow).2.2.2 q y hk (none_of_isLoose hloose')
    exact ⟨m, q, y, ty, hloose', hk, hty, hopaque⟩

end Check

end LanguageService
