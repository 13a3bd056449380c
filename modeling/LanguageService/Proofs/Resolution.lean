import LanguageService.Proofs.LexicalDecl
import LanguageService.Proofs.NameSites

namespace LanguageService

theorem Declarations.code_of_duplicate {t : Tree} {ds : Declarations} {d : Diagnostic}
    (h : d ∈ (ds.duplicates t).elements) : d.code = "E1006" := by
  have hfrom (earlier es : List Entry) : ∀ d ∈ duplicatesFrom t earlier es, d.code = "E1006" := by
    induction es generalizing earlier with
    | nil => exact List.forall_mem_nil _
    | cons e es ih =>
        intro d hd
        rw [duplicatesFrom, List.mem_append] at hd
        rcases hd with hd | hd
        · obtain ⟨f, -, rfl⟩ := Option.map_eq_some_iff.mp (Option.mem_toList.mp hd)
          rfl
        · exact ih _ d hd
  rcases DiagnosticSet.mem_of_mem_extend h with h | h
  · simp [DiagnosticSet.empty] at h
  · exact hfrom [] ds.entries d (List.mem_mergeSort.mp h)

namespace Check

variable {e : Env} (he : e.Scoped)

include he

theorem step_solves {run : Run} {w : Nat} (hrun : Solves e run w) :
    Solves e (step e run) (w + 1) := by
  intro j s hs hstands hw
  cases j with
  | decl d => exact (decl_passes he hrun hs hstands hw).bind fun _ _ h => .pure h
  | signature d =>
      exact (signature_serves he hrun hs hstands hw).mono fun _ _ h =>
        ⟨h.1.toPasses, h.1.frames, h.2⟩
  | typeAlias d =>
      exact (typeAlias_serves he hrun hs hstands hw).mono fun _ _ h =>
        ⟨h.1.toPasses, h.1.frames, h.2⟩
  | subject ext =>
      exact (subject_serves he hrun hs hw).mono fun _ _ h => ⟨h.toPasses, h.frames⟩
  | typeExpr n ctx =>
      exact (typeExpr_serves he hrun hs hstands hw).mono fun _ _ h => ⟨h.toPasses, h.frames⟩
  | binding b ctx inBody =>
      exact (binding_passes he hrun hs hstands hw).bind fun _ _ h => .pure h
  | pattern p ty inBody =>
      exact (pattern_passes he hrun hs hstands hw).bind fun _ _ h => .pure h
  | stmt n ctx => exact (stmt_passes he hrun hs hstands hw).bind fun _ _ h => .pure h
  | expr n ctx =>
      exact (expr_serves he hrun hs hstands hw).mono fun _ _ h =>
        ⟨h.1.toPasses, h.1.frames, h.2⟩

theorem perform_solves (fuel : Nat) : Solves e (perform e fuel) fuel := by
  induction fuel with
  | zero => exact fun j s _ _ hw => absurd hw (Nat.not_lt_zero _)
  | succ fuel ih => exact fun j s hs hstands hw => step_solves he ih j s hs hstands hw

omit he in
theorem lexical_initial {ds : DiagnosticSet} (h : ∀ d ∈ ds.elements, d.code ≠ "E1001") :
    State.Lexical e (.initial ds) where
  refers := by simp [State.initial]
  found := by simp [State.initial]
  missed := by simp [State.initial]
  blames := fun d hd _ hcode => absurd hcode (h d hd)
  bound := by simp [State.initial, State.Soft]
  named := by simp [State.initial]
  denotes := by simp [State.initial]

omit he in
theorem weight_initial_lt (t : Tree) (ds : DiagnosticSet) (j : Job) :
    j.weight t (.initial ds) < fuelFor t := by
  have hroom : State.room t (.initial ds) ≤ 2 * t.size := by
    have hfilter (p : Nat → Prop) [DecidablePred p] :
        ((Finset.range t.size).filter p).card ≤ t.size := by
      simpa using Finset.card_filter_le (Finset.range t.size) p
    rw [State.room, Nat.two_mul]
    exact Nat.add_le_add (hfilter _) (hfilter _)
  have hrank := j.rank_lt t
  calc j.weight t (.initial ds)
      < State.room t (.initial ds) * (3 * t.size + 4) + (3 * t.size + 4) :=
        Nat.add_lt_add_left hrank _
    _ ≤ 2 * t.size * (3 * t.size + 4) + (3 * t.size + 4) :=
        Nat.add_le_add_right (Nat.mul_le_mul_right _ hroom) _
    _ = (2 * t.size + 1) * (3 * t.size + 4) := by rw [Nat.add_mul, Nat.one_mul]
    _ ≤ 2 * (t.size + 2) * (4 * (t.size + 2)) := Nat.mul_le_mul (by omega) (by omega)
    _ = fuelFor t := by rw [fuelFor, Nat.mul_mul_mul_comm, Nat.mul_assoc 8]

end Check

namespace Check

variable {t : Tree}

theorem mem_ownDecls {d : NodeId} (hd : d ∈ ownDecls t) :
    ∃ u ∈ t.units, t.isInherited u = false ∧ (Kind.isMember, d) ∈ (t.kind u).parts := by
  obtain ⟨u, hu, hd⟩ := List.mem_flatMap.mp hd
  rw [List.mem_filter] at hu
  rw [Declarations.declsOfUnit] at hd
  split at hd
  · next hk => exact ⟨u, hu.1, by simpa using hu.2, by simp [hk, Kind.parts, hd]⟩
  · simp at hd

theorem checkDecls_lexical (h : t.Parsed) {ds : List NodeId} (hds : ds.Perm (ownDecls t)) :
    Succeeds (checkDecls ⟨t, .ofTree t⟩ (fuelFor t) ds)
      (.initial ((Declarations.ofTree t).duplicates t)) fun _ s =>
        s.Lexical ⟨t, .ofTree t⟩ ∧ ∀ d ∈ ownDecls t, s.Covers t d := by
  have ht := h.wellFormed
  have he : Env.Scoped ⟨t, .ofTree t⟩ := ⟨ht, h.declsInBlocks, rfl⟩
  have hapart : ds.Pairwise fun d d' => ∀ x, ¬ (t.Below d x ∧ t.Below d' x) :=
    (hds.pairwise_iff fun hab x hx => hab x hx.symm).mpr (ownDecls_pairwise ht)
  have hlexical : State.Lexical ⟨t, .ofTree t⟩
      (.initial ((Declarations.ofTree t).duplicates t)) := by
    refine lexical_initial fun d hd hcode => ?_
    rw [Declarations.code_of_duplicate hd] at hcode
    exact absurd hcode (by decide)
  rw [checkDecls_eq_each]
  refine (decls_pass (perform_solves he (fuelFor t)) hlexical hapart (fun d hd => ?_)
    fun d _ => weight_initial_lt t _ _).mono fun _ s hpass => ⟨hpass.1.lexical, fun d hd => ?_⟩
  · obtain ⟨u, hu, -, hmember⟩ := mem_ownDecls (hds.mem_iff.mp hd)
    refine ⟨⟨u, hmember⟩, ⟨u, hu, Tree.below_child (Tree.child_of_part hmember)⟩, rfl, ?_, ?_⟩
    · simp [State.initial, State.IsChecked, Table.contains]
    · simp [State.Untouched, State.initial, State.IsChecked, Table.contains]
  · exact hpass.2.2 d (hds.mem_iff.mpr hd)

end Check

def DiagnosticSet.MissesName (ds : DiagnosticSet) (s : Site) : Prop :=
  ∃ d ∈ ds.elements, d.code = "E1001" ∧ (d.site == s) = true ∧
    ∃ y, d.message = "undefined name " ++ Check.Complaint.quoted y

theorem DiagnosticSet.missesName_of_contains {ds : DiagnosticSet} {x : Name}
    (h : ds.contains (.undefined x) = true) : ds.MissesName x.site := by
  obtain ⟨d, hd, heq⟩ := List.any_eq_true.mp h
  have heq : instBEqDiagnostic.beq d (.undefined x) = true := heq
  rw [instBEqDiagnostic.beq.eq_def] at heq
  simp only [Bool.and_eq_true] at heq
  obtain ⟨-, hcode, hsite, hmessage, -⟩ := heq
  exact ⟨d, hd, eq_of_beq hcode, hsite, x.text, eq_of_beq hmessage⟩

namespace Check

/-- A name refers to what it means where it stands, and is complained about if it means nothing. -/
structure State.Resolves (s : State) (t : Tree) (n : NodeId) (x : Name) : Prop where
  refers : ∀ m, t.meaning n x.text = some m →
    ∃ r, s.references.get? n = some r ∧ (s.program t).Follows n (some m) r
  nothing : t.meaning n x.text = none → s.references.get? n = none
  complains : s.diagnostics.MissesName x.site ↔ t.meaning n x.text = none

variable {t : Tree}

theorem State.Lexical.resolves {s : State} (h : t.Parsed)
    (huris : (t.units.map fun u => (t.site u).file.uri).Nodup)
    (hs : s.Lexical ⟨t, .ofTree t⟩) {n : NodeId} {x : Name} (hreached : t.Reached n)
    (hn : t.IsName n x) (htyped : s.types.get? n ≠ none) : s.Resolves t n x where
  refers := by
    intro m hm
    obtain ⟨r, hr⟩ := Option.ne_none_iff_exists'.mp (hs.found n x hn htyped (by simp [hm]))
    exact ⟨r, hr, hm ▸ hs.refers n x r hn hr⟩
  nothing := by
    intro hm
    cases hr : s.references.get? n with
    | none => rfl
    | some r =>
        rcases hs.refers n x r hn hr with h | ⟨-, _, d, _, _, h | h, _⟩ <;>
          exact absurd (hm.symm.trans h) (by simp)
  complains := by
    refine ⟨?_, fun hm => DiagnosticSet.missesName_of_contains (hs.missed n x hn htyped hm)⟩
    rintro ⟨d, hd, hcode, hsite, y, hmessage⟩
    obtain ⟨n', x', hreached', hk', hsite', hm'⟩ := hs.blames d hd y hcode hmessage
    rw [hsite'] at hsite
    obtain rfl := h.name_eq_of_site huris hreached' hreached hk' hn.1 hsite
    obtain ⟨-, rfl⟩ := Kind.name.inj (hk'.symm.trans hn.1)
    exact hm'

/-- In a parsed program whose files have different names, every name but `self` that stands alone in
a unit that is not inherited refers to what the scopes around it say, and is complained about
exactly if they say nothing, in whatever order the declarations are checked. -/
theorem names_resolve_lexically (h : t.Parsed)
    (huris : (t.units.map fun u => (t.site u).file.uri).Nodup) {ds : List NodeId}
    (hds : ds.Perm (ownDecls t)) :
    ∃ s, checkDecls ⟨t, .ofTree t⟩ (fuelFor t) ds
        (.initial ((Declarations.ofTree t).duplicates t)) = some ((), s) ∧
      (ds = ownDecls t → final t (fuelFor t) = some s) ∧
      ∀ u ∈ t.units, t.isInherited u = false → ∀ n x, t.Below u n → t.IsName n x →
        s.Resolves t n x := by
  obtain ⟨_, s, hcheck, hlexical, hcovers⟩ := checkDecls_lexical h hds
  refine ⟨s, hcheck, ?_, fun u hu hown n x hn hname => ?_⟩
  · rintro rfl
    exact Option.map_eq_some_iff.mpr ⟨((), s), hcheck, rfl⟩
  · refine hlexical.resolves h huris ⟨u, hu, hn⟩ hname ?_
    have hexpr : (t.kind n).isExpr = true := by rw [hname.1]; rfl
    obtain ⟨decls, hk⟩ := Kind.exists_of_isUnit (Tree.isUnit_of_mem_units h.wellFormed hu)
    rcases Tree.below_iff.mp hn with rfl | ⟨d, hd, hn⟩
    · simp [hk, Kind.isExpr] at hexpr
    · refine hcovers d ?_ n hn hexpr
      refine List.mem_flatMap.mpr ⟨u, List.mem_filter.mpr ⟨hu, by simp [hown]⟩, ?_⟩
      simpa [Declarations.declsOfUnit, Tree.children, hk, Kind.children] using hd

def shadowDocument : File :=
  .document "file:///main.orca" "
    let a = n
    let n = 1
    type Cell \x7b init() \x7b \x7d \x7d
    fun f(n: Int, p: Int) -> Int \x7b
      let n = n
      if n == p \x7b let p = n; print(p); Cell(); \x7d
      return n + p + m
    \x7d"

def meanings (t : Tree) : List (String × Option Reference) :=
  (List.range t.size).filterMap fun n =>
    match t.kind n with
    | .name none x => some (x.text, t.meaning n x.text)
    | _ => none

set_option maxRecDepth 4000 in
theorem shadowDocument_resolves : ∃ t s, Tree.parseModule .empty "main" [shadowDocument] = .ok t ∧
    meanings t = [("n", some (.direct 5)), ("n", some (.direct 14)), ("n", some (.direct 18)),
      ("p", some (.direct 16)), ("n", some (.direct 18)), ("print", some (.builtin "print")),
      ("p", some (.direct 27)), ("Cell", some (.direct 12)), ("n", some (.direct 18)),
      ("p", some (.direct 16)), ("m", none)] ∧
    checkDecls ⟨t, .ofTree t⟩ (fuelFor t) (ownDecls t).reverse
      (.initial ((Declarations.ofTree t).duplicates t)) = some ((), s) ∧
    ∀ u ∈ t.units, t.isInherited u = false → ∀ n x, t.Below u n → t.IsName n x →
      s.Resolves t n x := by
  have hrun : (match Tree.parseModule .empty "main" [shadowDocument] with
      | .error _ => false
      | .ok t => decide ((t.units.map fun u => (t.site u).file.uri).Nodup) &&
          decide (meanings t = [("n", some (.direct 5)), ("n", some (.direct 14)),
            ("n", some (.direct 18)), ("p", some (.direct 16)), ("n", some (.direct 18)),
            ("print", some (.builtin "print")), ("p", some (.direct 27)),
            ("Cell", some (.direct 12)), ("n", some (.direct 18)), ("p", some (.direct 16)),
            ("m", none)])) = true := by
    rw [Tree.parseModule, Tree.parseUnits, Tree.parseUnit,
      Layout.ofFile_of_text shadowDocument rfl]
    decide +kernel
  cases hparse : Tree.parseModule .empty "main" [shadowDocument] with
  | error e => simp [hparse] at hrun
  | ok t =>
      simp only [hparse, Bool.and_eq_true, decide_eq_true_eq] at hrun
      obtain ⟨s, hcheck, -, hresolves⟩ := names_resolve_lexically (.module .empty hparse) hrun.1
        (List.reverse_perm (ownDecls t))
      exact ⟨t, s, rfl, hrun.2, hcheck, hresolves⟩

end Check

end LanguageService
