import LanguageService.Proofs.Resolution

/-!
Whatever a check refers to is right, whether or not the program is. In an accepted program it has
looked at every expression, but not at every type name.
-/
namespace LanguageService

namespace Check

variable {t : Tree}

theorem final_lexical (h : t.Parsed) : ∃ s, final t (fuelFor t) = some s ∧
    s.Lexical ⟨t, .ofTree t⟩ ∧ ∀ d ∈ ownDecls t, s.Covers t d := by
  obtain ⟨_, s, hcheck, hlexical, hcovers⟩ := checkDecls_lexical h (.refl _)
  exact ⟨s, Option.map_eq_some_iff.mpr ⟨((), s), hcheck, rfl⟩, hlexical, hcovers⟩

theorem eq_program_of_typeCheck {s : State} (hfinal : final t (fuelFor t) = some s) {p : Program}
    (hcheck : typeCheck t = .ok p) : s.Clean ∧ p = s.program t := by
  obtain ⟨s', hfinal', hclean, rfl⟩ := exists_final_of_typeCheck hcheck
  obtain rfl := Option.some.inj (hfinal.symm.trans hfinal')
  exact ⟨hclean, rfl⟩

/-- The check of a parsed program comes to an end, and each reference that it has recorded then
points to something of the spelling of what refers to it, or to an initializer of the type that is
called. -/
theorem references_point (h : t.Parsed) :
    ∃ s, final t (fuelFor t) = some s ∧ (∀ p, typeCheck t = .ok p → p = s.program t) ∧
      ∀ n r, s.references.get? n = some r → (s.program t).Points n r := by
  obtain ⟨s, hfinal, -, -⟩ := final_lexical h
  exact ⟨s, hfinal, fun p hcheck => (eq_program_of_typeCheck hfinal hcheck).2,
    (final_spec h.wellFormed hfinal).1.points⟩

def pointDocument : File :=
  .document "file:///main.orca" "
    type Point \x7b var x: Int \x7d
    extension Point \x7b init() \x7b \x7d \x7d
    fun run() \x7b
      let p = Point(1)
      print(p.x + Point().x + missing);
    \x7d"

def referred (s : State) (t : Tree) : List (String × Reference) :=
  (List.range t.size).filterMap fun n =>
    (t.kind n).spelled.bind fun x => (s.references.get? n).map (x, ·)

def outcome (f : File) : Option (Bool × List (String × Reference)) :=
  match Tree.parseModule .empty "main" [f] with
  | .error _ => none
  | .ok t => (final t (fuelFor t)).map fun s => (s.diagnostics.containsError, referred s t)

set_option maxRecDepth 4000 in
theorem pointDocument_points : ∃ t s, Tree.parseModule .empty "main" [pointDocument] = .ok t ∧
    final t (fuelFor t) = some s ∧ s.diagnostics.containsError = true ∧
    referred s t = [("Int", .builtin "Int"), ("Point", .direct 7), ("Point", .constructor 6),
      ("print", .builtin "print"), ("p", .direct 12), ("x", .member 0), ("Point", .constructor 10),
      ("x", .member 0), ("+", .builtin "+")] ∧
    ∀ n r, s.references.get? n = some r → (s.program t).Points n r := by
  have hrun : outcome pointDocument = some (true,
      [("Int", .builtin "Int"), ("Point", .direct 7), ("Point", .constructor 6),
        ("print", .builtin "print"), ("p", .direct 12), ("x", .member 0),
        ("Point", .constructor 10), ("x", .member 0), ("+", .builtin "+")]) := by
    rw [outcome, Tree.parseModule, Tree.parseUnits, Tree.parseUnit,
      Layout.ofFile_of_text pointDocument rfl]
    decide +kernel
  cases hparse : Tree.parseModule .empty "main" [pointDocument] with
  | error e => simp [outcome, hparse] at hrun
  | ok t =>
      obtain ⟨s, hfinal, -, hpoints⟩ := references_point (.module .empty hparse)
      simp only [outcome, hparse, hfinal, Option.map_some, Option.some.injEq, Prod.mk.injEq] at hrun
      exact ⟨t, s, rfl, hfinal, hrun.1, hrun.2, hpoints⟩

theorem exists_ownDecl {u n : NodeId} (ht : t.WellFormed) (hu : u ∈ t.units)
    (hown : t.isInherited u = false) (hn : t.Below u n) (hne : n ≠ u) :
    ∃ d ∈ ownDecls t, t.Below d n := by
  obtain ⟨ds, hk⟩ := Kind.exists_of_isUnit (Tree.isUnit_of_mem_units ht hu)
  obtain ⟨d, hd, hbelow⟩ := (Tree.below_iff.mp hn).resolve_left hne
  refine ⟨d, List.mem_flatMap.mpr ⟨u, List.mem_filter.mpr ⟨hu, by simp [hown]⟩, ?_⟩, hbelow⟩
  simpa [Declarations.declsOfUnit, Tree.children, hk, Kind.children] using hd

theorem not_clean_of_contains {s : State} {d : Diagnostic} (hd : d.isError = true)
    (h : s.diagnostics.contains d = true) : ¬ s.Clean := by
  obtain ⟨d', hmem, heq⟩ := List.any_eq_true.mp h
  have herror : s.diagnostics.containsError = true :=
    List.any_eq_true.mpr ⟨d', hmem, isError_of_beq heq hd⟩
  simp [State.Clean, herror]

theorem accepted_refers (h : t.Parsed) {p : Program} (hcheck : typeCheck t = .ok p)
    {u n : NodeId} (hu : u ∈ t.units) (hown : t.isInherited u = false) (hn : t.Below u n)
    (hexpr : (t.kind n).isExpr = true) :
    p.types.get? n ≠ none ∧ ∀ x, t.IsName n x → p.references.get? n ≠ none := by
  obtain ⟨s, hfinal, hlexical, hcovers⟩ := final_lexical h
  obtain ⟨hclean, rfl⟩ := eq_program_of_typeCheck hfinal hcheck
  have hne : n ≠ u := by
    rintro rfl
    obtain ⟨ds, hk⟩ := Kind.exists_of_isUnit (Tree.isUnit_of_mem_units h.wellFormed hu)
    simp [hk, Kind.isExpr] at hexpr
  obtain ⟨d, hd, hbelow⟩ := exists_ownDecl h.wellFormed hu hown hn hne
  have htyped := hcovers d hd n hbelow hexpr
  refine ⟨htyped, fun x hx => hlexical.found n x hx htyped fun hnone => ?_⟩
  exact not_clean_of_contains rfl (hlexical.missed n x hx htyped hnone) hclean

theorem subject_overlooked (ht : t.WellFormed) {outer ext : NodeId}
    (houter : (t.kind outer).waits = true)
    (hunfiled : (Declarations.ofTree t).extended.get? outer = none)
    (hext : ext ∈ t.children outer) (run : Run) (s : State) :
    Ends (subject ⟨t, .ofTree t⟩ run ext) s fun _ s' =>
      s'.references = s.references ∧ s'.diagnostics = s.diagnostics := by
  have hunseen := Declarations.unseen_of_unfiled ht houter hunfiled hext
  have hresolve (node : NodeId) : Ends (subject.resolve ⟨t, .ofTree t⟩ run ext node) s
      fun _ s' => s'.references = s.references ∧ s'.diagnostics = s.diagnostics := by
    rw [subject.resolve, hunseen]
    refine .bind (.pure (Q := fun _ s' => s' = s) rfl) ?_
    rintro a s₁ rfl
    refine .bind (.modify (Q := fun _ s' => s' = _) rfl) ?_
    rintro - s₂ rfl
    exact .pure ⟨rfl, rfl⟩
  rw [subject]
  refine .get ?_
  split
  · exact .pure ⟨rfl, rfl⟩
  · split
    · exact hresolve _
    · exact hresolve _
    · exact .pure ⟨rfl, rfl⟩

def unresolvedTypes (text : String) : Option (List String) :=
  match Tree.parseModule .empty "main" [.document "file:///main.orca" text] with
  | .error _ => none
  | .ok t =>
      match typeCheck t with
      | .error _ => none
      | .ok p => some ((List.range t.size).filterMap fun n =>
          match t.kind n, p.references.get? n with
          | .nameType x, none => some x.text
          | _, _ => none)

/-- An extension of an alias is not filed, so that one inside it can extend what is not defined. -/
theorem undefined_type_accepted : ∃ text, unresolvedTypes text = some ["Nope"] := by
  refine ⟨"type P \x7b\x7d\ntypealias A = P\nextension A \x7b extension Nope \x7b\x7d \x7d\n", ?_⟩
  decide +kernel

end Check

end LanguageService
