import LanguageService.Proofs.EmittedDecl
import LanguageService.Proofs.Growth

namespace LanguageService

namespace Text

def IsBoundary (text : List Char) (offset : Nat) : Prop :=
  ∃ before after, text = before ++ after ∧ offset = bytes before

theorem isBoundary_zero (text : List Char) : IsBoundary text 0 := ⟨[], text, rfl, rfl⟩

end Text

theorem Lexer.StandsIn.isBoundary {text : List Char} {x : Lexeme} (h : StandsIn text x) :
    Text.IsBoundary text x.start ∧ Text.IsBoundary text x.stop := by
  obtain ⟨before, w, after, hs⟩ := h
  have hstart : x.start = Text.bytes before := by rw [hs.start_eq, Nat.zero_add]
  refine ⟨⟨before, w ++ after, hs.text_eq, hstart⟩, before ++ w, after, ?_, ?_⟩
  · rw [hs.text_eq, List.append_assoc]
  · rw [hs.stop_eq, hstart, Text.bytes_append]

structure Site.OnBoundaries (s : Site) : Prop where
  start_le_stop : s.start ≤ s.stop
  start : Text.IsBoundary s.file.text.toList s.start
  stop : Text.IsBoundary s.file.text.toList s.stop

namespace DiagnosticSet

theorem elements_insert_of_fresh {s : DiagnosticSet} {d : Diagnostic}
    (h : ∀ d' ∈ s.elements, (d' == d) = false) : (s.insert d).elements = s.elements ++ [d] := by
  have hfresh : s.contains d = false := by simpa [contains] using h
  rw [insert, hfresh]
  rfl

theorem elements_extend_of_fresh {s : DiagnosticSet} {ds : List Diagnostic}
    (h : (s.elements ++ ds).Pairwise fun d d' => (d == d') = false) :
    (s.extend ds).elements = s.elements ++ ds := by
  induction ds generalizing s with
  | nil => exact (List.append_nil _).symm
  | cons d ds ih =>
      have hd := elements_insert_of_fresh fun d' hd' =>
        (List.pairwise_append.mp h).2.2 d' hd' d List.mem_cons_self
      rw [← List.singleton_append, ← List.append_assoc, ← hd] at h ⊢
      exact ih h

end DiagnosticSet

theorem Diagnostic.agree_of_beq {d d' : Diagnostic} (h : (d == d') = true) :
    d.code = d'.code ∧ d.site.file.uri = d'.site.file.uri ∧ d.site.start = d'.site.start := by
  obtain ⟨sev, code, ⟨f, a, b⟩, m, ns⟩ := d
  obtain ⟨sev', code', ⟨f', a', b'⟩, m', ns'⟩ := d'
  change instBEqDiagnostic.beq _ _ = true at h
  simp only [instBEqDiagnostic.beq, Bool.and_eq_true, beq_iff_eq] at h
  obtain ⟨-, hcode, hsite, -⟩ := h
  change instBEqSite.beq _ _ = true at hsite
  simp only [instBEqSite.beq, Bool.and_eq_true, beq_iff_eq] at hsite
  obtain ⟨hfile, hstart, -⟩ := hsite
  change (_ && _) = true at hfile
  simp only [Bool.and_eq_true, beq_iff_eq] at hfile
  exact ⟨hcode, hfile.2, hstart⟩

namespace Layout

variable {l : Layout}

def complaints (l : Layout) : List Diagnostic :=
  match Surface.parse l.tokens with
  | .ok _ => l.lexicalErrors
  | .error s => l.lexicalErrors ++ l.syntaxError s

theorem isBoundary_stop (hl : l.Ordered) : Text.IsBoundary l.file.text.toList l.stop := by
  rw [stop]
  cases h : l.lexemes.back? with
  | none => exact Text.isBoundary_zero _
  | some x => exact (hl.stands (Array.mem_of_back? h)).isBoundary.2

theorem isBoundary_stop_at (hl : l.Ordered) (i : Nat) :
    Text.IsBoundary l.file.text.toList ((l.lexemes[i]?.map (·.stop)).getD l.stop) := by
  cases h : l.lexemes[i]? with
  | none => exact isBoundary_stop hl
  | some x => exact (hl.stands (Array.mem_of_getElem? h)).isBoundary.2

theorem isBoundary_start_at (hl : l.Ordered) (i : Nat) :
    Text.IsBoundary l.file.text.toList ((l.lexemes[i]?.map (·.start)).getD l.stop) := by
  cases h : l.lexemes[i]? with
  | none => exact isBoundary_stop hl
  | some x => exact (hl.stands (Array.mem_of_getElem? h)).isBoundary.1

theorem onBoundaries_site (hl : l.Ordered) (s : Surface.Span) : (l.site s).OnBoundaries := by
  have hstart := isBoundary_start_at hl s.start
  refine ⟨Nat.le_max_right _ _, hstart, ?_⟩
  simp only [site, byteSpan]
  rcases Nat.le_total (if s.start < s.stop then (l.lexemes[s.stop - 1]?.map (·.stop)).getD l.stop
    else (l.lexemes[s.start]?.map (·.start)).getD l.stop)
    ((l.lexemes[s.start]?.map (·.start)).getD l.stop) with hle | hle
  · rwa [Nat.max_eq_right hle]
  · rw [Nat.max_eq_left hle]
    split
    · exact isBoundary_stop_at hl _
    · exact hstart

end Layout

namespace File

/-- All in the text of the file are tokens, and they are those of a list of declarations. -/
structure IsAccepted (f : File) : Prop where
  noErrors : ∀ x ∈ Lexer.tokens f.text.toList, x.token.isError = false
  parses : ∃ ds, Surface.parse (Layout.ofFile f).tokens = .ok ds

def invalidParts (f : File) : List Diagnostic :=
  ((Lexer.tokens f.text.toList).filter (·.token.isError)).map fun x =>
    ParseError.diagnostic (.invalid (Site.mk f x.start x.stop).text) ⟨f, x.start, x.stop⟩

/-- The complaints are those about parts that are no tokens, and at most one about the syntax. They
are about places in the file. There is one unless the file is accepted. -/
structure Explained (f : File) (own : List Diagnostic) : Prop where
  parts : ∃ syntactic, own = f.invalidParts ++ syntactic ∧ syntactic.length ≤ 1 ∧
    ∀ d ∈ syntactic, d.code = "P0001" ∨ d.code = "P0002"
  isError : ∀ d ∈ own, d.isError = true
  within : ∀ d ∈ own, d.site.file = f ∧ d.site.OnBoundaries
  eq_nil_iff : own = [] ↔ f.IsAccepted

end File

theorem Lexer.StandsIn.error_text {text : List Char} {x : Lexeme} {f : File} {s : String}
    (h : StandsIn text x) (hf : f.text.toList = text) (hx : x.token = .error s) :
    (Site.mk f x.start x.stop).text = s := by
  obtain ⟨before, w, after, htext, hstart, hstop, hpicks⟩ := h
  have hs : s = String.ofList w := by
    rw [hx] at hpicks
    generalize htoken : Token.error s = t at hpicks
    cases hpicks with
    | @rule r _ _ => cases r <;> cases htoken
    | character _ _ _ => exact Token.error.inj htoken
    | unterminated _ _ _ _ => exact Token.error.inj htoken
  rw [Site.text, hf, htext, hstop, hstart, Nat.zero_add, Text.slice_append, hs]
  rfl

namespace Layout

variable {l : Layout}

theorem lexicalErrors_eq (hl : l.Ordered) : l.lexicalErrors = l.file.invalidParts := by
  rw [lexicalErrors, File.invalidParts, ← show l.lexemes.toList = _ from hl,
    ← List.filterMap_eq_map, List.filterMap_filter]
  refine List.filterMap_congr fun x hx => ?_
  cases hx' : x.token with
  | error s =>
      have hstands := hl.stands (Array.mem_toList_iff.mp hx)
      simp [Token.isError, hstands.error_text rfl hx']
  | _ => simp [Token.isError]

theorem length_syntaxError (s : Surface.Span) : (l.syntaxError s).length ≤ 1 := by
  rw [syntaxError]
  split
  · split <;> simp
  · simp

theorem mem_syntaxError {s : Surface.Span} {d : Diagnostic} (h : d ∈ l.syntaxError s) :
    d.isError = true ∧ d.site = l.site s ∧ (d.code = "P0001" ∨ d.code = "P0002") := by
  rw [syntaxError] at h
  split at h
  · split at h
    · cases h
    · rw [List.mem_singleton.mp h]
      exact ⟨rfl, rfl, .inl rfl⟩
  · rw [List.mem_singleton.mp h]
    exact ⟨rfl, rfl, .inr rfl⟩

theorem complaints_explained (f : File) : f.Explained (ofFile f).complaints := by
  have hl := ordered_ofFile f
  have hlexical := lexicalErrors_eq hl
  have hparts : ∃ syntactic, (ofFile f).complaints = f.invalidParts ++ syntactic ∧
      syntactic.length ≤ 1 ∧ ∀ d ∈ syntactic, d.isError = true ∧
        (∃ s, d.site = (ofFile f).site s) ∧ (d.code = "P0001" ∨ d.code = "P0002") := by
    rw [complaints, hlexical]
    split
    · exact ⟨[], (List.append_nil _).symm, Nat.zero_le _, List.forall_mem_nil _⟩
    · next s _ =>
        refine ⟨_, rfl, length_syntaxError s, fun d hd => ?_⟩
        obtain ⟨herror, hsite, hcode⟩ := mem_syntaxError hd
        exact ⟨herror, ⟨s, hsite⟩, hcode⟩
  obtain ⟨syntactic, heq, hlength, hsyntactic⟩ := hparts
  have hinvalid : ∀ d ∈ f.invalidParts,
      d.isError = true ∧ d.site.file = f ∧ d.site.OnBoundaries := by
    intro d hd
    obtain ⟨x, hx, rfl⟩ := List.mem_map.mp hd
    have hstands := Lexer.standsIn_of_mem_tokens (List.mem_of_mem_filter hx)
    obtain ⟨hstart, hstop⟩ := hstands.isBoundary
    obtain ⟨_, _, _, hs⟩ := hstands
    exact ⟨rfl, rfl, Nat.le_of_lt hs.start_lt_stop, hstart, hstop⟩
  refine ⟨⟨syntactic, heq, hlength, fun d hd => (hsyntactic d hd).2.2⟩, ?_, ?_, ?_⟩
  · rw [heq, List.forall_mem_append]
    exact ⟨fun d hd => (hinvalid d hd).1, fun d hd => (hsyntactic d hd).1⟩
  · rw [heq, List.forall_mem_append]
    refine ⟨fun d hd => (hinvalid d hd).2, fun d hd => ?_⟩
    obtain ⟨s, hs⟩ := (hsyntactic d hd).2.1
    rw [hs]
    exact ⟨rfl, onBoundaries_site hl s⟩
  · have hnone : f.invalidParts = [] ↔
        ∀ x ∈ Lexer.tokens f.text.toList, x.token.isError = false := by
      simp [File.invalidParts, List.filter_eq_nil_iff]
    constructor
    · intro hnil
      have hinvalid := (List.append_eq_nil_iff.mp (heq.symm.trans hnil)).1
      refine ⟨hnone.mp hinvalid, ?_⟩
      cases hparse : Surface.parse (ofFile f).tokens with
      | ok ds => exact ⟨ds, rfl⟩
      | error s =>
          have hunit : Tree.parseUnit .empty f = .error (.ofList (ofFile f).complaints) := by
            rw [Tree.parseUnit, ← tokens, complaints, hparse]
          exact absurd (by rw [hnil]; rfl) (Tree.parseUnit_complains hunit)
    · rintro ⟨herrors, ds, hparse⟩
      rw [complaints, hparse, hlexical]
      exact hnone.mpr herrors

theorem complaints_pairwise (f : File) :
    (ofFile f).complaints.Pairwise fun d d' => (d == d') = false := by
  have hinvalid : f.invalidParts.Pairwise fun d d' => (d == d') = false := by
    refine List.pairwise_map.mpr (((Lexer.tokens_pairwise f.text.toList).imp_of_mem ?_).filter _)
    intro x y hx _ hlt
    obtain ⟨_, _, _, hs⟩ := Lexer.standsIn_of_mem_tokens hx
    have hstart := hs.start_lt_stop
    refine Bool.eq_false_iff.mpr fun hbeq => ?_
    have hsame : x.start = y.start := (Diagnostic.agree_of_beq hbeq).2.2
    omega
  obtain ⟨syntactic, heq, hlength, hcode⟩ := (complaints_explained f).parts
  rw [heq]
  refine List.pairwise_append.mpr ⟨hinvalid, ?_, fun d hd d' hd' => ?_⟩
  · match syntactic, hlength with
    | [], _ => exact .nil
    | [d], _ => exact List.pairwise_singleton _ _
  · obtain ⟨x, -, rfl⟩ := List.mem_map.mp hd
    refine Bool.eq_false_iff.mpr fun hbeq => ?_
    have hsame : "P0003" = d'.code := (Diagnostic.agree_of_beq hbeq).1
    rcases hcode d' hd' with h | h <;> rw [h] at hsame <;> exact absurd hsame (by decide)

theorem complaints_pairwise_files {files : List File} (huris : (files.map (·.uri)).Nodup) :
    (files.flatMap fun f => (ofFile f).complaints).Pairwise fun d d' => (d == d') = false := by
  refine List.pairwise_flatMap.mpr ⟨fun f _ => complaints_pairwise f, ?_⟩
  refine (List.pairwise_map.mp huris).imp fun hne d hd d' hd' => ?_
  refine Bool.eq_false_iff.mpr fun hbeq => hne ?_
  rw [← ((complaints_explained _).within d hd).1, ← ((complaints_explained _).within d' hd').1]
  exact (Diagnostic.agree_of_beq hbeq).2.1

end Layout

namespace Tree

theorem parseUnit_of_not_accepted {f : File} (h : ¬ f.IsAccepted) (t : Tree) :
    t.parseUnit f = .error (.ofList (Layout.ofFile f).complaints) := by
  have hne := mt (Layout.complaints_explained f).eq_nil_iff.mp h
  simp only [parseUnit]
  rw [← Layout.tokens]
  cases hparse : Surface.parse (Layout.ofFile f).tokens with
  | ok ds =>
      rw [Layout.complaints, hparse] at hne ⊢
      exact if_neg (mt List.isEmpty_iff.mp hne)
  | error s => rw [Layout.complaints, hparse]

theorem isUnit_unit (l : Layout) (ds : List Surface.Decl) (t : Tree) :
    ((Lowering.unit l ds t).2.kind (Lowering.unit l ds t).1).isUnit = true := by
  change (((Lowering.decls l ds t).2.insert _ _).2.kind
    ((Lowering.decls l ds t).2.insert _ _).1).isUnit = true
  rw [kind_insert, fst_insert, if_pos rfl]
  rfl

theorem parseUnit_of_accepted {f : File} (h : f.IsAccepted) (t : Tree) :
    ∃ u t', t.parseUnit f = .ok (u, t') ∧ (t'.kind u).isUnit = true := by
  obtain ⟨ds, hparse⟩ := h.parses
  have hnil := (Layout.complaints_explained f).eq_nil_iff.mpr h
  refine ⟨_, _, ?_, isUnit_unit (.ofFile f) ds t⟩
  rw [Layout.complaints, hparse] at hnil
  rw [Layout.tokens] at hparse
  simp only [parseUnit, hparse, show (Layout.ofFile f).lexicalErrors = [] from hnil]
  rfl

section Files

variable (t : Tree) (files : List File)

theorem mem_complaints_of_parseUnits {d : Diagnostic}
    (h : d ∈ (t.parseUnits files).2.1.elements) :
    ∃ f ∈ files, d ∈ (Layout.ofFile f).complaints := by
  induction files generalizing t with
  | nil => cases h
  | cons f fs ih =>
      by_cases hf : f.IsAccepted
      · obtain ⟨u, t', hunit, -⟩ := parseUnit_of_accepted hf t
        rw [parseUnits, hunit] at h
        obtain ⟨g, hg, hd⟩ := ih t' h
        exact ⟨g, List.mem_cons_of_mem f hg, hd⟩
      · rw [parseUnits, parseUnit_of_not_accepted hf] at h
        rcases DiagnosticSet.mem_of_mem_extend h with h | h
        · rcases DiagnosticSet.mem_of_mem_extend h with h | h
          · cases h
          · exact ⟨f, List.mem_cons_self, h⟩
        · obtain ⟨g, hg, hd⟩ := ih t h
          exact ⟨g, List.mem_cons_of_mem f hg, hd⟩

theorem parseUnits_elements_eq_nil_iff :
    (t.parseUnits files).2.1.elements = [] ↔ ∀ f ∈ files, f.IsAccepted := by
  induction files generalizing t with
  | nil => simp [parseUnits, DiagnosticSet.empty]
  | cons f fs ih =>
      rw [List.forall_mem_cons]
      by_cases hf : f.IsAccepted
      · obtain ⟨u, t', hunit, -⟩ := parseUnit_of_accepted hf t
        rw [parseUnits, hunit]
        exact (ih t').trans (and_iff_right hf).symm
      · have hcomplains := parseUnit_complains (parseUnit_of_not_accepted hf t)
        rw [parseUnits, parseUnit_of_not_accepted hf]
        exact iff_of_false (DiagnosticSet.elements_extend_ne_nil (.inl hcomplains)) fun h => hf h.1

theorem parseUnits_elements (huris : (files.map (·.uri)).Nodup) :
    (t.parseUnits files).2.1.elements = files.flatMap fun f => (Layout.ofFile f).complaints := by
  induction files generalizing t with
  | nil => rfl
  | cons f fs ih =>
      have hpairwise := Layout.complaints_pairwise_files huris
      have hfs := (List.nodup_cons.mp huris).2
      rw [List.flatMap_cons] at hpairwise ⊢
      by_cases haccepted : f.IsAccepted
      · obtain ⟨u, t', hunit, -⟩ := parseUnit_of_accepted haccepted t
        rw [parseUnits, hunit, (Layout.complaints_explained f).eq_nil_iff.mpr haccepted]
        exact ih t' hfs
      · have hown : (DiagnosticSet.ofList (Layout.ofFile f).complaints).elements =
            (Layout.ofFile f).complaints :=
          DiagnosticSet.elements_extend_of_fresh (s := .empty) (Layout.complaints_pairwise f)
        rw [← hown, ← ih t hfs] at hpairwise
        rw [parseUnits, parseUnit_of_not_accepted haccepted]
        exact (DiagnosticSet.elements_extend_of_fresh hpairwise).trans (by rw [hown, ih t hfs])

theorem isUnit_of_parseUnits {u : NodeId} (hu : u ∈ (t.parseUnits files).1) :
    ((t.parseUnits files).2.2.kind u).isUnit = true := by
  induction files generalizing t with
  | nil => cases hu
  | cons f fs ih =>
      by_cases hf : f.IsAccepted
      · obtain ⟨v, t', hunit, hv⟩ := parseUnit_of_accepted hf t
        rw [parseUnits, hunit] at hu ⊢
        rcases List.mem_cons.mp hu with rfl | hu
        · have hkeeps := (parseUnits_growsInBlocks fs t').keeps
          rwa [hkeeps.kind_eq (parseUnit_lays hunit).2.1]
        · exact ih t' hu
      · rw [parseUnits, parseUnit_of_not_accepted hf] at hu ⊢
        exact ih t hu

end Files

theorem elements_of_parseModule_ok {base t : Tree} {name : String} {files : List File}
    (h : parseModule base name files = .ok t) :
    ((extending base).parseUnits files).2.1.elements = [] := by
  simp only [parseModule] at h
  split at h
  · next hempty => exact List.isEmpty_iff.mp hempty
  · cases h

theorem elements_of_parseModule_error {base : Tree} {name : String} {files : List File}
    {ds : DiagnosticSet} (h : parseModule base name files = .error ds) :
    ((extending base).parseUnits files).2.1 = ds ∧ ds.elements ≠ [] := by
  simp only [parseModule] at h
  split at h
  · cases h
  · next hempty =>
      cases h
      exact ⟨rfl, mt List.isEmpty_iff.mpr hempty⟩

theorem parseModule_ok {base t : Tree} {name : String} {files : List File}
    (h : parseModule base name files = .ok t) : ∃ m us, t.modules = base.modules ++ [m] ∧
      t.kind m = .module name us ∧ us.map t.site = files.map .whole ∧
      ∀ u ∈ us, (t.kind u).isUnit = true := by
  obtain ⟨m, hmodules, hunits, hkeeps⟩ := parseModule_units h
  obtain ⟨t₁, m', us, hadds, hkind, rfl⟩ := parseModule_adds h
  obtain rfl : m' = m := by
    have hlast : (t₁.addModule m').modules = base.modules ++ [m'] := by
      rw [show (t₁.addModule m').modules = t₁.modules ++ [m'] by cases t₁ <;> rfl, hadds.modules]
      rfl
    simpa using hlast.symm.trans hmodules
  have hkind : (t₁.addModule m').kind m' = .module name us := by
    rw [← hkind]
    cases t₁ <;> rfl
  obtain rfl : us = ((extending base).parseUnits files).1 := by rwa [unitsOf, hkind] at hunits
  have hempty := List.isEmpty_iff.mpr (elements_of_parseModule_ok h)
  obtain ⟨hsites, hlt⟩ :=
    (parseUnits_lays .synthesized files (extending base) (by simp [File.isSynthesized])).2 hempty
  refine ⟨m', _, hmodules, hkind, ?_, fun u hu => ?_⟩
  · rw [← hsites]
    exact List.map_congr_left fun u hu => hkeeps.site_eq (hlt u hu)
  · rw [hkeeps.kind_eq (hlt u hu)]
    exact isUnit_of_parseUnits _ files hu

/-- A module has one unit for each of its files, in order, if these are all accepted. If not, the
complaints are those about the files that are not, in the order of the files. -/
theorem parseModule_accounts (base : Tree) (name : String) (files : List File) :
    match parseModule base name files with
    | .ok t => (∀ f ∈ files, f.IsAccepted) ∧ base.Keeps t ∧
        ∃ m us, t.modules = base.modules ++ [m] ∧ t.kind m = .module name us ∧
          us.map t.site = files.map .whole ∧ ∀ u ∈ us, (t.kind u).isUnit = true
    | .error ds => (∃ f ∈ files, ¬ f.IsAccepted) ∧ ds.elements ≠ [] ∧
        (∀ d ∈ ds.elements, d.isError = true) ∧
        ∃ own : File → List Diagnostic, (∀ f : File, f.Explained (own f)) ∧
          ((files.map (·.uri)).Nodup → ds.elements = files.flatMap own) := by
  have haccepted := parseUnits_elements_eq_nil_iff (extending base) files
  split
  · next t h =>
      exact ⟨haccepted.mp (elements_of_parseModule_ok h), (parseModule_growsInBlocks h).keeps,
        parseModule_ok h⟩
  · next ds h =>
      obtain ⟨rfl, hne⟩ := elements_of_parseModule_error h
      refine ⟨by simpa using mt haccepted.mpr hne, hne, fun d hd => ?_,
        fun f => (Layout.ofFile f).complaints, Layout.complaints_explained,
        parseUnits_elements (extending base) files⟩
      obtain ⟨f, -, hown⟩ := mem_complaints_of_parseUnits _ files hd
      exact (Layout.complaints_explained f).isError d hown

def faultyDocuments : List File :=
  [.document "file:///a.orca" "let x = 1 # 2", .document "file:///b.orca" "let y = 2",
    .document "file:///c.orca" "let z = (1"]

theorem faultyDocuments_accounted : ∃ (ds : DiagnosticSet) (own : File → List Diagnostic),
    parseModule .empty "main" faultyDocuments = .error ds ∧
      ds.elements.map (·.code) = ["P0003", "P0002"] ∧ (∀ f : File, f.Explained (own f)) ∧
        ds.elements = faultyDocuments.flatMap own := by
  have hrun : (match parseModule .empty "main" faultyDocuments with
      | .ok _ => []
      | .error ds => ds.elements.map (·.code)) = ["P0003", "P0002"] := by
    simp only [parseModule, faultyDocuments, parseUnits, parseUnit]
    rw [Layout.ofFile_of_text (.document "file:///a.orca" "let x = 1 # 2") rfl,
      Layout.ofFile_of_text (.document "file:///b.orca" "let y = 2") rfl,
      Layout.ofFile_of_text (.document "file:///c.orca" "let z = (1") rfl]
    decide +kernel
  have haccounts := parseModule_accounts .empty "main" faultyDocuments
  cases hparse : parseModule .empty "main" faultyDocuments with
  | ok t => simp [hparse] at hrun
  | error ds =>
      rw [hparse] at hrun haccounts
      obtain ⟨-, -, -, own, hown, hconcat⟩ := haccounts
      exact ⟨ds, own, rfl, hrun, hown, hconcat (by decide)⟩

end Tree

end LanguageService
