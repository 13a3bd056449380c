import LanguageService.Proofs.NestedDecl

namespace LanguageService

namespace Lowering

variable {l : Layout}

theorem unit_lays (hl : l.Ordered) {ds : List Surface.Decl}
    (h : Surface.fileSpelled ds 0 l.tokens) (t : Tree) :
    Tree.Lays t (unit l ds t).2 l.file ∧ (unit l ds t).1 < (unit l ds t).2.size ∧
      (unit l ds t).2.site (unit l ds t).1 = .whole l.file := by
  have hbetween : Surface.Between l.tokens 0 l.tokens.length
      (.items (ds.map Surface.Decl.spelled)) :=
    ⟨0, l.tokens, Nat.le_refl _, by simp, .all l.tokens, h⟩
  obtain ⟨hlays, hrow⟩ := decls_places hl ds (Surface.spread_items hbetween) t
  have hinsert : Tree.Lays (decls l ds t).2
      ((decls l ds t).2.insert (.unit (decls l ds t).1) (.whole l.file)).2 l.file := by
    have hpieces : (Kind.unit (decls l ds t).1).pieces = (decls l ds t).1.map .part := rfl
    rw [← hpieces] at hrow
    refine Tree.lays_insert rfl rfl (fun c hc => ?_) (fun p hp => ?_)
      (hrow.pairwise hl (Nat.le_refl _)) (by simp [Kind.extras]) (fun hsynthesized => ?_)
      (by simp [Kind.isExpr])
    · rcases Kind.mem_children_iff.mp hc with hpart | hextra
      · exact hrow.lt_size hpart
      · cases hextra
    · obtain ⟨a, b, -, hab, hb, hon⟩ := hrow.mem hp
      refine ⟨?_, hon.written hl hab hb⟩
      rw [hon.site_eq]
      exact Layout.whole_includes_site hl hab hb
    -- A synthesized file has no text, so that no declaration is in it.
    · refine List.eq_nil_iff_forall_not_mem.mpr fun c hc => ?_
      obtain ⟨a, b, -, hab, hb, -⟩ := hrow.mem (List.mem_map.mpr ⟨c, hc, rfl⟩)
      have hown := Layout.isSynthesized_of_tokens hl (by omega)
      exact absurd hsynthesized (by simpa [Site.isSynthesized, Site.whole] using hown)
  refine ⟨hlays.trans hinsert, ?_, ?_⟩
  · rw [unit]
    exact (Tree.fst_insert _ _ _).trans_lt
      (Nat.lt_of_lt_of_eq (Nat.lt_succ_self _) (Tree.size_insert _ _ _).symm)
  · rw [unit]
    exact (congrArg _ (Tree.fst_insert _ _ _)).trans ((Tree.site_insert _ _ _ _).trans (if_pos rfl))

end Lowering

namespace DiagnosticSet

theorem elements_insert_ne_nil (s : DiagnosticSet) (d : Diagnostic) :
    (s.insert d).elements ≠ [] := by
  rw [insert]
  split
  · next h =>
      obtain ⟨d', hd', -⟩ := List.any_eq_true.mp h
      exact List.ne_nil_of_mem hd'
  · simp

theorem elements_extend_ne_nil {s : DiagnosticSet} {ds : List Diagnostic}
    (h : s.elements ≠ [] ∨ ds ≠ []) : (s.extend ds).elements ≠ [] := by
  induction ds generalizing s with
  | nil => simpa [extend] using h
  | cons d ds ih => exact ih (.inl (elements_insert_ne_nil s d))

end DiagnosticSet

namespace Tree

theorem parseUnit_complains {t : Tree} {f : File} {ds : DiagnosticSet}
    (h : t.parseUnit f = .error ds) : ds.elements ≠ [] := by
  simp only [parseUnit] at h
  split at h
  · split at h
    · cases h
    · next herrors =>
        cases h
        exact DiagnosticSet.elements_extend_ne_nil (.inr (by simpa using herrors))
  · next s _ =>
      cases h
      refine DiagnosticSet.elements_extend_ne_nil (.inr ?_)
      rw [Layout.syntaxError]
      split
      · next x hx =>
          split
          · next herror =>
              have hmem : x ∈ (Layout.ofFile f).lexemes.toList :=
                Array.mem_toList_iff.mpr (Array.mem_of_getElem? hx)
              obtain ⟨text, htext⟩ : ∃ text, x.token = .error text := by
                cases hk : x.token <;> simp_all [Token.isError]
              rw [List.append_nil]
              exact List.ne_nil_of_mem (List.mem_filterMap.mpr ⟨x, hmem, by rw [htext]⟩)
          · simp
      · simp

theorem parseUnit_lays {t t₁ : Tree} {f : File} {u : NodeId} (h : t.parseUnit f = .ok (u, t₁)) :
    Lays t t₁ f ∧ u < t₁.size ∧ t₁.site u = .whole f := by
  simp only [parseUnit] at h
  split at h
  · next ds hparse =>
      split at h
      · have hunit := Lowering.unit_lays (Layout.ordered_ofFile f) (Surface.parse_spelled hparse) t
        rw [Except.ok.injEq] at h
        rwa [h] at hunit
      · cases h
  · cases h

theorem Lays.of_file {t t' : Tree} {f f' : File} (h : Lays t t' f)
    (hf : f'.isSynthesized = false → f.isSynthesized = false) : Lays t t' f' :=
  ⟨h.keeps, h.placed, fun hf' => h.accounted (hf hf')⟩

theorem parseUnits_lays (f' : File) (files : List File) (t : Tree)
    (hfiles : f'.isSynthesized = false → ∀ f ∈ files, f.isSynthesized = false) :
    Lays t (t.parseUnits files).2.2 f' ∧
      ((t.parseUnits files).2.1.isEmpty = true →
        (t.parseUnits files).1.map (t.parseUnits files).2.2.site = files.map .whole ∧
          ∀ u ∈ (t.parseUnits files).1, u < (t.parseUnits files).2.2.size) := by
  induction files generalizing t with
  | nil => exact ⟨.refl t f', by simp [parseUnits]⟩
  | cons f fs ih =>
      have hfs := fun hf' g hg => hfiles hf' g (List.mem_cons_of_mem f hg)
      rw [parseUnits]
      split
      · next u t₁ hunit =>
          obtain ⟨hlays, hu, hsite⟩ := parseUnit_lays hunit
          obtain ⟨hlays', hunits⟩ := ih t₁ hfs
          have hlays := hlays.of_file fun hf' => hfiles hf' f List.mem_cons_self
          refine ⟨hlays.trans hlays', fun hempty => ?_⟩
          obtain ⟨hsites, hlt⟩ := hunits hempty
          constructor
          · rw [List.map_cons, List.map_cons, hsites, hlays'.keeps.site_eq hu, hsite]
          · exact List.forall_mem_cons.mpr ⟨Nat.lt_of_lt_of_le hu hlays'.keeps.size_le, hlt⟩
      · next ds hunit =>
          refine ⟨(ih t hfs).1, fun hempty => ?_⟩
          have hne : (ds.extend (t.parseUnits fs).2.1.elements).elements ≠ [] :=
            DiagnosticSet.elements_extend_ne_nil (.inl (parseUnit_complains hunit))
          exact absurd (List.isEmpty_iff.mp hempty) hne

theorem keeps_extending (base : Tree) : Keeps base (extending base) :=
  ⟨Nat.le_of_eq (by simp [extending, size]), fun i _ => get?_extending base i⟩

theorem keeps_addModule (t : Tree) (m : NodeId) : Keeps t (t.addModule m) := by
  cases t <;> exact ⟨Nat.le_refl _, fun _ _ => rfl⟩

structure ParsedAs (base t : Tree) (name : String) (files : List File) (m : NodeId) : Prop where
  old_le : base.size ≤ m
  size_eq : t.size = m + 1
  kind_eq : ∃ us, t.kind m = .module name us
  site_eq : t.site m = .synthesized
  units : (t.children m).map t.site = files.map .whole
  placed : ∀ i, base.size ≤ i → i < m → t.Placed i
  accounted : (∀ f ∈ files, f.isSynthesized = false) →
    ∀ i, base.size ≤ i → i < m → t.Accounted i

theorem ParsedAs.eq_last {base t : Tree} {name : String} {files : List File} {m i : NodeId}
    (h : ParsedAs base t name files m) (hi : i < t.size) (hle : m ≤ i) : i = m :=
  Nat.le_antisymm (Nat.le_of_lt_succ (Nat.lt_of_lt_of_eq hi h.size_eq)) hle

theorem parseModule_parsedAs {base t : Tree} {name : String} {files : List File}
    (h : parseModule base name files = .ok t) : ∃ m, ParsedAs base t name files m := by
  have hlays (f' : File) := parseUnits_lays f' files (extending base)
  have hbase : (extending base).size = base.size := by simp [extending, size]
  simp only [parseModule] at h
  split at h
  · next hempty =>
      rw [Except.ok.injEq] at h
      generalize (extending base).parseUnits files = parsed at h hempty hlays
      obtain ⟨us, ds, t₁⟩ := parsed
      obtain ⟨hold, hunits⟩ := hlays .synthesized (by simp [File.isSynthesized])
      obtain ⟨hsites, hlt⟩ := hunits hempty
      have hinsert := t₁.keeps_insert (.module name us) .synthesized
      have hsize := t₁.size_insert (.module name us) .synthesized
      have hadd := keeps_addModule (t₁.insert (.module name us) .synthesized).2
        (t₁.insert (.module name us) .synthesized).1
      rw [h] at hadd
      have hkeeps := hinsert.trans hadd
      have hnew : t₁.size < (t₁.insert (.module name us) .synthesized).2.size := by omega
      have hkind : t.kind t₁.size = .module name us := by
        rw [hadd.kind_eq hnew, kind_insert, if_pos rfl]
      refine ⟨t₁.size, ?_, ?_, ⟨us, hkind⟩, ?_, ?_, ?_, ?_⟩
      · rw [← hbase]
        exact hold.keeps.size_le
      · rw [← hsize, ← h]
        cases t₁ <;> rfl
      · rw [hadd.site_eq hnew, site_insert, if_pos rfl]
      · rw [children, hkind, ← hsites]
        exact List.map_congr_left fun u hu => hkeeps.site_eq (hlt u hu)
      · intro i hle hi
        exact (hold.placed i (by omega) hi).later hkeeps hi
      · intro hfiles i hle hi
        have hdocuments := (hlays (.document "" "") fun _ => hfiles).1
        exact (hdocuments.accounted rfl i (by omega) hi).later hkeeps hi
  · cases h

/-- Every node of a parsed module but the module itself contains the places of its children, its
names and its marks. What is synthesized is the module, and all of memberwise initializers. -/
theorem sites_nest {base t : Tree} {name : String} {files : List File}
    (h : parseModule base name files = .ok t) {i : NodeId} (hnew : base.size ≤ i)
    (hi : i < t.size) :
    (t.isModule i = false → t.Nests i) ∧
      (t.isModule i = true → t.kind i = .module name (t.children i) ∧
        (t.children i).map t.site = files.map .whole) ∧
      ((∀ f ∈ files, f.isSynthesized = false) →
        (t.isSynthesized i = true ↔ t.isModule i = true ∨ (t.kind i).isMemberwiseInit = true ∨
          ∃ m, base.size ≤ m ∧ (t.kind m).isMemberwiseInit = true ∧ i ∈ t.children m)) := by
  obtain ⟨m, hm⟩ := parseModule_parsedAs h
  obtain ⟨us, hkind⟩ := hm.kind_eq
  have hmodule : t.isModule m = true := by simp [isModule, hkind]
  have hplain : (t.kind m).isMemberwiseInit = false := by rw [hkind]; rfl
  have hsynthesized : t.isSynthesized m = true := by
    rw [isSynthesized, hm.site_eq]
    rfl
  rcases Nat.lt_or_ge i m with him | hmi
  · have hplaced := hm.placed i hnew him
    refine ⟨fun _ => hplaced.toNests, by simp [hplaced.notModule], fun hfiles => ⟨?_, ?_⟩⟩
    · intro hsynthesized
      rcases hm.accounted hfiles i hnew him hsynthesized with hk | ⟨k, hik, hk, hc⟩
      · exact .inr (.inl hk)
      · exact .inr (.inr ⟨k, Nat.le_trans hnew (Nat.le_of_lt hik), hk, hc⟩)
    · rintro (hk | hk | ⟨k, hle, hk, hc⟩)
      · simp [hplaced.notModule] at hk
      · exact (hplaced.memberwise hk).1
      · have hlt := lt_size_of_child hc
        rcases Nat.lt_or_ge k m with hkm | hmk
        · exact ((hm.placed k hle hkm).memberwise hk).2 i hc
        · obtain rfl := hm.eq_last hlt hmk
          simp [hplain] at hk
  · obtain rfl := hm.eq_last hi hmi
    refine ⟨by simp [hmodule], fun _ => ⟨?_, hm.units⟩, fun _ => by simp [hmodule, hsynthesized]⟩
    rw [children, hkind, Kind.children]

/-- A document with parentheses, labels, a method of one variant, a comment, and types with and
without an initializer of their own. -/
def boxDocument : File :=
  .document "file:///main.orca" "
    type Box<T> \x7b var (w, h): (Int, Int); var d = 1 \x7d
    type Cell \x7b init(n: Int,) \x7b return \x7d \x7d
    extension Box \x7b
      fun area(scale: Int) -> Int \x7b let \x7b return (w * (h + d)) * scale \x7d \x7d
    \x7d
    // a box to measure
    let box: Box = Box(w: 1, h: (2), d: 3)
    operator infix <>"

set_option maxRecDepth 4000 in
theorem boxDocument_nests : ∃ t, parseModule .empty "main" [boxDocument] = .ok t ∧ 50 < t.size ∧
    ∀ i < t.size, (t.isModule i = false → t.Nests i) ∧
      (t.isSynthesized i = true ↔ t.isModule i = true ∨ (t.kind i).isMemberwiseInit = true ∨
        ∃ m, empty.size ≤ m ∧ (t.kind m).isMemberwiseInit = true ∧ i ∈ t.children m) := by
  have hrun : (match parseModule .empty "main" [boxDocument] with
      | .error _ => false
      | .ok t => decide (50 < t.size)) = true := by
    rw [parseModule, parseUnits, parseUnit, Layout.ofFile_of_text boxDocument rfl]
    decide +kernel
  cases hparse : parseModule .empty "main" [boxDocument] with
  | error e => simp [hparse] at hrun
  | ok t =>
      rw [hparse] at hrun
      refine ⟨t, rfl, by simpa using hrun, fun i hi => ?_⟩
      have hnest := sites_nest hparse (Nat.zero_le i) hi
      exact ⟨hnest.1, hnest.2.2 (by simp [boxDocument, File.isSynthesized])⟩

end Tree

end LanguageService
