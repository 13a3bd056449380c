import LanguageService.Proofs.LibraryRoots
import LanguageService.Proofs.PlainSession

namespace LanguageService

def Parsed.settled (p : Parsed) : Parsed := { p with waited := false }

def Analysis.settled (a : Analysis) : Analysis := { a with parsed := a.parsed.settled }

abbrev Meaning := Nat → DocumentUri × String

structure ParseHandle.Stands (d : Disk) (config : Config) (m : Meaning) (next : Nat)
    (u : DocumentUri) (text : String) (h : ParseHandle) : Prop where
  id_lt : h.id < next
  meaning : m h.id = (u, text)
  uri : h.uri = u
  text : h.text = text
  root : h.root = u.libraryRoot d (config.libraryRoot d)

structure AnalysisHandle.Stands (d : Disk) (config : Config) (m : Meaning) (next : Nat)
    (u : DocumentUri) (text : String) (h : AnalysisHandle) : Prop where
  id_lt : h.id < next
  meaning : m h.id = (u, text)
  parse : h.parse.Stands d config m next u text

structure OpenDocument.Stands (d : Disk) (config : Config) (m : Meaning) (next : Nat)
    (u : DocumentUri) (e : OpenDocument) : Prop where
  parse : ∀ h, e.parse = some h → h.Stands d config m next u e.document.text
  analysis : ∀ h, e.analysis = some h → h.Stands d config m next u e.document.text

structure Cache.Sound (d : Disk) (config : Config) (m : Meaning) (c : Cache) : Prop where
  default : c.default = config.libraryRoot d
  handles : ∀ u e, c.entry? u = some e → e.Stands d config m c.next u
  parsed : ∀ r ∈ c.parsed, r.1 < c.next ∧
    r.2.map Parsed.settled =
      Parsed.afresh d (config.libraryRoot d) (m r.1).1 (m r.1).2
  analyses : ∀ r ∈ c.analyses, r.1 < c.next ∧
    r.2.map Analysis.settled =
      Analysis.afresh d (config.libraryRoot d) (m r.1).1 (m r.1).2
  libraries : ∀ (u : DocumentUri) root r,
    u.libraryRoot d (config.libraryRoot d) = some root →
      c.libraries.get? root = some r → r = Library.build d root

section Documents

variable {c : Cache} {u v : DocumentUri} {e : OpenDocument}

theorem Cache.entry?_close : Cache.entry? (c.close u) v = if v = u then none else c.entry? v := by
  rw [ entry?, close, List.find?_filter]
  by_cases h : v = u
  · simp [h]
  · rw [if_neg h, entry?]
    congr 2
    funext x
    by_cases hx : x.1 = v
    · simp [hx, h]
    · simp [hx]

theorem Cache.entry?_put : Cache.entry? (c.put u e) v = if v = u then some e else c.entry? v := by
  have hclose : Cache.entry? (c.close u) v = if v = u then none else c.entry? v := entry?_close
  rw [ entry?, put, List.find?_cons]
  by_cases h : v = u
  · simp [h]
  · have hne : (u == v) = false := by simpa using Ne.symm h
    rw [if_neg h] at hclose ⊢
    rw [hne]
    exact hclose

theorem Cache.document?_put :
    (c.put u e).document? = Function.update c.document? u (some e.document) := by
  funext v
  by_cases h : v = u
  · simp [document?, entry?_put, h]
  · simp [document?, entry?_put, h]

theorem Cache.document?_close : (c.close u).document? = Function.update c.document? u none := by
  funext v
  by_cases h : v = u
  · simp [document?, entry?_close, h]
  · simp [document?, entry?_close, h]

end Documents

section Stands

variable {d : Disk} {config : Config} {m m' : Meaning} {next next' : Nat} {u : DocumentUri}
  {text : String} (hle : next ≤ next') (hm : ∀ n < next, m' n = m n)

include hle hm

theorem ParseHandle.Stands.extend {h : ParseHandle} (hs : h.Stands d config m next u text) :
    h.Stands d config m' next' u text := by
  refine ⟨?_, ?_, hs.uri, hs.text, hs.root⟩
  · exact Nat.lt_of_lt_of_le hs.id_lt hle
  · rw [hm _ hs.id_lt, hs.meaning]

theorem AnalysisHandle.Stands.extend {h : AnalysisHandle}
    (hs : h.Stands d config m next u text) : h.Stands d config m' next' u text := by
  refine ⟨?_, ?_, hs.parse.extend hle hm⟩
  · exact Nat.lt_of_lt_of_le hs.id_lt hle
  · rw [hm _ hs.id_lt, hs.meaning]

theorem OpenDocument.Stands.extend {e : OpenDocument} (hs : e.Stands d config m next u) :
    e.Stands d config m' next' u :=
  ⟨fun h hh => (hs.parse h hh).extend hle hm, fun h hh => (hs.analysis h hh).extend hle hm⟩

end Stands

namespace Cache

variable {d : Disk} {config : Config} {m m' : Meaning} {c : Cache} {u : DocumentUri}
  {e : OpenDocument}

theorem sound_empty : Sound d config m (.empty (config.libraryRoot d)) where
  default := rfl
  handles := by simp [empty, entry?]
  parsed := by simp [empty]
  analyses := by simp [empty]
  libraries := by simp [empty, LibraryTable.get?]

theorem Sound.put (hs : Sound d config m c) (he : e.Stands d config m c.next u) :
    Sound d config m (c.put u e) where
  default := hs.default
  handles := by
    intro v e' he'
    rw [ entry?_put] at he'
    split at he'
    · next hv =>
        cases he'
        rw [hv]
        exact he
    · exact hs.handles v e' he'
  parsed := hs.parsed
  analyses := hs.analyses
  libraries := hs.libraries

theorem stands_fresh (doc : Document) (next : Nat) :
    (OpenDocument.fresh doc).Stands d config m next u :=
  ⟨by simp [OpenDocument.fresh], by simp [OpenDocument.fresh]⟩

theorem Sound.openText (hs : Sound d config m c) (text : String) (version : Int) :
    Sound d config m (c.openText u text version) :=
  hs.put (stands_fresh _ _)

theorem Sound.close (hs : Sound d config m c) : Sound d config m (c.close u) where
  default := hs.default
  handles := by
    intro v e he
    rw [ entry?_close] at he
    split at he
    · cases he
    · exact hs.handles v e he
  parsed := hs.parsed
  analyses := hs.analyses
  libraries := hs.libraries

theorem Sound.allot (hs : Sound d config m c) (w : DocumentUri × String) :
    Sound d config (Function.update m c.next w) { c with next := c.next + 1 } := by
  have hm : ∀ n < c.next, Function.update m c.next w n = m n := fun n hn =>
    Function.update_of_ne (Nat.ne_of_lt hn) w m
  refine ⟨hs.default, fun v e he => ?_, fun r hr => ?_, fun r hr => ?_, hs.libraries⟩
  · exact (hs.handles v e he).extend (Nat.le_succ _) hm
  · obtain ⟨hlt, hres⟩ := hs.parsed r hr
    rw [hm _ hlt]
    exact ⟨Nat.lt_succ_of_lt hlt, hres⟩
  · obtain ⟨hlt, hres⟩ := hs.analyses r hr
    rw [hm _ hlt]
    exact ⟨Nat.lt_succ_of_lt hlt, hres⟩

theorem parseHandleOf_spec (hs : Sound d config m c) (he : c.entry? u = some e) :
    ∃ m', Sound d config m' (c.parseHandleOf d u e).2 ∧
      (c.parseHandleOf d u e).2.document? = c.document? ∧
      (c.parseHandleOf d u e).1.Stands d config m' (c.parseHandleOf d u e).2.next u
        e.document.text := by
  have hstands := hs.handles u e he
  rw [parseHandleOf]
  cases hparse : e.parse with
  | some h => exact ⟨m, hs, rfl, hstands.parse h hparse⟩
  | none =>
      let w : DocumentUri × String := (u, e.document.text)
      let h : ParseHandle := ⟨c.next, u, e.document.text, c.libraryRoot d u⟩
      have hm : ∀ n < c.next, Function.update m c.next w n = m n := fun n hn =>
        Function.update_of_ne (Nat.ne_of_lt hn) w m
      have hh : h.Stands d config (Function.update m c.next w) (c.next + 1) u
          e.document.text := by
        refine ⟨Nat.lt_succ_self _, Function.update_self .., rfl, rfl, ?_⟩
        dsimp only [h]
        rw [libraryRoot, hs.default]
      have he' : ({ e with parse := some h } : OpenDocument).Stands d config
          (Function.update m c.next w) (c.next + 1) u := by
        refine ⟨fun k hk => ?_, fun k hk => ?_⟩
        · cases hk
          exact hh
        · exact (hstands.analysis k hk).extend (Nat.le_succ _) hm
      refine ⟨Function.update m c.next w, (hs.allot w).put he', ?_, hh⟩
      have hput : (c.put u { e with parse := some h }).document? = c.document? := by
        rw [document?_put, Function.update_eq_self_iff, document?, he]
        rfl
      exact hput

theorem library_spec {root : Path} (hs : Sound d config m c)
    (hroot : u.libraryRoot d (config.libraryRoot d) = some root) :
    (c.library d root).1 = Library.build d root ∧ Sound d config m (c.library d root).2 ∧
      (c.library d root).2.documents = c.documents ∧ (c.library d root).2.next = c.next := by
  rw [library]
  cases hget : c.libraries.get? root with
  | some r => exact ⟨hs.libraries u root r hroot hget, hs, rfl, rfl⟩
  | none =>
      refine ⟨rfl, ⟨hs.default, hs.handles, hs.parsed, hs.analyses, ?_⟩, rfl, rfl⟩
      intro v q r hq hr
      rw [LibraryTable.get?, List.find?_cons] at hr
      by_cases hparts : root.parts = q.parts
      · obtain rfl := Library.libraryRoot_eq_of_parts hroot hq hparts
        simpa using hr.symm
      · have hne : (root.parts == q.parts) = false := by simpa using hparts
        rw [hne] at hr
        exact hs.libraries v q r hq hr

theorem libraryUnder_spec (known : LibraryTable) {root : Option Path} (hs : Sound d config m c)
    (hroot : u.libraryRoot d (config.libraryRoot d) = root) :
    (c.libraryUnder d known root).1.map (·.1) = Library.under d root ∧
      Sound d config m (c.libraryUnder d known root).2 ∧
      (c.libraryUnder d known root).2.documents = c.documents ∧
      (c.libraryUnder d known root).2.next = c.next := by
  cases root with
  | none => exact ⟨rfl, hs, rfl, rfl⟩
  | some root =>
      obtain ⟨hbuild, hkept⟩ := library_spec hs hroot
      refine ⟨?_, hkept⟩
      rw [Library.under, ← hbuild, libraryUnder]
      rcases c.library d root with ⟨_ | _, _⟩ <;> rfl

theorem ofText_settled (u : DocumentUri) (text : String) (library : Tree) (waited : Bool) :
    (Parsed.ofText u text library waited).map Parsed.settled =
      Parsed.ofText u text library false := by
  unfold Parsed.ofText
  generalize Tree.parseModule library u.moduleName [.document u.text text] = r
  cases r <;> rfl

theorem parse_spec (known : LibraryTable) {text : String} {root : Option Path}
    (hs : Sound d config m c) (hroot : u.libraryRoot d (config.libraryRoot d) = root) :
    (c.parse d known u text root).1.map Parsed.settled =
        Parsed.afresh d (config.libraryRoot d) u text ∧
      Sound d config m (c.parse d known u text root).2 ∧
      (c.parse d known u text root).2.documents = c.documents ∧
      (c.parse d known u text root).2.next = c.next := by
  obtain ⟨hlibrary, hsound, hdocs, hnext⟩ := libraryUnder_spec known hs hroot
  simp only [Parsed.afresh, hroot, ← hlibrary, parse]
  rcases hunder : c.libraryUnder d known root with ⟨⟨e⟩ | ⟨library, waited⟩, c'⟩
  · rw [hunder] at hsound hdocs hnext
    exact ⟨rfl, hsound, hdocs, hnext⟩
  · rw [hunder] at hsound hdocs hnext
    by_cases hbelow : u.isBelow root = true
    · simp only [Except.map, hbelow, ↓reduceIte]
      exact ⟨rfl, hsound, hdocs, hnext⟩
    · simp only [Except.map, hbelow, Bool.false_eq_true, ↓reduceIte]
      refine ⟨ofText_settled u text library waited, ?_, hdocs, hnext⟩
      exact ⟨hsound.default, hsound.handles, hsound.parsed, hsound.analyses, hsound.libraries⟩

theorem awaitParse_spec (known : LibraryTable) {text : String} {h : ParseHandle}
    (hs : Sound d config m c) (hh : h.Stands d config m c.next u text) :
    (c.awaitParse d known h).1.map Parsed.settled =
        Parsed.afresh d (config.libraryRoot d) u text ∧
      Sound d config m (c.awaitParse d known h).2 ∧
      (c.awaitParse d known h).2.documents = c.documents ∧
      (c.awaitParse d known h).2.next = c.next := by
  rw [awaitParse]
  cases hparsed : c.parsed? h with
  | some r =>
      obtain ⟨⟨n, r'⟩, hfind, rfl⟩ := Option.map_eq_some_iff.mp hparsed
      obtain rfl : n = h.id := by simpa using List.find?_some hfind
      have hres := (hs.parsed _ (List.mem_of_find?_eq_some hfind)).2
      rw [hh.meaning] at hres
      exact ⟨hres, hs, rfl, rfl⟩
  | none =>
      obtain ⟨hres, hsound, hdocs, hnext⟩ :=
        parse_spec known hs (hh.uri ▸ hh.root.symm)
      rw [hh.uri, hh.text] at *
      refine ⟨hres, ⟨hsound.default, hsound.handles, ?_, hsound.analyses, hsound.libraries⟩,
        hdocs, hnext⟩
      intro r hr
      rcases List.mem_cons.mp hr with rfl | hr
      · refine ⟨hnext ▸ hh.id_lt, ?_⟩
        rw [hh.meaning]
        exact hres
      · exact hsound.parsed r hr

theorem check_settled (p : Parsed) :
    p.check.map Analysis.settled = p.settled.check := by
  rw [Parsed.check, Parsed.check, Parsed.settled]
  cases typeCheck p.tree <;> rfl

theorem awaitAnalysis_spec (known : LibraryTable) {text : String} {h : AnalysisHandle}
    (hs : Sound d config m c) (hh : h.Stands d config m c.next u text) :
    (c.awaitAnalysis d known h).1.map Analysis.settled =
        Analysis.afresh d (config.libraryRoot d) u text ∧
      Sound d config m (c.awaitAnalysis d known h).2 ∧
      (c.awaitAnalysis d known h).2.documents = c.documents := by
  rw [awaitAnalysis]
  cases hanalysis : c.analysis? h with
  | some r =>
      obtain ⟨⟨n, r'⟩, hfind, rfl⟩ := Option.map_eq_some_iff.mp hanalysis
      obtain rfl : n = h.id := by simpa using List.find?_some hfind
      have hres := (hs.analyses _ (List.mem_of_find?_eq_some hfind)).2
      rw [hh.meaning] at hres
      exact ⟨hres, hs, rfl⟩
  | none =>
      obtain ⟨hres, hsound, hdocs, hnext⟩ := awaitParse_spec known hs hh.parse
      have hfresh : ((c.awaitParse d known h.parse).1.bind Parsed.check).map Analysis.settled =
          Analysis.afresh d (config.libraryRoot d) u text := by
        simp only [Analysis.afresh, ← hres]
        cases (c.awaitParse d known h.parse).1 with
        | error e => rfl
        | ok p => exact check_settled p
      have hkeep (r : Except Failure Analysis) (effort : Effort)
          (hr : r.map Analysis.settled = Analysis.afresh d (config.libraryRoot d) u text) :
          Sound d config m { (c.awaitParse d known h.parse).2 with
            effort := effort
            analyses := (h.id, r) :: (c.awaitParse d known h.parse).2.analyses } := by
        refine ⟨hsound.default, hsound.handles, hsound.parsed, ?_, hsound.libraries⟩
        intro q hq
        rcases List.mem_cons.mp hq with rfl | hq
        · refine ⟨hnext ▸ hh.id_lt, ?_⟩
          rw [hh.meaning]
          exact hr
        · exact hsound.analyses q hq
      rcases hawait : c.awaitParse d known h.parse with ⟨⟨e⟩ | ⟨p⟩, c'⟩
      · rw [hawait] at hfresh hdocs hkeep
        exact ⟨hfresh, hkeep _ c'.effort hfresh, hdocs⟩
      · rw [hawait] at hfresh hdocs hkeep
        exact ⟨hfresh, hkeep _ _ hfresh, hdocs⟩

theorem parseHandle_spec (hs : Sound d config m c) (he : c.entry? u = some e) :
    ∃ h c' m', c.parseHandle d u = .ok (h, c') ∧ Sound d config m' c' ∧
      c'.document? = c.document? ∧ h.Stands d config m' c'.next u e.document.text := by
  obtain ⟨m', hsound, hdocs, hh⟩ := parseHandleOf_spec hs he
  refine ⟨_, _, m', ?_, hsound, hdocs, hh⟩
  rw [parseHandle, he]

theorem analysisHandle_spec (hs : Sound d config m c) (he : c.entry? u = some e) :
    ∃ h c' m', c.analysisHandle d u = .ok (h, c') ∧ Sound d config m' c' ∧
      c'.document? = c.document? ∧ h.Stands d config m' c'.next u e.document.text := by
  simp only [analysisHandle, he]
  cases hanalysis : e.analysis with
  | some h => exact ⟨h, c, m, rfl, hs, rfl, (hs.handles u e he).analysis h hanalysis⟩
  | none =>
      obtain ⟨m', hsound, hdocs, hp⟩ := parseHandleOf_spec hs he
      rcases hof : c.parseHandleOf d u e with ⟨p, c'⟩
      rw [hof] at hsound hdocs hp
      let w : DocumentUri × String := (u, e.document.text)
      have hp' : p.Stands d config (Function.update m' c'.next w) (c'.next + 1) u
          e.document.text :=
        hp.extend (Nat.le_succ _) fun n hn => Function.update_of_ne (Nat.ne_of_lt hn) w m'
      let h : AnalysisHandle := ⟨c'.next, p⟩
      have hh : h.Stands d config (Function.update m' c'.next w) (c'.next + 1) u
          e.document.text :=
        ⟨Nat.lt_succ_self _, Function.update_self .., hp'⟩
      have hentry : (⟨e.document, some p, some h⟩ : OpenDocument).Stands d config
          (Function.update m' c'.next w) (c'.next + 1) u := by
        refine ⟨fun k hk => ?_, fun k hk => ?_⟩
        · cases hk
          exact hp'
        · cases hk
          exact hh
      refine ⟨h, _, _, rfl, (hsound.allot w).put hentry, ?_, hh⟩
      have hput : (c'.put u ⟨e.document, some p, some h⟩).document? = c.document? := by
        rw [document?_put, hdocs, Function.update_eq_self_iff, document?, he]
        rfl
      exact hput

theorem document?_of_documents {c' : Cache} (h : c'.documents = c.documents) :
    c'.document? = c.document? := by
  funext v
  rw [document?, document?, entry?, entry?, h]

end Cache

structure Session.Agrees (d : Disk) (s : Session) (t : PlainSession) : Prop where
  config : t.config = s.config
  documents : t.documents = s.cache.document?
  folders : t.folders = s.folders
  shuttingDown : t.shuttingDown = s.shuttingDown
  sound : ∃ m, s.cache.Sound d s.config m

section Reach

variable {d : Disk} {s : Session} {t : PlainSession} {u : DocumentUri}

theorem Session.Agrees.reach (h : s.Agrees d t) (u : DocumentUri) :
    (∃ err, t.reach d u = .error err ∧
      ∀ {α : Type} (get : Cache → Except ServiceError α), s.cache.reach d u get = .error err) ∨
    ∃ e c t', t.reach d u = .ok (e.document, t') ∧ c.entry? u = some e ∧
      Session.Agrees d { s with cache := c } t' ∧
      ∀ {α : Type} (get : Cache → Except ServiceError α), s.cache.reach d u get = get c := by
  obtain ⟨m, hsound⟩ := h.sound
  cases hentry : s.cache.entry? u with
  | some e =>
      refine .inr ⟨e, s.cache, t, ?_, hentry, h, fun get => ?_⟩
      · rw [PlainSession.reach, h.documents, Cache.document?, hentry]
        rfl
      · rw [Cache.reach, hentry]
        rfl
  | none =>
      have hnone : t.documents u = none := by
        rw [h.documents, Cache.document?, hentry]
        rfl
      simp only [PlainSession.reach, hnone, Cache.reach, hentry, Cache.openFromDisk]
      cases u.path? with
      | none => exact .inl ⟨_, rfl, fun _ => rfl⟩
      | some p =>
          dsimp only
          cases hread : d.readText p with
          | error e => exact .inl ⟨_, rfl, fun _ => rfl⟩
          | ok text =>
              let e := OpenDocument.fresh ⟨text, 0⟩
              refine .inr ⟨e, s.cache.openText u text 0, _, rfl, ?_, ⟨h.config, ?_, h.folders,
                h.shuttingDown, m, hsound.openText text 0⟩, fun _ => rfl⟩
              · rw [Cache.openText, Cache.entry?_put, if_pos rfl]
              · rw [Cache.openText, Cache.document?_put, ← h.documents]
                rfl

theorem Session.Agrees.withCache {c c' : Cache} {m : Meaning}
    (h : Session.Agrees d { s with cache := c } t) (hsound : c'.Sound d s.config m)
    (hdocs : c'.document? = c.document?) : Session.Agrees d { s with cache := c' } t where
  config := h.config
  documents := h.documents.trans hdocs.symm
  folders := h.folders
  shuttingDown := h.shuttingDown
  sound := ⟨m, hsound⟩

theorem Session.Agrees.parsedDocument (h : s.Agrees d t) (u : DocumentUri) :
    (∃ err, t.reach d u = .error err ∧ s.cache.parsedDocument d u = .error err) ∨
    ∃ doc t' r c, t.reach d u = .ok (doc, t') ∧ s.cache.parsedDocument d u = .ok (r, c) ∧
      Session.Agrees d { s with cache := c } t' ∧
      r.map Parsed.settled = Parsed.afresh d (t.config.libraryRoot d) u doc.text := by
  rcases h.reach u with ⟨err, hreach, hget⟩ | ⟨e, c, t', hreach, he, hagrees, hget⟩
  · refine .inl ⟨err, hreach, ?_⟩
    rw [Cache.parsedDocument, hget]
    rfl
  · obtain ⟨m, hsound⟩ := hagrees.sound
    obtain ⟨k, c₁, m₁, hhandle, hsound₁, hdocs₁, hk⟩ := Cache.parseHandle_spec hsound he
    obtain ⟨hres, hsound₂, hdocs₂, -⟩ := Cache.awaitParse_spec c₁.libraries hsound₁ hk
    refine .inr ⟨e.document, t', _, _, hreach, ?_, hagrees.withCache hsound₂
      ((Cache.document?_of_documents hdocs₂).trans hdocs₁), hres.trans (by rw [h.config])⟩
    rw [Cache.parsedDocument, hget, hhandle]
    rfl

theorem Session.Agrees.analyzedDocument (h : s.Agrees d t) (u : DocumentUri) :
    (∃ err, t.reach d u = .error err ∧ s.cache.analyzedDocument d u = .error err) ∨
    ∃ doc t' r c, t.reach d u = .ok (doc, t') ∧ s.cache.analyzedDocument d u = .ok (r, c) ∧
      Session.Agrees d { s with cache := c } t' ∧
      r.map Analysis.settled = Analysis.afresh d (t.config.libraryRoot d) u doc.text := by
  rcases h.reach u with ⟨err, hreach, hget⟩ | ⟨e, c, t', hreach, he, hagrees, hget⟩
  · refine .inl ⟨err, hreach, ?_⟩
    rw [Cache.analyzedDocument, hget]
    rfl
  · obtain ⟨m, hsound⟩ := hagrees.sound
    obtain ⟨k, c₁, m₁, hhandle, hsound₁, hdocs₁, hk⟩ := Cache.analysisHandle_spec hsound he
    obtain ⟨hres, hsound₂, hdocs₂⟩ := Cache.awaitAnalysis_spec c₁.libraries hsound₁ hk
    refine .inr ⟨e.document, t', _, _, hreach, ?_, hagrees.withCache hsound₂
      ((Cache.document?_of_documents hdocs₂).trans hdocs₁), hres.trans (by rw [h.config])⟩
    rw [Cache.analyzedDocument, hget, hhandle]
    rfl

end Reach

section Requests

variable {d : Disk} {s : Session} {t : PlainSession}

theorem answerOf_map {α β : Type} (r : Except Failure α) (f : α → β) (answer : β → Json) :
    Session.answerOf (r.map f) answer = Session.answerOf r (answer ∘ f) := by
  rcases r with (_ | _) | _ <;> rfl

theorem reportOf_map (r : Except Failure Analysis) (f : Analysis → Analysis) (u : DocumentUri) :
    Session.reportOf (r.map f) u = Session.reportOf r u := by
  rcases r with (_ | _) | _ <;> rfl

theorem Session.Agrees.ask {α : Type} (h : s.Agrees d t) (uri : String)
    {get : DocumentUri → Except ServiceError (α × Cache)}
    {answer : DocumentUri → α → Except ServiceError Json}
    {plain : DocumentUri → String → Except ServiceError Json}
    (hget : ∀ u, (∃ err, t.reach d u = .error err ∧ get u = .error err) ∨
      ∃ doc t' a c, t.reach d u = .ok (doc, t') ∧ get u = .ok (a, c) ∧
        Session.Agrees d { s with cache := c } t' ∧ answer u a = plain u doc.text) :
    (s.ask d uri get answer).1 = (t.ask d uri plain).1 ∧
      Session.Agrees d (s.ask d uri get answer).2 (t.ask d uri plain).2 := by
  rw [Session.ask, PlainSession.ask]
  cases DocumentUri.parse d uri with
  | error e => exact ⟨rfl, h⟩
  | ok u =>
      dsimp only
      rcases hget u with ⟨err, hreach, herr⟩ | ⟨doc, t', a, c, hreach, hok, hagrees, hanswer⟩
      · rw [hreach, herr]
        exact ⟨rfl, h⟩
      · rw [hreach, hok]
        exact ⟨hanswer, hagrees⟩

theorem Session.Agrees.askParsed (h : s.Agrees d t) (uri : String)
    (f : DocumentUri → Tree → Json) :
    let r := s.ask d uri (s.cache.parsedDocument d) fun u r =>
      Session.answerOf r fun p => f u p.tree
    let r' := t.ask d uri fun u text =>
      Session.answerOf (Parsed.afresh d (t.config.libraryRoot d) u text) fun p => f u p.tree
    r.1 = r'.1 ∧ Session.Agrees d r.2 r'.2 := by
  refine h.ask uri fun u => ?_
  rcases h.parsedDocument u with herr | ⟨doc, t', r, c, hreach, hok, hagrees, hres⟩
  · exact .inl herr
  · refine .inr ⟨doc, t', r, c, hreach, hok, hagrees, ?_⟩
    rw [← hres, answerOf_map]
    rfl

theorem Session.Agrees.askAnalyzed (h : s.Agrees d t) (uri : String)
    {answer : DocumentUri → Except Failure Analysis → Except ServiceError Json}
    (hanswer : ∀ u r, answer u (r.map Analysis.settled) = answer u r) :
    let r := s.ask d uri (s.cache.analyzedDocument d) answer
    let r' := t.ask d uri fun u text =>
      answer u (Analysis.afresh d (t.config.libraryRoot d) u text)
    r.1 = r'.1 ∧ Session.Agrees d r.2 r'.2 := by
  refine h.ask uri fun u => ?_
  rcases h.analyzedDocument u with herr | ⟨doc, t', r, c, hreach, hok, hagrees, hres⟩
  · exact .inl herr
  · refine .inr ⟨doc, t', r, c, hreach, hok, hagrees, ?_⟩
    rw [← hres, hanswer]

theorem Session.Agrees.answer (h : s.Agrees d t) (r : Request) :
    (s.answer d r).1 = (t.answer d r).1 ∧ Session.Agrees d (s.answer d r).2 (t.answer d r).2 := by
  cases r with
  | shutdown => exact ⟨rfl, h.config, h.documents, h.folders, rfl, h.sound⟩
  | definition p =>
      rw [Session.answer, PlainSession.answer]
      refine h.askAnalyzed p.uri fun u r => ?_
      rw [answerOf_map]
      rfl
  | symbols uri => exact h.askParsed uri fun u tree => tree.symbolsAnswer u.text
  | highlights uri => exact h.askParsed uri fun u tree => Highlight.answer tree u.text
  | diagnostics uri =>
      rw [Session.answer, PlainSession.answer]
      exact h.askAnalyzed uri fun u r => reportOf_map r _ u

theorem Session.Agrees.request (h : s.Agrees d t) (method : String) (params : Json) :
    (s.request d method params).1 = (t.request d method params).1 ∧
      Session.Agrees d (s.request d method params).2 (t.request d method params).2 := by
  rw [Session.request, PlainSession.request, h.shuttingDown]
  split
  · exact ⟨rfl, h⟩
  · cases Request.decode method params with
    | error e => exact ⟨rfl, h⟩
    | ok r => exact h.answer r

end Requests

section Notifications

variable {d : Disk} {s : Session} {t : PlainSession}

theorem Session.Agrees.openText (h : s.Agrees d t) (u : DocumentUri) (text : String)
    (version : Int) :
    Session.Agrees d { s with cache := s.cache.openText u text version }
      (t.put u (some ⟨text, version⟩)) := by
  obtain ⟨m, hsound⟩ := h.sound
  refine ⟨h.config, ?_, h.folders, h.shuttingDown, m, hsound.openText text version⟩
  rw [Cache.openText, Cache.document?_put, ← h.documents]
  rfl

theorem Session.Agrees.update (h : s.Agrees d t) (uri : String)
    {change : DocumentUri → Except ServiceError Cache}
    {plain : DocumentUri → Except ServiceError PlainSession}
    (hchange : ∀ u, (∃ err err', change u = .error err ∧ plain u = .error err') ∨
      ∃ c t', change u = .ok c ∧ plain u = .ok t' ∧
        Session.Agrees d { s with cache := c } t') :
    Session.Agrees d (s.update d uri change) (t.update d uri plain) := by
  rw [Session.update, PlainSession.update]
  cases DocumentUri.parse d uri with
  | error e => exact h
  | ok u =>
      rcases hchange u with ⟨err, err', hc, ht⟩ | ⟨c, t', hc, ht, hagrees⟩
      · simp only [hc, ht]
        exact h
      · simp only [hc, ht]
        exact hagrees

theorem Session.Agrees.apply (h : s.Agrees d t) (n : Notification) :
    Session.Agrees d (s.apply d n) (t.apply d n) := by
  cases n with
  | opened o =>
      rw [Session.apply, PlainSession.apply]
      exact h.update o.uri fun u => .inr ⟨_, _, rfl, rfl, h.openText u o.text o.version⟩
  | edited e =>
      rw [Session.apply, PlainSession.apply]
      refine h.update e.uri fun u => ?_
      rcases h.reach u with ⟨err, hreach, hget⟩ | ⟨x, c, t', hreach, hx, hagrees, hget⟩
      · refine .inl ⟨err, err, hget _, ?_⟩
        rw [hreach]
        rfl
      · let doc := x.document.change e.changes e.version
        refine .inr ⟨c.openText u doc.text doc.version, t'.put u (some doc), ?_, ?_,
          hagrees.openText u doc.text doc.version⟩
        · rw [hget, Cache.change, hx]
          rfl
        · rw [hreach]
          rfl
  | closed uri =>
      rw [Session.apply, PlainSession.apply]
      refine h.update uri fun u => .inr ⟨_, _, rfl, rfl, ?_⟩
      obtain ⟨m, hsound⟩ := h.sound
      refine ⟨h.config, ?_, h.folders, h.shuttingDown, m, hsound.close⟩
      rw [Cache.document?_close, ← h.documents]
      rfl
  | saved v =>
      rw [Session.apply, PlainSession.apply]
      cases v.text with
      | none => exact h
      | some text =>
          refine h.update v.uri fun u => .inr ⟨_, _, rfl, rfl, ?_⟩
          rw [Cache.save, h.documents]
          cases s.cache.document? u with
          | none => exact h.openText u text 0
          | some doc => exact h.openText u text doc.version
  | foldersChanged c =>
      refine ⟨h.config, h.documents, ?_, h.shuttingDown, h.sound⟩
      rw [PlainSession.apply, h.folders]
      rfl
  | exit => exact h
  | ignored => exact h

theorem Session.Agrees.notify (h : s.Agrees d t) (method : String) (params : Json) :
    (s.notify d method params).1 = (t.notify d method params).1 ∧
      Session.Agrees d (s.notify d method params).2 (t.notify d method params).2 := by
  rw [Session.notify, PlainSession.notify]
  cases Notification.decode method params <;> dsimp only
  case exit => exact ⟨rfl, h⟩
  all_goals exact ⟨rfl, h.apply _⟩

end Notifications

theorem Session.Agrees.handle {d : Disk} {s : Session} {t : PlainSession} (h : s.Agrees d t)
    (e : Event) :
    (s.handle d e).1 = (t.handle d e).1 ∧ Session.Agrees d (s.handle d e).2 (t.handle d e).2 := by
  cases e with
  | request method params =>
      obtain ⟨hanswer, hagrees⟩ := h.request method params
      exact ⟨congrArg Response.answer hanswer, hagrees⟩
  | notification method params =>
      obtain ⟨hflow, hagrees⟩ := h.notify method params
      exact ⟨congrArg Response.flow hflow, hagrees⟩

theorem Session.agrees_start (d : Disk) (config : Config) (folders : List Protocol.Folder) :
    Session.Agrees d ((Session.start d config).setFolders folders)
      (.start config folders) where
  config := rfl
  documents := rfl
  folders := rfl
  shuttingDown := rfl
  sound := ⟨fun _ => (⟨""⟩, ""), Cache.sound_empty⟩

theorem responses_eq_afresh (d : Disk) (config : Config) (folders : List Protocol.Folder)
    (es : List Event) :
    responses (Session.handle d) ((Session.start d config).setFolders folders) es =
      responses (PlainSession.handle d) (.start config folders) es :=
  responses_eq (fun _ _ e h => h.handle e) (Session.agrees_start d config folders) es

end LanguageService
