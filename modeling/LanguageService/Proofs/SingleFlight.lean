import LanguageService.Proofs.Memoization

/-!
Handles over a whole run. A document goes into a new generation when it is opened, changed or
closed, and what is asked for or worked out in between is the same each time.
-/
namespace LanguageService

abbrev Generation := DocumentUri × Nat

/-- What can be done with a cache. A handle is awaited by its place among those handed out. -/
inductive CacheOp where
  | openText (u : DocumentUri) (text : String) (version : Int)
  | openFromDisk (d : Disk) (u : DocumentUri)
  | change (u : DocumentUri) (changes : List Change) (version : Int)
  | close (u : DocumentUri)
  | parseHandle (d : Disk) (u : DocumentUri)
  | analysisHandle (d : Disk) (u : DocumentUri)
  | awaitParse (d : Disk) (known : LibraryTable) (n : Nat)
  | awaitAnalysis (d : Disk) (known : LibraryTable) (n : Nat)

/-- A cache with a record of its run: the generations of its documents and their texts, the handles
handed out, the results of those awaited, and the generation or root of all work done. -/
structure Watch where
  cache : Cache
  generation : DocumentUri → Nat
  text : Generation → Option String
  parseHandles : List (Generation × ParseHandle)
  analysisHandles : List (Generation × AnalysisHandle)
  parsed : List (Generation × Except Failure Parsed)
  analyzed : List (Generation × Except Failure Analysis)
  parses : List Generation
  checks : List Generation
  libraries : List Path.Parts

namespace Watch

def start (default : Option Path) : Watch :=
  ⟨.empty default, fun _ => 0, fun _ => none, [], [], [], [], [], [], []⟩

def current (w : Watch) (u : DocumentUri) : Generation := (u, w.generation u)

def advance (w : Watch) (u : DocumentUri) (c : Cache) : Watch :=
  { w with
    cache := c
    generation := Function.update w.generation u (w.generation u + 1)
    text := Function.update w.text (u, w.generation u + 1) ((c.document? u).map (·.text)) }

def charge (w : Watch) (k : Generation) (root : Option Path) (c : Cache) : Watch :=
  { w with
    cache := c
    parses := List.replicate (c.effort.parses - w.cache.effort.parses) k ++ w.parses
    checks := List.replicate (c.effort.checks - w.cache.effort.checks) k ++ w.checks
    libraries := root.toList.flatMap (fun r =>
      List.replicate (c.effort.libraries - w.cache.effort.libraries) r.parts) ++ w.libraries }

def step (w : Watch) : CacheOp → Watch
  | .openText u text version => w.advance u (w.cache.openText u text version)
  | .openFromDisk d u =>
      match w.cache.openFromDisk d u with
      | .error _ => w
      | .ok c => if (w.cache.entry? u).isSome then { w with cache := c } else w.advance u c
  | .change u changes version =>
      match w.cache.change u changes version with
      | .error _ => w
      | .ok c => w.advance u c
  | .close u => w.advance u (w.cache.close u)
  | .parseHandle d u =>
      match w.cache.parseHandle d u with
      | .error _ => w
      | .ok (h, c) =>
          { w with cache := c, parseHandles := (w.current u, h) :: w.parseHandles }
  | .analysisHandle d u =>
      match w.cache.analysisHandle d u with
      | .error _ => w
      | .ok (h, c) =>
          { w with
            cache := c
            parseHandles := (w.current u, h.parse) :: w.parseHandles
            analysisHandles := (w.current u, h) :: w.analysisHandles }
  | .awaitParse d known n =>
      match w.parseHandles[n]? with
      | none => w
      | some (k, h) =>
          let (r, c) := w.cache.awaitParse d known h
          { w.charge k h.root c with parsed := (k, r) :: w.parsed }
  | .awaitAnalysis d known n =>
      match w.analysisHandles[n]? with
      | none => w
      | some (k, h) =>
          let (r, c) := w.cache.awaitAnalysis d known h
          { w.charge k h.parse.root c with analyzed := (k, r) :: w.analyzed }

def run (w : Watch) (ops : List CacheOp) : Watch := ops.foldl step w

end Watch

section Issued

variable {α : Type} {id : α → Nat} {held : OpenDocument → Option α} {c : Cache}
  {g : DocumentUri → Nat} {xs : List (Generation × α)} {u : DocumentUri} {e : OpenDocument}

/-- The handles of one sort that were handed out. Each generation has one, and a number is the
number of one only; an open document holds the one of its generation, if there is one. -/
structure Issued (id : α → Nat) (held : OpenDocument → Option α) (c : Cache)
    (g : DocumentUri → Nat) (xs : List (Generation × α)) : Prop where
  lt : ∀ x ∈ xs, id x.2 < c.next
  unique : ∀ x ∈ xs, ∀ y ∈ xs, x.1 = y.1 ∨ id x.2 = id y.2 → x = y
  bounded : ∀ x ∈ xs, x.1.2 ≤ g x.1.1
  issued : ∀ u e h, c.entry? u = some e → held e = some h → ((u, g u), h) ∈ xs
  held : ∀ u h, ((u, g u), h) ∈ xs → ∃ e, c.entry? u = some e ∧ held e = some h

theorem issued_nil (id : α → Nat) (held : OpenDocument → Option α) (default : Option Path) :
    Issued id held (.empty default) g [] := by
  constructor <;> simp [Cache.empty, Cache.entry?]

namespace Issued

theorem advance (h : Issued id held c g xs) {docs : List (DocumentUri × OpenDocument)}
    (hother : ∀ v, v ≠ u → Cache.entry? { c with documents := docs } v = c.entry? v)
    (hfresh : ∀ e, Cache.entry? { c with documents := docs } u = some e → held e = none) :
    Issued id held { c with documents := docs } (Function.update g u (g u + 1)) xs := by
  have hnew : ∀ k, ((u, g u + 1), k) ∉ xs := fun k hk =>
    Nat.not_succ_le_self _ (h.bounded _ hk)
  refine ⟨h.lt, h.unique, fun x hx => ?_, fun v e k he hk => ?_, fun v k hk => ?_⟩
  · refine Nat.le_trans (h.bounded x hx) ?_
    by_cases hu : x.1.1 = u
    · rw [hu, Function.update_self]
      exact Nat.le_succ _
    · exact Nat.le_of_eq (Function.update_of_ne hu _ _).symm
  · by_cases hv : v = u
    · subst hv
      simp [hfresh e he] at hk
    · rw [Function.update_of_ne hv]
      exact h.issued v e k ((hother v hv).symm.trans he) hk
  · by_cases hv : v = u
    · subst hv
      rw [Function.update_self] at hk
      exact absurd hk (hnew k)
    · rw [Function.update_of_ne hv] at hk
      obtain ⟨e, he, hheld⟩ := h.held v k hk
      exact ⟨e, (hother v hv).trans he, hheld⟩

theorem again (h : Issued id held c g xs) {x : Generation × α} (hx : x ∈ xs) :
    Issued id held c g (x :: xs) := by
  have hmem : ∀ y, y ∈ x :: xs ↔ y ∈ xs := by
    intro y
    rw [List.mem_cons, or_iff_right_iff_imp]
    rintro rfl
    exact hx
  constructor <;> simp only [hmem]
  exacts [h.lt, h.unique, h.bounded, h.issued, h.held]

theorem put (h : Issued id held c g xs) {e' : OpenDocument} {next : Nat} (he : c.entry? u = some e)
    (hheld : held e' = held e) (hnext : c.next ≤ next) :
    Issued id held { c.put u e' with next := next } g xs := by
  have hentry : ∀ v, Cache.entry? { c.put u e' with next := next } v =
      if v = u then some e' else c.entry? v := fun v => Cache.entry?_put
  refine ⟨fun x hx => Nat.lt_of_lt_of_le (h.lt x hx) hnext, h.unique, h.bounded,
    fun v f k hf hk => ?_, fun v k hk => ?_⟩
  · rw [hentry] at hf
    split at hf
    · next hv =>
        subst hv
        cases hf
        exact h.issued v e k he (hheld ▸ hk)
    · exact h.issued v f k hf hk
  · obtain ⟨f, hf, hk⟩ := h.held v k hk
    rw [hentry]
    split
    · next hv =>
        subst hv
        cases he.symm.trans hf
        exact ⟨e', rfl, hheld.trans hk⟩
    · exact ⟨f, hf, hk⟩

theorem issue (h : Issued id held c g xs) {e' : OpenDocument} {a : α} (he : c.entry? u = some e)
    (hnone : held e = none) (hheld : held e' = some a) (hid : id a = c.next) :
    Issued id held { c.put u e' with next := c.next + 1 } g (((u, g u), a) :: xs) := by
  have hentry : ∀ v, Cache.entry? { c.put u e' with next := c.next + 1 } v =
      if v = u then some e' else c.entry? v := fun v => Cache.entry?_put
  have hother : ∀ x ∈ xs, x.1 ≠ (u, g u) ∧ id x.2 ≠ id a := by
    rintro ⟨k, b⟩ hx
    refine ⟨?_, fun heq => ?_⟩
    · rintro rfl
      obtain ⟨f, hf, hb⟩ := h.held u b hx
      cases he.symm.trans hf
      simp [hnone] at hb
    · have hlt := h.lt _ hx
      omega
  refine ⟨?_, ?_, ?_, ?_, ?_⟩
  · rw [List.forall_mem_cons]
    exact ⟨by simp [hid], fun x hx => Nat.lt_succ_of_lt (h.lt x hx)⟩
  · rw [List.forall_mem_cons]
    refine ⟨?_, fun x hx => ?_⟩
    · rw [List.forall_mem_cons]
      refine ⟨fun _ => rfl, fun y hy heq => ?_⟩
      rcases heq with heq | heq
      · exact absurd heq.symm (hother y hy).1
      · exact absurd heq.symm (hother y hy).2
    · rw [List.forall_mem_cons]
      refine ⟨fun heq => ?_, h.unique x hx⟩
      rcases heq with heq | heq
      · exact absurd heq (hother x hx).1
      · exact absurd heq (hother x hx).2
  · rw [List.forall_mem_cons]
    exact ⟨Nat.le_refl _, h.bounded⟩
  · intro v f k hf hk
    rw [hentry] at hf
    split at hf
    · next hv =>
        subst hv
        cases hf
        cases hheld.symm.trans hk
        exact List.mem_cons_self
    · exact List.mem_cons_of_mem _ (h.issued v f k hf hk)
  · intro v k hk
    rw [hentry]
    split
    · next hv =>
        subst hv
        refine ⟨e', rfl, ?_⟩
        rcases List.mem_cons.mp hk with heq | hk
        · cases heq
          exact hheld
        · exact absurd rfl (hother _ hk).1
    · next hv =>
        refine h.held v k ((List.mem_cons.mp hk).resolve_left fun heq => hv ?_)
        exact congrArg (·.1.1) heq

theorem congr (h : Issued id held c g xs) {c' : Cache} (hdocs : c'.documents = c.documents)
    (hnext : c'.next = c.next) : Issued id held c' g xs := by
  have hentry : c'.entry? = c.entry? := by
    funext v
    rw [Cache.entry?, Cache.entry?, hdocs]
  refine ⟨?_, h.unique, h.bounded, ?_, ?_⟩
  · rw [hnext]
    exact h.lt
  · rw [hentry]
    exact h.issued
  · rw [hentry]
    exact h.held

end Issued

end Issued

namespace Watch

variable {w : Watch} {u : DocumentUri} {e : OpenDocument}

/-- A handle is on its document and has the text of its generation, and an analysis handle shares
the parse handle of its generation. -/
structure Handles (w : Watch) : Prop where
  parses : Issued ParseHandle.id OpenDocument.parse w.cache w.generation w.parseHandles
  analyses : Issued AnalysisHandle.id OpenDocument.analysis w.cache w.generation w.analysisHandles
  apart : ∀ x ∈ w.parseHandles, ∀ y ∈ w.analysisHandles, x.2.id ≠ y.2.id
  shared : ∀ x ∈ w.analysisHandles, (x.1, x.2.parse) ∈ w.parseHandles
  stands : ∀ x ∈ w.parseHandles, x.2.uri = x.1.1 ∧ w.text x.1 = some x.2.text
  text : ∀ u, w.text (w.current u) = (w.cache.document? u).map (·.text)

theorem handles_start (default : Option Path) : (start default).Handles where
  parses := issued_nil _ _ _
  analyses := issued_nil _ _ _
  apart := by simp [start]
  shared := by simp [start]
  stands := by simp [start]
  text := by simp [start, Cache.empty, Cache.document?, Cache.entry?]

namespace Handles

theorem advance (h : w.Handles) {docs : List (DocumentUri × OpenDocument)}
    (hother : ∀ v, v ≠ u →
      Cache.entry? { w.cache with documents := docs } v = w.cache.entry? v)
    (hfresh : ∀ e, Cache.entry? { w.cache with documents := docs } u = some e →
      e.parse = none ∧ e.analysis = none) :
    (w.advance u { w.cache with documents := docs }).Handles where
  parses := h.parses.advance hother fun e he => (hfresh e he).1
  analyses := h.analyses.advance hother fun e he => (hfresh e he).2
  apart := h.apart
  shared := h.shared
  stands := by
    intro x hx
    have hne : x.1 ≠ (u, w.generation u + 1) := by
      intro heq
      have hle := h.parses.bounded x hx
      rw [heq] at hle
      exact Nat.not_succ_le_self _ hle
    exact ⟨(h.stands x hx).1, (Function.update_of_ne hne _ _).trans (h.stands x hx).2⟩
  text := by
    intro v
    by_cases hv : v = u
    · subst hv
      simp [Watch.advance, current]
    · have hne : w.current v ≠ (u, w.generation u + 1) := fun heq => hv (congrArg Prod.fst heq)
      have hcurrent : (w.advance u { w.cache with documents := docs }).current v = w.current v :=
        congrArg (v, ·) (Function.update_of_ne hv _ _)
      rw [hcurrent]
      refine (Function.update_of_ne hne _ _).trans ((h.text v).trans ?_)
      simp only [Cache.document?, Watch.advance, hother v hv]

theorem congr (h : w.Handles) {c : Cache} (hdocs : c.documents = w.cache.documents)
    (hnext : c.next = w.cache.next) : Handles { w with cache := c } where
  parses := h.parses.congr hdocs hnext
  analyses := h.analyses.congr hdocs hnext
  apart := h.apart
  shared := h.shared
  stands := h.stands
  text := by
    intro v
    rw [Cache.document?_of_documents hdocs]
    exact h.text v

theorem parseAgain (h : w.Handles) {x : Generation × ParseHandle} (hx : x ∈ w.parseHandles) :
    Handles { w with parseHandles := x :: w.parseHandles } where
  parses := h.parses.again hx
  analyses := h.analyses
  apart := List.forall_mem_cons.mpr ⟨h.apart x hx, h.apart⟩
  shared := fun y hy => List.mem_cons_of_mem _ (h.shared y hy)
  stands := List.forall_mem_cons.mpr ⟨h.stands x hx, h.stands⟩
  text := h.text

theorem analysisAgain (h : w.Handles) {x : Generation × AnalysisHandle}
    (hx : x ∈ w.analysisHandles) :
    Handles { w with analysisHandles := x :: w.analysisHandles } where
  parses := h.parses
  analyses := h.analyses.again hx
  apart := fun y hy => List.forall_mem_cons.mpr ⟨h.apart y hy x hx, h.apart y hy⟩
  shared := List.forall_mem_cons.mpr ⟨h.shared x hx, h.shared⟩
  stands := h.stands
  text := h.text

theorem text_put (h : w.Handles) {e' : OpenDocument} {next : Nat}
    (he : w.cache.entry? u = some e) (hdoc : e'.document = e.document) (v : DocumentUri) :
    w.text (w.current v) =
      (Cache.document? { w.cache.put u e' with next := next } v).map (·.text) := by
  have hput : (w.cache.put u e').document? = w.cache.document? := by
    rw [Cache.document?_put, Function.update_eq_self_iff, Cache.document?, he, hdoc]
    rfl
  exact (h.text v).trans (congrArg (fun f => (f v).map (·.text)) hput.symm)

theorem parseHandleOf (h : w.Handles) (d : Disk) (he : w.cache.entry? u = some e) :
    Handles
      { w with
        cache := (w.cache.parseHandleOf d u e).2
        parseHandles := (w.current u, (w.cache.parseHandleOf d u e).1) :: w.parseHandles } ∧
      Cache.entry? (w.cache.parseHandleOf d u e).2 u =
        some { e with parse := some (w.cache.parseHandleOf d u e).1 } := by
  rw [Cache.parseHandleOf]
  cases hparse : e.parse with
  | some k => exact ⟨h.parseAgain (h.parses.issued u e k he hparse), by simp [he, ← hparse]⟩
  | none =>
      refine ⟨?_, Cache.entry?_put.trans (if_pos rfl)⟩
      exact
        { parses := h.parses.issue he hparse rfl rfl
          analyses := h.analyses.put he rfl (Nat.le_succ _)
          apart := by
            refine List.forall_mem_cons.mpr ⟨fun y hy => ?_, h.apart⟩
            exact Nat.ne_of_gt (h.analyses.lt y hy)
          shared := fun y hy => List.mem_cons_of_mem _ (h.shared y hy)
          stands := by
            refine List.forall_mem_cons.mpr ⟨⟨rfl, ?_⟩, h.stands⟩
            rw [h.text, Cache.document?, he]
            rfl
          text := h.text_put he rfl }

theorem issueAnalysis (h : w.Handles) {p : ParseHandle} (he : w.cache.entry? u = some e)
    (hparse : e.parse = some p) (hnone : e.analysis = none) :
    Handles
      { w with
        cache :=
          { w.cache.put u ⟨e.document, some p, some ⟨w.cache.next, p⟩⟩ with
            next := w.cache.next + 1 }
        analysisHandles := (w.current u, ⟨w.cache.next, p⟩) :: w.analysisHandles } where
  parses := h.parses.put he hparse.symm (Nat.le_succ _)
  analyses := h.analyses.issue he hnone rfl rfl
  apart := fun y hy =>
    List.forall_mem_cons.mpr ⟨Nat.ne_of_lt (h.parses.lt y hy), h.apart y hy⟩
  shared := List.forall_mem_cons.mpr ⟨h.parses.issued u e p he hparse, h.shared⟩
  stands := h.stands
  text := h.text_put he rfl

theorem analysisHandle (h : w.Handles) (d : Disk) {a : AnalysisHandle} {c : Cache}
    (ha : w.cache.analysisHandle d u = .ok (a, c)) :
    Handles
      { w with
        cache := c
        parseHandles := (w.current u, a.parse) :: w.parseHandles
        analysisHandles := (w.current u, a) :: w.analysisHandles } := by
  rw [Cache.analysisHandle] at ha
  cases he : w.cache.entry? u with
  | none => simp [he] at ha
  | some e =>
      simp only [he] at ha
      cases hanalysis : e.analysis with
      | some k =>
          simp only [hanalysis] at ha
          cases ha
          have hk := h.analyses.issued u e a he hanalysis
          exact (h.analysisAgain hk).parseAgain (h.shared _ hk)
      | none =>
          simp only [hanalysis] at ha
          cases ha
          obtain ⟨hparse, hentry⟩ := h.parseHandleOf d he
          exact hparse.issueAnalysis (e := { e with parse := some _ }) hentry rfl hanalysis

end Handles

end Watch

namespace Cache

/-- At most one library was built, that at `root`, and it was not there before. -/
def Builds (c c' : Cache) (root : Option Path) : Prop :=
  c'.libraries = c.libraries ∧ c'.effort.libraries = c.effort.libraries ∨
    ∃ r b, root = some r ∧ c.libraries.get? r = none ∧ c'.libraries = (r.parts, b) :: c.libraries ∧
      c'.effort.libraries = c.effort.libraries + 1

/-- What looking for the parse of a document does: it can build the library at its root, unless
that was done, and it can parse once. -/
structure Spends (c c' : Cache) (root : Option Path) : Prop where
  documents : c'.documents = c.documents
  next : c'.next = c.next
  parsed : c'.parsed = c.parsed
  analyses : c'.analyses = c.analyses
  checks : c'.effort.checks = c.effort.checks
  parses : c'.effort.parses = c.effort.parses ∨ c'.effort.parses = c.effort.parses + 1
  libraries : c.Builds c' root

variable (c : Cache) (d : Disk) (known : LibraryTable) (root : Option Path)

theorem libraryUnder_spends :
    c.Spends (c.libraryUnder d known root).2 root ∧
      (c.libraryUnder d known root).2.effort.parses = c.effort.parses := by
  cases root with
  | none => exact ⟨⟨rfl, rfl, rfl, rfl, rfl, .inl rfl, .inl ⟨rfl, rfl⟩⟩, rfl⟩
  | some root =>
      rw [libraryUnder, library]
      cases hget : c.libraries.get? root with
      | some r => exact ⟨⟨rfl, rfl, rfl, rfl, rfl, .inl rfl, .inl ⟨rfl, rfl⟩⟩, rfl⟩
      | none =>
          exact ⟨⟨rfl, rfl, rfl, rfl, rfl, .inl rfl, .inr ⟨root, _, rfl, hget, rfl, rfl⟩⟩, rfl⟩

theorem parse_spends (u : DocumentUri) (text : String) :
    c.Spends (c.parse d known u text root).2 root := by
  obtain ⟨hspends, hparses⟩ := libraryUnder_spends c d known root
  rw [parse]
  split
  · next heq =>
      rw [heq] at hspends
      exact hspends
  · next heq =>
      rw [heq] at hspends hparses
      split
      · exact hspends
      · exact { hspends with parses := .inr (congrArg (· + 1) hparses) }

variable {c d known}

def ParsedFrom (h : ParseHandle) (r : Except Failure Parsed) : Prop :=
  ∃ c d known, r = (Cache.parse c d known h.uri h.text h.root).1

theorem awaitParse_of_none (d : Disk) (known : LibraryTable) {h : ParseHandle}
    (hnone : c.parsed? h = none) :
    ∃ r c', c.awaitParse d known h = (r, { c' with parsed := (h.id, r) :: c.parsed }) ∧
      c.Spends c' h.root ∧ ParsedFrom h r := by
  have hspends := parse_spends c d known h.root h.uri h.text
  refine ⟨_, _, ?_, hspends, c, d, known, rfl⟩
  rw [awaitParse, hnone]
  simp only [hspends.parsed]

theorem awaitParse_of_some {h : ParseHandle} {r : Except Failure Parsed}
    (hsome : c.parsed? h = some r) : c.awaitParse d known h = (r, c) := by
  rw [awaitParse, hsome]

theorem awaitAnalysis_of_none {h : AnalysisHandle} {r : Except Failure Parsed} {c' : Cache}
    (hnone : c.analysis? h = none) (hparse : c.awaitParse d known h.parse = (r, c')) :
    ∃ checks, c.awaitAnalysis d known h = (r.bind Parsed.check,
        { c' with
          effort := { c'.effort with checks := checks }
          analyses := (h.id, r.bind Parsed.check) :: c'.analyses }) ∧
      (checks = c'.effort.checks ∨ checks = c'.effort.checks + 1) := by
  rw [awaitAnalysis, hnone]
  simp only [hparse]
  cases r with
  | error e => exact ⟨c'.effort.checks, rfl, .inl rfl⟩
  | ok p => exact ⟨c'.effort.checks + 1, rfl, .inr rfl⟩

theorem awaitAnalysis_of_some {h : AnalysisHandle} {r : Except Failure Analysis}
    (hsome : c.analysis? h = some r) : c.awaitAnalysis d known h = (r, c) := by
  rw [awaitAnalysis, hsome]

theorem find?_result_cons {α : Type} {rs : List (Nat × α)} {i j : Nat} {r : α} :
    (((i, r) :: rs).find? fun x => x.1 == j).map (·.2) =
      if i = j then some r else (rs.find? fun x => x.1 == j).map (·.2) := by
  rw [List.find?_cons]
  by_cases h : i = j
  · simp [h]
  · have hne : (i == j) = false := by simpa using h
    simp [h, hne]

end Cache

namespace Watch

/-- No work was done twice for a generation or a root, and all of it was counted. -/
structure Counts (w : Watch) : Prop where
  libraries : ∀ p ∈ w.libraries, p ∈ w.cache.libraries.map (·.1)
  parses_nodup : w.parses.Nodup
  checks_nodup : w.checks.Nodup
  libraries_nodup : w.libraries.Nodup
  parses_length : w.parses.length = w.cache.effort.parses
  checks_length : w.checks.length = w.cache.effort.checks
  libraries_length : w.libraries.length = w.cache.effort.libraries

/-- What was found out about a handle was found out for its generation, and all work done was done
for a handle or a library whose result is there since. -/
structure Works (w : Watch) : Prop extends Counts w where
  parsed_lt : ∀ r ∈ w.cache.parsed, r.1 < w.cache.next
  analyses_lt : ∀ r ∈ w.cache.analyses, r.1 < w.cache.next
  parse_result : ∀ x ∈ w.parseHandles, ∀ r, w.cache.parsed? x.2 = some r → Cache.ParsedFrom x.2 r
  analysis_result : ∀ x ∈ w.analysisHandles, ∀ r, w.cache.analysis? x.2 = some r →
    ∃ p, w.cache.parsed? x.2.parse = some p ∧ r = p.bind Parsed.check
  parsed : ∀ y ∈ w.parsed, ∃ h, (y.1, h) ∈ w.parseHandles ∧ w.cache.parsed? h = some y.2
  analyzed : ∀ y ∈ w.analyzed, ∃ h, (y.1, h) ∈ w.analysisHandles ∧
    w.cache.analysis? h = some y.2
  parses : ∀ k ∈ w.parses, ∃ h, (k, h) ∈ w.parseHandles ∧ (w.cache.parsed? h).isSome
  checks : ∀ k ∈ w.checks, ∃ h, (k, h) ∈ w.analysisHandles ∧ (w.cache.analysis? h).isSome

theorem counts_start (default : Option Path) : (start default).Counts := by
  constructor <;> simp [start, Cache.empty]

theorem works_start (default : Option Path) : (start default).Works := by
  refine ⟨counts_start default, ?_, ?_, ?_, ?_, ?_, ?_, ?_, ?_⟩ <;> simp [start, Cache.empty]

variable {w : Watch} {u : DocumentUri} {e : OpenDocument}

theorem charge_self (k : Generation) (root : Option Path) : w.charge k root w.cache = w := by
  cases root <;> simp [charge]

theorem charge_charge {k : Generation} {root : Option Path} {c c' : Cache}
    (hlibraries : c'.effort.libraries = c.effort.libraries)
    (hparses : c'.effort.parses = c.effort.parses)
    (hchecks : c.effort.checks = w.cache.effort.checks) :
    (w.charge k root c).charge k root c' = w.charge k root c' := by
  cases root <;> simp [charge, hlibraries, hparses, hchecks]

namespace Counts

theorem nodup_replicate_append {α : Type} {a : α} {as : List α} {m n : Nat} (has : as.Nodup)
    (hn : n = m ∨ n = m + 1 ∧ a ∉ as) : (List.replicate (n - m) a ++ as).Nodup := by
  rcases hn with rfl | ⟨rfl, ha⟩
  · simpa using has
  · simpa [List.nodup_cons] using ⟨ha, has⟩

theorem charge (h : w.Counts) {k : Generation} {root : Option Path} {c : Cache}
    (hparses : c.effort.parses = w.cache.effort.parses ∨
      c.effort.parses = w.cache.effort.parses + 1 ∧ k ∉ w.parses)
    (hchecks : c.effort.checks = w.cache.effort.checks ∨
      c.effort.checks = w.cache.effort.checks + 1 ∧ k ∉ w.checks)
    (hlibraries : w.cache.Builds c root) : (w.charge k root c).Counts where
  libraries := by
    rcases hlibraries with ⟨hsame, heffort⟩ | ⟨r, b, rfl, -, hcons, heffort⟩
    · cases root <;> simpa [Watch.charge, hsame, heffort] using h.libraries
    · intro p hp
      have hp : p = r.parts ∨ p ∈ w.libraries := by simpa [Watch.charge, heffort] using hp
      rw [Watch.charge, hcons, List.map_cons, List.mem_cons]
      exact hp.imp_right (h.libraries p)
  parses_nodup := nodup_replicate_append h.parses_nodup hparses
  checks_nodup := nodup_replicate_append h.checks_nodup hchecks
  libraries_nodup := by
    rcases hlibraries with ⟨-, heffort⟩ | ⟨r, b, rfl, hget, -, heffort⟩
    · cases root <;> simpa [Watch.charge, heffort] using h.libraries_nodup
    · have hnew : r.parts ∉ w.libraries := by
        intro hr
        obtain ⟨l, hl, heq⟩ := List.mem_map.mp (h.libraries _ hr)
        rw [LibraryTable.get?, Option.map_eq_none_iff, List.find?_eq_none] at hget
        exact hget l hl (by simpa using heq)
      simpa [Watch.charge, heffort] using ⟨hnew, h.libraries_nodup⟩
  parses_length := by
    have hlength := h.parses_length
    simp only [Watch.charge, List.length_append, List.length_replicate]
    omega
  checks_length := by
    have hlength := h.checks_length
    simp only [Watch.charge, List.length_append, List.length_replicate]
    omega
  libraries_length := by
    have hlength := h.libraries_length
    rcases hlibraries with ⟨-, heffort⟩ | ⟨r, b, rfl, -, -, heffort⟩
    · cases root <;> simpa [Watch.charge, heffort] using hlength
    · simpa [Watch.charge, heffort] using hlength

end Counts

namespace Works

theorem advance (h : w.Works) {docs : List (DocumentUri × OpenDocument)} :
    (w.advance u { w.cache with documents := docs }).Works :=
  { h with toCounts := { h.toCounts with } }

theorem parsed?_eq_none (h : w.Works) {k : ParseHandle} (hk : w.cache.next ≤ k.id) :
    w.cache.parsed? k = none := by
  rw [Cache.parsed?, Option.map_eq_none_iff, List.find?_eq_none]
  intro r hr
  simpa using Nat.ne_of_lt (Nat.lt_of_lt_of_le (h.parsed_lt r hr) hk)

theorem analysis?_eq_none (h : w.Works) {k : AnalysisHandle} (hk : w.cache.next ≤ k.id) :
    w.cache.analysis? k = none := by
  rw [Cache.analysis?, Option.map_eq_none_iff, List.find?_eq_none]
  intro r hr
  simpa using Nat.ne_of_lt (Nat.lt_of_lt_of_le (h.analyses_lt r hr) hk)

theorem parseHandle (h : w.Works) {x : Generation × ParseHandle}
    {docs : List (DocumentUri × OpenDocument)} {next : Nat} (hnext : w.cache.next ≤ next)
    (hx : x ∈ w.parseHandles ∨ w.cache.next ≤ x.2.id) :
    Works
      { w with
        cache := { w.cache with documents := docs, next := next }
        parseHandles := x :: w.parseHandles } :=
  { h with
    parsed_lt := fun r hr => Nat.lt_of_lt_of_le (h.parsed_lt r hr) hnext
    analyses_lt := fun r hr => Nat.lt_of_lt_of_le (h.analyses_lt r hr) hnext
    parse_result := by
      refine List.forall_mem_cons.mpr ⟨fun r hr => ?_, h.parse_result⟩
      rcases hx with hx | hx
      · exact h.parse_result x hx r hr
      · cases (h.parsed?_eq_none hx).symm.trans hr
    parsed := fun y hy => by
      obtain ⟨k, hk, hr⟩ := h.parsed y hy
      exact ⟨k, List.mem_cons_of_mem _ hk, hr⟩
    parses := fun y hy => by
      obtain ⟨k, hk, hr⟩ := h.parses y hy
      exact ⟨k, List.mem_cons_of_mem _ hk, hr⟩ }

theorem analysisHandle (h : w.Works) {x : Generation × AnalysisHandle}
    {docs : List (DocumentUri × OpenDocument)} {next : Nat} (hnext : w.cache.next ≤ next)
    (hx : x ∈ w.analysisHandles ∨ w.cache.next ≤ x.2.id) :
    Works
      { w with
        cache := { w.cache with documents := docs, next := next }
        analysisHandles := x :: w.analysisHandles } :=
  { h with
    parsed_lt := fun r hr => Nat.lt_of_lt_of_le (h.parsed_lt r hr) hnext
    analyses_lt := fun r hr => Nat.lt_of_lt_of_le (h.analyses_lt r hr) hnext
    analysis_result := by
      refine List.forall_mem_cons.mpr ⟨fun r hr => ?_, h.analysis_result⟩
      rcases hx with hx | hx
      · exact h.analysis_result x hx r hr
      · cases (h.analysis?_eq_none hx).symm.trans hr
    analyzed := fun y hy => by
      obtain ⟨k, hk, hr⟩ := h.analyzed y hy
      exact ⟨k, List.mem_cons_of_mem _ hk, hr⟩
    checks := fun y hy => by
      obtain ⟨k, hk, hr⟩ := h.checks y hy
      exact ⟨k, List.mem_cons_of_mem _ hk, hr⟩ }

theorem parsed?_cons {c c' : Cache} {p q : ParseHandle} {r r' : Except Failure Parsed}
    (hparsed : c'.parsed = (p.id, r) :: c.parsed) (hnone : c.parsed? p = none)
    (hq : c.parsed? q = some r') : c'.parsed? q = some r' := by
  rw [Cache.parsed?, hparsed, Cache.find?_result_cons, if_neg]
  · exact hq
  · intro heq
    rw [Cache.parsed?, heq] at hnone
    cases hnone.symm.trans hq

theorem chargeParse (h : w.Works) (hh : w.Handles) {k : Generation} {p : ParseHandle}
    {r : Except Failure Parsed} {c : Cache} (hp : (k, p) ∈ w.parseHandles)
    (hnone : w.cache.parsed? p = none) (hspends : w.cache.Spends c p.root)
    (hfrom : Cache.ParsedFrom p r) :
    (w.charge k p.root { c with parsed := (p.id, r) :: w.cache.parsed }).Works := by
  have hself : Cache.parsed? { c with parsed := (p.id, r) :: w.cache.parsed } p = some r := by
    rw [Cache.parsed?, Cache.find?_result_cons, if_pos rfl]
  have hkeep : ∀ q r', w.cache.parsed? q = some r' →
      Cache.parsed? { c with parsed := (p.id, r) :: w.cache.parsed } q = some r' :=
    fun q r' => parsed?_cons rfl hnone
  have hanalysis : ∀ a, Cache.analysis? { c with parsed := (p.id, r) :: w.cache.parsed } a =
      w.cache.analysis? a := fun a => by rw [Cache.analysis?, hspends.analyses, Cache.analysis?]
  have hk : k ∉ w.parses := by
    intro hk
    obtain ⟨q, hq, hsome⟩ := h.parses k hk
    cases hh.parses.unique _ hp _ hq (.inl rfl)
    simp [hnone] at hsome
  exact
    { toCounts := h.toCounts.charge (hspends.parses.imp_right (⟨·, hk⟩)) (.inl hspends.checks)
        hspends.libraries
      parsed_lt := by
        refine List.forall_mem_cons.mpr ⟨?_, fun x hx => ?_⟩
        · exact hspends.next ▸ hh.parses.lt _ hp
        · exact hspends.next ▸ h.parsed_lt x hx
      analyses_lt := by
        intro x hx
        rw [charge, hspends.analyses] at hx
        exact hspends.next ▸ h.analyses_lt x hx
      parse_result := by
        intro x hx r' hr'
        rw [charge, Cache.parsed?, Cache.find?_result_cons] at hr'
        split at hr'
        · next heq =>
            cases hh.parses.unique _ hp _ hx (.inr heq)
            cases hr'
            exact hfrom
        · exact h.parse_result x hx r' hr'
      analysis_result := by
        intro x hx r' hr'
        obtain ⟨p', hp', hr'⟩ := h.analysis_result x hx r' ((hanalysis x.2).symm.trans hr')
        exact ⟨p', hkeep _ _ hp', hr'⟩
      parsed := by
        intro y hy
        obtain ⟨q, hq, hr'⟩ := h.parsed y hy
        exact ⟨q, hq, hkeep _ _ hr'⟩
      analyzed := by
        intro y hy
        obtain ⟨a, ha, hr'⟩ := h.analyzed y hy
        exact ⟨a, ha, (hanalysis a).trans hr'⟩
      parses := by
        intro y hy
        rcases List.mem_append.mp hy with hy | hy
        · cases List.eq_of_mem_replicate hy
          exact ⟨p, hp, Option.isSome_of_eq_some hself⟩
        · obtain ⟨q, hq, hsome⟩ := h.parses y hy
          obtain ⟨r', hr'⟩ := Option.isSome_iff_exists.mp hsome
          exact ⟨q, hq, Option.isSome_of_eq_some (hkeep _ _ hr')⟩
      checks := by
        intro y hy
        rw [charge, hspends.checks, Nat.sub_self] at hy
        obtain ⟨a, ha, hsome⟩ := h.checks y hy
        exact ⟨a, ha, (hanalysis a) ▸ hsome⟩ }

theorem chargeCheck (h : w.Works) (hh : w.Handles) {k : Generation} {a : AnalysisHandle}
    (root : Option Path) {p : Except Failure Parsed} {checks : Nat}
    (ha : (k, a) ∈ w.analysisHandles) (hnone : w.cache.analysis? a = none)
    (hp : w.cache.parsed? a.parse = some p)
    (hchecks : checks = w.cache.effort.checks ∨ checks = w.cache.effort.checks + 1) :
    (w.charge k root
      { w.cache with
        effort := { w.cache.effort with checks := checks }
        analyses := (a.id, p.bind Parsed.check) :: w.cache.analyses }).Works := by
  have hself : ∀ b : AnalysisHandle, (((a.id, p.bind Parsed.check) :: w.cache.analyses).find?
      fun x => x.1 == b.id).map (·.2) =
        if a.id = b.id then some (p.bind Parsed.check) else w.cache.analysis? b :=
    fun b => Cache.find?_result_cons
  have hkeep : ∀ b r, w.cache.analysis? b = some r →
      (((a.id, p.bind Parsed.check) :: w.cache.analyses).find? fun x => x.1 == b.id).map (·.2) =
        some r := by
    intro b r hr
    rw [hself, if_neg, hr]
    intro heq
    rw [Cache.analysis?, heq] at hnone
    cases hnone.symm.trans hr
  have hk : k ∉ w.checks := by
    intro hk
    obtain ⟨b, hb, hsome⟩ := h.checks k hk
    cases hh.analyses.unique _ ha _ hb (.inl rfl)
    simp [hnone] at hsome
  exact
    { toCounts := h.toCounts.charge (.inl rfl) (hchecks.imp_right (⟨·, hk⟩)) (.inl ⟨rfl, rfl⟩)
      parsed_lt := h.parsed_lt
      analyses_lt := List.forall_mem_cons.mpr ⟨hh.analyses.lt _ ha, h.analyses_lt⟩
      parse_result := h.parse_result
      analysis_result := by
        intro x hx r hr
        replace hr := (hself x.2).symm.trans hr
        split at hr
        · next heq =>
            cases hh.analyses.unique _ ha _ hx (.inr heq)
            exact ⟨p, hp, (Option.some.inj hr).symm⟩
        · exact h.analysis_result x hx r hr
      parsed := h.parsed
      analyzed := by
        intro y hy
        obtain ⟨b, hb, hr⟩ := h.analyzed y hy
        exact ⟨b, hb, hkeep b _ hr⟩
      parses := by
        intro y hy
        rw [charge, Nat.sub_self] at hy
        exact h.parses y hy
      checks := by
        intro y hy
        rcases List.mem_append.mp hy with hy | hy
        · cases List.eq_of_mem_replicate hy
          exact ⟨a, ha, Option.isSome_of_eq_some ((hself a).trans (if_pos rfl))⟩
        · obtain ⟨b, hb, hsome⟩ := h.checks y hy
          obtain ⟨r, hr⟩ := Option.isSome_iff_exists.mp hsome
          exact ⟨b, hb, Option.isSome_of_eq_some (hkeep b r hr)⟩ }

theorem logParsed (h : w.Works) {k : Generation} {p : ParseHandle} {r : Except Failure Parsed}
    (hp : (k, p) ∈ w.parseHandles) (hr : w.cache.parsed? p = some r) :
    Works { w with parsed := (k, r) :: w.parsed } :=
  { h with parsed := List.forall_mem_cons.mpr ⟨⟨p, hp, hr⟩, h.parsed⟩ }

theorem logAnalyzed (h : w.Works) {k : Generation} {a : AnalysisHandle}
    {r : Except Failure Analysis} (ha : (k, a) ∈ w.analysisHandles)
    (hr : w.cache.analysis? a = some r) : Works { w with analyzed := (k, r) :: w.analyzed } :=
  { h with analyzed := List.forall_mem_cons.mpr ⟨⟨a, ha, hr⟩, h.analyzed⟩ }

end Works

structure Steady (w : Watch) : Prop where
  handles : w.Handles
  works : w.Works

namespace Steady

theorem charge {k : Generation} {root : Option Path} {c : Cache}
    (hworks : (w.charge k root c).Works) (h : w.Handles)
    (hdocs : c.documents = w.cache.documents) (hnext : c.next = w.cache.next) :
    (w.charge k root c).Steady where
  handles := { h.congr hdocs hnext with }
  works := hworks

theorem advance (h : w.Steady) {docs : List (DocumentUri × OpenDocument)}
    (hother : ∀ v, v ≠ u →
      Cache.entry? { w.cache with documents := docs } v = w.cache.entry? v)
    (hfresh : ∀ e, Cache.entry? { w.cache with documents := docs } u = some e →
      e.parse = none ∧ e.analysis = none) :
    (w.advance u { w.cache with documents := docs }).Steady :=
  ⟨h.handles.advance hother hfresh, h.works.advance⟩

theorem openFresh (h : w.Steady) (u : DocumentUri) (doc : Document) :
    (w.advance u (w.cache.put u (.fresh doc))).Steady := by
  refine h.advance (fun v hv => ?_) fun e he => ?_
  · exact Cache.entry?_put.trans (if_neg hv)
  · cases (Cache.entry?_put.trans (if_pos rfl)).symm.trans he
    exact ⟨rfl, rfl⟩

theorem close (h : w.Steady) (u : DocumentUri) : (w.advance u (w.cache.close u)).Steady := by
  refine h.advance (fun v hv => ?_) fun e he => ?_
  · exact Cache.entry?_close.trans (if_neg hv)
  · cases (Cache.entry?_close.trans (if_pos rfl)).symm.trans he

theorem parseHandleOf (h : w.Steady) (d : Disk) (he : w.cache.entry? u = some e) :
    Steady
      { w with
        cache := (w.cache.parseHandleOf d u e).2
        parseHandles := (w.current u, (w.cache.parseHandleOf d u e).1) :: w.parseHandles } := by
  refine ⟨(h.handles.parseHandleOf d he).1, ?_⟩
  rw [Cache.parseHandleOf]
  cases hparse : e.parse with
  | some k =>
      exact h.works.parseHandle (Nat.le_refl _) (.inl (h.handles.parses.issued u e k he hparse))
  | none => exact h.works.parseHandle (Nat.le_succ _) (.inr (Nat.le_refl _))

theorem analysisHandle (h : w.Steady) (d : Disk) {a : AnalysisHandle} {c : Cache}
    (ha : w.cache.analysisHandle d u = .ok (a, c)) :
    Steady
      { w with
        cache := c
        parseHandles := (w.current u, a.parse) :: w.parseHandles
        analysisHandles := (w.current u, a) :: w.analysisHandles } := by
  refine ⟨h.handles.analysisHandle d ha, ?_⟩
  rw [Cache.analysisHandle] at ha
  cases he : w.cache.entry? u with
  | none => simp [he] at ha
  | some e =>
      simp only [he] at ha
      cases hanalysis : e.analysis with
      | some k =>
          simp only [hanalysis] at ha
          cases ha
          have ha := h.handles.analyses.issued u e a he hanalysis
          exact (h.works.analysisHandle (Nat.le_refl _) (.inl ha)).parseHandle (Nat.le_refl _)
            (.inl (h.handles.shared _ ha))
      | none =>
          simp only [hanalysis] at ha
          cases ha
          exact (h.parseHandleOf d he).works.analysisHandle (Nat.le_succ _) (.inr (Nat.le_refl _))

theorem awaitParse (h : w.Steady) (d : Disk) (known : LibraryTable) {k : Generation}
    {p : ParseHandle} {r : Except Failure Parsed} {c : Cache} (hp : (k, p) ∈ w.parseHandles)
    (hawait : w.cache.awaitParse d known p = (r, c)) :
    (w.charge k p.root c).Steady ∧ c.parsed? p = some r ∧ c.analyses = w.cache.analyses ∧
      c.effort.checks = w.cache.effort.checks := by
  cases hparsed : w.cache.parsed? p with
  | some r' =>
      cases (Cache.awaitParse_of_some hparsed).symm.trans hawait
      exact ⟨(charge_self k p.root).symm ▸ h, hparsed, rfl, rfl⟩
  | none =>
      obtain ⟨r', c', heq, hspends, hfrom⟩ :=
        Cache.awaitParse_of_none d known hparsed
      cases heq.symm.trans hawait
      have hworks := h.works.chargeParse h.handles hp hparsed hspends hfrom
      refine ⟨.charge hworks h.handles hspends.documents hspends.next, ?_, hspends.analyses,
        hspends.checks⟩
      rw [Cache.parsed?, Cache.find?_result_cons, if_pos rfl]

theorem awaitAnalysis (h : w.Steady) (d : Disk) (known : LibraryTable) {k : Generation}
    {a : AnalysisHandle} {r : Except Failure Analysis} {c : Cache}
    (ha : (k, a) ∈ w.analysisHandles) (hawait : w.cache.awaitAnalysis d known a = (r, c)) :
    (w.charge k a.parse.root c).Steady ∧ c.analysis? a = some r := by
  cases hanalysis : w.cache.analysis? a with
  | some r' =>
      cases (Cache.awaitAnalysis_of_some hanalysis).symm.trans hawait
      exact ⟨(charge_self k a.parse.root).symm ▸ h, hanalysis⟩
  | none =>
      rcases hparse : w.cache.awaitParse d known a.parse with ⟨q, c'⟩
      obtain ⟨hsteady, hq, hanalyses, hchecks⟩ :=
        h.awaitParse d known (h.handles.shared _ ha) hparse
      obtain ⟨checks, heq, hone⟩ := Cache.awaitAnalysis_of_none hanalysis hparse
      cases heq.symm.trans hawait
      have hnone : c'.analysis? a = none := by rw [Cache.analysis?, hanalyses]; exact hanalysis
      have hworks := hsteady.works.chargeCheck hsteady.handles a.parse.root ha hnone hq hone
      have hcharged := Steady.charge hworks hsteady.handles rfl rfl
      refine ⟨?_, ?_⟩
      · rw [charge_charge (by rfl) (by rfl) hchecks] at hcharged
        exact hcharged
      · rw [Cache.analysis?, Cache.find?_result_cons, if_pos rfl]

theorem step (h : w.Steady) (op : CacheOp) : (w.step op).Steady := by
  cases op with
  | openText u text version => exact h.openFresh u _
  | openFromDisk d u =>
      rw [Watch.step, Cache.openFromDisk]
      cases u.path? with
      | none => exact h
      | some p =>
          dsimp only
          cases d.readText p with
          | error e => exact h
          | ok text =>
              by_cases hopen : (w.cache.entry? u).isSome
              · simpa [hopen] using h
              · simpa [hopen, Cache.openText] using h.openFresh u ⟨text, 0⟩
  | change u changes version =>
      rw [Watch.step, Cache.change]
      cases w.cache.entry? u with
      | none => exact h
      | some e => exact h.openFresh u _
  | close u => exact h.close u
  | parseHandle d u =>
      rw [Watch.step, Cache.parseHandle]
      cases he : w.cache.entry? u with
      | none => exact h
      | some e => exact h.parseHandleOf d he
  | analysisHandle d u =>
      rw [Watch.step]
      cases ha : w.cache.analysisHandle d u with
      | error e => exact h
      | ok r => exact h.analysisHandle d ha
  | awaitParse d known n =>
      rw [Watch.step]
      cases hn : w.parseHandles[n]? with
      | none => exact h
      | some x =>
          have hx := List.mem_of_getElem? hn
          obtain ⟨hsteady, hresult, -, -⟩ := h.awaitParse d known hx rfl
          exact ⟨{ hsteady.handles with }, hsteady.works.logParsed hx hresult⟩
  | awaitAnalysis d known n =>
      rw [Watch.step]
      cases hn : w.analysisHandles[n]? with
      | none => exact h
      | some x =>
          have hx := List.mem_of_getElem? hn
          obtain ⟨hsteady, hresult⟩ := h.awaitAnalysis d known hx rfl
          exact ⟨{ hsteady.handles with }, hsteady.works.logAnalyzed hx hresult⟩

theorem run (h : w.Steady) (ops : List CacheOp) : (w.run ops).Steady := by
  induction ops generalizing w with
  | nil => exact h
  | cons op ops ih => exact ih (h.step op)

end Steady

/-- What a run shows of its handles: those of one generation are the same, an analysis handle is on
the parse handle of its generation, a parse handle is on the text of its generation, and no number
is used for two generations or for handles of two sorts. Whatever is awaited, and however often, is
worked out from these, once for each generation and once for each root, and no other work is
done. -/
structure SingleFlight (w : Watch) : Prop where
  parse_same : ∀ k h h', (k, h) ∈ w.parseHandles → (k, h') ∈ w.parseHandles → h = h'
  analysis_same : ∀ k a a', (k, a) ∈ w.analysisHandles → (k, a') ∈ w.analysisHandles → a = a'
  analysis_on_parse : ∀ k a, (k, a) ∈ w.analysisHandles → (k, a.parse) ∈ w.parseHandles
  parse_on_text : ∀ k h, (k, h) ∈ w.parseHandles → h.uri = k.1 ∧ w.text k = some h.text
  text : ∀ u, w.text (w.current u) = (w.cache.document? u).map (·.text)
  parse_apart : ∀ k k' h h', (k, h) ∈ w.parseHandles → (k', h') ∈ w.parseHandles →
    k ≠ k' → h.id ≠ h'.id
  analysis_apart : ∀ k k' a a', (k, a) ∈ w.analysisHandles → (k', a') ∈ w.analysisHandles →
    k ≠ k' → a.id ≠ a'.id
  sorts_apart : ∀ k k' h a, (k, h) ∈ w.parseHandles → (k', a) ∈ w.analysisHandles → h.id ≠ a.id
  parsed_from : ∀ k r, (k, r) ∈ w.parsed →
    ∃ h, (k, h) ∈ w.parseHandles ∧ Cache.ParsedFrom h r
  parsed_same : ∀ k r r', (k, r) ∈ w.parsed → (k, r') ∈ w.parsed → r = r'
  analyzed_from : ∀ k r, (k, r) ∈ w.analyzed →
    ∃ h p, (k, h) ∈ w.parseHandles ∧ Cache.ParsedFrom h p ∧ r = p.bind Parsed.check ∧
      ∀ p', (k, p') ∈ w.parsed → p' = p
  analyzed_same : ∀ k r r', (k, r) ∈ w.analyzed → (k, r') ∈ w.analyzed → r = r'
  parses : w.parses.Nodup ∧ w.parses.length = w.cache.effort.parses
  checks : w.checks.Nodup ∧ w.checks.length = w.cache.effort.checks
  libraries : w.libraries.Nodup ∧ w.libraries.length = w.cache.effort.libraries

theorem handles_single_flight (default : Option Path) (ops : List CacheOp) :
    ((start default).run ops).SingleFlight := by
  have hsteady : (start default).Steady := ⟨handles_start default, works_start default⟩
  obtain ⟨hh, hw⟩ := hsteady.run ops
  have hresult : ∀ k r, (k, r) ∈ ((start default).run ops).parsed →
      ∀ h, (k, h) ∈ ((start default).run ops).parseHandles →
        ((start default).run ops).cache.parsed? h = some r := by
    intro k r hr h hk
    obtain ⟨h', hk', hr'⟩ := hw.parsed _ hr
    cases hh.parses.unique _ hk _ hk' (.inl rfl)
    exact hr'
  exact
    { parse_same := fun k h h' hk hk' => congrArg Prod.snd (hh.parses.unique _ hk _ hk' (.inl rfl))
      analysis_same := fun k a a' ha ha' =>
        congrArg Prod.snd (hh.analyses.unique _ ha _ ha' (.inl rfl))
      analysis_on_parse := fun k a ha => hh.shared _ ha
      parse_on_text := fun k h hk => hh.stands _ hk
      text := hh.text
      parse_apart := fun k k' h h' hk hk' hne heq =>
        hne (congrArg Prod.fst (hh.parses.unique _ hk _ hk' (.inr heq)))
      analysis_apart := fun k k' a a' ha ha' hne heq =>
        hne (congrArg Prod.fst (hh.analyses.unique _ ha _ ha' (.inr heq)))
      sorts_apart := fun k k' h a hk ha => hh.apart _ hk _ ha
      parsed_from := by
        intro k r hr
        obtain ⟨h, hk, hres⟩ := hw.parsed _ hr
        exact ⟨h, hk, hw.parse_result _ hk r hres⟩
      parsed_same := by
        intro k r r' hr hr'
        obtain ⟨h, hk, hres⟩ := hw.parsed _ hr
        exact Option.some.inj (hres.symm.trans (hresult k r' hr' h hk))
      analyzed_from := by
        intro k r hr
        obtain ⟨a, ha, hres⟩ := hw.analyzed _ hr
        obtain ⟨p, hp, hbind⟩ := hw.analysis_result _ ha r hres
        have hk := hh.shared _ ha
        refine ⟨a.parse, p, hk, hw.parse_result _ hk p hp, hbind, fun p' hp' => ?_⟩
        exact Option.some.inj ((hresult k p' hp' _ hk).symm.trans hp)
      analyzed_same := by
        intro k r r' hr hr'
        obtain ⟨a, ha, hres⟩ := hw.analyzed _ hr
        obtain ⟨a', ha', hres'⟩ := hw.analyzed _ hr'
        cases hh.analyses.unique _ ha _ ha' (.inl rfl)
        exact Option.some.inj (hres.symm.trans hres')
      parses := ⟨hw.parses_nodup, hw.parses_length⟩
      checks := ⟨hw.checks_nodup, hw.checks_length⟩
      libraries := ⟨hw.libraries_nodup, hw.libraries_length⟩ }

end Watch

end LanguageService
