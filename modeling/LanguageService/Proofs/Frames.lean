import LanguageService.Proofs.SingleFlight

/-!
What a session leaves as it was. A message changes at most what is known of the document that it
names, a notification that fails changes nothing, and a request changes no open document.
-/
namespace LanguageService

def Request.uri? : Request → Option String
  | .shutdown => none
  | .definition p => some p.uri
  | .symbols uri => some uri
  | .highlights uri => some uri
  | .diagnostics uri => some uri

namespace Notification

def uri? : Notification → Option String
  | .opened o => some o.uri
  | .edited e => some e.uri
  | .closed uri => some uri
  | .saved v => some v.uri
  | .foldersChanged _ => none
  | .exit => none
  | .ignored => none

def isMalformed (method : String) (params : Json) : Bool :=
  match method with
  | "textDocument/didOpen" => (Protocol.opening params).isNone
  | "textDocument/didChange" => (Protocol.editing params).isNone
  | "textDocument/didClose" => (Protocol.closing params).isNone
  | "textDocument/didSave" => (Protocol.saving params).isNone
  | "workspace/didChangeWorkspaceFolders" => (Protocol.foldersChanged params).isNone
  | _ => false

theorem decode_of_isMalformed {method : String} {params : Json}
    (h : isMalformed method params = true) : decode method params = .ignored := by
  unfold isMalformed at h
  split at h <;> simp_all [decode]

end Notification

namespace Event

def uri? : Event → Option String
  | request method params =>
      match Request.decode method params with
      | .ok r => r.uri?
      | .error _ => none
  | notification method params => (Notification.decode method params).uri?

def document? (d : Disk) (e : Event) : Option DocumentUri :=
  e.uri?.bind fun uri => (DocumentUri.parse d uri).toOption

def isRequest : Event → Bool
  | request _ _ => true
  | notification _ _ => false

theorem document?_eq {d : Disk} {e : Event} {uri : String} {u : DocumentUri}
    (huri : e.uri? = some uri) (hu : DocumentUri.parse d uri = .ok u) : e.document? d = some u := by
  rw [document?, huri, Option.bind_some, hu]
  rfl

end Event

namespace Cache

variable {d : Disk} {c c₁ c' : Cache} {u v : DocumentUri} {e : OpenDocument}

def AgreesBut (u : DocumentUri) (c c' : Cache) : Prop := ∀ v, v ≠ u → c'.entry? v = c.entry? v

theorem agreesBut_of_documents (u : DocumentUri) (h : c'.documents = c.documents) :
    c.AgreesBut u c' := fun v _ => by simp only [h, entry?]

theorem AgreesBut.trans (h : c.AgreesBut u c₁) (h' : c₁.AgreesBut u c') : c.AgreesBut u c' :=
  fun v hv => (h' v hv).trans (h v hv)

theorem agreesBut_put (c : Cache) (u : DocumentUri) (e : OpenDocument) :
    c.AgreesBut u (c.put u e) := fun v hv => by rw [entry?_put, if_neg hv]

theorem agreesBut_close (c : Cache) (u : DocumentUri) : c.AgreesBut u (c.close u) :=
  fun v hv => by rw [entry?_close, if_neg hv]

theorem agreesBut_save (c : Cache) (u : DocumentUri) (text : String) :
    c.AgreesBut u (c.save u text) := by
  rw [save]
  split <;> exact agreesBut_put _ _ _

theorem agreesBut_change {changes : List Change} {version : Int}
    (h : c.change u changes version = .ok c') : c.AgreesBut u c' := by
  rw [change] at h
  split at h
  · cases h
  · cases h
    exact agreesBut_put _ _ _

inductive Reaches (d : Disk) (u : DocumentUri) (c : Cache) : Cache → Prop where
  | here {e : OpenDocument} (he : c.entry? u = some e) : Reaches d u c c
  | read {p : Path} {text : String} (hclosed : c.entry? u = none) (hpath : u.path? = some p)
      (htext : d.readText p = .ok text) : Reaches d u c (c.openText u text 0)

theorem Reaches.agreesBut (h : c.Reaches d u c₁) : c.AgreesBut u c₁ := by
  cases h with
  | here he => exact fun v _ => rfl
  | read hclosed hpath htext => exact agreesBut_put _ _ _

theorem reach_ok {α : Type} {get : Cache → Except ServiceError α} {a : α}
    (h : c.reach d u get = .ok a) : ∃ c₁, c.Reaches d u c₁ ∧ get c₁ = .ok a := by
  rw [reach] at h
  split at h
  · next hopen =>
      obtain ⟨e, he⟩ := Option.isSome_iff_exists.mp hopen
      exact ⟨c, .here he, h⟩
  · next hclosed =>
      have hnone : c.entry? u = none := by simpa using hclosed
      simp only [openFromDisk, hnone] at h
      cases hpath : u.path? with
      | none => simp [hpath] at h
      | some p =>
          cases htext : d.readText p with
          | error err => simp [hpath, htext] at h
          | ok text =>
              refine ⟨_, .read hnone hpath htext, ?_⟩
              simpa [hpath, htext] using h

theorem reach_of_unreadable {α : Type} (get : Cache → Except ServiceError α)
    (hclosed : c.entry? u = none) (hread : ∀ p text, u.path? = some p → d.readText p ≠ .ok text) :
    ∃ err, c.reach d u get = .error err := by
  cases hreach : c.reach d u get with
  | error err => exact ⟨err, rfl⟩
  | ok a =>
      obtain ⟨c₁, hc₁, -⟩ := reach_ok hreach
      cases hc₁ with
      | here he => simp [hclosed] at he
      | read _ hpath htext => exact absurd htext (hread _ _ hpath)

/-- A question about a document has been answered: the document was reached, and only what was
found out about it has changed since. -/
structure Consulted (d : Disk) (u : DocumentUri) (c c' : Cache) : Prop where
  others : c.AgreesBut u c'
  documents : ∃ c₁, c.Reaches d u c₁ ∧ c'.document? = c₁.document?

structure Noted (u : DocumentUri) (c c' : Cache) : Prop where
  others : c.AgreesBut u c'
  documents : c'.document? = c.document?

theorem Noted.refl (u : DocumentUri) (c : Cache) : c.Noted u c := ⟨fun _ _ => rfl, rfl⟩

theorem Noted.trans (h : c.Noted u c₁) (h' : c₁.Noted u c') : c.Noted u c' :=
  ⟨h.others.trans h'.others, h'.documents.trans h.documents⟩

theorem noted_of_documents (u : DocumentUri) (h : c'.documents = c.documents) : c.Noted u c' :=
  ⟨agreesBut_of_documents u h, document?_of_documents h⟩

theorem noted_put (he : c.entry? u = some e) (e' : OpenDocument)
    (hdoc : e'.document = e.document) : c.Noted u (c.put u e') := by
  refine ⟨agreesBut_put c u e', ?_⟩
  rw [document?_put, hdoc, Function.update_eq_self_iff, document?, he]
  rfl

theorem parseHandleOf_noted (d : Disk) (he : c.entry? u = some e) :
    c.Noted u (c.parseHandleOf d u e).2 := by
  rw [parseHandleOf]
  split
  · exact .refl u c
  · exact (noted_put he { e with parse := some _ } rfl).trans (noted_of_documents u rfl)

theorem parseHandle_noted {h : ParseHandle} (hok : c.parseHandle d u = .ok (h, c')) :
    c.Noted u c' := by
  rw [parseHandle] at hok
  split at hok
  · cases hok
  · next e he =>
      have hnoted := parseHandleOf_noted d he
      rw [Except.ok.injEq] at hok
      rwa [hok] at hnoted

theorem analysisHandle_noted {h : AnalysisHandle} (hok : c.analysisHandle d u = .ok (h, c')) :
    c.Noted u c' := by
  rw [analysisHandle] at hok
  split at hok
  · cases hok
  · next e he =>
      split at hok
      · cases hok
        exact .refl u c
      · have hnoted := parseHandleOf_noted d he
        cases hok
        -- The second entry holds the document of the first, as the cache between them does.
        refine ⟨hnoted.others.trans fun v hv => ?_, ?_⟩
        · exact agreesBut_put _ u _ v hv
        · refine Eq.trans (document?_put (c := (c.parseHandleOf d u e).2)) ?_
          rw [hnoted.documents, Function.update_eq_self_iff, document?, he]
          rfl

theorem awaitParse_documents (known : LibraryTable) (h : ParseHandle) :
    (c.awaitParse d known h).2.documents = c.documents := by
  cases hparsed : c.parsed? h with
  | some r => rw [awaitParse_of_some hparsed]
  | none =>
      obtain ⟨r, c', hawait, hspends, -⟩ := awaitParse_of_none d known hparsed
      rw [hawait]
      exact hspends.documents

theorem awaitAnalysis_documents (known : LibraryTable) (h : AnalysisHandle) :
    (c.awaitAnalysis d known h).2.documents = c.documents := by
  cases hanalysis : c.analysis? h with
  | some r => rw [awaitAnalysis_of_some hanalysis]
  | none =>
      have hnone : ∃ checks, c.awaitAnalysis d known h = _ ∧ _ :=
        awaitAnalysis_of_none hanalysis rfl
      obtain ⟨checks, hawait, -⟩ := hnone
      rw [hawait]
      exact awaitParse_documents known h.parse

theorem consulted_of_reach {α β : Type} {get : Cache → Except ServiceError (α × Cache)}
    {await : α × Cache → β × Cache} {b : β}
    (hget : ∀ {c₁ h c₂}, get c₁ = .ok (h, c₂) → c₁.Noted u c₂)
    (hawait : ∀ h (c₂ : Cache), (await (h, c₂)).2.documents = c₂.documents)
    (hok : (c.reach d u get).map await = .ok (b, c')) : c.Consulted d u c' := by
  cases hreach : c.reach d u get with
  | error err => simp [hreach, Except.map] at hok
  | ok r =>
      obtain ⟨h, c₂⟩ := r
      rw [hreach] at hok
      obtain ⟨c₁, hc₁, hc₂⟩ := reach_ok hreach
      have hnoted : c₁.Noted u (await (h, c₂)).2 :=
        (hget hc₂).trans (noted_of_documents u (hawait h c₂))
      rw [show c' = (await (h, c₂)).2 from (congrArg Prod.snd (Except.ok.inj hok)).symm]
      exact ⟨hc₁.agreesBut.trans hnoted.others, c₁, hc₁, hnoted.documents⟩

theorem parsedDocument_consulted {r : Except Failure Parsed}
    (hok : c.parsedDocument d u = .ok (r, c')) : c.Consulted d u c' :=
  consulted_of_reach parseHandle_noted (fun h c₂ => awaitParse_documents c₂.libraries h) hok

theorem analyzedDocument_consulted {r : Except Failure Analysis}
    (hok : c.analyzedDocument d u = .ok (r, c')) : c.Consulted d u c' :=
  consulted_of_reach analysisHandle_noted (fun h c₂ => awaitAnalysis_documents c₂.libraries h) hok

theorem Consulted.document? (h : c.Consulted d u c') (v : DocumentUri) :
    (∀ doc, c.document? v = some doc → c'.document? v = some doc) ∧
      (c.document? v = none → c'.document? v = none ∨ v = u ∧ ∃ p text,
        u.path? = some p ∧ d.readText p = .ok text ∧ c'.document? v = some ⟨text, 0⟩) := by
  obtain ⟨c₁, hc₁, hdocs⟩ := h.documents
  rw [hdocs]
  cases hc₁ with
  | here he => exact ⟨fun doc hdoc => hdoc, .inl⟩
  | @read p text hclosed hpath htext =>
      have hnone : c.document? u = none := by rw [Cache.document?, hclosed]; rfl
      rw [openText, document?_put]
      by_cases hv : v = u
      · subst hv
        refine ⟨by simp [hnone], fun _ => .inr ⟨rfl, p, text, hpath, htext, ?_⟩⟩
        rw [Function.update_self]
        rfl
      · rw [Function.update_of_ne hv]
        exact ⟨fun doc hdoc => hdoc, .inl⟩

end Cache

namespace Session

variable {d : Disk} {s : Session}

inductive Serves (d : Disk) (s : Session) (e : Event) : Session → Prop where
  | nothing : Serves d s e s
  | shutdown (hnone : e.uri? = none) : Serves d s e { s with shuttingDown := true }
  | consult {u : DocumentUri} {c : Cache} (hu : e.document? d = some u)
      (hc : s.cache.Consulted d u c) : Serves d s e { s with cache := c }

inductive Applies (d : Disk) (s : Session) (e : Event) : Session → Prop where
  | nothing : Applies d s e s
  | folders (hnone : e.uri? = none) (c : Protocol.FolderChange) :
      Applies d s e (s.changeFolders c)
  | update {u : DocumentUri} {c : Cache} (hu : e.document? d = some u)
      (hc : s.cache.AgreesBut u c) : Applies d s e { s with cache := c }

theorem ask_serves {α : Type} {e : Event} {uri : String} (huri : e.uri? = some uri)
    {get : DocumentUri → Except ServiceError (α × Cache)}
    {answer : DocumentUri → α → Except ServiceError Json}
    (hget : ∀ {u a c}, get u = .ok (a, c) → s.cache.Consulted d u c) :
    Serves d s e (s.ask d uri get answer).2 := by
  rw [ask]
  split
  · exact .nothing
  · next u hu =>
      split
      · exact .nothing
      · next a c hc => exact .consult (Event.document?_eq huri hu) (hget hc)

theorem request_serves (d : Disk) (s : Session) (method : String) (params : Json) :
    Serves d s (.request method params) (s.request d method params).2 := by
  rw [request]
  split
  · exact .nothing
  · split
    · exact .nothing
    · next r hr =>
        have huri : (Event.request method params).uri? = r.uri? := by rw [Event.uri?, hr]
        cases r with
        | shutdown => exact .shutdown huri
        | definition p => exact ask_serves huri Cache.analyzedDocument_consulted
        | symbols uri => exact ask_serves huri Cache.parsedDocument_consulted
        | highlights uri => exact ask_serves huri Cache.parsedDocument_consulted
        | diagnostics uri => exact ask_serves huri Cache.analyzedDocument_consulted

theorem update_applies {e : Event} {uri : String} (huri : e.uri? = some uri)
    {change : DocumentUri → Except ServiceError Cache}
    (hchange : ∀ {u c}, change u = .ok c → s.cache.AgreesBut u c) :
    Applies d s e (s.update d uri change) := by
  rw [update]
  split
  · exact .nothing
  · next u hu =>
      split
      · exact .nothing
      · next c hc => exact .update (Event.document?_eq huri hu) (hchange hc)

theorem apply_applies (d : Disk) (s : Session) {e : Event} {n : Notification}
    (huri : e.uri? = n.uri?) : Applies d s e (s.apply d n) := by
  cases n with
  | opened o =>
      rw [apply]
      refine update_applies huri fun {u c} hc => ?_
      cases hc
      exact Cache.agreesBut_put _ _ _
  | edited x =>
      rw [apply]
      refine update_applies huri fun {u c} hc => ?_
      obtain ⟨c₁, hc₁, hc⟩ := Cache.reach_ok hc
      exact hc₁.agreesBut.trans (Cache.agreesBut_change hc)
  | closed uri =>
      rw [apply]
      refine update_applies huri fun {u c} hc => ?_
      cases hc
      exact Cache.agreesBut_close _ _
  | saved v =>
      rw [apply]
      split
      · exact .nothing
      · refine update_applies huri fun {u c} hc => ?_
        cases hc
        exact Cache.agreesBut_save _ _ _
  | foldersChanged c => exact .folders huri c
  | exit => exact .nothing
  | ignored => exact .nothing

theorem notify_snd (d : Disk) (s : Session) (method : String) (params : Json) :
    (s.notify d method params).2 = s.apply d (Notification.decode method params) := by
  rw [notify]
  cases Notification.decode method params <;> rfl

theorem notify_applies (d : Disk) (s : Session) (method : String) (params : Json) :
    Applies d s (.notification method params) (s.notify d method params).2 := by
  rw [notify_snd]
  exact apply_applies d s rfl

/-- The notification cannot be acted on: its parameters are malformed, it names no document, or it
is a change to a document that is neither open nor readable. -/
inductive Fails (d : Disk) (s : Session) : Event → Prop where
  | malformed {method : String} {params : Json}
      (h : Notification.isMalformed method params = true) : Fails d s (.notification method params)
  | invalidUri {method : String} {params : Json} {uri : String} {err : ServiceError}
      (huri : (Notification.decode method params).uri? = some uri)
      (h : DocumentUri.parse d uri = .error err) : Fails d s (.notification method params)
  | unreadable {method : String} {params : Json} {x : Protocol.Editing} {u : DocumentUri}
      (hedit : Notification.decode method params = .edited x)
      (hu : DocumentUri.parse d x.uri = .ok u) (hclosed : s.cache.entry? u = none)
      (h : ∀ p text, u.path? = some p → d.readText p ≠ .ok text) :
      Fails d s (.notification method params)

theorem update_of_invalidUri {uri : String} {err : ServiceError}
    (h : DocumentUri.parse d uri = .error err) (change : DocumentUri → Except ServiceError Cache) :
    s.update d uri change = s := by
  rw [update, h]

theorem apply_of_invalidUri {n : Notification} {uri : String} {err : ServiceError}
    (huri : n.uri? = some uri) (h : DocumentUri.parse d uri = .error err) : s.apply d n = s := by
  cases n with
  | saved v =>
      cases huri
      rw [apply]
      split
      · rfl
      · exact update_of_invalidUri h _
  | foldersChanged c => cases huri
  | exit => cases huri
  | ignored => cases huri
  | _ =>
      cases huri
      rw [apply]
      exact update_of_invalidUri h _

theorem handle_of_fails {e : Event} (h : s.Fails d e) : (s.handle d e).2 = s := by
  cases h with
  | malformed h =>
      refine (notify_snd d s _ _).trans ?_
      rw [Notification.decode_of_isMalformed h]
      rfl
  | invalidUri huri h => exact (notify_snd d s _ _).trans (apply_of_invalidUri huri h)
  | @unreadable _ _ x u hedit hu hclosed h =>
      refine (notify_snd d s _ _).trans ?_
      obtain ⟨err, hreach⟩ :=
        Cache.reach_of_unreadable (fun c => c.change u x.changes x.version) hclosed h
      rw [hedit, apply, update, hu]
      dsimp only
      rw [hreach]

def after (s : Session) (es : List (Disk × Event)) : Session :=
  es.foldl (fun s e => (s.handle e.1 e.2).2) s

theorem Serves.shuttingDown {e : Event} {s' : Session} (hserves : Serves d s e s')
    (h : s.shuttingDown = true) : s'.shuttingDown = true := by
  cases hserves with
  | nothing => exact h
  | shutdown => rfl
  | consult => exact h

theorem Applies.shuttingDown {e : Event} {s' : Session} (happlies : Applies d s e s')
    (h : s.shuttingDown = true) : s'.shuttingDown = true := by
  cases happlies <;> exact h

theorem handle_shuttingDown (d : Disk) (e : Event) (h : s.shuttingDown = true) :
    (s.handle d e).2.shuttingDown = true := by
  cases e with
  | request method params => exact (request_serves d s method params).shuttingDown h
  | notification method params => exact (notify_applies d s method params).shuttingDown h

theorem after_shuttingDown (es : List (Disk × Event)) (h : s.shuttingDown = true) :
    (s.after es).shuttingDown = true := by
  induction es generalizing s with
  | nil => exact h
  | cons e es ih => exact ih (handle_shuttingDown e.1 e.2 h)

/-- What an event leaves as it was: the entries of all documents but the one that it names, and,
if it names one, all that is no document. What fails leaves everything. A request leaves the texts
and versions of open documents, and it opens at most the one it names, with the text that is read
from the disk. -/
structure Spares (d : Disk) (s : Session) (e : Event) : Prop where
  others : ∀ v, e.document? d ≠ some v → (s.handle d e).2.cache.entry? v = s.cache.entry? v
  surroundings : e.uri?.isSome = true → (s.handle d e).2.folders = s.folders ∧
    (s.handle d e).2.shuttingDown = s.shuttingDown ∧ (s.handle d e).2.config = s.config
  failed : s.Fails d e → (s.handle d e).2 = s
  folders : e.isRequest = true → (s.handle d e).2.folders = s.folders
  kept : e.isRequest = true → ∀ v doc, s.cache.document? v = some doc →
    (s.handle d e).2.cache.document? v = some doc
  opened : e.isRequest = true → ∀ v doc, s.cache.document? v = none →
    (s.handle d e).2.cache.document? v = some doc →
      e.document? d = some v ∧ doc.version = 0 ∧
        ∃ p, v.path? = some p ∧ d.readText p = .ok doc.text

def Refuses (s : Session) : Prop :=
  ∀ d method params, ∃ err : ServiceError, err.code = -32600 ∧
    s.handle d (.request method params) = (.answer (.error err), s)

theorem refuses_of_shuttingDown (h : s.shuttingDown = true) : s.Refuses := by
  intro d method params
  refine ⟨.shuttingDown, rfl, ?_⟩
  rw [handle, request, if_pos h]
  rfl

theorem Serves.others {e : Event} {s' : Session} (h : Serves d s e s') {v : DocumentUri}
    (hv : e.document? d ≠ some v) : s'.cache.entry? v = s.cache.entry? v := by
  cases h with
  | nothing => rfl
  | shutdown => rfl
  | consult hu hc => exact hc.others v fun heq => hv (heq ▸ hu)

theorem Applies.others {e : Event} {s' : Session} (h : Applies d s e s') {v : DocumentUri}
    (hv : e.document? d ≠ some v) : s'.cache.entry? v = s.cache.entry? v := by
  cases h with
  | nothing => rfl
  | folders => rfl
  | update hu hc => exact hc v fun heq => hv (heq ▸ hu)

theorem Serves.surroundings {e : Event} {s' : Session} (h : Serves d s e s') :
    s'.folders = s.folders ∧ s'.config = s.config ∧
      (e.uri?.isSome = true → s'.shuttingDown = s.shuttingDown) := by
  cases h with
  | nothing => exact ⟨rfl, rfl, fun _ => rfl⟩
  | shutdown hnone => exact ⟨rfl, rfl, by simp [hnone]⟩
  | consult => exact ⟨rfl, rfl, fun _ => rfl⟩

theorem Applies.surroundings {e : Event} {s' : Session} (h : Applies d s e s') :
    s'.config = s.config ∧ s'.shuttingDown = s.shuttingDown ∧
      (e.uri?.isSome = true → s'.folders = s.folders) := by
  cases h with
  | nothing => exact ⟨rfl, rfl, fun _ => rfl⟩
  | folders hnone c => exact ⟨rfl, rfl, by simp [hnone]⟩
  | update => exact ⟨rfl, rfl, fun _ => rfl⟩

theorem Serves.document? {e : Event} {s' : Session} (h : Serves d s e s') (v : DocumentUri) :
    (∀ doc, s.cache.document? v = some doc → s'.cache.document? v = some doc) ∧
      (s.cache.document? v = none → s'.cache.document? v = none ∨
        e.document? d = some v ∧ ∃ p text, v.path? = some p ∧ d.readText p = .ok text ∧
          s'.cache.document? v = some ⟨text, 0⟩) := by
  cases h with
  | nothing => exact ⟨fun _ hdoc => hdoc, .inl⟩
  | shutdown => exact ⟨fun _ hdoc => hdoc, .inl⟩
  | consult hu hc =>
      obtain ⟨hkept, hopened⟩ := hc.document? v
      refine ⟨hkept, fun hnone => ?_⟩
      rcases hopened hnone with hnone | ⟨rfl, hread⟩
      · exact .inl hnone
      · exact .inr ⟨hu, hread⟩

theorem handle_spares (d : Disk) (s : Session) (e : Event) : s.Spares d e := by
  cases e with
  | request method params =>
      have h : Serves d s (.request method params) (s.handle d (.request method params)).2 :=
        request_serves d s method params
      obtain ⟨hfolders, hconfig, hflag⟩ := h.surroundings
      refine ⟨fun v hv => h.others hv, fun hsome => ⟨hfolders, hflag hsome, hconfig⟩,
        handle_of_fails, fun _ => hfolders, fun _ v => (h.document? v).1,
        fun _ v doc hnone hdoc => ?_⟩
      rcases (h.document? v).2 hnone with hnone | ⟨hv, p, text, hpath, htext, hread⟩
      · simp [hdoc] at hnone
      · obtain rfl := Option.some.inj (hdoc.symm.trans hread)
        exact ⟨hv, rfl, p, hpath, htext⟩
  | notification method params =>
      have h : Applies d s (.notification method params)
          (s.handle d (.notification method params)).2 := notify_applies d s method params
      obtain ⟨hconfig, hflag, hfolders⟩ := h.surroundings
      exact ⟨fun v hv => h.others hv, fun hsome => ⟨hfolders hsome, hflag, hconfig⟩,
        handle_of_fails, nofun, nofun, nofun⟩

theorem shuttingDown_of_shutdown (d : Disk) (s : Session) (params : Json) :
    (s.handle d (.request "shutdown" params)).2.shuttingDown = true := by
  show (s.request d "shutdown" params).2.shuttingDown = true
  rw [request]
  split
  · assumption
  · rfl

/-- An event changes at most what is known of the document that it names, and nothing if it fails.
A request changes no open document. Once a shutdown has been answered, whatever comes after it, a
request is refused and changes nothing. -/
theorem messages_keep_apart (d : Disk) (s : Session) (e : Event) (params : Json)
    (es : List (Disk × Event)) :
    s.Spares d e ∧ ((s.handle d (.request "shutdown" params)).2.after es).Refuses := by
  refine ⟨handle_spares d s e, ?_⟩
  exact refuses_of_shuttingDown (after_shuttingDown es (shuttingDown_of_shutdown d s params))

end Session

def noteDisk : Disk := ⟨[([Utf8.ofString "note.orca"], .file (Utf8.ofString "let x = 1"))]⟩

def quietSession : Session := .start noteDisk .default

def askForNote : Event :=
  .request "textDocument/documentSymbol"
    (.obj [("textDocument", .obj [("uri", "file:///note.orca")])])

def changeDraft : Event :=
  .notification "textDocument/didChange"
    (.obj [("textDocument", .obj [("uri", "untitled:Draft"), ("version", .nat 2)]),
      ("contentChanges", .arr [.obj [("text", "let y = 2")]])])

theorem quietSession_keeps : quietSession.cache.document? ⟨"file:///note.orca"⟩ = none ∧
    askForNote.document? noteDisk = some ⟨"file:///note.orca"⟩ ∧
    (quietSession.handle noteDisk askForNote).2.cache.document? ⟨"file:///note.orca"⟩ =
      some ⟨"let x = 1", 0⟩ ∧
    (∃ p, DocumentUri.path? ⟨"file:///note.orca"⟩ = some p ∧
      noteDisk.readText p = .ok "let x = 1") ∧
    quietSession.Fails noteDisk changeDraft ∧
    (quietSession.handle noteDisk changeDraft).2 = quietSession ∧
    (quietSession.handle noteDisk (.request "shutdown" .null)).2.Refuses := by
  have hclosed : quietSession.cache.document? ⟨"file:///note.orca"⟩ = none := by decide +kernel
  have hopened : (quietSession.handle noteDisk askForNote).2.cache.document?
      ⟨"file:///note.orca"⟩ = some ⟨"let x = 1", 0⟩ := by decide +kernel
  have hfails : quietSession.Fails noteDisk changeDraft := by
    have hpath : DocumentUri.path? ⟨"untitled:Draft"⟩ = none := by decide +kernel
    have hread : DocumentUri.parse noteDisk "untitled:Draft" = .ok ⟨"untitled:Draft"⟩ := by
      with_unfolding_all rfl
    exact .unreadable (x := ⟨"untitled:Draft", 2, [⟨none, "let y = 2"⟩]⟩) rfl hread rfl
      (by simp [hpath])
  obtain ⟨hasked, hrefuses⟩ := Session.messages_keep_apart noteDisk quietSession askForNote .null []
  obtain ⟨hdraft, -⟩ := Session.messages_keep_apart noteDisk quietSession changeDraft .null []
  obtain ⟨hnamed, -, hread⟩ := hasked.opened rfl _ _ hclosed hopened
  exact ⟨hclosed, hnamed, hopened, hread, hfails, hdraft.failed hfails, hrefuses⟩

end LanguageService
