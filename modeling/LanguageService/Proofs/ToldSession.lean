import LanguageService.Proofs.Interleaving

/-!
What a session knows of its client. The texts that a client has opened and its folders are told by
the notifications that were applied, whatever the requests did in between.
-/
namespace LanguageService

/-- What a client has told: the texts of the documents that it holds open, and its folders. -/
structure Told where
  texts : DocumentUri → Option String
  folders : List Protocol.Folder

namespace Told

def update (t : Told) (d : Disk) (uri : String) (f : Option String → Option String) : Told :=
  match DocumentUri.parse d uri with
  | .error _ => t
  | .ok u => { t with texts := Function.update t.texts u (f (t.texts u)) }

/-- A change to a document that the client has not opened tells nothing. -/
def apply (t : Told) (d : Disk) : Notification → Told
  | .opened o => t.update d o.uri fun _ => some o.text
  | .edited e =>
      t.update d e.uri (·.map fun text => e.changes.foldl (fun text c => c.apply text) text)
  | .closed uri => t.update d uri fun _ => none
  | .saved v =>
      match v.text with
      | none => t
      | some text => t.update d v.uri fun _ => some text
  | .foldersChanged c =>
      let kept := t.folders.filter fun f => !c.removed.any (·.uri == f.uri)
      { t with folders := c.added.foldl Session.addFolder kept }
  | .exit => t
  | .ignored => t

/-- What has been told after notifications, each with the disk at its time. -/
def after (t : Told) (notes : List (Disk × Note)) : Told :=
  notes.foldl (fun t n => t.apply n.1 (Notification.decode n.2.method n.2.params)) t

theorem after_concat (t : Told) (notes : List (Disk × Note)) (d : Disk) (n : Note) :
    t.after (notes ++ [(d, n)]) =
      (t.after notes).apply d (Notification.decode n.method n.params) := by
  rw [after, List.foldl_append, List.foldl_cons, List.foldl_nil, after]

end Told

namespace Session

variable {s s' : Session} {t : Told} {d : Disk}

def told (s : Session) : Told := ⟨fun u => (s.cache.document? u).map (·.text), s.folders⟩

structure Shows (s : Session) (t : Told) : Prop where
  texts : ∀ u text, t.texts u = some text → (s.cache.document? u).map (·.text) = some text
  folders : s.folders = t.folders

theorem shows_told (s : Session) : s.Shows s.told := ⟨fun _ _ htext => htext, rfl⟩

theorem Shows.keeps (h : s.Shows t) (hkeeps : s.Keeps s') : s'.Shows t where
  texts := by
    intro u text htext
    obtain ⟨doc, hdoc, rfl⟩ := Option.map_eq_some_iff.mp (h.texts u text htext)
    rw [hkeeps.documents u doc hdoc]
    rfl
  folders := hkeeps.folders.trans h.folders

theorem Shows.put (h : s.Shows t) {u : DocumentUri} {c : Cache} (hothers : s.cache.AgreesBut u c)
    {text? : Option String}
    (htext? : ∀ text, text? = some text → (c.document? u).map (·.text) = some text) :
    Shows { s with cache := c } { t with texts := Function.update t.texts u text? } where
  texts := by
    intro w text htext
    dsimp only at htext ⊢
    by_cases hw : w = u
    · subst hw
      rw [Function.update_self] at htext
      exact htext? text htext
    · rw [Function.update_of_ne hw] at htext
      rw [Cache.document?, hothers w hw]
      exact h.texts w text htext
  folders := h.folders

theorem Shows.update (h : s.Shows t) (uri : String) (f : Option String → Option String)
    {change : DocumentUri → Except ServiceError Cache}
    (hchange : ∀ {u c}, change u = .ok c → s.cache.AgreesBut u c ∧
      ∀ text, f (t.texts u) = some text → (c.document? u).map (·.text) = some text)
    (hfail : ∀ {u err}, change u = .error err → f (t.texts u) = none) :
    (s.update d uri change).Shows (t.update d uri f) := by
  rw [Session.update, Told.update]
  cases DocumentUri.parse d uri with
  | error err => exact h
  | ok u =>
      dsimp only
      cases hc : change u with
      | error err => exact h.put (fun _ _ => rfl) (by simp [hfail hc])
      | ok c => exact h.put (hchange hc).1 (hchange hc).2

theorem Shows.edit (h : s.Shows t) (e : Protocol.Editing) :
    (s.apply d (.edited e)).Shows (t.apply d (.edited e)) := by
  rw [apply, Told.apply]
  refine h.update e.uri _ ?_ ?_
  · intro u c hc
    obtain ⟨c₁, hreaches, hchanged⟩ := Cache.reach_ok hc
    refine ⟨hreaches.agreesBut.trans (Cache.agreesBut_change hchanged), fun text htext => ?_⟩
    obtain ⟨before, hbefore, rfl⟩ := Option.map_eq_some_iff.mp htext
    have hopen := h.texts u before hbefore
    cases hreaches with
    | read hclosed _ _ => simp [Cache.document?, hclosed] at hopen
    | @here o ho =>
        obtain rfl : o.document.text = before := by simpa [Cache.document?, ho] using hopen
        rw [Cache.change, ho] at hchanged
        obtain rfl := Except.ok.inj hchanged
        rw [Cache.document?_put, Function.update_self]
        rfl
  · intro u err herr
    rw [Option.map_eq_none_iff]
    by_contra htext
    obtain ⟨before, hbefore⟩ := Option.ne_none_iff_exists'.mp htext
    obtain ⟨o, ho⟩ : ∃ o, s.cache.entry? u = some o := by
      have hopen := h.texts u before hbefore
      rw [← Option.isSome_iff_exists]
      by_contra hclosed
      simp [Cache.document?, Option.not_isSome_iff_eq_none.mp hclosed] at hopen
    rw [Cache.reach, ho, Cache.change, ho] at herr
    cases herr

/-- A notification tells a session what it tells. -/
theorem Shows.apply (h : s.Shows t) (d : Disk) (n : Notification) :
    (s.apply d n).Shows (t.apply d n) := by
  cases n with
  | opened o =>
      rw [Session.apply, Told.apply]
      refine h.update o.uri _ (fun {u c} hc => ?_) (by simp)
      obtain rfl := Except.ok.inj hc
      refine ⟨Cache.agreesBut_put _ _ _, fun text htext => ?_⟩
      rwa [Cache.openText, Cache.document?_put, Function.update_self]
  | edited e => exact h.edit e
  | closed uri =>
      rw [Session.apply, Told.apply]
      refine h.update uri _ (fun {u c} hc => ?_) fun _ => rfl
      obtain rfl := Except.ok.inj hc
      exact ⟨Cache.agreesBut_close _ _, fun text htext => by cases htext⟩
  | saved v =>
      rw [Session.apply, Told.apply]
      cases v.text with
      | none => exact h
      | some text =>
          refine h.update v.uri _ (fun {u c} hc => ?_) (by simp)
          obtain rfl := Except.ok.inj hc
          refine ⟨Cache.agreesBut_save _ _ _, fun text' htext => ?_⟩
          rw [Cache.save]
          split <;> rwa [Cache.openText, Cache.document?_put, Function.update_self]
  | foldersChanged c =>
      rw [Session.apply, Told.apply, changeFolders, h.folders]
      exact ⟨h.texts, rfl⟩
  | exit => exact h
  | ignored => exact h

end Session

namespace Loop

variable {stream : List Message} {l l' : Loop} {session : Session}

/-- The session shows what its log tells, read with the disks of some times. -/
def Follows (session : Session) (l : Loop) : Prop :=
  ∃ notes : List (Disk × Note), notes.map (·.2) = l.log ∧
    l.session.Shows (session.told.after notes)

theorem follows_start (session : Session) : Follows session (start session) :=
  ⟨[], rfl, session.shows_told⟩

theorem Follows.step (h : Follows session l) (hstep : Step stream l l') : Follows session l' := by
  obtain ⟨notes, hlog, hshows⟩ := h
  cases hstep with
  | @apply n _ _ d _ _ =>
      refine ⟨notes ++ [(d, n)], by simp [hlog], ?_⟩
      rw [Told.after_concat, Session.notify_snd]
      exact hshows.apply d _
  | work hkeeps _ _ => exact ⟨notes, hlog, hshows.keeps hkeeps⟩
  | readCall _ _ _ => exact ⟨notes, hlog, hshows⟩
  | loseCall _ _ _ => exact ⟨notes, hlog, hshows⟩
  | readNote _ _ _ => exact ⟨notes, hlog, hshows⟩
  | loseNote _ _ _ => exact ⟨notes, hlog, hshows⟩
  | readResponse _ _ => exact ⟨notes, hlog, hshows⟩
  | disconnect _ _ => exact ⟨notes, hlog, hshows⟩
  | publish _ => exact ⟨notes, hlog, hshows⟩
  | runOut _ _ _ => exact ⟨notes, hlog, hshows⟩
  | accept _ _ => exact ⟨notes, hlog, hshows⟩
  | close _ _ _ => exact ⟨notes, hlog, hshows⟩
  | run _ _ _ => exact ⟨notes, hlog, hshows⟩
  | drop _ _ _ _ => exact ⟨notes, hlog, hshows⟩
  | reply _ _ _ => exact ⟨notes, hlog, hshows⟩
  | loseReply _ _ => exact ⟨notes, hlog, hshows⟩

theorem Reachable.follows (h : Reachable stream session l) : Follows session l := by
  induction h with
  | refl => exact follows_start session
  | tail _ hstep ih => exact ih.step hstep

/-- While a request runs, its session shows what was told by all the notifications before it, in
order, and by as many of those after it as have been applied. -/
theorem session_shows_notes (h : Reachable stream session l) {k : Worker} (hk : k ∈ l.tasks)
    (hstage : k.stage = .running) :
    ∃ notes : List (Disk × Note), l.session.Shows (session.told.after notes) ∧
      notesBefore stream k.place <+: notes.map (·.2) ∧
      notes.map (·.2) <+: notesBefore stream l.read := by
  obtain ⟨notes, hlog, hshows⟩ := h.follows
  have horderly := h.orderly
  refine ⟨notes, hshows, ?_, ?_⟩
  · rw [hlog]
    exact horderly.told_before hk (by simp [hstage])
  · rw [hlog]
    exact horderly.delivers.log_prefix

end Loop

end LanguageService
