import LanguageService.Proofs.Loop
import Mathlib.Data.List.Nodup

/-!
In whatever order the tasks of a server take their steps, a request runs only after all that was
told before it has been applied, in the order of the stream, and none is lost.
-/
namespace LanguageService

section Stream

variable {stream : List Message} {n : Nat}

theorem notesBefore_succ {m : Message} (h : stream[n]? = some m) :
    notesBefore stream (n + 1) = notesBefore stream n ++ m.note?.toList := by
  rw [notesBefore, List.take_add_one, h, List.filterMap_append]
  cases hm : m.note? <;> simp [notesBefore, hm]

theorem notesBefore_isPrefix (stream : List Message) {p : Nat} (h : p ≤ n) :
    notesBefore stream p <+: notesBefore stream n :=
  (List.take_prefix_take_left h).filterMap Message.note?

theorem callsBefore_succ {m : Message} (h : stream[n]? = some m) :
    callsBefore stream (n + 1) =
      callsBefore stream n ++ if m.call?.isSome then [n] else [] := by
  rw [callsBefore, List.range_succ, List.filter_append]
  simp [callsBefore, List.filter_singleton, h]

theorem lt_of_mem_callsBefore {p : Nat} (h : p ∈ callsBefore stream n) : p < n :=
  List.mem_range.mp (List.mem_filter.mp h).1

theorem nodup_callsBefore (stream : List Message) (n : Nat) : (callsBefore stream n).Nodup :=
  List.nodup_range.filter _

end Stream

namespace Notifier

def isEnding : Notifier → Bool
  | receiving => false
  | applied _ flow => flow = .exit
  | stopped => true

end Notifier

namespace Loop

variable {stream : List Message} {l l' : Loop}

/-- What has been read of the notifications has been applied in order or is still in the channel,
numbered in order, and nothing comes after `exit`. -/
structure Delivers (stream : List Message) (l : Loop) : Prop where
  seen : l.seen = (notesBefore stream l.read).length
  order : l.log ++ l.notes.map (·.1) = notesBefore stream l.read
  numbers : l.notes.map (·.2) = List.range' (l.log.length + 1) l.notes.length
  applied : ∀ number flow, l.notifier = .applied number flow → number = l.log.length
  published_le : l.published ≤ l.log.length
  published_eq : l.notifier = .receiving ∨ l.notifier = .stopped → l.published = l.log.length
  last : ∀ n ∈ (notesBefore stream l.read).dropLast, n.method ≠ "exit"
  reading : l.reading = true → ∀ n ∈ notesBefore stream l.read, n.method ≠ "exit"
  ending : l.notifier.isEnding = true → l.reading = false ∧ l.notes = []

theorem delivers_start (session : Session) : Delivers stream (start session) where
  seen := rfl
  order := rfl
  numbers := rfl
  applied := by simp [start]
  published_le := Nat.le_refl _
  published_eq := fun _ => rfl
  last := by simp [start, notesBefore]
  reading := by simp [start, notesBefore]
  ending := by simp [start, Notifier.isEnding]

theorem Delivers.skip (h : Delivers stream l) {m : Message} (hmessage : stream[l.read]? = some m)
    (hnote : m.note? = none) (calls : List Forwarded) :
    Delivers stream { l with read := l.read + 1, calls := calls } := by
  have hnotes : notesBefore stream (l.read + 1) = notesBefore stream l.read := by
    rw [notesBefore_succ hmessage, hnote]
    simp
  exact ⟨hnotes ▸ h.seen, hnotes ▸ h.order, h.numbers, h.applied, h.published_le, h.published_eq,
    hnotes ▸ h.last, hnotes ▸ h.reading, h.ending⟩

theorem Delivers.readNote (h : Delivers stream l) {n : Note} (hreading : l.reading = true)
    (hmessage : stream[l.read]? = some (.notification n.method n.params)) :
    Delivers stream
      { l with
        read := l.read + 1, seen := l.seen + 1, notes := l.notes ++ [(n, l.seen + 1)],
        reading := n.method != "exit" } := by
  have hnotes : notesBefore stream (l.read + 1) = notesBefore stream l.read ++ [n] :=
    notesBefore_succ hmessage
  have hlive := h.reading hreading
  have hnotEnding : l.notifier.isEnding = false := by
    by_contra hending
    have hstopped := (h.ending (by simpa using hending)).1
    simp [hreading] at hstopped
  refine ⟨?_, ?_, ?_, h.applied, h.published_le, h.published_eq, ?_, ?_, ?_⟩
  · simp [hnotes, h.seen]
  · simp [hnotes, ← h.order]
  · have hlength : l.log.length + l.notes.length = l.seen := by
      rw [h.seen, ← h.order]
      simp
    rw [List.map_append, h.numbers, List.length_append, List.length_singleton,
      List.range'_1_concat]
    simp
    omega
  · simpa [hnotes] using hlive
  · intro hmethod
    simp only [hnotes, List.mem_append, List.mem_singleton]
    rintro m (hm | rfl)
    · exact hlive m hm
    · simpa using hmethod
  · simp [hnotEnding]

theorem Delivers.apply (h : Delivers stream l) {n : Note} {number : Nat}
    {rest : List (Note × Nat)} (d : Disk) (hnotes : l.notes = (n, number) :: rest) :
    Delivers stream
      { l with
        notes := rest, notifier := .applied number (l.session.notify d n.method n.params).1,
        session := (l.session.notify d n.method n.params).2, log := l.log ++ [n] } := by
  have horder := h.order
  have hnumbers := h.numbers
  have hpublished := h.published_le
  rw [hnotes] at horder hnumbers
  simp only [List.map_cons, List.length_cons, List.range'_succ, List.cons.injEq] at hnumbers
  refine ⟨h.seen, ?_, ?_, ?_, ?_, by simp, h.last, h.reading, ?_⟩
  · simpa using horder
  · simpa using hnumbers.2
  · rintro _ _ ⟨⟩
    simpa using hnumbers.1
  · simp
    omega
  · intro hexit
    replace hexit : n.method = "exit" :=
      (l.session.notify_fst_eq_exit_iff d n.method n.params).mp
        (by simpa [Notifier.isEnding] using hexit)
    refine ⟨?_, ?_⟩
    · by_contra hreading
      exact h.reading (by simpa using hreading) n (by simp [← horder]) hexit
    · by_contra hrest
      refine h.last n ?_ hexit
      rw [← horder, List.dropLast_append_of_ne_nil (by simp), List.map_cons,
        List.dropLast_cons_of_ne_nil (by simpa using hrest)]
      simp

theorem Delivers.publish (h : Delivers stream l) {number : Nat} {flow : Session.Flow}
    (hnotifier : l.notifier = .applied number flow) :
    Delivers stream { l with published := number, notifier := .after flow } := by
  have hnumber := h.applied number flow hnotifier
  refine ⟨h.seen, h.order, h.numbers, ?_, Nat.le_of_eq hnumber, fun _ => hnumber, h.last,
    h.reading, ?_⟩
  · cases flow <;> simp [Notifier.after]
  · intro hending
    refine h.ending ?_
    cases flow with
    | goOn => simp [Notifier.after, Notifier.isEnding] at hending
    | exit => simp [hnotifier, Notifier.isEnding]

theorem Delivers.step (h : Delivers stream l) (hstep : Step stream l l') :
    Delivers stream l' := by
  cases hstep with
  | readCall _ _ hmessage => exact h.skip hmessage rfl _
  | loseCall _ _ hmessage =>
      have hskip := h.skip hmessage rfl l.calls
      exact { hskip with
        reading := by simp
        ending := fun hending => ⟨rfl, (hskip.ending hending).2⟩ }
  | readNote hreading _ hmessage => exact h.readNote hreading hmessage
  | loseNote hreading hclosed hmessage =>
      have hstopped := (h.ending (by simp [hclosed, Notifier.isEnding])).1
      simp [hreading] at hstopped
  | readResponse _ hmessage => exact h.skip hmessage rfl l.calls
  | disconnect _ _ =>
      exact { h with
        reading := by simp
        ending := fun hending => ⟨rfl, (h.ending hending).2⟩ }
  | apply d _ hnotes => exact h.apply d hnotes
  | publish hnotifier => exact h.publish hnotifier
  | runOut hnotifier hnotes hreading =>
      exact { h with
        applied := by simp
        published_eq := fun _ => h.published_eq (.inl hnotifier)
        ending := fun _ => ⟨hreading, hnotes⟩ }
  | accept _ _ => exact { h with }
  | close _ _ _ => exact { h with }
  | run _ _ _ => exact { h with }
  | drop _ _ _ _ => exact { h with }
  | work _ _ _ => exact { h with }
  | reply _ _ _ => exact { h with }
  | loseReply _ _ => exact { h with }

def Stands (stream : List Message) (q : Forwarded) : Prop :=
  stream[q.place]? = some (.request q.call.id q.call.method q.call.params) ∧
    q.barrier = (notesBefore stream q.place).length

structure Forwards (stream : List Message) (l : Loop) : Prop where
  places : l.tasks.map (·.place) ++ l.calls.map (·.place) = callsBefore stream l.read
  tasks : ∀ k ∈ l.tasks, Stands stream k.toForwarded
  calls : ∀ q ∈ l.calls, Stands stream q
  closed : l.accepting = false → l.reading = false ∧ l.calls = []

theorem forwards_start (session : Session) : Forwards stream (start session) where
  places := rfl
  tasks := by simp [start]
  calls := by simp [start]
  closed := by simp [start]

theorem map_setStage {α : Type} (f : Forwarded → α) {i : Nat} {k : Worker} (stage : Stage)
    (hk : l.tasks[i]? = some k) :
    (l.setStage i k stage).tasks.map (fun k => f k.toForwarded) =
      l.tasks.map fun k => f k.toForwarded := by
  obtain ⟨hi, rfl⟩ := List.getElem?_eq_some_iff.mp hk
  have hlt : i < (l.tasks.map fun k => f k.toForwarded).length := by simpa using hi
  simpa [setStage, List.map_set] using List.set_getElem_self hlt

theorem mem_setStage {i : Nat} {k k' : Worker} {stage : Stage}
    (h : k' ∈ (l.setStage i k stage).tasks) : k' ∈ l.tasks ∨ k' = { k with stage := stage } :=
  List.mem_or_eq_of_mem_set h

theorem Forwards.setStage (h : Forwards stream l) {i : Nat} {k : Worker} (stage : Stage)
    (hk : l.tasks[i]? = some k) : Forwards stream (l.setStage i k stage) where
  places := by
    rw [map_setStage (·.place) stage hk]
    exact h.places
  tasks := by
    intro k' hk'
    rcases mem_setStage hk' with hk' | rfl
    · exact h.tasks k' hk'
    · exact h.tasks k (List.mem_of_getElem? hk)
  calls := h.calls
  closed := h.closed

theorem Forwards.step (h : Forwards stream l) (hdelivers : Delivers stream l)
    (hstep : Step stream l l') : Forwards stream l' := by
  cases hstep with
  | @readCall c hreading hopen hmessage =>
      refine ⟨?_, h.tasks, ?_, by simp [hopen]⟩
      · rw [callsBefore_succ hmessage, ← h.places]
        simp [Message.call?]
      · intro q hq
        rcases List.mem_append.mp hq with hq | hq
        · exact h.calls q hq
        · rw [List.mem_singleton.mp hq]
          exact ⟨hmessage, hdelivers.seen⟩
  | loseCall hreading hclosed hmessage =>
      have hstopped := (h.closed hclosed).1
      simp [hreading] at hstopped
  | readNote hreading hopen hmessage =>
      refine ⟨?_, h.tasks, h.calls, ?_⟩
      · rw [callsBefore_succ hmessage, ← h.places]
        simp [Message.call?]
      · intro hclosed
        have hstopped := (h.closed hclosed).1
        simp [hreading] at hstopped
  | loseNote hreading hclosed hmessage =>
      have hstopped := (hdelivers.ending (by simp [hclosed, Notifier.isEnding])).1
      simp [hreading] at hstopped
  | readResponse hreading hmessage =>
      refine ⟨?_, h.tasks, h.calls, h.closed⟩
      rw [callsBefore_succ hmessage, ← h.places]
      simp [Message.call?]
  | disconnect _ _ => exact { h with closed := fun hclosed => ⟨rfl, (h.closed hclosed).2⟩ }
  | accept hopen hcalls =>
      have hplaces := h.places
      have hstand := h.calls
      rw [hcalls] at hplaces hstand
      refine ⟨by simpa using hplaces, ?_, fun q hq => hstand q (by simp [hq]), by simp [hopen]⟩
      intro k hk
      rcases List.mem_append.mp hk with hk | hk
      · exact h.tasks k hk
      · rw [List.mem_singleton.mp hk]
        exact hstand _ (by simp)
  | close _ hcalls hreading => exact { h with closed := fun _ => ⟨hreading, hcalls⟩ }
  | apply _ _ _ => exact { h with }
  | publish _ => exact { h with }
  | runOut _ _ _ => exact { h with }
  | work _ _ _ => exact { h with }
  | run hk _ _ => exact h.setStage _ hk
  | drop hk _ _ _ => exact h.setStage _ hk
  | reply _ hk _ => exact { h.setStage .finished hk with }
  | loseReply hk _ => exact h.setStage _ hk

def Passed (l : Loop) (k : Worker) : Prop :=
  k.stage ≠ .dropped ∧ (k.stage ≠ .waiting → k.barrier ≤ l.log.length)

theorem Delivers.log_prefix (h : Delivers stream l) : l.log <+: notesBefore stream l.read :=
  ⟨_, h.order⟩

theorem Forwards.place_lt (h : Forwards stream l) {k : Worker} (hk : k ∈ l.tasks) :
    k.place < l.read := by
  have hmem : k.place ∈ callsBefore stream l.read := by
    rw [← h.places]
    exact List.mem_append_left _ (List.mem_map_of_mem hk)
  exact lt_of_mem_callsBefore hmem

theorem Delivers.barrier_le (h : Delivers stream l) (hforwards : Forwards stream l) {k : Worker}
    (hk : k ∈ l.tasks) (hstopped : l.notifier = .stopped) : k.barrier ≤ l.published := by
  have hnotes := (h.ending (by simp [hstopped, Notifier.isEnding])).2
  have hlog : l.log = notesBefore stream l.read := by
    rw [← h.order, hnotes]
    simp
  calc k.barrier = (notesBefore stream k.place).length := (hforwards.tasks k hk).2
    _ ≤ (notesBefore stream l.read).length :=
      (notesBefore_isPrefix stream (Nat.le_of_lt (hforwards.place_lt hk))).length_le
    _ = l.published := by rw [h.published_eq (.inr hstopped), hlog]

theorem passed_step (hdelivers : Delivers stream l) (hforwards : Forwards stream l)
    (h : ∀ k ∈ l.tasks, l.Passed k) (hstep : Step stream l l') : ∀ k ∈ l'.tasks, l'.Passed k := by
  have hset {i : Nat} {k : Worker} {stage : Stage} (hdropped : stage ≠ .dropped)
      (hbarrier : k.barrier ≤ l.log.length) : ∀ k' ∈ (l.setStage i k stage).tasks, l.Passed k' := by
    intro k' hk'
    rcases mem_setStage hk' with hk' | rfl
    · exact h k' hk'
    · exact ⟨hdropped, fun _ => hbarrier⟩
  have hrunning {i : Nat} {k : Worker} (hk : l.tasks[i]? = some k) (hstage : k.stage = .running) :
      k.barrier ≤ l.log.length :=
    (h k (List.mem_of_getElem? hk)).2 (by simp [hstage])
  cases hstep with
  | apply d _ _ =>
      intro k hk
      refine ⟨(h k hk).1, fun hstage => ?_⟩
      exact Nat.le_trans ((h k hk).2 hstage) (by simp)
  | accept _ _ =>
      intro k hk
      rcases List.mem_append.mp hk with hk | hk
      · exact h k hk
      · rw [List.mem_singleton.mp hk]
        simp [Passed]
  | run hk _ hpassed => exact hset (by simp) (Nat.le_trans hpassed hdelivers.published_le)
  | drop hk _ hshort hclosed =>
      have hle := hdelivers.barrier_le hforwards (List.mem_of_getElem? hk) hclosed
      omega
  | reply _ hk hstage => exact hset (by simp) (hrunning hk hstage)
  | loseReply hk hstage => exact hset (by simp) (hrunning hk hstage)
  | readCall _ _ _ => exact h
  | loseCall _ _ _ => exact h
  | readNote _ _ _ => exact h
  | loseNote _ _ _ => exact h
  | readResponse _ _ => exact h
  | disconnect _ _ => exact h
  | publish _ => exact h
  | runOut _ _ _ => exact h
  | close _ _ _ => exact h
  | work _ _ _ => exact h

structure Answers (l : Loop) : Prop where
  nodup : (l.replies.map (·.1)).Nodup
  finished : ∀ r ∈ l.replies, ∃ k ∈ l.tasks,
    k.place = r.1 ∧ k.stage = .finished ∧ r.2.id = k.call.id

theorem answers_start (session : Session) : Answers (start session) where
  nodup := by simp [start]
  finished := by simp [start]

theorem mem_setStage_of_ne {i : Nat} {k k' : Worker} (stage : Stage) (hk : l.tasks[i]? = some k)
    (hk' : k' ∈ l.tasks) (hne : k'.stage ≠ k.stage) : k' ∈ (l.setStage i k stage).tasks := by
  obtain ⟨j, hj⟩ := List.mem_iff_getElem?.mp hk'
  refine List.mem_iff_getElem?.mpr ⟨j, ?_⟩
  rw [setStage, List.getElem?_set_ne, hj]
  rintro rfl
  rw [hk, Option.some.injEq] at hj
  exact hne (by rw [hj])

theorem Answers.setStage (h : Answers l) {i : Nat} {k : Worker} (stage : Stage)
    (hk : l.tasks[i]? = some k) (hstage : k.stage ≠ .finished) :
    Answers (l.setStage i k stage) where
  nodup := h.nodup
  finished := by
    intro r hr
    obtain ⟨k', hk', hplace, hfinished, hid⟩ := h.finished r hr
    refine ⟨k', mem_setStage_of_ne stage hk hk' ?_, hplace, hfinished, hid⟩
    rw [hfinished]
    exact hstage.symm

theorem Answers.reply (h : Answers l) (hforwards : Forwards stream l) {i : Nat} {k : Worker}
    (outcome : Except ServiceError Json) (hk : l.tasks[i]? = some k)
    (hstage : k.stage = .running) :
    Answers
      { l.setStage i k .finished with
        replies := l.replies ++ [(k.place, .ofOutcome k.call.id outcome)] } := by
  have hset := h.setStage .finished hk (by simp [hstage])
  have hmem : { k with stage := .finished } ∈ (l.setStage i k .finished).tasks :=
    List.mem_set (List.getElem?_eq_some_iff.mp hk).1 _
  have hnodup : (l.tasks.map (·.place)).Nodup := by
    have hplaces := nodup_callsBefore stream l.read
    rw [← hforwards.places] at hplaces
    exact (List.nodup_append.mp hplaces).1
  refine ⟨?_, ?_⟩
  · rw [List.map_append, List.nodup_append]
    refine ⟨h.nodup, by simp, ?_⟩
    intro p hp q hq heq
    obtain ⟨r, hr, rfl⟩ := List.mem_map.mp hp
    obtain ⟨k', hk', hplace, hfinished, -⟩ := h.finished r hr
    obtain rfl : q = k.place := by simpa using hq
    obtain rfl := List.inj_on_of_nodup_map hnodup hk' (List.mem_of_getElem? hk)
      (hplace.trans heq)
    simp [hstage] at hfinished
  · intro r hr
    rcases List.mem_append.mp hr with hr | hr
    · exact hset.finished r hr
    · rw [List.mem_singleton.mp hr]
      exact ⟨_, hmem, rfl, rfl, rfl⟩

theorem Answers.step (h : Answers l) (hforwards : Forwards stream l)
    (hstep : Step stream l l') : Answers l' := by
  cases hstep with
  | run hk hstage _ => exact h.setStage _ hk (by simp [hstage])
  | drop hk hstage _ _ => exact h.setStage _ hk (by simp [hstage])
  | reply outcome hk hstage => exact h.reply hforwards outcome hk hstage
  | loseReply hk hstage => exact h.setStage _ hk (by simp [hstage])
  | accept _ _ =>
      refine ⟨h.nodup, fun r hr => ?_⟩
      obtain ⟨k, hk, hanswer⟩ := h.finished r hr
      exact ⟨k, List.mem_append_left _ hk, hanswer⟩
  | readCall _ _ _ => exact { h with }
  | loseCall _ _ _ => exact { h with }
  | readNote _ _ _ => exact { h with }
  | loseNote _ _ _ => exact { h with }
  | readResponse _ _ => exact { h with }
  | disconnect _ _ => exact { h with }
  | apply _ _ _ => exact { h with }
  | publish _ => exact { h with }
  | runOut _ _ _ => exact { h with }
  | close _ _ _ => exact { h with }
  | work _ _ _ => exact { h with }

structure Orderly (stream : List Message) (l : Loop) : Prop where
  delivers : Delivers stream l
  forwards : Forwards stream l
  passed : ∀ k ∈ l.tasks, l.Passed k
  answers : Answers l

theorem Reachable.orderly {session : Session} (h : Reachable stream session l) :
    Orderly stream l := by
  induction h with
  | refl =>
      exact ⟨delivers_start session, forwards_start session, by simp [start],
        answers_start session⟩
  | tail _ hstep ih =>
      exact ⟨ih.delivers.step hstep, ih.forwards.step ih.delivers hstep,
        passed_step ih.delivers ih.forwards ih.passed hstep, ih.answers.step ih.forwards hstep⟩

theorem Orderly.told_before (h : Orderly stream l) {k : Worker} (hk : k ∈ l.tasks)
    (hstage : k.stage ≠ .waiting) : notesBefore stream k.place <+: l.log := by
  have hbefore := notesBefore_isPrefix stream (Nat.le_of_lt (h.forwards.place_lt hk))
  refine List.prefix_of_prefix_length_le hbefore h.delivers.log_prefix ?_
  rw [← (h.forwards.tasks k hk).2]
  exact (h.passed k hk).2 hstage

theorem Orderly.finished_of_quiet (h : Orderly stream l) (hquiet : ∀ l', ¬ Step stream l l') :
    l.calls = [] ∧ ∀ k ∈ l.tasks, k.stage = .finished := by
  have hreading : l.reading = false := by
    by_contra hreading
    rw [Bool.not_eq_false] at hreading
    cases hmessage : stream[l.read]? with
    | none => exact hquiet _ (.disconnect hreading hmessage)
    | some m =>
        cases m with
        | request id method params =>
            cases hopen : l.accepting with
            | false =>
                exact hquiet _ (.loseCall (c := ⟨id, method, params⟩) hreading hopen hmessage)
            | true =>
                exact hquiet _ (.readCall (c := ⟨id, method, params⟩) hreading hopen hmessage)
        | notification method params =>
            by_cases hopen : l.notifier = .stopped
            · exact hquiet _ (.loseNote (n := ⟨method, params⟩) hreading hopen hmessage)
            · exact hquiet _ (.readNote (n := ⟨method, params⟩) hreading hopen hmessage)
        | response id => exact hquiet _ (.readResponse hreading hmessage)
  have hstopped : l.notifier = .stopped := by
    cases hnotifier : l.notifier with
    | stopped => rfl
    | applied number flow => exact absurd (.publish hnotifier) (hquiet _)
    | receiving =>
        cases hnotes : l.notes with
        | nil => exact absurd (.runOut hnotifier hnotes hreading) (hquiet _)
        | cons n rest => exact absurd (.apply ⟨[]⟩ hnotifier hnotes) (hquiet _)
  have hcalls : l.calls = [] := by
    cases hcalls : l.calls with
    | nil => rfl
    | cons c rest =>
        cases hopen : l.accepting with
        | false => simp [(h.forwards.closed hopen).2] at hcalls
        | true => exact absurd (.accept hopen hcalls) (hquiet _)
  refine ⟨hcalls, fun k hk => ?_⟩
  obtain ⟨i, hi⟩ := List.mem_iff_getElem?.mp hk
  cases hstage : k.stage with
  | waiting =>
      have hpassed := h.delivers.barrier_le h.forwards hk hstopped
      exact absurd (.run hi hstage hpassed) (hquiet _)
  | running => exact absurd (.loseReply hi hstage) (hquiet _)
  | finished => rfl
  | dropped => exact absurd hstage (h.passed k hk).1

/-- In every state that a server can come to, what it has applied is what the stream tells, in
order and each once; a request that runs or has run came after all that was told before it; none is
dropped, and where nothing more can happen each has been answered; and a request has at most one
reply, which has its number. -/
theorem requests_follow_notes {session : Session} (h : Reachable stream session l) :
    l.log <+: notesBefore stream l.read ∧
      (∀ k ∈ l.tasks,
        stream[k.place]? = some (.request k.call.id k.call.method k.call.params) ∧
          k.stage ≠ .dropped ∧ (k.stage ≠ .waiting → notesBefore stream k.place <+: l.log)) ∧
      l.tasks.map (·.place) ++ l.calls.map (·.place) = callsBefore stream l.read ∧
      (l.replies.map (·.1)).Nodup ∧
      (∀ r ∈ l.replies, ∃ k ∈ l.tasks,
        k.place = r.1 ∧ k.stage = .finished ∧ r.2.id = k.call.id) ∧
      ((∀ l', ¬ Step stream l l') → l.calls = [] ∧ ∀ k ∈ l.tasks, k.stage = .finished) := by
  have horderly := h.orderly
  refine ⟨horderly.delivers.log_prefix, fun k hk => ?_, horderly.forwards.places,
    horderly.answers.nodup, horderly.answers.finished, horderly.finished_of_quiet⟩
  exact ⟨(horderly.forwards.tasks k hk).1, (horderly.passed k hk).1, horderly.told_before hk⟩

def exitStream : List Message :=
  [.notification "$/progress" .null, .request (.nat 1) "shutdown" .null, .notification "exit" .null]

theorem exitStream_follows : ∃ l, Reachable exitStream (.start ⟨[]⟩ .default) l ∧
    l.notifier = .stopped ∧ l.accepting = false ∧ l.log.length = 2 ∧
    ∃ k ∈ l.tasks, k.stage = .running ∧ notesBefore exitStream k.place <+: l.log ∧
      (notesBefore exitStream k.place).length = 1 := by
  let d : Disk := ⟨[]⟩
  have hreach : ∃ l, Reachable exitStream (.start d .default) l ∧ l.notifier = .stopped ∧
      l.accepting = false ∧ l.log.length = 2 ∧ ∃ k ∈ l.tasks, k.stage = .running ∧ k.place = 1 := by
    refine ⟨_, ((((((((((Relation.ReflTransGen.refl.tail
      (.readNote (n := ⟨"$/progress", .null⟩) rfl (by simp [start]) rfl)).tail
      (.readCall (c := ⟨.nat 1, "shutdown", .null⟩) rfl rfl rfl)).tail
      (.readNote (n := ⟨"exit", .null⟩) rfl (by simp [start]) rfl)).tail
      (.apply d rfl rfl)).tail (.publish rfl)).tail (.apply d rfl rfl)).tail (.publish rfl)).tail
      (.accept rfl rfl)).tail (.close rfl rfl rfl)).tail
      (.run (i := 0) rfl rfl (by decide))), rfl, rfl, rfl, _, .head _, rfl, rfl⟩
  obtain ⟨l, hl, hstopped, hclosed, hlog, k, hk, hstage, hplace⟩ := hreach
  refine ⟨l, hl, hstopped, hclosed, hlog, k, hk, hstage, ?_, by rw [hplace]; rfl⟩
  exact ((requests_follow_notes hl).2.1 k hk).2.2 (by simp [hstage])

end Loop

end LanguageService
