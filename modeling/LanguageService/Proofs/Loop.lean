import LanguageService.Proofs.Frames
import LanguageService.Server
import Mathlib.Logic.Relation

/-!
The loop of a server in session, as tasks that take their steps in any order. One task reads the
client's messages and passes them on, one applies the notifications in turn, one hands each request
to a task of its own, which waits until what was told before the request has been applied. A server
that takes one message at a time is one of the ways in which the loop can run.
-/
namespace LanguageService

/-- What a request may do to a session. The documents that are open and the folders stay as they
are; more documents may be opened. -/
structure Session.Keeps (s s' : Session) : Prop where
  config : s'.config = s.config
  folders : s'.folders = s.folders
  documents : ∀ u doc, s.cache.document? u = some doc → s'.cache.document? u = some doc
  shuttingDown : s.shuttingDown = true → s'.shuttingDown = true

theorem Session.request_keeps (s : Session) (d : Disk) (method : String) (params : Json) :
    s.Keeps (s.request d method params).2 := by
  have hserves := request_serves d s method params
  obtain ⟨hfolders, hconfig, -⟩ := hserves.surroundings
  exact ⟨hconfig, hfolders, fun u => (hserves.document? u).1, hserves.shuttingDown⟩

structure Note where
  method : String
  params : Json

structure Call where
  id : Json
  method : String
  params : Json

namespace Message

def note? : Message → Option Note
  | .notification method params => some ⟨method, params⟩
  | _ => none

def call? : Message → Option Call
  | .request id method params => some ⟨id, method, params⟩
  | _ => none

end Message

def notesBefore (stream : List Message) (n : Nat) : List Note :=
  (stream.take n).filterMap Message.note?

def callsBefore (stream : List Message) (n : Nat) : List Nat :=
  (List.range n).filter fun p => (stream[p]?.bind Message.call?).isSome

/-- A request as it is passed on, with the number of notifications that were read before it and its
place in the stream. -/
structure Forwarded where
  place : Nat
  call : Call
  barrier : Nat

inductive Stage where
  | waiting
  | running
  | finished
  | dropped
  deriving DecidableEq

structure Worker extends Forwarded where
  stage : Stage

/-- What the task of the notifications does next: wait for one, tell the others the number of the
one it has applied, or nothing. -/
inductive Notifier where
  | receiving
  | applied (number : Nat) (flow : Session.Flow)
  | stopped

def Notifier.after : Session.Flow → Notifier
  | .goOn => .receiving
  | .exit => .stopped

/-- The tasks of a server and the channels between them. `log` keeps what has been applied, and
`replies` what has been sent, with the places of the requests. -/
structure Loop where
  read : Nat
  reading : Bool
  seen : Nat
  notes : List (Note × Nat)
  notifier : Notifier
  published : Nat
  session : Session
  log : List Note
  calls : List Forwarded
  accepting : Bool
  tasks : List Worker
  replies : List (Nat × Reply)

namespace Loop

def start (session : Session) : Loop where
  read := 0
  reading := true
  seen := 0
  notes := []
  notifier := .receiving
  published := 0
  session := session
  log := []
  calls := []
  accepting := true
  tasks := []
  replies := []

def setStage (l : Loop) (i : Nat) (k : Worker) (s : Stage) : Loop :=
  { l with tasks := l.tasks.set i { k with stage := s } }

/-- What one task can do next. Reading stops after `exit`, and when a channel has no receiver. A
request that runs may do to the session whatever a request may do, as often as it likes, and its
outcome is left open, so that the requests may overlap in any way with each other and with the
notifications. -/
inductive Step (stream : List Message) (l : Loop) : Loop → Prop
  | readCall {c : Call} (hreading : l.reading = true) (hopen : l.accepting = true)
      (hmessage : stream[l.read]? = some (.request c.id c.method c.params)) :
      Step stream l
        { l with read := l.read + 1, calls := l.calls ++ [⟨l.read, c, l.seen⟩] }
  | loseCall {c : Call} (hreading : l.reading = true) (hclosed : l.accepting = false)
      (hmessage : stream[l.read]? = some (.request c.id c.method c.params)) :
      Step stream l { l with read := l.read + 1, reading := false }
  | readNote {n : Note} (hreading : l.reading = true) (hopen : l.notifier ≠ .stopped)
      (hmessage : stream[l.read]? = some (.notification n.method n.params)) :
      Step stream l
        { l with
          read := l.read + 1, seen := l.seen + 1, notes := l.notes ++ [(n, l.seen + 1)],
          reading := n.method != "exit" }
  | loseNote {n : Note} (hreading : l.reading = true) (hclosed : l.notifier = .stopped)
      (hmessage : stream[l.read]? = some (.notification n.method n.params)) :
      Step stream l { l with read := l.read + 1, seen := l.seen + 1, reading := false }
  | readResponse {id : Json} (hreading : l.reading = true)
      (hmessage : stream[l.read]? = some (.response id)) :
      Step stream l { l with read := l.read + 1 }
  | disconnect (hreading : l.reading = true) (hmessage : stream[l.read]? = none) :
      Step stream l { l with reading := false }
  | apply {n : Note} {number : Nat} {rest : List (Note × Nat)} (d : Disk)
      (hnotifier : l.notifier = .receiving) (hnotes : l.notes = (n, number) :: rest) :
      Step stream l
        { l with
          notes := rest, notifier := .applied number (l.session.notify d n.method n.params).1,
          session := (l.session.notify d n.method n.params).2, log := l.log ++ [n] }
  | publish {number : Nat} {flow : Session.Flow} (hnotifier : l.notifier = .applied number flow) :
      Step stream l
        { l with published := number, notifier := .after flow }
  | runOut (hnotifier : l.notifier = .receiving) (hnotes : l.notes = [])
      (hreading : l.reading = false) : Step stream l { l with notifier := .stopped }
  | accept {c : Forwarded} {rest : List Forwarded} (hopen : l.accepting = true)
      (hcalls : l.calls = c :: rest) :
      Step stream l { l with calls := rest, tasks := l.tasks ++ [⟨c, .waiting⟩] }
  | close (hopen : l.accepting = true) (hcalls : l.calls = []) (hreading : l.reading = false) :
      Step stream l { l with accepting := false }
  | run {i : Nat} {k : Worker} (hk : l.tasks[i]? = some k) (hstage : k.stage = .waiting)
      (hpassed : k.barrier ≤ l.published) : Step stream l (l.setStage i k .running)
  | drop {i : Nat} {k : Worker} (hk : l.tasks[i]? = some k) (hstage : k.stage = .waiting)
      (hshort : l.published < k.barrier) (hclosed : l.notifier = .stopped) :
      Step stream l (l.setStage i k .dropped)
  | work {i : Nat} {k : Worker} {s : Session} (hkeeps : l.session.Keeps s)
      (hk : l.tasks[i]? = some k) (hstage : k.stage = .running) :
      Step stream l { l with session := s }
  | reply {i : Nat} {k : Worker} (outcome : Except ServiceError Json) (hk : l.tasks[i]? = some k)
      (hstage : k.stage = .running) :
      Step stream l
        { l.setStage i k .finished with
          replies := l.replies ++ [(k.place, .ofOutcome k.call.id outcome)] }
  | loseReply {i : Nat} {k : Worker} (hk : l.tasks[i]? = some k) (hstage : k.stage = .running) :
      Step stream l (l.setStage i k .finished)

/-- What a server can come to that begins with a session and is sent a stream of messages. -/
def Reachable (stream : List Message) (session : Session) : Loop → Prop :=
  Relation.ReflTransGen (Step stream) (start session)

end Loop

namespace Notification

theorem decode_eq_exit_iff (method : String) (params : Json) :
    decode method params = .exit ↔ method = "exit" := by
  have hread {α : Type} (o : Option α) (f : α → Notification) (hf : ∀ a, f a ≠ exit) :
      (o.map f).getD ignored ≠ exit := by
    cases o with
    | none => simp
    | some a => exact hf a
  unfold decode
  split <;> simp_all

end Notification

theorem Session.notify_fst_eq_exit_iff (s : Session) (d : Disk) (method : String)
    (params : Json) : (s.notify d method params).1 = .exit ↔ method = "exit" := by
  rw [← Notification.decode_eq_exit_iff method params, notify]
  split <;> simp_all

namespace Server

def receiveAll (s : Server) : List (Disk × Message) → List Reply × Server
  | [] => ([], s)
  | (d, m) :: ms =>
      let (replies, s) := s.receive d m
      let (more, s) := s.receiveAll ms
      (replies ++ more, s)

theorem receiveAll_ended (home : Home) (well : Bool) (levels : List String)
    (ms : List (Disk × Message)) :
    receiveAll ⟨home, .ended well, levels⟩ ms = ([], ⟨home, .ended well, levels⟩) := by
  induction ms with
  | nil => rfl
  | cons m ms ih => simp [receiveAll, receive, ih]

end Server

namespace Loop

def idle (read seen : Nat) (session : Session) (log : List Note) (tasks : List Worker)
    (replies : List (Nat × Reply)) : Loop where
  read := read
  reading := true
  seen := seen
  notes := []
  notifier := .receiving
  published := seen
  session := session
  log := log
  calls := []
  accepting := true
  tasks := tasks
  replies := replies

section Serial

variable {stream : List Message} {read : Nat} (seen : Nat) (s : Session) (log : List Note)
  (tasks : List Worker) (replies : List (Nat × Reply))

theorem idle_request {c : Call}
    (hmessage : stream[read]? = some (.request c.id c.method c.params))
    (outcome : Except ServiceError Json) {s' : Session} (hkeeps : s.Keeps s') :
    ∃ tasks', Relation.ReflTransGen (Step stream) (idle read seen s log tasks replies)
      (idle (read + 1) seen s' log tasks'
        (replies ++ [(read, .ofOutcome c.id outcome)])) := by
  let k (stage : Stage) : Worker := ⟨⟨read, c, seen⟩, stage⟩
  refine ⟨_, .head (.readCall rfl rfl hmessage) (.head (.accept rfl rfl) (.head
    (.run (i := tasks.length) (k := k .waiting) (by simp [k, idle]) rfl (Nat.le_refl _)) (.head
    (.work (i := tasks.length) (k := k .running) hkeeps (by simp [k, idle, setStage]) rfl) (.single
    (.reply (i := tasks.length) (k := k .running) outcome (by simp [k, idle, setStage]) rfl)))))⟩

theorem idle_notify {n : Note} {d : Disk} {s' : Session}
    (hmessage : stream[read]? = some (.notification n.method n.params))
    (hnotify : s.notify d n.method n.params = (.goOn, s')) :
    Relation.ReflTransGen (Step stream) (idle read seen s log tasks replies)
      (idle (read + 1) (seen + 1) s' (log ++ [n]) tasks replies) := by
  have hgoOn : (n.method != "exit") = true := by
    have hexit := s.notify_fst_eq_exit_iff d n.method n.params
    simpa [hnotify] using hexit
  have hread : Step stream (idle read seen s log tasks replies)
      { idle (read + 1) (seen + 1) s log tasks replies with
        notes := [(n, seen + 1)], published := seen } := by
    have hstep : Step stream (idle read seen s log tasks replies) _ :=
      .readNote rfl (by simp [idle]) hmessage
    rwa [hgoOn] at hstep
  have happly : Step stream
      { idle (read + 1) (seen + 1) s log tasks replies with
        notes := [(n, seen + 1)], published := seen }
      { idle (read + 1) (seen + 1) s' (log ++ [n]) tasks replies with
        notifier := .applied (seen + 1) .goOn, published := seen } := by
    have hstep : Step stream
        { idle (read + 1) (seen + 1) s log tasks replies with
          notes := [(n, seen + 1)], published := seen } _ := .apply d rfl rfl
    simpa [idle, hnotify] using hstep
  exact .head hread (.head happly (.single (@Step.publish stream _ (seen + 1) .goOn rfl)))

theorem idle_exit {n : Note} (d : Disk)
    (hmessage : stream[read]? = some (.notification n.method n.params))
    (hexit : (s.notify d n.method n.params).1 = .exit) :
    ∃ l, Relation.ReflTransGen (Step stream) (idle read seen s log tasks replies) l ∧
      l.notifier = .stopped ∧ l.replies = replies := by
  refine ⟨_, .head (.readNote rfl (by simp [idle]) hmessage) (.head (.apply d rfl rfl) (.single
    (.publish rfl))), congrArg Notifier.after hexit, rfl⟩

theorem idle_receiveAll {home : Home} {levels : List String} (ms : List (Disk × Message))
    (hstream : stream.drop read = ms.map (·.2)) :
    ∃ l, Relation.ReflTransGen (Step stream) (idle read seen s log tasks replies) l ∧
      l.replies.map (·.2) = replies.map (·.2) ++
        (Server.receiveAll ⟨home, .running s, levels⟩ ms).1 ∧
      ((Server.receiveAll ⟨home, .running s, levels⟩ ms).2.phase = .running l.session ∨
        (Server.receiveAll ⟨home, .running s, levels⟩ ms).2.phase = .ended true ∧
          l.notifier = .stopped) := by
  induction ms generalizing read seen s log tasks replies with
  | nil => exact ⟨_, .refl, by simp [Server.receiveAll, idle], .inl rfl⟩
  | cons m ms ih =>
      obtain ⟨d, m⟩ := m
      have hmessage : stream[read]? = some m := by
        rw [← List.head?_drop, hstream]
        rfl
      have hrest : stream.drop (read + 1) = ms.map (·.2) := by
        rw [← List.drop_drop, hstream]
        rfl
      rw [Server.receiveAll, Server.receive]
      cases m with
      | request id method params =>
          obtain ⟨tasks', hsteps⟩ := idle_request seen s log tasks replies
            (c := ⟨id, method, params⟩) hmessage (s.request d method params).1
            (s.request_keeps d method params)
          obtain ⟨l, hmore, hreplies, hphase⟩ := ih seen _ log tasks' _ hrest
          refine ⟨l, hsteps.trans hmore, ?_, hphase⟩
          simpa [Server.receiveRunning] using hreplies
      | notification method params =>
          cases hnotify : s.notify d method params with
          | mk flow s' =>
              cases flow with
              | goOn =>
                  have hsteps := idle_notify seen s log tasks replies (n := ⟨method, params⟩)
                    hmessage hnotify
                  obtain ⟨l, hmore, hreplies, hphase⟩ := ih (seen + 1) s' _ tasks replies hrest
                  simp only [Server.receiveRunning, hnotify]
                  exact ⟨l, hsteps.trans hmore, hreplies, hphase⟩
              | exit =>
                  obtain ⟨l, hsteps, hstopped, hreplies⟩ := idle_exit seen s log tasks replies
                    (n := ⟨method, params⟩) d hmessage (congrArg Prod.fst hnotify)
                  simp only [Server.receiveRunning, hnotify, Server.receiveAll_ended]
                  exact ⟨l, hsteps, by simp [hreplies], .inr ⟨trivial, hstopped⟩⟩
      | response id =>
          obtain ⟨l, hmore, hreplies, hphase⟩ := ih seen s log tasks replies hrest
          exact ⟨l, .head (.readResponse rfl hmessage) hmore, hreplies, hphase⟩

end Serial

theorem exists_reachable_receiveAll (home : Home) (levels : List String) (s : Session)
    (ms : List (Disk × Message)) :
    ∃ l, Reachable (ms.map (·.2)) s l ∧
      l.replies.map (·.2) = (Server.receiveAll ⟨home, .running s, levels⟩ ms).1 ∧
      ((Server.receiveAll ⟨home, .running s, levels⟩ ms).2.phase = .running l.session ∨
        (Server.receiveAll ⟨home, .running s, levels⟩ ms).2.phase = .ended true ∧
          l.notifier = .stopped) :=
  idle_receiveAll 0 s [] [] [] ms rfl

end Loop

end LanguageService
