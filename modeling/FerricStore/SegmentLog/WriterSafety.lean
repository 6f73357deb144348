import FerricStore.SegmentLog.Writer

/-!
# The promises of the segment writer

Four invariants of the protocol: the writers that processes name were spawned (`Spawned`), a request
is with one writer and not begun twice (`Once`), the registry row names the writer that serves
(`Registered`), and only the writer that an awaiter found can hold a dead caller's request
(`Awaited`). The first two hold in every run. The others need that a writer which has deleted its
row finds no request in its mailbox: a writer that takes such a late request goes on serving without
a row, beside the writer that the next caller starts.
-/

namespace FerricStore.SegmentLog

open Function List Processes Event

/-- The writer that a caller knows of. -/
def Caller.known : Caller → Option Nat
  | .checking _ w | .removing _ w | .inserting _ w | .losing _ w | .announcing _ w
  | .sending _ w | .waiting _ w _ => some w
  | _ => none

/-- The writer that an awaiter knows of. -/
def Awaiter.known : Awaiter → Option Nat
  | .asking w | .awaiting w _ => some w
  | _ => none

@[simp] theorem Caller.known_receive (caller : Caller) (w : Nat) (reply : Reply) :
    (caller.receive w reply).known = caller.known := by
  cases caller <;> grind [Caller.receive, Caller.known]

variable {caller : Caller}

theorem Caller.receive_eq_removing_iff {w n v : Nat} {reply : Reply} :
    caller.receive w reply = .removing n v ↔ caller = .removing n v := by
  cases caller <;> grind [Caller.receive]

theorem Caller.receive_eq_announcing_iff {w n v : Nat} {reply : Reply} :
    caller.receive w reply = .announcing n v ↔ caller = .announcing n v := by
  cases caller <;> grind [Caller.receive]

@[simp] theorem Awaiter.known_receive (awaiter : Awaiter) (w : Nat) :
    (awaiter.receive w).known = awaiter.known := by
  cases awaiter <;> rfl

/-- Every writer that a row, a caller or an awaiter names was spawned. -/
structure Spawned (s : Processes) : Prop where
  row : ∀ w, s.registry = some w → s.writer w ≠ .absent
  caller : ∀ c w, (s.caller c).known = some w → s.writer w ≠ .absent
  awaiter : ∀ a w, (s.awaiter a).known = some w → s.writer w ≠ .absent
  mailbox : ∀ w, s.writer w = .absent → s.mailbox w = []
  registered : ∀ w, s.writer w = .absent → s.registered w = false

variable {s : Processes} {event : Event}

/-- Every event names only writers that were spawned. -/
theorem Spawned.step (h : Spawned s) (henabled : event.Enabled s) : Spawned (event.apply s) := by
  obtain ⟨hrow, hcaller, hawaiter, hmailbox, hregistered⟩ := h
  cases event <;> simp only [Event.Enabled, Writer.Live] at henabled <;>
    simp only [apply, setCaller, setWriter, setAwaiter, setMailbox, send, deleteRow, execute,
      reply, replySynced] <;>
    constructor <;> simp only [update_apply] <;>
    grind -linarith [Caller.known, Awaiter.known, Writer.Holds, Caller.known_receive,
      Awaiter.known_receive]

/-- A caller that has no request with a writer yet. -/
def Caller.Unsent : Caller → Prop
  | .waiting _ _ _ | .done | .dead => False
  | _ => True

/-- A caller whose request was not started. -/
def Caller.Fresh (caller : Caller) : Prop :=
  caller.Unsent ∨ ∃ n w, caller = .waiting n w .nothing

/-- A writer that has announced a request or will. -/
def Writer.Prepares (writer : Writer) (c : Nat) : Prop :=
  writer = .approved c ∨ writer = .announced c

/-- What keeps a request from being executed twice: a live caller's request is with the one writer
that it waits for, once, and a request that a writer is about to begin was not executed. -/
structure Once (s : Processes) : Prop where
  pending : ∀ w c, (s.writer w).Live →
    .run c ∈ s.mailbox w ∨ s.writer w = .taken c ∨ s.writer w = .approved c →
    s.caller c = .dead ∨ ∃ n, s.caller c = .waiting n w .nothing
  begun : ∀ w c, s.writer w = .announced c ∨ s.writer w = .running c →
    s.caller c = .dead ∨ ∃ n, s.caller c = .waiting n w .started
  unqueued : ∀ w c, s.writer w = .taken c ∨ (s.writer w).Holds c → .run c ∉ s.mailbox w
  single : ∀ w c, (s.writer w).Live → (s.mailbox w).count (.run c) ≤ 1
  unexecuted : ∀ c, (s.caller c).Fresh → s.executions c = 0
  prepared : ∀ w c, (s.writer w).Prepares c → s.executions c = 0
  unique : ∀ w w' c, (s.writer w).Prepares c → (s.writer w').Prepares c → w = w'
  bounded : ∀ c, s.executions c ≤ 1

variable {w c : Nat}

attribute [local grind] Writer.Live Writer.Holds Writer.Prepares Caller.Fresh Caller.Unsent

/-- The caller of a prepared request is dead or waits for that writer. -/
theorem Once.caller_of_prepares (h : Once s) (hprepares : (s.writer w).Prepares c) :
    s.caller c = .dead ∨ (∃ n, s.caller c = .waiting n w .nothing ∧ s.writer w = .approved c) ∨
      ∃ n, s.caller c = .waiting n w .started := by
  rcases hprepares with hw | hw
  · have := h.pending w c (by simp [hw, Writer.Live]) (.inr (.inr hw))
    grind -linarith
  · have := h.begun w c (.inl hw)
    grind -linarith

variable {s' : Processes}

/-- A caller moves on before its request is sent. -/
theorem Once.move (h : Once s) (hold : (s.caller c).Unsent)
    (hcaller : s'.caller = update s.caller c caller) (hwriter : s'.writer = s.writer)
    (hmailbox : s'.mailbox = s.mailbox) (hexecutions : s'.executions = s.executions) :
    Once s' := by
  have hother : ∀ d, s.caller d = .dead ∨ (∃ n w r, s.caller d = .waiting n w r) →
      s'.caller d = s.caller d := by
    intro d hd
    rw [hcaller, update_apply]
    split
    case isTrue heq =>
      subst heq
      rcases hd with hd | ⟨n, w, r, hd⟩ <;> simp [hd, Caller.Unsent] at hold
    case isFalse => rfl
  constructor <;> simp only [hwriter, hmailbox, hexecutions]
  case pending =>
    intro w d hlive hd
    have := h.pending w d hlive hd
    rwa [hother d (by grind)]
  case begun =>
    intro w d hd
    have := h.begun w d hd
    rwa [hother d (by grind)]
  case unexecuted =>
    intro d hd
    refine h.unexecuted d ?_
    rw [hcaller, update_apply] at hd
    split at hd
    case isTrue heq => exact .inl (heq ▸ hold)
    case isFalse => exact hd
  exacts [h.unqueued, h.single, h.prepared, h.unique, h.bounded]

/-- A writer moves on that neither had a request nor gets one. -/
theorem Once.stop {writer : Writer} (h : Once s) (hnew : ∀ c, writer ≠ .taken c ∧ ¬ writer.Holds c)
    (hlive : writer.Live → (s.writer w).Live ∨ s.mailbox w = [])
    (hwriter : s'.writer = update s.writer w writer) (hcaller : s'.caller = s.caller)
    (hmailbox : s'.mailbox = s.mailbox) (hexecutions : s'.executions = s.executions) :
    Once s' := by
  simp only [Writer.Holds] at hnew
  cases h
  constructor <;> simp only [hwriter, hcaller, hmailbox, hexecutions, update_apply]
  case unexecuted | bounded => assumption
  all_goals grind -linarith

variable {n : Nat}

section

variable (h : Once s)
include h

/-- A request is sent to a writer. -/
theorem Once.sendRun (he : s.caller c = .sending n w) : Once ((sendRun c n w).apply s) := by
  have hpending : ∀ w', (s.writer w').Live → .run c ∉ s.mailbox w' := by
    have hpending := h.pending
    grind
  cases h
  constructor <;> simp only [apply, setCaller, send, setMailbox, update_apply]
  case prepared | unique | bounded => assumption
  case unqueued => grind
  all_goals grind -linarith

/-- A caller ends: with a result, with an error, or killed. -/
theorem Once.finishCaller (hnew : caller = .dead ∨ caller = .done ∧
      ∃ n w, s.caller c = .waiting n w .result ∨
        s.caller c = .waiting n w .started ∧ s.writer w = .dead) :
    Once (s.setCaller c caller) := by
  have hfresh : ¬ caller.Fresh := by
    rcases hnew with hnew | ⟨hnew, _⟩ <;> simp [hnew, Caller.Fresh, Caller.Unsent]
  cases h
  constructor <;> simp only [setCaller, update_apply]
  case pending | begun | unexecuted => grind
  all_goals assumption

/-- A caller whose writer died before it started the request has no request with a writer. -/
theorem Once.retry {c n w m : Nat}
    (hold : s.caller c = .waiting n w .nothing) (hdead : s.writer w = .dead) :
    Once (s.setCaller c (.looking m)) := by
  cases h
  constructor <;> simp only [setCaller, update_apply]
  case pending | begun | unexecuted => grind
  all_goals assumption

/-- A caller without a writer executes its request itself. -/
theorem Once.runDirect (he : s.caller c = .direct) : Once ((runDirect c).apply s) := by
  have hzero : s.executions c = 0 := h.unexecuted c (by simp [he, Caller.Fresh, Caller.Unsent])
  have hwaits := fun w d => h.caller_of_prepares (w := w) (c := d)
  cases h
  constructor <;> simp only [apply, setCaller, execute, update_apply]
  case unqueued | single | unique => assumption
  all_goals grind -linarith

/-- A writer takes a request out of its mailbox. -/
theorem Once.take {rest : List Message}
    (he : s.writer w = .serving) (hmailbox : s.mailbox w = .run c :: rest) :
    Once ((take w c rest).apply s) := by
  have hrest : .run c ∉ rest := by
    have := h.single w c (by simp [he, Writer.Live])
    rw [hmailbox, count_cons_self] at this
    exact count_eq_zero.mp (by omega)
  cases h
  constructor <;> simp only [apply, setWriter, setMailbox, update_apply]
  case unexecuted | bounded => assumption
  all_goals grind -linarith

/-- A request whose caller lives is not with a second writer. -/
theorem Once.approve (he : s.writer w = .taken c)
    (hcaller : s.caller c ≠ .dead) : Once ((approve w c).apply s) := by
  obtain ⟨n, hwaiting⟩ : ∃ n, s.caller c = .waiting n w .nothing := by
    have := h.pending w c (by simp [he, Writer.Live]) (.inr (.inl he))
    grind
  have hzero : s.executions c = 0 := h.unexecuted c (.inr ⟨n, w, hwaiting⟩)
  have hother : ∀ w', ¬ (s.writer w').Prepares c := by
    intro w' hw'
    have := h.caller_of_prepares hw'
    grind
  cases h
  constructor <;> simp only [apply, setWriter, update_apply]
  case unexecuted | bounded => assumption
  all_goals grind -linarith

/-- A caller hears that its request was started. -/
theorem Once.sendStarted (he : s.writer w = .approved c) : Once ((sendStarted w c).apply s) := by
  have hcaller := h.pending w c (by simp [he, Writer.Live]) (.inr (.inr he))
  have hqueued := h.unqueued w c (.inr (.inl he))
  have hzero := h.prepared w c (.inl he)
  cases h
  constructor <;>
    simp [apply, setWriter, reply, setCaller]
  case bounded => assumption
  all_goals grind -linarith [Caller.receive]

/-- A writer begins a request. -/
theorem Once.begin (he : s.writer w = .announced c) : Once ((begin w c).apply s) := by
  have hcaller := h.begun w c (.inl he)
  have hzero := h.prepared w c (.inr he)
  cases h
  constructor <;> simp only [apply, setWriter, execute, update_apply]
  all_goals grind -linarith

/-- A writer has executed a request. -/
theorem Once.finish (he : s.writer w = .running c) : Once ((finish w c).apply s) := by
  have hcaller := h.begun w c (.inr he)
  cases h
  constructor <;>
    simp [apply, setWriter, reply, setCaller]
  case bounded => assumption
  case unexecuted => grind [Caller.receive]
  all_goals grind -linarith [Caller.receive]

/-- What the invariant depends on. -/
theorem Once.of_eq (hcaller : s'.caller = s.caller)
    (hwriter : s'.writer = s.writer) (hmailbox : s'.mailbox = s.mailbox)
    (hexecutions : s'.executions = s.executions) : Once s' := by
  constructor <;> simp only [hcaller, hwriter, hmailbox, hexecutions]
  exacts [h.pending, h.begun, h.unqueued, h.single, h.unexecuted, h.prepared, h.unique, h.bounded]

/-- The requests in a mailbox stay the same. -/
theorem Once.setMailbox (w : Nat) (mailbox : List Message)
    (hcount : ∀ c, mailbox.count (.run c) = (s.mailbox w).count (.run c)) :
    Once (s.setMailbox w mailbox) := by
  have hmem : ∀ c, .run c ∈ mailbox ↔ .run c ∈ s.mailbox w := by
    intro c
    rw [← count_pos_iff, hcount, count_pos_iff]
  cases h
  constructor <;> simp only [Processes.setMailbox, update_apply]
  case pending | unqueued | single => grind
  all_goals assumption

end

/-- Every event keeps that a request is executed at most once. -/
theorem Once.step (hspawned : Spawned s) (h : Once s)
    (henabled : event.Enabled s) : Once (event.apply s) := by
  cases event with
  | call | lookOut | removeRow | announce =>
    exact h.move (by rw [henabled]; trivial) rfl rfl rfl rfl
  | lookFound | lookNone | checkAlive | checkDead | insertNew | insertLost | relookFound
  | relookNone => exact h.move (by rw [henabled.1]; trivial) rfl rfl rfl rfl
  | spawn c n w =>
    have hmove : Once (s.setCaller c (.inserting n w)) :=
      h.move (by rw [henabled.1]; trivial) rfl rfl rfl rfl
    exact hmove.stop (w := w) (by simp [Writer.Holds])
      (fun _ => .inr (hspawned.mailbox w henabled.2)) rfl rfl rfl rfl
  | killLoser c n w =>
    have hmove : Once (s.setCaller c (.relooking n)) :=
      h.move (by rw [henabled]; trivial) rfl rfl rfl rfl
    exact hmove.stop (w := w) (by simp [Writer.Holds]) (by simp [Writer.Live]) rfl rfl rfl rfl
  | sendRun c n w => exact h.sendRun henabled
  | receiveResult c n w => exact h.finishCaller (.inr ⟨rfl, n, w, .inl henabled⟩)
  | downStarted c n w => exact h.finishCaller (.inr ⟨rfl, n, w, .inr henabled⟩)
  | downRetry c n w => exact h.retry henabled.1 henabled.2
  | runDirect c => exact h.runDirect henabled
  | killCaller c => exact h.finishCaller (.inl rfl)
  | register w | idle w | refuse w =>
    exact h.stop (w := w) (by simp [Writer.Holds])
      (fun _ => .inl (by rw [henabled.1]; simp [Writer.Live])) rfl rfl rfl rfl
  | unregister w =>
    exact h.stop (w := w) (by simp [Writer.Holds])
      (fun _ => .inl (by rw [henabled]; simp [Writer.Live])) rfl rfl rfl rfl
  | unannounced w | guardKill w | exit w | killWriter w =>
    exact h.stop (w := w) (by simp [Writer.Holds]) (by simp [Writer.Live]) rfl rfl rfl rfl
  | take w c rest => exact h.take henabled.1 henabled.2
  | approve w c => exact h.approve henabled.1 henabled.2
  | sendStarted w c => exact h.sendStarted henabled
  | begin w c => exact h.begin henabled
  | finish w c => exact h.finish henabled
  | answerSync w a rest =>
    exact (h.setMailbox w rest (by simp [henabled.2])).of_eq rfl rfl rfl rfl
  | takeLate w c =>
    have hmem := mem_of_find?_eq_some henabled.2
    have hmailbox := h.setMailbox w ((s.mailbox w).erase (.run c) ++ [.run c])
      fun d => (perm_append_singleton (Message.run c) _ |>.trans
        (perm_cons_erase hmem).symm).count_eq (Message.run d)
    exact hmailbox.stop (w := w) (by simp [Writer.Holds])
      (fun _ => .inl (show (s.writer w).Live by rw [henabled.1]; simp [Writer.Live]))
      rfl rfl rfl rfl
  | sendSync a w =>
    exact (h.setMailbox w (s.mailbox w ++ [.sync a]) (by simp)).of_eq rfl rfl rfl rfl
  | await | awaitNone | awaitFound | awaitSynced | awaitDown | awaitTimeout =>
    exact h.of_eq rfl rfl rfl rfl

/-- A writer that serves requests or is at one. -/
def Writer.Active : Writer → Prop
  | .serving | .taken _ | .approved _ | .announced _ | .running _ | .expiring => True
  | _ => False

/-- The row names every writer that serves or may begin to. -/
structure Registered (s : Processes) : Prop where
  removing : ∀ c n w, s.caller c = .removing n w → s.writer w = .dead
  announcing : ∀ c n w, s.caller c = .announcing n w → s.writer w = .waiting → s.registry = some w
  told : ∀ w, s.writer w = .waiting → s.registered w = true → s.registry = some w
  active : ∀ w, (s.writer w).Active → s.registry = some w

/-- Every event but the taking of a late request keeps the row of the serving writer: only the row
of a dead writer is removed by another process. -/
theorem Registered.step (hspawned : Spawned s) (h : Registered s)
    (hlate : ∀ w c, event ≠ .takeLate w c) (henabled : event.Enabled s) :
    Registered (event.apply s) := by
  have hknown := hspawned.caller
  have hregistered := hspawned.registered
  obtain ⟨hremoving, hannouncing, htold, hactive⟩ := h
  cases event <;> simp only [Event.Enabled, Writer.Live] at henabled <;> constructor <;>
    simp only [apply, setCaller, setWriter, setAwaiter, setMailbox, send, deleteRow,
      execute, reply, replySynced, update_apply] <;>
    grind -linarith [Caller.known, Caller.receive_eq_removing_iff,
      Caller.receive_eq_announcing_iff, Writer.Active]

/-- A dead caller stays dead. -/
theorem Event.caller_dead (henabled : event.Enabled s)
    (hc : s.caller c = .dead) : (event.apply s).caller c = .dead := by
  cases event <;> simp only [Event.Enabled] at henabled <;>
    simp only [apply, setCaller, setWriter, setAwaiter, setMailbox, send, deleteRow,
      execute, reply, replySynced, update_apply] <;>
    grind -linarith [Caller.receive]

/-- A writer comes to hold only the request of a live caller. -/
theorem Event.holds (henabled : event.Enabled s)
    (hc : s.caller c = .dead) (hw : ((event.apply s).writer w).Holds c) : (s.writer w).Holds c := by
  cases event <;> simp only [Event.Enabled, Writer.Holds] at henabled <;>
    simp only [apply, setCaller, setWriter, setAwaiter, setMailbox, send, deleteRow,
      execute, reply, replySynced, update_apply] at hw <;>
    grind -linarith

/-- No writer but the one that an awaiter found holds a request of a caller that was dead when it
began, and none does once it has returned. -/
structure Awaited (s : Processes) : Prop where
  dead : ∀ a c, s.deadAt a c = true → s.caller c = .dead
  others : ∀ a w, (s.awaiter a).known = some w →
    ∀ c w', w' ≠ w → s.deadAt a c = true → ¬ (s.writer w').Holds c
  synced : ∀ a w, s.awaiter a = .awaiting w true →
    ∀ c, s.deadAt a c = true → ¬ (s.writer w).Holds c
  returned : ∀ a, s.awaiter a = .returned → ∀ c w, s.deadAt a c = true → ¬ (s.writer w).Holds c

/-- Awaiters that stay where they are. -/
theorem Awaited.keep (h : Awaited s) (henabled : event.Enabled s)
    (hawaiter : (event.apply s).awaiter = s.awaiter) (hdeadAt : (event.apply s).deadAt = s.deadAt) :
    Awaited (event.apply s) := by
  constructor <;> simp only [hawaiter, hdeadAt]
  case dead => exact fun a c hc => caller_dead henabled (h.dead a c hc)
  case others =>
    exact fun a w ha c w' hne hc hw =>
      h.others a w ha c w' hne hc (holds henabled (h.dead a c hc) hw)
  case synced =>
    exact fun a w ha c hc hw => h.synced a w ha c hc (holds henabled (h.dead a c hc) hw)
  case returned =>
    exact fun a ha c w hc hw => h.returned a ha c w hc (holds henabled (h.dead a c hc) hw)

/-- An awaiter begins: the callers that are dead now are dead. -/
theorem Awaited.await {a : Nat} (h : Awaited s) : Awaited ((await a).apply s) := by
  obtain ⟨hdead, hothers, hsynced, hreturned⟩ := h
  constructor <;> simp only [apply, setAwaiter, update_apply]
  case dead =>
    intro b c hc
    split at hc
    case isTrue => exact of_decide_eq_true hc
    case isFalse => exact hdead b c hc
  case others => grind [Awaiter.known]
  case synced => grind
  case returned => grind

/-- Every event keeps what awaiters wait for, while the row names the writer that serves. -/
theorem Awaited.step (hregistered : Registered s) (h : Awaited s)
    (henabled : event.Enabled s) : Awaited (event.apply s) := by
  have hactive := hregistered.active
  cases event
  case await a => exact h.await
  all_goals try exact Awaited.keep h henabled rfl rfl
  -- what is left are the steps of an awaiter and the answer to one
  all_goals
    obtain ⟨hdead, hothers, hsynced, hreturned⟩ := h
    simp only [Event.Enabled] at henabled
    simp only [apply, setAwaiter, setMailbox, send, replySynced]
    constructor <;> simp only [update_apply] <;>
      grind -linarith [Awaiter.known_receive, Awaiter.known, Writer.Active, Awaiter.receive]

/-- What every reached state has while no writer takes a late request. -/
structure Safe (s : Processes) : Prop where
  spawned : Spawned s
  once : Once s
  registered : Registered s
  awaited : Awaited s

/-- Nothing has happened yet. -/
theorem safe_start : Safe start where
  spawned := by constructor <;> simp [start, Caller.known, Awaiter.known]
  once := by constructor <;> simp [start, Writer.Live, Writer.Holds, Writer.Prepares]
  registered := by constructor <;> simp [start, Writer.Active]
  awaited := by constructor <;> simp [start, Awaiter.known]

/-- An event keeps the invariant unless a late request is taken. -/
theorem Safe.step (s : Processes) (event : Event) (h : Safe s)
    (hlate : ∀ w c, event ≠ .takeLate w c) (henabled : event.Enabled s) : Safe (event.apply s) where
  spawned := h.spawned.step henabled
  once := h.once.step h.spawned henabled
  registered := h.registered.step h.spawned hlate henabled
  awaited := h.awaited.step h.registered henabled

/-- In every run, late requests included, a request is executed at most once. -/
theorem executions_le_one {events : List Event}
    (hrun : run start events = some s) (c : Nat) : s.executions c ≤ 1 := by
  have h : Spawned s ∧ Once s :=
    run_preserves (P := fun t => Spawned t ∧ Once t) (Q := fun _ => True)
      (fun s event h _ henabled => ⟨h.1.step henabled, h.2.step h.1 henabled⟩) hrun
      (fun _ _ => trivial) ⟨safe_start.spawned, safe_start.once⟩
  exact h.2.bounded c

/-- A request that no writer holds and whose caller is dead is not executed by any step. -/
theorem Event.executions_eq (henabled : event.Enabled s)
    (hdead : s.caller c = .dead) (hholds : ∀ w, ¬ (s.writer w).Holds c) :
    (event.apply s).executions c = s.executions c := by
  cases event
  case runDirect d =>
    have hne : c ≠ d := fun heq => by simp [← heq, Event.Enabled, hdead] at henabled
    exact update_of_ne hne _ _
  case begin w d =>
    have hne : c ≠ d := fun heq => hholds w (heq ▸ .inr (.inl henabled))
    exact update_of_ne hne _ _
  all_goals rfl

/-- The segment writer keeps its promises in every run in which no writer takes a late request: a
request is executed at most once, one writer at a time executes a request, and after
`await_segment_writer_idle` no request of a caller that was dead at its call is executing or is ever
executed again. -/
theorem writer_keeps_promises {events later : List Event} {s s' : Processes}
    (hrun : run Processes.start events = some s) (hlater : run s later = some s')
    (hlate : ∀ w c, takeLate w c ∉ events ++ later) :
    (∀ c, s.executions c ≤ 1) ∧
      (∀ w w' c c', s.writer w = .running c → s.writer w' = .running c' → w = w') ∧
      ∀ a c, s.awaiter a = .returned → s.deadAt a c = true →
        (∀ w, s.writer w ≠ .running c) ∧ s'.executions c = s.executions c := by
  have hquiet : ∀ event ∈ events, ∀ w c, event ≠ .takeLate w c := fun event he w c heq =>
    hlate w c (mem_append_left _ (heq ▸ he))
  have hsafe : Safe s := run_preserves Safe.step hrun hquiet safe_start
  refine ⟨hsafe.once.bounded, fun w w' c c' hw hw' => ?_, fun a c ha hc => ⟨fun w hw => ?_, ?_⟩⟩
  · -- both are the writer of the row
    have hrow := hsafe.registered.active w (by rw [hw]; trivial)
    have hrow' := hsafe.registered.active w' (by rw [hw']; trivial)
    exact Option.some.inj (hrow.symm.trans hrow')
  · exact hsafe.awaited.returned a ha c w hc (.inr (.inr hw))
  · have h : s'.caller c = .dead ∧ (∀ w, ¬ (s'.writer w).Holds c) ∧
        s'.executions c = s.executions c := by
      refine run_preserves (Q := fun _ => True) (P := fun t => t.caller c = .dead ∧
        (∀ w, ¬ (t.writer w).Holds c) ∧ t.executions c = s.executions c) ?_ hlater
        (fun _ _ => trivial)
        ⟨hsafe.awaited.dead a c hc, fun w => hsafe.awaited.returned a ha c w hc, rfl⟩
      intro t event ⟨hdead, hholds, hexecutions⟩ _ henabled
      exact ⟨caller_dead henabled hdead,
        fun w hw => hholds w (holds henabled hdead hw),
        (executions_eq henabled hdead hholds).trans hexecutions⟩
    exact h.2.2

/-- A caller starts a writer and has its request executed; an awaiter then finds the writer idle. -/
def quietEvents : List Event :=
  [.call 0, .lookNone 0 1, .spawn 0 2 10, .insertNew 0 2 10, .announce 0 2 10, .register 10,
    .sendRun 0 2 10, .take 10 0 [], .approve 10 0, .sendStarted 10 0, .begin 10 0, .killCaller 0,
    .await 0, .awaitFound 0 10, .sendSync 0 10, .guardKill 10 0, .awaitDown 0 10]

/-- A writer leaves while a caller has found it, takes that caller's request late and executes it
without a row; an awaiter finds no row although the caller is dead, and a second caller starts a
second writer. -/
def lateEvents : List Event :=
  [.call 0, .lookNone 0 1, .spawn 0 2 10, .insertNew 0 2 10, .announce 0 2 10, .register 10,
    .idle 10, .unregister 10, .sendRun 0 2 10, .takeLate 10 0, .take 10 0 [], .approve 10 0,
    .sendStarted 10 0, .begin 10 0, .killCaller 0, .await 0, .awaitNone 0, .call 1, .lookNone 1 1,
    .spawn 1 2 11, .insertNew 1 2 11, .announce 1 2 11, .register 11, .sendRun 1 2 11,
    .take 11 1 [], .approve 11 1, .sendStarted 11 1, .begin 11 1]

/-- The promises hold after a run in which the awaited caller was killed with its request. -/
theorem writer_keeps_promises_killed :
    ∃ s, run Processes.start quietEvents = some s ∧ s.awaiter 0 = .returned ∧
      s.deadAt 0 0 = true ∧ s.executions 0 = 1 ∧ ∀ w, s.writer w ≠ .running 0 := by
  have hsome : (run start quietEvents).isSome := by decide +kernel
  obtain ⟨s, hs⟩ := Option.isSome_iff_exists.mp hsome
  have hobserved : (run start quietEvents).map
      (fun s => (s.awaiter 0, s.deadAt 0 0, s.executions 0)) = some (.returned, true, 1) := by
    decide +kernel
  rw [hs, Option.map_some, Option.some_inj, Prod.mk.injEq, Prod.mk.injEq] at hobserved
  have hlate : ∀ w c, takeLate w c ∉ quietEvents ++ [] := by simp [quietEvents]
  have h := writer_keeps_promises hs (show run s [] = some s from rfl) hlate
  exact ⟨s, hs, hobserved.1, hobserved.2.1, hobserved.2.2, (h.2.2 0 0 hobserved.1 hobserved.2.1).1⟩

/-- After a late request two writers execute at once, and an awaiter has returned while the request
of a caller that was dead at its call is executing. -/
theorem late_request_breaks_promises : (run Processes.start lateEvents).map
      (fun s => (s.writer 10, s.writer 11, s.awaiter 0, s.deadAt 0 0)) =
      some (.running 0, .running 1, .returned, true) := by
  decide +kernel

/-- The two requests of the late run. -/
theorem executions_le_one_late :
    ∃ s, run Processes.start lateEvents = some s ∧ ∀ c, s.executions c ≤ 1 := by
  have hsome : (run start lateEvents).isSome := by decide +kernel
  obtain ⟨s, hs⟩ := Option.isSome_iff_exists.mp hsome
  exact ⟨s, hs, executions_le_one hs⟩

end FerricStore.SegmentLog
