import Mathlib

/-!
# The segment writer of a directory

Appends of a directory run in a writer process that callers find through a registry row. This
module is the protocol between callers, writers and `await_segment_writer_idle`, one event for each
send, receive, registry read, insert or delete, and kill. An event says which process takes which
branch; `Enabled` is when it can happen and `apply` what it does. A caller makes one request, so a
request is named by its caller. What a caller has received of its writer is part of its phase
(`Reply`), because a writer's messages arrive before the notice of its death.
-/

namespace FerricStore.SegmentLog

/-- What a caller has received from the writer that it waits for. -/
inductive Reply where
  | nothing
  | started
  | result
  deriving DecidableEq, Repr

/-- Where a caller is in `run_in_segment_writer`; `attempts` counts the writers it may still try. -/
inductive Caller where
  | idle
  | looking (attempts : Nat)
  | checking (attempts writer : Nat)
  | removing (attempts writer : Nat)
  | starting (attempts : Nat)
  | inserting (attempts writer : Nat)
  | losing (attempts writer : Nat)
  | relooking (attempts : Nat)
  | announcing (attempts writer : Nat)
  | sending (attempts writer : Nat)
  | waiting (attempts writer : Nat) (reply : Reply)
  | direct
  | done
  | dead
  deriving DecidableEq, Repr

/-- Where a writer process is: in `segment_writer_loop` (`waiting`), in `segment_writer_serve`, or
with the request of a caller. -/
inductive Writer where
  | absent
  | waiting
  | serving
  | taken (caller : Nat)
  | approved (caller : Nat)
  | announced (caller : Nat)
  | running (caller : Nat)
  | expiring
  | leaving
  | dead
  deriving DecidableEq, Repr

/-- A message to a writer. -/
inductive Message where
  | run (caller : Nat)
  | sync (awaiter : Nat)
  deriving DecidableEq, Repr

/-- A request, the one kind of message that a leaving writer still looks for. -/
def Message.isRun : Message → Bool
  | .run _ => true
  | .sync _ => false

/-- Where a call of `await_segment_writer_idle` is. -/
inductive Awaiter where
  | idle
  | called
  | asking (writer : Nat)
  | awaiting (writer : Nat) (synced : Bool)
  | returned
  | failed
  deriving DecidableEq, Repr

/-- A message of a writer reaches a caller that waits for that writer. -/
def Caller.receive (w : Nat) (reply : Reply) : Caller → Caller
  | .waiting attempts writer old =>
    if writer = w then .waiting attempts writer reply else .waiting attempts writer old
  | caller => caller

/-- The answer of a writer reaches an awaiter that waits for that writer. -/
def Awaiter.receive (w : Nat) : Awaiter → Awaiter
  | .awaiting writer synced => .awaiting writer (synced || decide (writer = w))
  | awaiter => awaiter

/-- All processes of a directory, its registry row, how often each request was executed, and the
callers that were dead when a call of `await_segment_writer_idle` began. -/
structure Processes where
  registry : Option Nat
  caller : Nat → Caller
  writer : Nat → Writer
  registered : Nat → Bool
  mailbox : Nat → List Message
  executions : Nat → Nat
  awaiter : Nat → Awaiter
  deadAt : Nat → Nat → Bool

namespace Processes

/-- No process has started. -/
def start : Processes where
  registry := none
  caller _ := .idle
  writer _ := .absent
  registered _ := false
  mailbox _ := []
  executions _ := 0
  awaiter _ := .idle
  deadAt _ _ := false

variable (s : Processes)

/-- A caller moves on. -/
def setCaller (c : Nat) (caller : Caller) : Processes :=
  { s with caller := Function.update s.caller c caller }

/-- A writer moves on. -/
def setWriter (w : Nat) (writer : Writer) : Processes :=
  { s with writer := Function.update s.writer w writer }

/-- An awaiter moves on. -/
def setAwaiter (a : Nat) (awaiter : Awaiter) : Processes :=
  { s with awaiter := Function.update s.awaiter a awaiter }

/-- The messages of a writer change. -/
def setMailbox (w : Nat) (mailbox : List Message) : Processes :=
  { s with mailbox := Function.update s.mailbox w mailbox }

/-- A message to a writer; one to a dead writer is never received. -/
def send (w : Nat) (message : Message) : Processes :=
  s.setMailbox w (s.mailbox w ++ [message])

/-- `safe_delete_writer_object`: deletes the row of one writer only. -/
def deleteRow (w : Nat) : Processes :=
  { s with registry := if s.registry = some w then none else s.registry }

/-- A request is executed. -/
def execute (c : Nat) : Processes :=
  { s with executions := Function.update s.executions c (s.executions c + 1) }

/-- A writer's message to the caller of a request. -/
def reply (s : Processes) (c w : Nat) (reply : Reply) : Processes :=
  s.setCaller c ((s.caller c).receive w reply)

/-- A writer's answer to a `segment_writer_sync`. -/
def replySynced (a w : Nat) : Processes :=
  s.setAwaiter a ((s.awaiter a).receive w)

end Processes

/-- One step of one process. -/
inductive Event where
  | call (c : Nat)
  | lookFound (c n w : Nat)
  | lookNone (c n : Nat)
  | lookOut (c : Nat)
  | checkAlive (c n w : Nat)
  | checkDead (c n w : Nat)
  | removeRow (c n w : Nat)
  | spawn (c n w : Nat)
  | insertNew (c n w : Nat)
  | insertLost (c n w : Nat)
  | killLoser (c n w : Nat)
  | relookFound (c n w : Nat)
  | relookNone (c n : Nat)
  | announce (c n w : Nat)
  | sendRun (c n w : Nat)
  | receiveResult (c n w : Nat)
  | downStarted (c n w : Nat)
  | downRetry (c n w : Nat)
  | runDirect (c : Nat)
  | killCaller (c : Nat)
  | register (w : Nat)
  | unannounced (w : Nat)
  | take (w c : Nat) (rest : List Message)
  | approve (w c : Nat)
  | refuse (w c : Nat)
  | sendStarted (w c : Nat)
  | begin (w c : Nat)
  | finish (w c : Nat)
  | guardKill (w c : Nat)
  | answerSync (w a : Nat) (rest : List Message)
  | idle (w : Nat)
  | unregister (w : Nat)
  | exit (w : Nat)
  | takeLate (w c : Nat)
  | killWriter (w : Nat)
  | await (a : Nat)
  | awaitNone (a : Nat)
  | awaitFound (a w : Nat)
  | sendSync (a w : Nat)
  | awaitSynced (a w : Nat)
  | awaitDown (a w : Nat)
  | awaitTimeout (a w : Nat)
  deriving DecidableEq, Repr

namespace Writer

/-- The writer holds a request that it will execute or is executing. -/
def Holds (writer : Writer) (c : Nat) : Prop :=
  writer = .approved c ∨ writer = .announced c ∨ writer = .running c

instance (writer : Writer) (c : Nat) : Decidable (writer.Holds c) :=
  inferInstanceAs (Decidable (_ ∨ _))

/-- The writer process exists. -/
def Live (writer : Writer) : Prop := writer ≠ .absent ∧ writer ≠ .dead

instance (writer : Writer) : Decidable writer.Live := inferInstanceAs (Decidable (_ ∧ _))

end Writer

namespace Event

/-- When a step can be taken. -/
def Enabled (s : Processes) : Event → Prop
  | .call c => s.caller c = .idle
  -- `segment_writer_pid`
  | .lookFound c n w => s.caller c = .looking (n + 1) ∧ s.registry = some w
  | .lookNone c n => s.caller c = .looking (n + 1) ∧ s.registry = none
  | .lookOut c => s.caller c = .looking 0
  | .checkAlive c n w => s.caller c = .checking n w ∧ (s.writer w).Live
  | .checkDead c n w => s.caller c = .checking n w ∧ ¬ (s.writer w).Live
  | .removeRow c n w => s.caller c = .removing n w
  -- `start_segment_writer`
  | .spawn c n w => s.caller c = .starting n ∧ s.writer w = .absent
  | .insertNew c n w => s.caller c = .inserting n w ∧ s.registry = none
  | .insertLost c n w => s.caller c = .inserting n w ∧ s.registry ≠ none
  | .killLoser c n w => s.caller c = .losing n w
  | .relookFound c n w => s.caller c = .relooking n ∧ s.registry = some w
  | .relookNone c n => s.caller c = .relooking n ∧ s.registry = none
  | .announce c n w => s.caller c = .announcing n w
  -- `await_segment_writer`
  | .sendRun c n w => s.caller c = .sending n w
  | .receiveResult c n w => s.caller c = .waiting n w .result
  | .downStarted c n w => s.caller c = .waiting n w .started ∧ s.writer w = .dead
  | .downRetry c n w => s.caller c = .waiting n w .nothing ∧ s.writer w = .dead
  | .runDirect c => s.caller c = .direct
  | .killCaller c => s.caller c ≠ .dead
  -- `segment_writer_loop` and `segment_writer_serve`
  | .register w => s.writer w = .waiting ∧ s.registered w = true
  | .unannounced w => s.writer w = .waiting ∧ s.registered w = false
  | .take w c rest => s.writer w = .serving ∧ s.mailbox w = .run c :: rest
  | .approve w c => s.writer w = .taken c ∧ s.caller c ≠ .dead
  | .refuse w c => s.writer w = .taken c ∧ s.caller c = .dead
  | .sendStarted w c => s.writer w = .approved c
  | .begin w c => s.writer w = .announced c
  | .finish w c => s.writer w = .running c
  | .guardKill w c => (s.writer w).Holds c ∧ s.caller c = .dead
  | .answerSync w a rest => s.writer w = .serving ∧ s.mailbox w = .sync a :: rest
  | .idle w => s.writer w = .serving ∧ s.mailbox w = []
  | .unregister w => s.writer w = .expiring
  | .exit w => s.writer w = .leaving ∧ (s.mailbox w).find? Message.isRun = none
  | .takeLate w c => s.writer w = .leaving ∧ (s.mailbox w).find? Message.isRun = some (.run c)
  | .killWriter w => (s.writer w).Live
  -- `await_segment_writer_idle`
  | .await a => s.awaiter a = .idle
  | .awaitNone a => s.awaiter a = .called ∧ s.registry = none
  | .awaitFound a w => s.awaiter a = .called ∧ s.registry = some w
  | .sendSync a w => s.awaiter a = .asking w
  | .awaitSynced a w => s.awaiter a = .awaiting w true
  | .awaitDown a w => (∃ synced, s.awaiter a = .awaiting w synced) ∧ s.writer w = .dead
  | .awaitTimeout a w => s.awaiter a = .awaiting w false

/-- What a step does. -/
def apply (s : Processes) : Event → Processes
  | .call c => s.setCaller c (.looking 2)
  | .lookFound c n w => s.setCaller c (.checking (n + 1) w)
  | .lookNone c n => s.setCaller c (.starting (n + 1))
  | .lookOut c => s.setCaller c .direct
  | .checkAlive c n w => s.setCaller c (.sending n w)
  | .checkDead c n w => s.setCaller c (.removing n w)
  | .removeRow c n w => (s.deleteRow w).setCaller c (.starting n)
  | .spawn c n w => (s.setWriter w .waiting).setCaller c (.inserting n w)
  | .insertNew c n w => { s with registry := some w }.setCaller c (.announcing n w)
  | .insertLost c n w => s.setCaller c (.losing n w)
  | .killLoser c n w => (s.setWriter w .dead).setCaller c (.relooking n)
  | .relookFound c n w => s.setCaller c (.sending n w)
  | .relookNone c _ => s.setCaller c .direct
  | .announce c n w =>
    { s with registered := Function.update s.registered w true }.setCaller c (.sending n w)
  | .sendRun c n w => (s.send w (.run c)).setCaller c (.waiting n w .nothing)
  | .receiveResult c _ _ => s.setCaller c .done
  -- the write may have been applied in part and is never replayed
  | .downStarted c _ _ => s.setCaller c .done
  | .downRetry c n _ => s.setCaller c (.looking (n - 1))
  | .runDirect c => (s.execute c).setCaller c .done
  | .killCaller c => s.setCaller c .dead
  | .register w => s.setWriter w .serving
  | .unannounced w => s.setWriter w .dead
  | .take w c rest => (s.setMailbox w rest).setWriter w (.taken c)
  | .approve w c => s.setWriter w (.approved c)
  | .refuse w _ => s.setWriter w .serving
  | .sendStarted w c => (s.reply c w .started).setWriter w (.announced c)
  | .begin w c => (s.execute c).setWriter w (.running c)
  | .finish w c => (s.reply c w .result).setWriter w .serving
  | .guardKill w _ => s.setWriter w .dead
  | .answerSync w a rest => (s.replySynced a w).setMailbox w rest
  | .idle w => s.setWriter w .expiring
  | .unregister w => (s.deleteRow w).setWriter w .leaving
  | .exit w => s.setWriter w .dead
  -- the late request is sent again to the writer itself
  | .takeLate w c =>
    (s.setMailbox w ((s.mailbox w).erase (.run c) ++ [.run c])).setWriter w .serving
  | .killWriter w => s.setWriter w .dead
  | .await a =>
    { s with deadAt := Function.update s.deadAt a fun c => decide (s.caller c = Caller.dead)
      }.setAwaiter a .called
  | .awaitNone a => s.setAwaiter a .returned
  | .awaitFound a w => s.setAwaiter a (.asking w)
  | .sendSync a w => (s.send w (.sync a)).setAwaiter a (.awaiting w false)
  | .awaitSynced a _ => s.setAwaiter a .returned
  | .awaitDown a _ => s.setAwaiter a .returned
  | .awaitTimeout a _ => s.setAwaiter a .failed

instance (s : Processes) (event : Event) : Decidable (event.Enabled s) := by
  cases event <;> unfold Enabled <;> infer_instance

end Event

/-- The state after a list of events, if each can be taken in its turn. -/
def run (s : Processes) : List Event → Option Processes
  | [] => some s
  | event :: events => if event.Enabled s then run (event.apply s) events else none

/-- What each taken event keeps, the whole run keeps. -/
theorem run_preserves {P : Processes → Prop} {Q : Event → Prop}
    (hstep : ∀ s event, P s → Q event → event.Enabled s → P (event.apply s))
    {s s' : Processes} {events : List Event} (hrun : run s events = some s')
    (hevents : ∀ event ∈ events, Q event) (hs : P s) : P s' := by
  induction events generalizing s with
  | nil => exact Option.some.inj hrun ▸ hs
  | cons event events ih =>
    rw [run] at hrun
    split at hrun
    case isTrue henabled =>
      exact ih hrun (fun e he => hevents e (List.mem_cons_of_mem event he))
        (hstep s event hs (hevents event List.mem_cons_self) henabled)
    case isFalse => cases hrun

end FerricStore.SegmentLog
