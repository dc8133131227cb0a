import Mathlib.Algebra.Ring.Nat
import Mathlib.Data.List.Basic

namespace BoarOS.Wait

/-! # Wait tokens on several processors (`kernel/sched/park.c`)

One task prepares, parks and finishes; any number of notifiers hold tokens. A section under the wait domain is one
step, cut at every access to the packed word, where a notifier without the domain may come with its one
compare-exchange. `lock` is the holder of a section that has been cut. -/

inductive WaitPhase where
  | finished
  | prepared
  | committed
  | notified
deriving DecidableEq

def WaitPhase.code : WaitPhase → Nat
  | .finished => 0
  | .prepared => 1
  | .committed => 2
  | .notified => 3

def kernelWaitWoken : Nat := 0
def kernelWaitTimeout : Nat := 1
def kernelWaitSignalled : Nat := 2
def kernelWaitGenerationMax : Nat := 2 ^ 60 - 1

structure Word where
  generation : Nat
  phase : WaitPhase
  reason : Nat
deriving DecidableEq

def Word.pack (word : Word) : Nat := word.generation * 16 + word.reason * 4 + word.phase.code

structure WaitNode where
  byDefault : Bool
  registered : Bool
  references : Nat
deriving DecidableEq

inductive Owner where
  | idle
  | running
  /-- In `kernel_wait_park`, about to notify itself. -/
  | parkSelf (reason : Nat)
  | parkSelfCas (reason : Nat)
  | parkRead
  | parkCommit
  /-- Committed and still on its processor. -/
  | switching
  | offCpu
  | resumed
deriving DecidableEq

inductive Notifier where
  | idle
  /-- Waiting for the domain after the fast path. -/
  | slow (generation reason : Nat)
  | slowCas (generation reason : Nat)
deriving DecidableEq

inductive Holder where
  | owner
  | notifier (n : Nat)
deriving DecidableEq

/-- `effects` has the notifications that took effect, `returns` the results of park, both with their generation
and newest first; `commits` and `readies` count `kernel_wait_backend_commit` and `kernel_wait_backend_ready`. -/
structure State where
  word : Word
  waitGeneration : Nat
  token : Nat
  owner : Owner
  notifiers : Nat → Notifier
  lock : Option Holder
  onCpu : Bool
  readyPending : Bool
  ready : Bool
  nodes : List WaitNode
  borrows : Nat
  pins : Nat
  effects : List (Nat × Nat)
  returns : List (Nat × Nat)
  commits : Nat
  readies : Nat

def State.initial : State :=
  { word := ⟨0, .finished, 0⟩, waitGeneration := 0, token := 0, owner := .idle, notifiers := fun _ => .idle, lock := none
    onCpu := true, readyPending := false, ready := false, nodes := [], borrows := 0, pins := 0, effects := []
    returns := [], commits := 0, readies := 0 }

inductive Step where
  | prepare (queue : Bool)
  | bind (closed : Bool)
  | park (signalled expired : Bool)
  | parkSelf
  | parkSelfCas
  | parkRead
  | parkCommit
  | switchFinish
  | dispatch
  | parkResume
  | finish
  /-- The compare-exchange of `kernel_wait_notify`. -/
  | notify (n generation reason : Nat)
  /-- `kernel_wait_notify_locked` by a caller that holds the domain. -/
  | notifyLocked (n generation reason : Nat)
  | slow (n : Nat)
  | slowCas (n : Nat)
  | borrow (i : Nat)
  | put (i : Nat)
  | pin
  | unpin
  /-- Another task prepares. -/
  | otherPrepare

namespace State

def tokenMatches (s : State) (generation : Nat) : Bool :=
  generation ≠ 0 && s.word.generation == generation && s.word.phase ≠ .finished

def expected (generation : Nat) : Word := ⟨generation, .prepared, kernelWaitWoken⟩

def publish (s : State) (generation reason : Nat) : State :=
  { s with word := ⟨generation, .notified, reason⟩, effects := (generation, reason) :: s.effects }

/-- The branch of `kernel_wait_notify_locked` for a committed task, with `kernel_wait_backend_notify`. -/
def notifyCommitted (s : State) (generation reason : Nat) : State :=
  let quiet : State := { s with
    nodes := s.nodes.map fun node => if node.byDefault then { node with registered := false } else node }
  let woken : State := if s.onCpu then { quiet with readyPending := true }
    else { quiet with ready := true, readies := s.readies + 1 }
  woken.publish generation reason

inductive Outcome where
  | done (s : State)
  | exchange (s : State)

/-- `kernel_wait_notify_locked` up to its compare-exchange, if it comes to that. -/
def notifyRead (s : State) (generation reason : Nat) : Outcome :=
  if s.tokenMatches generation = false then .done s
  else match s.word.phase with
    | .notified => .done s
    | .prepared => .exchange s
    | .committed => .done (s.notifyCommitted generation reason)
    | .finished => .done s

/-- The compare-exchange of `kernel_wait_notify_locked`; no result is its trap. -/
def notifyCas (s : State) (generation reason : Nat) : Option State :=
  if s.word.pack = (expected generation).pack then some (s.publish generation reason)
  else if s.word.generation ≠ generation ∨ s.word.phase ≠ .notified then none
  else some s

/-- At most sixteen nodes leave `record->nodes`; the first that is borrowed stops the loop. -/
def dropNodes : Nat → List WaitNode → List WaitNode
  | 0, nodes => nodes
  | _ + 1, [] => []
  | count + 1, node :: rest =>
    if node.references ≠ 0 then { node with registered := false } :: rest else dropNodes count rest

def setNotifier (s : State) (n : Nat) (notifier : Notifier) : State :=
  { s with notifiers := Function.update s.notifiers n notifier }

def parkReturns (s : State) : State :=
  { s with owner := .running, lock := none, returns := (s.token, s.word.reason) :: s.returns }

def lockedNotify (s : State) (n generation reason : Nat) : State :=
  match s.notifyRead generation reason with
  | .done after => after.setNotifier n .idle
  | .exchange after => { after.setNotifier n (.slowCas generation reason) with lock := some (.notifier n) }

/-- One step: `none` if it does not apply, `some none` if it traps. -/
def step (s : State) : Step → Option (Option State)
  | .prepare queue =>
    if s.owner ≠ .idle ∨ s.lock ≠ none then none
    else if s.word.phase ≠ .finished ∨ s.nodes ≠ [] ∨ s.borrows ≠ 0 then some none
    else if s.word.generation = kernelWaitGenerationMax ∨ s.waitGeneration = kernelWaitGenerationMax then some (some s)
    else some (some { s with
      waitGeneration := s.waitGeneration + 1, word := ⟨s.waitGeneration + 1, .prepared, kernelWaitWoken⟩
      token := s.waitGeneration + 1, owner := .running, nodes := if queue then [⟨true, true, 0⟩] else [] })
  | .bind closed =>
    if s.owner ≠ .running ∨ s.lock ≠ none then none
    else if closed ∨ s.tokenMatches s.token = false then some (some s)
    else some (some { s with nodes := ⟨false, true, 0⟩ :: s.nodes })
  | .park signalled expired =>
    if s.owner ≠ .running ∨ s.lock ≠ none then none
    else if s.tokenMatches s.token = false then some (some s)
    else if s.word.phase = .prepared then
      if signalled then some (some { s with owner := .parkSelf kernelWaitSignalled, lock := some .owner })
      else if expired then some (some { s with owner := .parkSelf kernelWaitTimeout, lock := some .owner })
      else some (some { s with owner := .parkRead, lock := some .owner })
    else some (some { s with owner := .parkRead, lock := some .owner })
  | .parkSelf =>
    match s.owner with
    | .parkSelf reason => match s.notifyRead s.token reason with
      | .done after => some (some { after with owner := .parkRead })
      | .exchange after => some (some { after with owner := .parkSelfCas reason })
    | _ => none
  | .parkSelfCas =>
    match s.owner with
    | .parkSelfCas reason => some ((s.notifyCas s.token reason).map fun after => { after with owner := .parkRead })
    | _ => none
  | .parkRead =>
    if s.owner ≠ .parkRead then none
    else match s.word.phase with
      | .notified => some (some s.parkReturns)
      | .prepared => some (some { s with owner := .parkCommit })
      | _ => some none
  | .parkCommit =>
    if s.owner ≠ .parkCommit then none
    else if s.word.pack = (expected s.token).pack then
      some (some { s with
        word := ⟨s.token, .committed, kernelWaitWoken⟩, owner := .switching, lock := none, commits := s.commits + 1 })
    else if s.word.generation ≠ s.token ∨ s.word.phase ≠ .notified then some none
    else some (some s.parkReturns)
  | .switchFinish =>
    if s.owner ≠ .switching ∨ s.lock ≠ none then none
    else if s.onCpu = false then some none
    else
      let away : State := { s with onCpu := false, owner := .offCpu }
      some (some (if s.readyPending then { away with readyPending := false, ready := true, readies := s.readies + 1 } else away))
  | .dispatch =>
    if s.owner ≠ .offCpu ∨ s.lock ≠ none ∨ s.ready = false then none
    else some (some { s with ready := false, onCpu := true, owner := .resumed })
  | .parkResume =>
    if s.owner ≠ .resumed then none
    else if s.word.phase ≠ .notified ∨ s.onCpu = false then some none
    else some (some { s with owner := .running, returns := (s.token, s.word.reason) :: s.returns })
  | .finish =>
    if s.owner ≠ .running ∨ s.lock ≠ none then none
    else if s.tokenMatches s.token = false then some (some s)
    else if s.word.phase = .committed then some none
    else
      let nodes := dropNodes 16 s.nodes
      if nodes = [] ∧ s.borrows = 0 then
        some (some { s with
          nodes := [], word := ⟨s.token, .finished, kernelWaitWoken⟩, token := 0, owner := .idle })
      else some (some { s with nodes := nodes })
  | .notify n generation reason =>
    if s.notifiers n ≠ .idle ∨ reason > kernelWaitSignalled then none
    else if generation ≠ 0 ∧ generation ≤ kernelWaitGenerationMax then
      if s.word.pack = (expected generation).pack then some (some (s.publish generation reason))
      else if s.word.generation ≠ generation ∨ s.word.phase = .finished ∨ s.word.phase = .notified then some (some s)
      else some (some (s.setNotifier n (.slow generation reason)))
    else some (some (s.setNotifier n (.slow generation reason)))
  | .notifyLocked n generation reason =>
    if s.notifiers n ≠ .idle ∨ s.lock ≠ none ∨ reason > kernelWaitSignalled then none
    else some (some (s.lockedNotify n generation reason))
  | .slow n =>
    match s.notifiers n with
    | .slow generation reason => if s.lock ≠ none then none else some (some (s.lockedNotify n generation reason))
    | _ => none
  | .slowCas n =>
    match s.notifiers n with
    | .slowCas generation reason => some ((s.notifyCas generation reason).map fun after =>
      { after.setNotifier n .idle with lock := none })
    | _ => none
  | .borrow i =>
    match s.nodes[i]? with
    | some node =>
      if s.lock ≠ none ∨ node.registered = false then none
      else some (some { s with
        nodes := s.nodes.set i { node with references := node.references + 1 }, borrows := s.borrows + 1 })
    | none => none
  | .put i =>
    match s.nodes[i]? with
    | some node =>
      if s.lock ≠ none ∨ node.references = 0 then none
      else some (some { s with
        nodes := s.nodes.set i { node with references := node.references - 1 }, borrows := s.borrows - 1 })
    | none => none
  | .pin =>
    if s.lock ≠ none ∨ s.word.phase = .finished then none
    else some (some { s with borrows := s.borrows + 1, pins := s.pins + 1 })
  | .unpin =>
    if s.lock ≠ none ∨ s.pins = 0 then none
    else some (some { s with borrows := s.borrows - 1, pins := s.pins - 1 })
  | .otherPrepare =>
    if s.lock ≠ none ∨ s.waitGeneration = kernelWaitGenerationMax then none
    else some (some { s with waitGeneration := s.waitGeneration + 1 })

inductive Reachable : State → Prop where
  | initial : Reachable State.initial
  | step {s after : State} {step : Step} : Reachable s → s.step step = some (some after) → Reachable after

end State
end BoarOS.Wait
