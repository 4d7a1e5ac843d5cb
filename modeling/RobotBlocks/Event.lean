import RobotBlocks.Block.State

/-! Events. Every effect of a graph edit is recorded as one event; the event keeps the kind of
its block, so that it can be handled after the block is gone. -/
namespace RobotBlocks

/-- A parameter of an edited list and the name it had before the edit, absent when it is new. -/
structure ParamChange where
  param : Parameter
  previous : Option String
  deriving DecidableEq, Repr

/-- A parameter that keeps its name. -/
def ParamChange.kept (param : Parameter) : ParamChange := ⟨param, some param.name⟩

inductive EventKind where
  | create
  | delete
  | change
  | move
  | finishedLoading
  | ui
  deriving DecidableEq, Repr

/-- What happened. -/
inductive Payload where
  | created
  | deleted
  | fieldChanged (field : String) (old : Option String) (new : String)
  /-- The extra state was replaced. -/
  | extraChanged
  /-- The parameters of a declaration were edited. -/
  | signatureChanged (changes : List ParamChange)
  | moved (source : Option BlockId) (destination : Option BlockId)
  | finishedLoading
  /-- A control of the block was used. -/
  | ui (element : String)
  deriving DecidableEq, Repr

def Payload.kind : Payload → EventKind
  | .created => .create
  | .deleted => .delete
  | .fieldChanged .. | .extraChanged | .signatureChanged _ => .change
  | .moved .. => .move
  | .finishedLoading => .finishedLoading
  | .ui _ => .ui

structure Event where
  block : Option BlockId
  blockKind : Option Kind
  payload : Payload
  deriving DecidableEq, Repr

namespace Event

def onBlock (id : BlockId) (kind : Kind) (payload : Payload) : Event :=
  ⟨some id, some kind, payload⟩

/-- Marks the end of the events that loading queued. -/
def finishedLoading : Event := ⟨none, none, .finishedLoading⟩

def kind (event : Event) : EventKind := event.payload.kind

end Event

/-- Events that wait, oldest first: those in `front`, then those in `back` from last to first. -/
structure EventQueue where
  front : List Event := []
  back : List Event := []
  deriving DecidableEq, Repr

namespace EventQueue

def toList (queue : EventQueue) : List Event := queue.front ++ queue.back.reverse

def isEmpty (queue : EventQueue) : Bool := queue.front.isEmpty && queue.back.isEmpty

def push (queue : EventQueue) (event : Event) : EventQueue :=
  { queue with back := event :: queue.back }

/-- The oldest event and the queue without it. -/
def pop? (queue : EventQueue) : Option (Event × EventQueue) :=
  match queue.front with
  | event :: front => some (event, { queue with front })
  | [] =>
    match queue.back.reverse with
    | event :: front => some (event, ⟨front, []⟩)
    | [] => none

@[simp] theorem toList_empty : toList {} = [] := rfl

@[simp] theorem toList_push (queue : EventQueue) (event : Event) :
    (queue.push event).toList = queue.toList ++ [event] := by
  simp [toList, push]

/-- Popping takes the head of the list. -/
theorem pop?_toList (queue : EventQueue) :
    queue.pop?.map (fun (event, rest) => event :: rest.toList)
      = (if queue.toList = [] then none else some queue.toList) := by
  cases queue with
  | mk front back =>
    cases front with
    | cons event front => simp [pop?, toList]
    | nil =>
      cases h : back.reverse with
      | nil => simp [pop?, toList, h]
      | cons event front => simp [pop?, toList, h]

theorem pop?_some {queue rest : EventQueue} {event : Event}
    (h : queue.pop? = some (event, rest)) : queue.toList = event :: rest.toList := by
  have view := queue.pop?_toList
  rw [h] at view
  split at view
  · cases view
  · exact (Option.some.inj view).symm

theorem pop?_none {queue : EventQueue} (h : queue.pop? = none) : queue.toList = [] := by
  have view := queue.pop?_toList
  rw [h] at view
  split at view
  · next empty => exact empty
  · cases view

theorem eq_empty {queue : EventQueue} (idle : queue.toList = []) : queue = {} := by
  obtain ⟨front, back⟩ := queue
  simpa [toList] using idle

theorem pop?_cons {queue : EventQueue} {event : Event} {rest : List Event}
    (waiting : queue.toList = event :: rest) :
    ∃ pending : EventQueue, queue.pop? = some (event, pending) ∧ pending.toList = rest := by
  cases popped : queue.pop? with
  | none =>
    rw [pop?_none popped] at waiting
    cases waiting
  | some both =>
    obtain ⟨first, pending⟩ := both
    obtain ⟨rfl, same⟩ := List.cons.inj ((pop?_some popped).symm.trans waiting)
    exact ⟨pending, rfl, same⟩

end EventQueue
end RobotBlocks
