import RobotBlocks.Graph.Stored
import RobotBlocks.ParameterEditor
import RobotBlocks.Reaction

/-! Editing one graph. A session handles the events that its operations queue before it gives the
result, so that what it shows is consistent. While a stored graph is loading only the creation of
references is handled; the event that marks the end of loading opens the session for all others. -/
namespace RobotBlocks

inductive Phase where
  | whileLoading
  | afterLoading
  deriving DecidableEq, Repr

structure Session where
  graph : Graph := .empty
  registry : Registry := .standard
  scope : Scope := {}
  phase : Phase := .afterLoading
  /-- Lines that reactions wrote, newest first: all that they remember. -/
  journal : List String := []

/-- The outcome of editing a field. -/
inductive FieldEdit where
  | applied (value : String)
  | unchanged
  | rejected (reason : NameRejection)
  deriving DecidableEq, Repr

namespace Session

/-- One round of handling takes no more events than this; further ones are dropped. -/
def eventLimit : Nat := 100000

/-- Handles an event of the loading phase. References are brought in line with the declarations
that the graph had when the first of them was met. -/
def handleLoading (s : Session) (own : Option Declarations) (event : Event) :
    Session × Option Declarations :=
  match event.kind, event.block, event.blockKind with
  | .finishedLoading, _, _ => ({ s with phase := .afterLoading }, own)
  | .create, some id, some kind =>
    if kind.isReference then
      let known := own.getD (.collect s.graph)
      match s.graph.reconcile known s.scope id with
      | .ok (_, graph) => ({ s with graph }, some known)
      | .error (_, graph) => ({ s with graph }, some known)
    else (s, own)
  | _, _, _ => (s, own)

/-- Handles one event. -/
def handle (s : Session) (own : Option Declarations) (event : Event) :
    Session × Option Declarations :=
  match s.phase with
  | .whileLoading => s.handleLoading own event
  | .afterLoading =>
    let (graph, journal) := s.registry.dispatch s.journal s.scope event s.graph
    ({ s with graph, journal }, own)

/-- Handles waiting events, oldest first, as long as the budget lasts, and gives what is left of
it. Events beyond the budget are dropped. -/
def handleWithin (s : Session) (own : Option Declarations) : Nat → Session × Nat
  | 0 => ({ s with graph := s.graph.takeEvents.2 }, 0)
  | budget + 1 =>
    match s.graph.pending.pop? with
    | none => (s, budget + 1)
    | some (event, pending) =>
      let (s, own) := { s with graph := { s.graph with pending } }.handle own event
      s.handleWithin own budget

/-- Handles all waiting events and gives their number. -/
def flush (s : Session) : Nat × Session :=
  let (s, left) := s.handleWithin none eventLimit
  (eventLimit - left, s)

/-- The session after its waiting events have been handled. -/
def settled (s : Session) : Session := s.flush.2

/-- A session on a stored graph. -/
def load (forest : Forest) (scope : Scope) (registry : Registry) : Except GraphError Session := do
  let graph ← Graph.rebuild forest
  let s : Session :=
    { graph := graph.push .finishedLoading, registry, scope, phase := .whileLoading }
  return s.settled

/-! What a session shows. -/

def declarations (s : Session) : Declarations := .collect s.graph

def toForest (s : Session) : Forest := s.graph.toForest

/-- The warnings of all blocks, in ascending order of their ids. -/
def warnings (s : Session) : List (BlockId × String) :=
  s.graph.blocks.filterMap fun block => block.warning.map fun warning => (block.id, warning)

/-! Operations. -/

/-- The session on an edited graph, its events handled. -/
def withGraph (s : Session) (graph : Graph) : Session := { s with graph }.settled

/-- Replaces the scope and brings all references in line with it. -/
def setScope (s : Session) (scope : Scope) : ReconcileReport × Session :=
  let (report, graph) := s.graph.reconcileAll scope
  (report, { s with scope, graph }.settled)

/-- Creates a block with a state. -/
def createBlock (s : Session) (kind : Kind) (extra : ExtraState) : BlockId × Session :=
  let (id, graph) := s.graph.addBlock kind extra
  (id, s.withGraph graph)

/-- Creates a call of a declaration of the graph. -/
def createCallTo (s : Session) (declaration : BlockId) : Except GraphError (BlockId × Session) := do
  let call ← s.graph.callStateFor declaration
  let (id, graph) := s.graph.addBlock .methodCall (.call call)
  let (_, graph) ← graph.setField id Field.name call.name
  return (id, s.withGraph graph)

/-- The value that an edit of a field stores: the name of a declaration is checked and stored
without the blanks around it. -/
def fieldValue (s : Session) (block : Block) (name value : String) : Except NameRejection String :=
  if block.kind.isDeclaration && name = Field.name then s.graph.validateName block.id value
  else .ok value

/-- Edits a field. A refused name leaves everything as it is. -/
def setField (s : Session) (id : BlockId) (name value : String) :
    Except GraphError (FieldEdit × Session) := do
  let block ← s.graph.get id
  match s.fieldValue block name value with
  | .error reason => return (.rejected reason, s)
  | .ok value =>
    if block.field? name = some value then return (.unchanged, s)
    let (_, graph) ← s.graph.setField id name value
    return (.applied value, s.withGraph graph)

def connectNext (s : Session) (previous id : BlockId) : Except GraphError Session :=
  s.withGraph <$> s.graph.connectNext previous id

def connectSocket (s : Session) (parent : BlockId) (socket : String) (child : BlockId) :
    Except GraphError Session :=
  s.withGraph <$> s.graph.connectSocket parent socket child

def unplug (s : Session) (id : BlockId) (heal : Bool) : Except GraphError Session :=
  s.withGraph <$> s.graph.unplug id heal

def deleteBlock (s : Session) (id : BlockId) (heal : Bool) :
    Except GraphError (List BlockId × Session) := do
  let (removed, graph) ← s.graph.deleteBlock id heal
  return (removed, s.withGraph graph)

/-- Opens the parameter editor of a declaration. -/
def openEditor (s : Session) (declaration : BlockId) : Except GraphError Graph :=
  ParameterEditor.decompose s.graph declaration

/-- Applies a parameter editor and gives it back ready to be applied again. What an application that is
given up has queued waits for the next operation. -/
def applyEditor (s : Session) (declaration : BlockId) (editor : Graph) :
    Except (GraphError × Graph × Session) (List ParamChange × Graph × Session) :=
  match ParameterEditor.compose s.graph declaration editor with
  | .ok composed => .ok (composed.changes, composed.editor, s.withGraph composed.graph)
  | .error aborted => .error (aborted.error, aborted.editor, { s with graph := aborted.graph })

end Session
end RobotBlocks
