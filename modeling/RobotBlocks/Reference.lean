import RobotBlocks.Scope
import RobotBlocks.Graph.Edit

/-! Keeping references in step with their declarations. Renames and new parameter lists of a
declaration are carried to the references in its own graph; all references of a graph can be
brought in line with a scope. -/
namespace RobotBlocks

def missingWarning (name : String) : String :=
  "Cannot find a declaration named '" ++ name ++ "'"

/-- What bringing one reference in line did. -/
inductive Reconciled where
  | unchanged
  | updated
  /-- No declaration matches; the block is warned. -/
  | dangling
  /-- The declarations of the owner are not at hand. -/
  | skipped
  deriving DecidableEq, Repr

structure ReconcileReport where
  updated : Nat := 0
  dangling : Nat := 0
  skipped : Nat := 0
  deriving DecidableEq, Repr

def ReconcileReport.count (report : ReconcileReport) : Reconciled → ReconcileReport
  | .unchanged => report
  | .updated => { report with updated := report.updated + 1 }
  | .dangling => { report with dangling := report.dangling + 1 }
  | .skipped => { report with skipped := report.skipped + 1 }

namespace Graph

/-- All references, in ascending order of their ids. -/
def references (g : Graph) : List BlockId :=
  (g.blocks.filter fun block => block.kind.isReference).map (·.id)

def isCallerOf (declaration : BlockId) (block : Block) : Bool :=
  block.kind.isReference &&
    block.extra.call?.any fun call => call.target.isLocal && call.declaration = some declaration

/-- The local references to a declaration, in ascending order of their ids. -/
def callersOf (g : Graph) (declaration : BlockId) : List BlockId :=
  (g.blocks.filter (isCallerOf declaration)).map (·.id)

/-- The call that a block carries. -/
def getCall (g : Graph) (id : BlockId) : Except GraphError CallState := do
  let block ← g.get id
  match block.extra.call? with
  | some call => return call
  | none => throw (.wrongKind id block.kind .reference)

/-- Edits the call of a reference and shows its name in the name field. -/
def updateCall (g : Graph) (id : BlockId) (edit : CallState → CallState) :
    Except GraphError Graph := do
  let call := edit (← g.getCall id)
  let g ← g.setExtra id (.call call)
  return (← g.setField id Field.name call.name).2

/-- Applies an edit to one reference after the other and counts those that accept it. An edit that stops
half-way leaves the graph as it is by then. -/
def updateEach (edit : Graph → BlockId → Except (GraphError × Graph) Graph) :
    Graph → List BlockId → Nat × Graph
  | g, [] => (0, g)
  | g, id :: rest =>
    match edit g id with
    | .ok edited =>
      let (updated, final) := updateEach edit edited rest
      (updated + 1, final)
    | .error (_, left) => updateEach edit left rest

/-- Carries a new name to the local references. -/
def renameCallers (g : Graph) (declaration : BlockId) (name : String) : Nat × Graph :=
  updateEach (fun g id => (g.updateCall id fun call => { call with name }).mapError (·, g)) g
    (g.callersOf declaration)

/-! Arguments. An argument is the name of an old parameter and the block in its socket. What is refused on the
way stops the rest and takes nothing back: beside the error stands the graph as the steps before have left it. -/

/-- Takes the blocks of the arguments from an index on out of their sockets. -/
def liftArguments (g : Graph) (id : BlockId) :
    Nat → List Parameter → Except (GraphError × Graph) (List (String × Option BlockId) × Graph)
  | _, [] => return ([], g)
  | index, param :: params => do
    let plugged := g.plugged? id (Socket.arg index)
    let loose ← match plugged with
      | some value => (g.unplug value false).mapError (·, g)
      | none => pure g
    let (lifted, last) ← loose.liftArguments id (index + 1) params
    return ((param.name, plugged) :: lifted, last)

/-- The first block that is still there under a name, and the arguments without it. -/
def takeArgument (name : String) :
    List (String × Option BlockId) → Option (BlockId × List (String × Option BlockId))
  | [] => none
  | (other, value) :: rest =>
    match value with
    | some block =>
      if other = name then some (block, (other, none) :: rest)
      else (takeArgument name rest).map fun (taken, rest) => (taken, (other, value) :: rest)
    | none => (takeArgument name rest).map fun (taken, rest) => (taken, (other, value) :: rest)

/-- Puts the arguments of the changes from an index on into their sockets, each found by its
previous name. A reference without sockets drops them. -/
def plugArguments (g : Graph) (id : BlockId) :
    Nat → List ParamChange → List (String × Option BlockId) →
      Except (GraphError × Graph) (List (String × Option BlockId) × Graph)
  | _, [], lifted => return (lifted, g)
  | index, change :: changes, lifted =>
    match change.previous.bind fun name => takeArgument name lifted with
    | none => g.plugArguments id (index + 1) changes lifted
    | some (value, lifted) => do
      let block ← (g.get id).mapError (·, g)
      let placed ← if block.hasSocket (Socket.arg index)
        then (g.connectSocket id (Socket.arg index) value).mapError (·, g)
        else (Prod.snd <$> g.deleteBlock value false).mapError (·, g)
      placed.plugArguments id (index + 1) changes lifted

/-- Deletes the blocks of the arguments that found no socket. -/
def dropArguments (g : Graph) : List (String × Option BlockId) → Except (GraphError × Graph) Graph
  | [] => return g
  | (_, none) :: rest => g.dropArguments rest
  | (_, some value) :: rest => do
    let (_, less) ← (g.deleteBlock value false).mapError (·, g)
    less.dropArguments rest

/-- Gives a reference the parameters of the changes. Arguments follow their parameters by the
previous names; an argument whose parameter is gone is deleted. -/
def regenerateArguments (g : Graph) (id : BlockId) (changes : List ParamChange) :
    Except (GraphError × Graph) Graph := do
  let call ← (g.getCall id).mapError (·, g)
  let (lifted, loose) ← g.liftArguments id 0 call.args
  let shaped ← (loose.updateCall id fun call => { call with args := changes.map (·.param) }).mapError (·, loose)
  let (unused, placed) ← shaped.plugArguments id 0 changes lifted
  placed.dropArguments unused

/-- Carries a new parameter list to given references. -/
def mutateEach (g : Graph) (changes : List ParamChange) (callers : List BlockId) : Nat × Graph :=
  updateEach (fun g id => g.regenerateArguments id changes) g callers

/-- Carries a new parameter list to the local references. -/
def mutateCallers (g : Graph) (declaration : BlockId) (changes : List ParamChange) :
    Nat × Graph :=
  g.mutateEach changes (g.callersOf declaration)

/-- Warns the local references to a declaration that is gone. -/
def flagOrphans (g : Graph) (declaration : BlockId) : Nat × Graph :=
  updateEach (fun g id => do
      let name := ((g.block? id).bind (·.extra.call?)).elim "" (·.name)
      (g.setWarning id (some (missingWarning name))).mapError (·, g))
    g (g.callersOf declaration)

/-! Reconciling. -/

/-- Whether a call shows another declaration, name or return type than the signature. -/
def isStale (call : CallState) (signature : Signature) : Bool :=
  call.declaration ≠ some signature.block || call.name ≠ signature.name
    || call.returnType ≠ signature.returnType

/-- Brings one reference in line with the declaration to which it resolves. -/
def reconcile (g : Graph) (own : Declarations) (scope : Scope) (id : BlockId) :
    Except (GraphError × Graph) (Reconciled × Graph) := do
  let block ← (g.get id).mapError (·, g)
  match block.extra.call? with
  | none => return (.unchanged, g)
  | some call =>
    match scope.lookup own block.kind call with
    | .found signature =>
      let stale := isStale call signature
      let reshaped := call.args ≠ signature.args
      let named ← if stale
        then (g.updateCall id fun call =>
          { call with
            declaration := some signature.block
            name := signature.name
            returnType := signature.returnType }).mapError (·, g)
        else pure g
      let shaped ← if reshaped
        then named.regenerateArguments id (signature.args.map .kept)
        else pure named
      let cleared ← (shaped.setWarning id none).mapError (·, shaped)
      return (if stale || reshaped then .updated else .unchanged, cleared)
    | .missing => return (.dangling, ← (g.setWarning id (some (missingWarning call.name))).mapError (·, g))
    | .unresolvable => return (.skipped, g)

/-- Brings references in line one after the other; one that cannot be is left as it is by then. -/
def reconcileEach (own : Declarations) (scope : Scope) :
    Graph → List BlockId → ReconcileReport → ReconcileReport × Graph
  | g, [], report => (report, g)
  | g, id :: rest, report =>
    match g.reconcile own scope id with
    | .ok (outcome, g) => reconcileEach own scope g rest (report.count outcome)
    | .error (_, left) => reconcileEach own scope left rest report

/-- Brings all references in line, against the declarations that the graph has at the start. -/
def reconcileAll (g : Graph) (scope : Scope) : ReconcileReport × Graph :=
  reconcileEach (.collect g) scope g g.references {}

/-- The state of a fresh call of a declaration of the same graph. -/
def callStateFor (g : Graph) (declaration : BlockId) : Except GraphError CallState := do
  let block ← g.get declaration
  match block.extra with
  | .event params =>
    return { target := .fireEvent, name := block.name, args := params
             declaration := some declaration }
  | .method state =>
    return { target := .selfModule, name := block.name, args := state.params
             returnType := state.returnType, declaration := some declaration }
  | _ => throw (.wrongKind declaration block.kind .declaration)

end Graph
end RobotBlocks
