import RobotBlocks.Graph.Edit
import RobotBlocks.Text.Blank

/-! Where declarations may stand and how they may be called. Events, components and mechanisms
live in their sections of a component holder; names of one kind of declaration are distinct. -/
namespace RobotBlocks

/-- The section to which the blocks of a kind are bound. -/
structure PlacementRule where
  container : Kind
  socket : String
  message : String
  deriving DecidableEq, Repr

namespace PlacementRule

/-- The kinds that have a rule, in the order in which their reactions are registered. -/
def kinds : List Kind := [.event, .component, .mechanism]

def ofKind? : Kind → Option PlacementRule
  | .event => some ⟨.componentHolder, Socket.events,
      "Events can only go in the events section of the robot or mechanism"⟩
  | .component => some ⟨.componentHolder, Socket.components,
      "Components can only go in the components section of the robot or mechanism"⟩
  | .mechanism => some ⟨.componentHolder, Socket.mechanisms,
      "Mechanisms can only go in the mechanisms section of the robot"⟩
  | _ => none

/-- Whether the stack of a block hangs from the section of the rule. -/
def holds (rule : PlacementRule) (g : Graph) (id : BlockId) : Bool :=
  (g.enclosingSocket id).any fun (parent, socket) =>
    socket = rule.socket && (g.block? parent).any fun block => block.kind = rule.container

end PlacementRule

inductive Placement where
  /-- No rule binds the kind. -/
  | unconstrained
  | valid
  /-- The block stands alone and carries the message of its rule. -/
  | detached (message : String)
  deriving DecidableEq, Repr

namespace Graph

/-- Enforces the rule of a block where it stands now. A misplaced block is taken out of its stack,
which closes up, and is never deleted. -/
def checkPlacement (g : Graph) (id : BlockId) : Except GraphError (Placement × Graph) := do
  let block ← g.get id
  match PlacementRule.ofKind? block.kind with
  | none => return (.unconstrained, g)
  | some rule =>
    if rule.holds g id then return (.valid, ← g.setWarning id none)
    let loose ← g.unplug id true
    return (.detached rule.message, ← loose.setWarning id (some rule.message))

end Graph

/-- Why a name is refused. -/
inductive NameRejection where
  | empty
  | duplicate (kind : Kind) (name : String)
  deriving DecidableEq, Repr

def NameRejection.message : NameRejection → String
  | .empty => "name must not be empty"
  | .duplicate kind name =>
    let noun := match kind with
      | .event => "event"
      | .methodDef => "method"
      | _ => "block"
    "another " ++ noun ++ " is already named '" ++ name ++ "'"

/-- A proposed name without the blanks around it, if it is not empty and no other block of the same
kind has it. -/
def Graph.validateName (g : Graph) (id : BlockId) (proposed : String) :
    Except NameRejection String :=
  let name := Text.trim proposed
  if name.isEmpty then .error .empty
  else match g.block? id with
    | none => .ok name
    | some block =>
      let clash := g.blocks.any fun other =>
        other.id ≠ id && other.kind = block.kind && other.field? Field.name = some name
      if clash then .error (.duplicate block.kind name) else .ok name

end RobotBlocks
