import RobotBlocks.Graph.Basic
import RobotBlocks.Text.Identifier

/-! What a module declares: components and events sit in the sections of a component holder,
methods are top blocks. Other modules see the components, the events and the outside methods. -/
namespace RobotBlocks

structure EventDecl where
  block : BlockId
  name : String
  args : List Parameter
  deriving DecidableEq, Repr

structure MethodDecl where
  block : BlockId
  name : String
  /-- The name under which the method appears in a class. -/
  identifier : String
  visibility : Visibility
  returnType : Option String
  args : List Parameter
  deriving DecidableEq, Repr

inductive ComponentKind where
  | component
  | mechanism
  deriving DecidableEq, Repr

/-- A hardware component or a mechanism instance. -/
structure ComponentDecl where
  block : BlockId
  name : String
  kind : ComponentKind
  className : String
  importModule : String
  port : Option String
  deriving DecidableEq, Repr

structure Declarations where
  components : List ComponentDecl := []
  events : List EventDecl := []
  methods : List MethodDecl := []
  deriving DecidableEq, Repr, Inhabited

namespace ComponentDecl

/-- What a block in a section of components or mechanisms declares. -/
def ofBlock? (block : Block) : Option ComponentDecl :=
  match block.extra with
  | .component state => some
    { block := block.id, name := block.name, kind := .component, className := state.className
      importModule := state.importModule
      port := (block.field? Field.port).filter fun port => !port.isEmpty }
  | .mechanism state => some
    { block := block.id, name := block.name, kind := .mechanism, className := state.className
      importModule := state.moduleName, port := none }
  | _ => none

end ComponentDecl

/-- What a block in the events section declares. -/
def EventDecl.ofBlock? (block : Block) : Option EventDecl :=
  match block.extra with
  | .event params => some { block := block.id, name := block.name, args := params }
  | _ => none

/-- What a top block declares. -/
def MethodDecl.ofBlock? (block : Block) : Option MethodDecl :=
  match block.extra with
  | .method state => some
    { block := block.id, name := block.name, identifier := Text.identifier block.name
      visibility := state.visibility, returnType := state.returnType, args := state.params }
  | _ => none

namespace Declarations

/-- The blocks in a section of a component holder. -/
def sectionBlocks (g : Graph) (holder : BlockId) (socket : String) : List Block :=
  (g.statementStack holder socket).filterMap g.block?

/-- The declarations of a graph: of every holder the mechanisms before the components. -/
def collect (g : Graph) : Declarations where
  components := (g.ofKind .componentHolder).flatMap fun holder =>
    (sectionBlocks g holder Socket.mechanisms ++ sectionBlocks g holder Socket.components).filterMap
      ComponentDecl.ofBlock?
  events := (g.ofKind .componentHolder).flatMap fun holder =>
    (sectionBlocks g holder Socket.events).filterMap EventDecl.ofBlock?
  methods := (g.topBlocks.filterMap g.block?).filterMap MethodDecl.ofBlock?

/-- What other modules see. -/
def exported (own : Declarations) : Declarations :=
  { own with methods := own.methods.filter fun method => method.visibility = .outside }

end Declarations

/-! Opmodes. -/

inductive OpModeKind where
  | auto
  | teleop
  | test
  deriving DecidableEq, Repr

namespace OpModeKind

def title : OpModeKind → String
  | .auto => "Auto"
  | .teleop => "Teleop"
  | .test => "Test"

/-- The kind that a field names; an unknown name means a teleop. -/
def ofField : String → OpModeKind
  | "Auto" => .auto
  | "Test" => .test
  | _ => .teleop

end OpModeKind

structure OpModeDetails where
  kind : OpModeKind
  name : String
  group : String
  enabled : Bool
  deriving DecidableEq, Repr

namespace OpModeDetails

def ofBlock? (block : Block) : Option OpModeDetails :=
  if block.kind = .opModeDetails then some
    { kind := .ofField (block.fieldD Field.type)
      name := block.fieldD Field.name
      group := block.fieldD Field.group
      enabled := block.field? Field.enabled = some "TRUE" }
  else none

/-- The details of the first block in walk order that has any. -/
def ofGraph? (g : Graph) : Option OpModeDetails :=
  g.walkAll.findSome? fun id => (g.block? id).bind ofBlock?

end OpModeDetails
end RobotBlocks
