import RobotBlocks.Declaration

/-! Resolving references. A reference names its declaration by the declaring block and by name, and
its target says which module owns the declaration. -/
namespace RobotBlocks

/-- The declaration to which a reference resolves. -/
structure Signature where
  block : BlockId
  name : String
  args : List Parameter
  returnType : Option String
  deriving DecidableEq, Repr

inductive Lookup where
  | found (signature : Signature)
  /-- The owner is known and declares nothing that matches. -/
  | missing
  /-- The declarations of the owner are not at hand, or its kind has none. -/
  | unresolvable
  deriving DecidableEq, Repr

namespace Declarations

/-- The event of the block, else the first event of the name. -/
def findEvent? (own : Declarations) (id : Option BlockId) (name : String) : Option EventDecl :=
  (id.bind fun id => own.events.find? fun event => event.block = id).or
    (own.events.find? fun event => event.name = name)

/-- The method of the block, else the first method of the name. -/
def findMethod? (own : Declarations) (id : Option BlockId) (name : String) : Option MethodDecl :=
  (id.bind fun id => own.methods.find? fun method => method.block = id).or
    (own.methods.find? fun method => method.name = name)

end Declarations

def EventDecl.signature (event : EventDecl) : Signature :=
  ⟨event.block, event.name, event.args, none⟩

def MethodDecl.signature (method : MethodDecl) : Signature :=
  ⟨method.block, method.name, method.args, method.returnType⟩

/-- The declarations of the modules to which a graph can refer besides itself. -/
structure Scope where
  robot : Option Declarations := none
  /-- By the name of the mechanism module. -/
  mechanisms : Labelled Declarations := []
  deriving Repr, Inhabited

namespace Scope

/-- The declarations of the module that a target names. -/
def owner? (scope : Scope) (own : Declarations) : CallTarget → Option Declarations
  | .selfModule | .fireEvent => some own
  | .robot => scope.robot
  | .mechanism _ module => scope.mechanisms.get? module
  | .component _ | .moduleFunction _ => none

/-- Handlers and fired events name events, all other calls name methods. -/
def wantsEvent (kind : Kind) (call : CallState) : Bool :=
  kind = .eventHandler || call.target = .fireEvent

def lookup (scope : Scope) (own : Declarations) (kind : Kind) (call : CallState) : Lookup :=
  match scope.owner? own call.target with
  | none => .unresolvable
  | some owner =>
    let signature := if wantsEvent kind call
      then (owner.findEvent? call.declaration call.name).map (·.signature)
      else (owner.findMethod? call.declaration call.name).map (·.signature)
    signature.elim .missing .found

end Scope
end RobotBlocks
