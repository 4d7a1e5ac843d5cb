import RobotBlocks.Graph.Edit
import RobotBlocks.Text.Blank
import RobotBlocks.Text.Unused

/-! Editing the parameters of a declaration. The editor is a graph of its own: a container whose
stack has one item for each parameter. An item remembers the name that its parameter had, so that
calls can keep their arguments. -/
namespace RobotBlocks

namespace Graph

/-- The parameters that a block declares. -/
def getParams (g : Graph) (declaration : BlockId) : Except GraphError (List Parameter) := do
  let block ← g.get declaration
  match block.extra.params? with
  | some params => return params
  | none => throw (.wrongKind declaration block.kind .declaration)

end Graph

namespace ParameterEditor

/-- Adds one item for each parameter, the first one into the container and every other one below
the item before it. -/
def addItems (container : BlockId) :
    Graph → Option BlockId → List Parameter → Except GraphError Graph
  | editor, _, [] => return editor
  | editor, above, param :: params => do
    let (item, editor) := editor.addBlock .paramItem (.paramItem (some param.name))
    let (_, editor) ← editor.setField item Field.name param.name
    let editor ← match param.type with
      | some type => Prod.snd <$> editor.setField item Field.type type
      | none => pure editor
    let editor ← match above with
      | none => editor.connectSocket container Socket.stack item
      | some above => editor.connectNext above item
    addItems container editor (some item) params

/-- The editor of the parameters of a declaration. -/
def decompose (g : Graph) (declaration : BlockId) : Except GraphError Graph := do
  let params ← g.getParams declaration
  let (container, editor) := Graph.empty.addBlock .paramContainer .none
  let editor ← addItems container editor none params
  return editor.takeEvents.2

/-- The name itself, or the name with the lowest number from two on that makes it new. -/
def uniqueName (base : String) (used : List String) : String :=
  if used.contains base then
    Text.firstUnused (fun n => base ++ toString n) used used.length 2
  else base

/-- The changes that a list of items stands for, and the new name of each item. Items without a
name and blocks of another kind are skipped. -/
def readItems : List Block → List String → List (BlockId × ParamChange)
  | [], _ => []
  | item :: items, used =>
    let base := Text.trim item.name
    if item.kind ≠ .paramItem || base.isEmpty then readItems items used
    else
      let name := uniqueName base used
      let type := (item.field? Field.type).filter fun type => !type.isEmpty
      let previous := match item.extra with
        | .paramItem formerName => formerName
        | _ => none
      (item.id, ⟨⟨name, type⟩, previous⟩) :: readItems items (name :: used)

/-- Shows the new names on the items and lets them remember these names. An item that refuses ends
this; the editor stays as it is by then. -/
def retag : Graph → List (BlockId × ParamChange) → Except (GraphError × Graph) Graph
  | editor, [] => return editor
  | editor, (item, change) :: rest => do
    let (_, named) ← (editor.setField item Field.name change.param.name).mapError (·, editor)
    let tagged ← (named.setExtra item (.paramItem (some change.param.name))).mapError (·, named)
    retag tagged rest

/-- The container of an editor: its first top block of the kind. -/
def container? (editor : Graph) : Option BlockId :=
  editor.topBlocks.find? fun id => (editor.block? id).any fun block => block.kind = .paramContainer

/-- The outcome of applying an editor. -/
structure Composed where
  changes : List ParamChange
  graph : Graph
  editor : Graph

/-- An application that was given up: why, and what it has left of the graph and of the editor. -/
structure Aborted where
  error : GraphError
  graph : Graph
  editor : Graph

/-- Gives a declaration the parameters of an editor. Afterwards the editor can be applied again. The
declaration has its new parameters, and they have been told, before the first item is renamed: an item
that refuses takes none of that back. -/
def compose (g : Graph) (declaration : BlockId) (editor : Graph) : Except Aborted Composed := do
  let _ ← (g.getParams declaration).mapError (⟨·, g, editor⟩)
  let some container := container? editor | throw ⟨.missingContainer, g, editor⟩
  let items := (editor.statementStack container Socket.stack).filterMap editor.block?
  let read := readItems items []
  let changes := read.map (·.2)
  let graph ← (g.setSignature declaration changes).mapError (⟨·, g, editor⟩)
  let editor ← (retag editor read).mapError fun (error, editor) => ⟨error, graph, editor⟩
  return { changes, graph, editor := editor.takeEvents.2 }

end ParameterEditor
end RobotBlocks
