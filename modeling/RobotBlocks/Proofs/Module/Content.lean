import RobotBlocks.Module.Content
import RobotBlocks.Proofs.Forest.Codec

/-! The stored text of a content is read back as the content. -/
namespace RobotBlocks

open Json Decoder

theorem ComponentDecl.stores (decl : ComponentDecl) : Stores decode decl.encode decl := by
  have block := Fills.required decl.block.stores
  have name := Fills.required (stores_string decl.name)
  have kind : Fills (required (Decoder.name ComponentKind.ofTag?)) (some (.ofString decl.kind.tag))
      decl.kind := .required (stores_name (by cases decl.kind <;> rfl))
  have className := Fills.required (stores_string decl.className)
  have importModule := Fills.required (stores_string decl.importModule)
  have port := Fills.optional stores_string nofun decl.port
  refine stores_record rfl (by decide) (by simp [block.wellFormed, name.wellFormed, kind.wellFormed,
    className.wellFormed, importModule.wellFormed, port.wellFormed]) fun level => ?_
  simp only [List.map_cons, List.map_nil, block.reads, name.reads, kind.reads, className.reads,
    importModule.reads, port.reads, Option.bind_eq_bind, guard_bind, guard_guard, pure,
    List.all_cons, List.all_nil, Bool.and_true]

theorem EventDecl.stores (decl : EventDecl) : Stores decode decl.encode decl := by
  have block := Fills.required decl.block.stores
  have name := Fills.required (stores_string decl.name)
  have args := Fills.required (Parameter.stores_list decl.args)
  refine stores_record rfl (by decide)
    (by simp [block.wellFormed, name.wellFormed, args.wellFormed]) fun level => ?_
  simp only [List.map_cons, List.map_nil, block.reads, name.reads, args.reads, Option.bind_eq_bind,
    guard_bind, guard_guard, pure, List.all_cons, List.all_nil, Bool.and_true]

theorem MethodDecl.stores (decl : MethodDecl) : Stores decode decl.encode decl := by
  have block := Fills.required decl.block.stores
  have name := Fills.required (stores_string decl.name)
  have identifier := Fills.required (stores_string decl.identifier)
  have visibility := Fills.required decl.visibility.stores
  have returnType := Fills.optional stores_string nofun decl.returnType
  have args := Fills.required (Parameter.stores_list decl.args)
  refine stores_record rfl (by decide) (by simp [block.wellFormed, name.wellFormed,
    identifier.wellFormed, visibility.wellFormed, returnType.wellFormed, args.wellFormed])
    fun level => ?_
  simp only [List.map_cons, List.map_nil, block.reads, name.reads, identifier.reads,
    visibility.reads, returnType.reads, args.reads, Option.bind_eq_bind, guard_bind, guard_guard,
    pure, List.all_cons, List.all_nil, Bool.and_true]

theorem OpModeDetails.stores (details : OpModeDetails) : Stores decode details.encode details := by
  have kind : Fills (required (Decoder.name OpModeKind.ofTitle?)) (some (.ofString details.kind.title))
      details.kind := .required (stores_name (by cases details.kind <;> rfl))
  have name := Fills.required (stores_string details.name)
  have group := Fills.required (stores_string details.group)
  have enabled := Fills.required (stores_bool details.enabled)
  refine stores_record rfl (by decide)
    (by simp [kind.wellFormed, name.wellFormed, group.wellFormed, enabled.wellFormed])
    fun level => ?_
  simp only [List.map_cons, List.map_nil, kind.reads, name.reads, group.reads, enabled.reads,
    Option.bind_eq_bind, guard_bind, guard_guard, pure, List.all_cons, List.all_nil, Bool.and_true]

namespace ModuleContent

theorem stores {content : ModuleContent} (distinct : content.blocks.Distinct) :
    Stores decode content.encode content := by
  have type : Fills (required (Decoder.name ModuleType.ofName?)) (some (.ofString content.type.name))
      content.type := .required (stores_name (by cases content.type <;> rfl))
  have blocks := Fills.defaulted (Forest.stores distinct) {}
  have components := Fills.defaulted (Stores.list fun decl (_ : decl ∈ content.declarations.components) =>
    decl.stores) []
  have events := Fills.defaulted (Stores.list fun decl (_ : decl ∈ content.declarations.events) =>
    decl.stores) []
  have methods := Fills.defaulted (Stores.list fun decl (_ : decl ∈ content.declarations.methods) =>
    decl.stores) []
  have opMode := Fills.optional OpModeDetails.stores nofun content.opMode
  refine stores_record rfl (by decide) (by simp [Declarations.members, type.wellFormed,
    blocks.wellFormed, components.wellFormed, events.wellFormed, methods.wellFormed,
    opMode.wellFormed]) fun level => ?_
  simp only [Declarations.members, List.cons_append, List.nil_append, List.map_cons, List.map_nil,
    type.reads, blocks.reads, components.reads, events.reads, methods.reads, opMode.reads,
    Option.bind_eq_bind, guard_bind, guard_guard, pure, List.all_cons, List.all_nil, Bool.and_true]

/-- The text of a content of a known type is read back when its document fits, and is malformed
otherwise. -/
theorem parse_text {content : ModuleContent} (distinct : content.blocks.Distinct)
    (known : content.type ≠ .unknown) :
    parse content.text = if fits levels content.encode then .ok content else .error .malformed := by
  have stored := stores distinct
  have document : Value.parse? content.text = some content.encode :=
    Value.parse?_indented stored.wellFormed
  rw [parse, document, Option.bind_some, stored.decodes]
  cases fits levels content.encode with
  | true => exact if_neg known
  | false => rfl

end ModuleContent
end RobotBlocks
