import RobotBlocks.Proofs.Code.References
import RobotBlocks.Proofs.Text.Identifiers

/-! The attributes on which a class calls functions and registers handlers, and those that it gets. A call
names the attribute by its target alone, whatever the module has; the attribute is there if the
constructor of an opmode stores the robot in it or the hardware has a component of that name. -/
namespace RobotBlocks

namespace Text

theorem blank_not_mem_identifier (name : String) : ' ' ∉ (identifier name).toList := fun blank =>
  absurd (isWordChar_of_mem_identifier blank) (by decide)

end Text

/-- The attribute of a class by which it reaches a target outside itself. -/
def CallTarget.attribute? : CallTarget → Option String
  | .robot => some "robot"
  | .component inst | .mechanism inst _ => some (Text.identifier inst)
  | .selfModule | .fireEvent | .moduleFunction _ => none

/-- The name of an attribute has no blanks. -/
theorem CallTarget.attribute?_word {target : CallTarget} {attr : String} (reached : target.attribute? = some attr) :
    ' ' ∉ attr.toList := by
  cases target with
  | robot =>
    cases reached
    decide
  | component inst | mechanism inst module =>
    cases reached
    exact Text.blank_not_mem_identifier inst
  | _ => cases reached

namespace Code

open RobotBlocks.Graph

variable {g : Graph} {scope : Scope} {id : BlockId} {block : Block} {call : CallState} {kind : Kind}
  {attr value : String} {type : ModuleType} {name : String} {options : Options} {outline : Outline}

/-! Where an attribute is used. -/

/-- A class calls a function on an attribute of itself, or registers a handler with it. -/
def Class.Uses (c : Class) (attr : String) : Kind → Prop
  | .methodCall => ∃ method ∈ c.methods, ∃ line : Expr, line.code ∈ method.body ∧
      ∃ function args, (Expr.call (.attribute attr) function args).Within line
  | .eventHandler => ∃ method ∈ c.methods, method.name = "register_event_handlers" ∧
      ∃ args, "self." ++ attr ++ ".register_event_handler(" ++ args ++ ")" ∈ method.body
  | _ => False

theorem callExpr_attribute {target : CallTarget} (reached : target.attribute? = some attr) (function : String)
    (args : List Expr) :
    (callExpr target function args).1 = .call (.attribute attr) (Text.identifier function) args := by
  cases target with
  | robot | component | mechanism =>
    cases reached
    rfl
  | _ => cases reached

theorem Handler.receiver_attribute {handler : Handler} (reached : handler.sender.attribute? = some attr) :
    handler.receiver = .attribute attr := by
  unfold Handler.receiver
  cases sender : handler.sender with
  | robot | component | mechanism =>
    rw [sender] at reached
    cases reached
    rfl
  | _ =>
    rw [sender] at reached
    cases reached

theorem Coded.uses {c : Class} (coded : Coded g scope c id kind call) (reached : call.target.attribute? = some attr) :
    c.Uses attr kind := by
  cases coded with
  | call _ stands =>
    obtain ⟨method, listed, line, stands, within⟩ := stands
    rw [callExpr_attribute reached] at within
    exact ⟨method, listed, line, stands, _, _, within⟩
  | handler stands _ registered =>
    obtain ⟨method, listed, named, line⟩ := registered
    rw [Handler.registration, Handler.receiver_attribute (stands.sender ▸ reached)] at line
    exact ⟨method, listed, named, _, line⟩

/-! Where an attribute is assigned. -/

/-- The constructor of a class and the method that builds its hardware. -/
def builders (outline : Outline) : List Method := initMethod outline :: (hardware outline).map (·.1)

/-- A line of the constructor or of the hardware assigns to the attribute. -/
def Outline.Assigns (outline : Outline) (attr : String) : Prop :=
  ∃ method ∈ builders outline, ∃ value, "self." ++ attr ++ " = " ++ value ∈ method.body

/-- A module of the type has the attribute: an opmode its robot, the other modules their hardware. -/
def Supplies (type : ModuleType) (own : Declarations) (attr : String) : Prop :=
  type = .opMode ∧ attr = "robot" ∨
    type.exports = true ∧ ∃ component ∈ own.components, (Text.trim component.className).isEmpty = false ∧
      Text.identifier component.name = attr

theorem blank_of_assignment {line : String} (is : line = "self." ++ attr ++ " = " ++ value) : ' ' ∈ line.toList := by
  have blank : ' ' ∈ " = ".toList := by decide
  rw [is, String.toList_append, String.toList_append]
  exact List.mem_append_left _ (List.mem_append_right _ blank)

/-- What is assigned to stands between the dot and the first blank. -/
theorem assignment_inj {other rest : String} (word : ' ' ∉ attr.toList) (word' : ' ' ∉ other.toList)
    (same : "self." ++ attr ++ " = " ++ value = "self." ++ other ++ " = " ++ rest) : attr = other := by
  have cut : ∀ {cs : List Char} (later : List Char), ' ' ∉ cs →
      (cs ++ (" = ".toList ++ later)).takeWhile (· ≠ ' ') = cs := by
    intro cs later word
    have ends : (" = ".toList ++ later).takeWhile (· ≠ ' ') = [] := rfl
    rw [List.takeWhile_append_of_pos fun c member => ?_, ends, List.append_nil]
    exact decide_eq_true fun is => word (is ▸ member)
  have chars := congrArg String.toList same
  simp only [String.toList_append, List.append_assoc, List.append_cancel_left_eq] at chars
  have words := congrArg (List.takeWhile (· ≠ ' ')) chars
  rw [cut _ word, cut _ word'] at words
  exact String.toList_inj.mp words

theorem initMethod_assigns (word : ' ' ∉ attr.toList) :
    (∃ value, "self." ++ attr ++ " = " ++ value ∈ (initMethod outline).body) ↔
      outline.type = .opMode ∧ attr = "robot" := by
  have silent : ∀ {line value}, ' ' ∉ String.toList line → "self." ++ attr ++ " = " ++ value ≠ line :=
    fun quiet is => quiet (blank_of_assignment is.symm)
  have register : ∀ {value}, "self." ++ attr ++ " = " ++ value ∉
      if outline.handlers.isEmpty then [] else ["self.register_event_handlers()"] := by
    intro value member
    split at member
    · cases member
    · exact silent (by decide) (List.mem_singleton.mp member)
  unfold initMethod
  dsimp only
  split
  · next opMode =>
    constructor
    · rintro ⟨value, member⟩
      refine ⟨opMode, ?_⟩
      rcases List.mem_append.mp member with member | member
      · rcases List.mem_cons.mp member with is | member
        · exact (silent (by decide) is).elim
        · have same : "self." ++ attr ++ " = " ++ value = "self." ++ "robot" ++ " = " ++ "robot" :=
            List.mem_singleton.mp member
          exact assignment_inj word (by decide) same
      · exact (register member).elim
    · rintro ⟨-, rfl⟩
      exact ⟨"robot", List.mem_append_left _ (List.mem_cons_of_mem _ (List.mem_singleton_self _))⟩
  · next other =>
    refine iff_of_false ?_ fun both => other both.1
    rintro ⟨value, member⟩
    rcases List.mem_append.mp member with member | member
    · rcases List.mem_cons.mp member with is | member
      · exact silent (by decide) is
      · exact silent (by decide) (List.mem_singleton.mp member)
    · exact register member

theorem hardwareLine_code (component : ComponentDecl) : (hardwareLine component).1 =
    if (Text.trim component.className).isEmpty then none
    else some ("self." ++ Text.identifier component.name ++ " = " ++
      (component.className ++ "(" ++ component.port.elim "" portCode ++ ")")) := by
  unfold hardwareLine
  split
  · rfl
  · simp only [String.append_assoc]

theorem hardwareMethod_assigns {own : Declarations} (word : ' ' ∉ attr.toList) :
    (∃ value, "self." ++ attr ++ " = " ++ value ∈ (hardwareMethod own).1.body) ↔
      ∃ component ∈ own.components, (Text.trim component.className).isEmpty = false ∧
        Text.identifier component.name = attr := by
  have lines : ∀ line, line ∈ (hardwareMethod own).1.body ↔
      ∃ component ∈ own.components, (hardwareLine component).1 = some line := by
    simp [hardwareMethod]
  simp only [lines, hardwareLine_code]
  constructor
  · rintro ⟨value, component, declared, is⟩
    split at is
    · cases is
    · next built =>
      refine ⟨component, declared, Bool.eq_false_iff.mpr built, ?_⟩
      exact assignment_inj (Text.blank_not_mem_identifier _) word (Option.some.inj is)
  · rintro ⟨component, declared, built, rfl⟩
    exact ⟨_, component, declared, if_neg (by simp [built])⟩

theorem Outline.assigns_iff (word : ' ' ∉ attr.toList) :
    outline.Assigns attr ↔ Supplies outline.type outline.declarations attr := by
  have hardware : (∃ method ∈ (hardware outline).map (·.1), ∃ value,
      "self." ++ attr ++ " = " ++ value ∈ method.body) ↔ outline.type.exports = true ∧
        ∃ component ∈ outline.declarations.components, (Text.trim component.className).isEmpty = false ∧
          Text.identifier component.name = attr := by
    rw [← hardwareMethod_assigns word]
    unfold Code.hardware
    split
    · next exports => simp [exports]
    · next inside => simp [inside]
  unfold Assigns Supplies builders
  rw [← initMethod_assigns word, ← hardware]
  simp only [List.mem_cons, exists_eq_or_imp]

theorem Outline.type_eq (collected : Outline.collect? type name g = some outline) : outline.type = type := by
  obtain ⟨className, -, rfl⟩ := Option.map_eq_some_iff.mp collected
  rfl

/-- A component that has a class is built in a line of the hardware. -/
theorem hardware_line {component : ComponentDecl} (scope : Scope)
    (collected : Outline.collect? type name g = some outline) (exports : type.exports = true)
    (declared : component ∈ (Declarations.collect g).components)
    (built : (Text.trim component.className).isEmpty = false) :
    ∃ method ∈ (written g scope outline).1.methods, method.name = "define_hardware" ∧
      "self." ++ Text.identifier component.name ++ " = " ++
        (component.className ++ "(" ++ component.port.elim "" portCode ++ ")") ∈ method.body := by
  rw [← Outline.declarations_eq collected] at declared
  refine ⟨(hardwareMethod outline.declarations).1, ?_, rfl, ?_⟩
  · refine List.mem_append_left _ (List.mem_append_left _ (List.mem_cons_of_mem _ ?_))
    rw [hardware, Outline.type_eq collected, if_pos exports]
    exact List.mem_singleton_self _
  · refine List.mem_filterMap.mpr ⟨_, List.mem_map_of_mem declared, ?_⟩
    rw [hardwareLine_code, if_neg (by simp [built])]

/-- Every receiver that a class uses is assigned in it, or the block that uses it is reported, exactly if the
module has the attribute or the block is a call that does not fit its declaration. -/
theorem receiver_assigned_iff (reached : g.Reachable) (supported : type ≠ .unknown)
    (valid : options.isValid = true) (name : String) (scope : Scope) :
    ∃ generated imports outline c, generate type name g scope options = .ok generated ∧
      generated.code = fileText options imports c ∧ Outline.collect? type name g = some outline ∧
      builders outline ⊆ c.methods ∧
      ∀ id kind call attr, Refers g scope id kind call → call.target.attribute? = some attr →
        c.Uses attr kind ∧
        ((outline.Assigns attr ∨ ∃ diagnostic ∈ generated.diagnostics, diagnostic.block = id) ↔
          Supplies type (.collect g) attr ∨ kind = .methodCall ∧ Misfits scope (.collect g) call) := by
  have sound := reached.sound
  obtain ⟨generated, made⟩ : ∃ generated, generate type name g scope options = .ok generated :=
    (generate_ok_iff sound scope).mpr ⟨valid, supported⟩
  obtain ⟨outline, collected, is⟩ := generate_eq sound made
  refine ⟨generated, _, outline, (written g scope outline).1, made, congrArg Generated.code is, collected, ?_, ?_⟩
  · intro method listed
    exact List.mem_append_left _ (List.mem_append_left _ listed)
  · intro id kind call attr refers reaches
    refine ⟨(refers.coded sound collected).uses reaches, ?_⟩
    have assigns : outline.Assigns attr ↔ Supplies type (.collect g) attr := by
      rw [Outline.assigns_iff (CallTarget.attribute?_word reaches), Outline.type_eq collected,
        Outline.declarations_eq collected]
    rw [assigns, refers.named_iff sound made]

/-- An opmode calls a mechanism that it does not have. The call fits what the mechanism declares, so nothing
is reported. -/
theorem receiver_assigned_iff_mechanism :
    let call : CallState := { target := .mechanism "arm" "Arm", name := "lift" }
    let g := [Mutation.add .methodDef (.method {}), .add .methodCall (.call call),
      .connectSocket ⟨0⟩ Socket.stack ⟨1⟩].foldl Graph.mutate Graph.empty
    let scope : Scope := { mechanisms := [("Arm", { methods := [⟨⟨0⟩, "lift", "lift", .outside, none, []⟩] })] }
    ∃ generated imports outline c, generate .opMode "M" g scope {} = .ok generated ∧
      generated.code = fileText {} imports c ∧ Outline.collect? .opMode "M" g = some outline ∧
      c.Uses "arm" .methodCall ∧ ¬ outline.Assigns "arm" ∧
      ∀ diagnostic ∈ generated.diagnostics, diagnostic.block ≠ ⟨1⟩ := by
  intro call g scope
  have reached : g.Reachable := Reachable.empty.foldl_mutate _
  have shows : (g.topBlocks = [⟨0⟩] ∧ g.statementStack ⟨0⟩ Socket.stack = [⟨1⟩]) ∧
      (g.block? ⟨0⟩).map (·.kind) = some .methodDef ∧
      (g.block? ⟨1⟩).map (fun block => (block.kind, block.extra)) = some (.methodCall, .call call) ∧
      scope.lookup (.collect g) .methodCall call = .found ⟨⟨0⟩, "lift", [], none⟩ := by
    decide +kernel
  obtain ⟨⟨top, stack⟩, definition, calls, found⟩ := shows
  obtain ⟨head, headFound, headKind⟩ := Option.map_eq_some_iff.mp definition
  obtain ⟨block, blockFound, is⟩ := Option.map_eq_some_iff.mp calls
  obtain ⟨kind, carried⟩ := Prod.mk.inj is
  have emitted : Emitted g (.collect g) scope ⟨1⟩ :=
    .stated (.definition (by rw [top]; exact List.mem_singleton_self _) headFound headKind)
      (by rw [stack]; exact List.mem_singleton_self _) blockFound (by rw [kind]; rfl)
  have supported : ModuleType.opMode ≠ .unknown := by decide
  have valid : ({} : Options).isValid = true := by decide
  obtain ⟨generated, imports, outline, c, made, text, collected, -, receivers⟩ :=
    receiver_assigned_iff reached supported valid "M" scope
  obtain ⟨uses, assigned⟩ := receivers ⟨1⟩ .methodCall call "arm" (.call emitted blockFound kind carried) (by decide)
  have neither : ¬ (Supplies .opMode (.collect g) "arm" ∨ Kind.methodCall = .methodCall ∧
      Misfits scope (.collect g) call) := by
    rintro ((⟨-, other⟩ | ⟨exports, -⟩) | ⟨-, missing | ⟨signature, resolved, other⟩⟩)
    · exact absurd other (by decide)
    · exact absurd exports (by decide)
    · cases found.symm.trans missing
    · cases found.symm.trans resolved
      exact other rfl
  have lacks := fun held => neither (assigned.mp held)
  exact ⟨generated, imports, outline, c, made, text, collected, uses, fun assigns => lacks (.inl assigns),
    fun diagnostic member names => lacks (.inr ⟨diagnostic, member, names⟩)⟩

end Code
end RobotBlocks
