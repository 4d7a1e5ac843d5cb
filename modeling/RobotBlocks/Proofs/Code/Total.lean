import RobotBlocks.Proofs.Code.Emission

/-! The generator is total. Whatever the blocks of a graph hold and however its references fit their
declarations, code is refused for the options or for the type of the module alone. -/
namespace RobotBlocks.Code

variable {g : Graph} {scope : Scope} {type : ModuleType} {name : String} {options : Options} {id : BlockId}
  {outline : Outline} {generated : Generated}

/-! What an outline lists. -/

theorem Outline.collect?_isSome : (Outline.collect? type name g).isSome = true ↔ type ≠ .unknown := by
  cases type <;> simp [Outline.collect?, Outline.className?]

theorem map_id_filter_blocks (p : Block → Bool) (ids : List BlockId) :
    ((ids.filterMap g.block?).filter p).map (·.id) = ids.filter fun id => (g.block? id).any p := by
  induction ids with
  | nil => rfl
  | cons id rest ih =>
    cases found : g.block? id with
    | none => simp [found, ih]
    | some block =>
      have same := Graph.block?_id found
      by_cases holds : p block = true <;> simp [found, holds, ih, same]

theorem Outline.methods_eq (collected : Outline.collect? type name g = some outline) :
    outline.methods = g.topBlocks.filter fun id => (g.block? id).any fun block => block.kind = .methodDef := by
  obtain ⟨className, -, rfl⟩ := Option.map_eq_some_iff.mp collected
  exact map_id_filter_blocks ..

theorem Outline.mem_methods (collected : Outline.collect? type name g = some outline) :
    id ∈ outline.methods ↔
      id ∈ g.topBlocks ∧ ∃ block, g.block? id = some block ∧ block.kind = .methodDef := by
  simp only [methods_eq collected, List.mem_filter, Option.any_eq_true, decide_eq_true_eq]

/-- The methods of an outline are blocks of the graph. -/
theorem Outline.contains_method (collected : Outline.collect? type name g = some outline)
    (member : id ∈ outline.methods) : g.contains id = true := by
  obtain ⟨-, block, found, -⟩ := (Outline.mem_methods collected).mp member
  exact Graph.contains_iff_block.mpr ⟨block, found⟩

/-! Generating. -/

/-- What is generated beside the code is read off the outline. -/
theorem generate_outline (made : generate type name g scope options = .ok generated) : options.isValid = true ∧
      ∃ outline, Outline.collect? type name g = some outline ∧
        generated.declarations = outline.declarations ∧ generated.opMode = outline.opMode := by
  unfold generate at made
  cases valid : options.isValid with
  | false => simp [valid, throw_bind, throw_ne_ok] at made
  | true =>
    cases collected : Outline.collect? type name g with
    | none => simp [valid, collected, throw_ne_ok] at made
    | some outline =>
      simp only [valid, collected, Bool.not_true, Bool.false_eq_true, if_false, bind_eq_ok,
        pure_eq_ok] at made
      obtain ⟨-, -, -, -, rfl⟩ := made
      exact ⟨rfl, outline, rfl, rfl, rfl⟩

/-- The generator refuses options and module types, and no graph. -/
theorem generate_ok_iff (tree : g.Tree) (scope : Scope) :
    (∃ generated, generate type name g scope options = .ok generated) ↔
      options.isValid = true ∧ type ≠ .unknown := by
  unfold generate
  cases valid : options.isValid with
  | false => simp [throw_bind, throw_ne_ok]
  | true =>
    have known : type ≠ .unknown ↔ (Outline.collect? type name g).isSome = true :=
      Outline.collect?_isSome.symm
    rw [known]
    cases collected : Outline.collect? type name g with
    | none => simp [throw_ne_ok]
    | some outline =>
      simp only [classOf_eq tree fun id => Outline.contains_method collected]
      exact iff_of_true ⟨_, rfl⟩ ⟨trivial, rfl⟩

/-- A module of a known type and with valid options has the class of its outline. -/
theorem generate_eq (tree : g.Tree) (made : generate type name g scope options = .ok generated) :
    ∃ outline, Outline.collect? type name g = some outline ∧
      generated = {
        code := fileText options (.ofUses ((written g scope outline).2.filterMap Note.use?))
          (written g scope outline).1
        className := outline.className
        declarations := outline.declarations
        opMode := outline.opMode
        diagnostics := outline.diagnostics ++ (written g scope outline).2.filterMap Note.diagnostic? } := by
  obtain ⟨valid, outline, collected, -⟩ := generate_outline made
  refine ⟨outline, collected, ?_⟩
  unfold generate at made
  simp only [valid, collected, classOf_eq tree fun id => Outline.contains_method collected, Bool.not_true,
    Bool.false_eq_true, if_false] at made
  exact (Except.ok.inj made).symm

/-- A method definition that hangs nowhere is a method of the class, with the parameters that it declares. -/
theorem definition_in_class {block : Block} {params : List Parameter} (tree : g.Tree) (known : type ≠ .unknown)
    (valid : options.isValid = true) (top : id ∈ g.topBlocks) (found : g.block? id = some block)
    (kind : block.kind = .methodDef) (declares : block.extra.params? = some params) (name : String) (scope : Scope) :
    ∃ generated imports c, generate type name g scope options = .ok generated ∧
      generated.code = fileText options imports c ∧
      ∃ method ∈ c.methods, method.name = Text.identifier block.name ∧ method.params = paramNames params := by
  obtain ⟨generated, made⟩ := (generate_ok_iff tree scope).mpr ⟨valid, known⟩
  obtain ⟨outline, collected, same⟩ := generate_eq tree made
  have listed : id ∈ outline.methods := (Outline.mem_methods collected).mpr ⟨top, block, found, kind⟩
  refine ⟨generated, _, _, made, congrArg Generated.code same,
    (definition g outline.declarations scope id).1, ?_, ?_, ?_⟩
  · refine List.mem_append_right _ (List.mem_map_of_mem (List.mem_append_left _ ?_))
    exact List.mem_map_of_mem listed
  · rw [definition, found, Option.elim_some]
  · rw [definition, found, Option.bind_some, declares, Option.getD_some]

end RobotBlocks.Code
