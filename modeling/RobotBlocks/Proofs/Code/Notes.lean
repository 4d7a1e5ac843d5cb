import RobotBlocks.Proofs.Code.Emitted

/-! Where the notes on a class come from. One is taken in the head of the class, for a component, for a statement that
cannot be written, or for a block for which there is an expression; and all notes of these are on the class. -/
namespace RobotBlocks

namespace Graph

variable {g : Graph} {id other : BlockId} {socket : String}

/-- A statement of a body hangs from another block. -/
theorem Tree.up_of_mem_statementStack (tree : g.Tree) (member : other ∈ g.statementStack id socket) :
    ∃ parent, g.Up other parent := by
  unfold statementStack at member
  cases held : g.plugged? id socket with
  | none => simp [held] at member
  | some first =>
    rw [held, Option.elim_some] at member
    have hangs : g.Up first id := tree.up_of_child? held
    have climbs := tree.climbs_of_mem_stack (Tree.contains_child hangs) member
    rcases Relation.ReflTransGen.cases_head climbs with rfl | ⟨parent, step, -⟩
    · exact ⟨id, hangs⟩
    · exact ⟨parent, step⟩

/-- A top block hangs from none. -/
theorem Tree.not_up_of_top (tree : g.Tree) (top : id ∈ g.topBlocks) (parent : BlockId) : ¬ g.Up id parent := by
  intro up
  cases (tree.mem_topBlocks.mp top).2.symm.trans up

end Graph

namespace Code

open RobotBlocks.Graph

variable {g : Graph} {own : Declarations} {scope : Scope} {id owner : BlockId} {note : Note} {type : ModuleType}
  {name : String} {outline : Outline}

/-- The notes on a class, one case for each place where they are taken. -/
inductive Taken (g : Graph) (scope : Scope) (outline : Outline) : Note → Prop where
  | head {note : Note} (listed : note ∈ headUses outline) : Taken g scope outline note
  | component {component : ComponentDecl} {note : Note} (exports : outline.type.exports = true)
      (declared : component ∈ outline.declarations.components) (noted : note ∈ (hardwareLine component).2) :
      Taken g scope outline note
  | statement {owner id : BlockId} {block : Block} (heads : Heads g owner)
      (member : id ∈ g.statementStack owner Socket.stack) (found : g.block? id = some block)
      (unwritable : ¬ (block.kind = .methodCall || block.kind.isValue) = true) :
      Taken g scope outline (.complain id (.notStatement block.kind))
  | value {id : BlockId} {block : Block} {note : Note} (emitted : Emitted g outline.declarations scope id)
      (found : g.block? id = some block) (other : block.kind ≠ .methodCall)
      (noted : note ∈ (expression g outline.declarations scope id).2) : Taken g scope outline note
  | call {id : BlockId} {block : Block} {call : CallState} {note : Note}
      (emitted : Emitted g outline.declarations scope id) (found : g.block? id = some block)
      (kind : block.kind = .methodCall) (carried : block.extra.call? = some call)
      (noted : note ∈ (resolveCall outline.declarations scope id call).2.2) : Taken g scope outline note
  | library {id : BlockId} {block : Block} {call : CallState} {module : String}
      (emitted : Emitted g outline.declarations scope id) (found : g.block? id = some block)
      (kind : block.kind = .methodCall) (carried : block.extra.call? = some call)
      (target : call.target = .moduleFunction module) : Taken g scope outline (.needs (.module module))

/-- A block that is written hangs from another one. -/
theorem Emitted.up (tree : g.Tree) (emitted : Emitted g own scope id) : ∃ parent, g.Up id parent := by
  cases emitted with
  | stated _ member => exact tree.up_of_mem_statementStack member
  | passed _ _ _ _ _ _ plugged => exact ⟨_, tree.up_of_child? plugged⟩

/-- A call of a library function needs the library, and no other call needs anything. -/
theorem mem_callExpr_notes {target : CallTarget} {function : String} {args : List Expr} :
    note ∈ (callExpr target function args).2 ↔
      ∃ module, target = .moduleFunction module ∧ note = .needs (.module module) := by
  cases target <;> simp [callExpr]

/-- By induction downwards: a note on an expression is on its block or on that of an argument. -/
theorem Emitted.taken (tree : g.Tree) (emitted : Emitted g outline.declarations scope id)
    (noted : note ∈ (expression g outline.declarations scope id).2) : Taken g scope outline note := by
  induction id using tree.descends.induction with
  | h id ih =>
    obtain ⟨parent, up⟩ := emitted.up tree
    obtain ⟨block, found⟩ := contains_iff_block.mp (Tree.contains_child up)
    by_cases kind : block.kind = .methodCall
    · cases carried : block.extra.call? with
      | none =>
        rw [expression_bare found kind carried] at noted
        cases noted
      | some call =>
        rw [expression_call tree found kind carried] at noted
        rcases List.mem_append.mp noted with noted | uses
        · rcases List.mem_append.mp noted with resolved | noted
          · exact .call emitted found kind carried resolved
          · obtain ⟨arg, member, noted⟩ := List.mem_flatMap.mp noted
            obtain ⟨i, within, rfl⟩ := List.mem_map.mp member
            unfold argument at noted
            cases passed : (if i < call.args.length then g.plugged? id (Socket.arg i) else none) with
            | none =>
              rw [passed] at noted
              cases noted
            | some value =>
              rw [passed] at noted
              obtain ⟨shown, plugged⟩ := Option.ite_none_right_eq_some.mp passed
              exact ih value (up_of_passed tree passed)
                (.passed emitted found kind carried (List.mem_range.mp within) shown plugged) noted
        · obtain ⟨module, target, rfl⟩ := mem_callExpr_notes.mp uses
          exact .library emitted found kind carried target
    · exact .value emitted found kind noted

/-- The notes on the body of a head are on its statements. -/
theorem Heads.taken (tree : g.Tree) (heads : Heads g owner)
    (noted : note ∈ (body g outline.declarations scope owner).2) : Taken g scope outline note := by
  obtain ⟨part, member, noted⟩ := List.mem_flatMap.mp noted
  obtain ⟨root, stacked, rfl⟩ := List.mem_map.mp member
  unfold statement at noted
  split at noted
  · cases noted
  · next block found =>
    split at noted
    · next writable => exact Emitted.taken tree (.stated heads stacked found writable) noted
    · next unwritable =>
      cases List.mem_singleton.mp noted
      exact .statement heads stacked found unwritable

theorem mem_hardware_notes : note ∈ (hardware outline).flatMap (·.2) ↔ outline.type.exports = true ∧
    ∃ component ∈ outline.declarations.components, note ∈ (hardwareLine component).2 := by
  unfold hardware
  split
  · next exports => simp [exports, hardwareMethod]
  · next inside => simp [inside]

/-- The notes on a class are those that are taken. -/
theorem mem_written_notes (tree : g.Tree) (collected : Outline.collect? type name g = some outline) :
    note ∈ (written g scope outline).2 ↔ Taken g scope outline note := by
  have headed : ∀ {noted}, noted ∈ bodies g scope outline → ∃ owner, Heads g owner ∧
      noted.2 = (body g outline.declarations scope owner).2 := by
    intro noted listed
    rcases List.mem_append.mp listed with defined | handled
    · obtain ⟨owner, member, rfl⟩ := List.mem_map.mp defined
      exact ⟨owner, (Outline.heads_iff collected).mpr (.inl member), rfl⟩
    · obtain ⟨handler, member, rfl⟩ := List.mem_map.mp handled
      exact ⟨handler.block, (Outline.heads_iff collected).mpr (.inr ⟨handler, member, rfl⟩), rfl⟩
  rw [written, List.flatMap_append]
  constructor
  · intro noted
    rcases List.mem_append.mp noted with head | noted
    · exact .head head
    · rcases List.mem_append.mp noted with built | noted
      · obtain ⟨exports, component, declared, noted⟩ := mem_hardware_notes.mp built
        exact .component exports declared noted
      · obtain ⟨method, listed, noted⟩ := List.mem_flatMap.mp noted
        obtain ⟨owner, heads, is⟩ := headed listed
        exact heads.taken tree (is ▸ noted)
  · intro taken
    have inside : ∀ {id}, Emitted g outline.declarations scope id → ∀ note,
        note ∈ (expression g outline.declarations scope id).2 →
        note ∈ headUses outline ++ ((hardware outline).flatMap (·.2) ++ (bodies g scope outline).flatMap (·.2)) := by
      intro id emitted
      have among := (emitted.in_class tree collected).2
      rwa [written, List.flatMap_append] at among
    cases taken with
    | head listed => exact List.mem_append_left _ listed
    | component exports declared noted =>
      exact List.mem_append_right _ (List.mem_append_left _ (mem_hardware_notes.mpr ⟨exports, _, declared, noted⟩))
    | @statement owner id block heads member found unwritable =>
      obtain ⟨method, listed, -, is⟩ := heads.mem_bodies scope collected
      refine List.mem_append_right _ (List.mem_append_right _ (List.mem_flatMap.mpr ⟨method, listed, ?_⟩))
      rw [is]
      refine List.mem_flatMap.mpr ⟨_, List.mem_map_of_mem member, ?_⟩
      rw [statement, found]
      dsimp only
      rw [if_neg unwritable]
      exact List.mem_singleton_self _
    | value emitted found other noted => exact inside emitted _ noted
    | call emitted found kind carried noted =>
      refine inside emitted _ ?_
      rw [expression_call tree found kind carried]
      exact List.mem_append_left _ (List.mem_append_left _ noted)
    | library emitted found kind carried target =>
      refine inside emitted _ ?_
      rw [expression_call tree found kind carried]
      exact List.mem_append_right _ (mem_callExpr_notes.mpr ⟨_, target, rfl⟩)

/-- The complaints and the needs among the notes. -/
theorem mem_diagnostics_written {diagnostic : Diagnostic} (tree : g.Tree)
    (collected : Outline.collect? type name g = some outline) :
    diagnostic ∈ (written g scope outline).2.filterMap Note.diagnostic? ↔
      Taken g scope outline (.found diagnostic) := by
  rw [← mem_written_notes tree collected, List.mem_filterMap]
  constructor
  · rintro ⟨note, noted, is⟩
    cases note with
    | needs what => cases is
    | found problem => exact Option.some.inj is ▸ noted
  · exact fun noted => ⟨_, noted, rfl⟩

theorem mem_uses_written {what : Use} (tree : g.Tree) (collected : Outline.collect? type name g = some outline) :
    what ∈ (written g scope outline).2.filterMap Note.use? ↔ Taken g scope outline (.needs what) := by
  rw [← mem_written_notes tree collected, List.mem_filterMap]
  constructor
  · rintro ⟨note, noted, is⟩
    cases note with
    | needs what => exact Option.some.inj is ▸ noted
    | found problem => cases is
  · exact fun noted => ⟨_, noted, rfl⟩

end Code
end RobotBlocks
