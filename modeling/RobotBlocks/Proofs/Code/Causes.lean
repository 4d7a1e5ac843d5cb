import RobotBlocks.Proofs.Code.Notes

/-! Why there is a diagnostic. Each one comes from a handler that nothing sends, from a component without
a class, or from a block below another one: a statement or value that cannot be written, or a call that
does not fit its declaration. -/
namespace RobotBlocks

namespace Code

open RobotBlocks.Graph

variable {g : Graph} {own : Declarations} {scope : Scope} {id parent : BlockId} {block : Block}
  {call : CallState} {diagnostic : Diagnostic} {type : ModuleType} {name : String} {options : Options}
  {outline : Outline} {generated : Generated}

/-- What a diagnostic is about, one case for each place where the generator reports something. -/
inductive Cause (g : Graph) (own : Declarations) (scope : Scope) : Diagnostic → Prop where
  | noSender {id : BlockId} {block : Block} {call : CallState} {module : String}
      (found : g.block? id = some block) (kind : block.kind = .eventHandler) (carried : block.extra = .call call)
      (sender : call.target = .moduleFunction module) : Cause g own scope ⟨id, .noSender⟩
  | noClass {component : ComponentDecl} (declared : component ∈ own.components) :
      Cause g own scope ⟨component.block, .noClass component.name⟩
  | notStatement {id parent : BlockId} {block : Block} (up : g.Up id parent) (found : g.block? id = some block)
      (kind : block.kind ≠ .methodCall) : Cause g own scope ⟨id, .notStatement block.kind⟩
  | notNumber {id parent : BlockId} {block : Block} {text : String} (up : g.Up id parent)
      (found : g.block? id = some block) (kind : block.kind = .number) : Cause g own scope ⟨id, .notNumber text⟩
  | notValue {id parent : BlockId} {block : Block} (up : g.Up id parent) (found : g.block? id = some block)
      (kind : block.kind ≠ .methodCall) : Cause g own scope ⟨id, .notValue block.kind⟩
  | call {id parent : BlockId} {block : Block} {call : CallState} {complaint : Complaint} (up : g.Up id parent)
      (found : g.block? id = some block) (kind : block.kind = .methodCall)
      (carried : block.extra.call? = some call)
      (noted : .complain id complaint ∈ (resolveCall own scope id call).2.2) : Cause g own scope ⟨id, complaint⟩

/-! Expressions. -/

theorem resolveCall_block (noted : .found diagnostic ∈ (resolveCall own scope id call).2.2) :
    diagnostic.block = id := by
  unfold resolveCall at noted
  split at noted
  · dsimp only at noted
    split at noted
    · cases noted
    · cases List.mem_singleton.mp noted
      rfl
  · cases List.mem_singleton.mp noted
    rfl
  · cases noted

/-- The expressions of other blocks than calls raise complaints about these blocks. -/
theorem expression_value_cause (up : g.Up id parent) (found : g.block? id = some block)
    (other : block.kind ≠ .methodCall) (noted : .found diagnostic ∈ (expression g own scope id).2) :
    Cause g own scope diagnostic := by
  have leaf : Leaf id block (expression g own scope id) := expression_leaf found other
  generalize expression g own scope id = written at leaf noted
  cases leaf with
  | refused kind =>
    cases List.mem_singleton.mp noted
    exact .notNumber up found kind
  | none =>
    cases List.mem_singleton.mp noted
    exact .notValue up found other
  | _ => cases noted

/-! Methods. -/

/-- A complaint that is noted on a class is about a component, or about a block that hangs from another one. -/
theorem Taken.cause (tree : g.Tree) (taken : Taken g scope outline (.found diagnostic)) :
    Cause g outline.declarations scope diagnostic := by
  generalize is : Note.found diagnostic = note at taken
  cases taken with
  | head listed =>
    have none : diagnostic ∈ (headUses outline).filterMap Note.diagnostic? :=
      List.mem_filterMap.mpr ⟨_, is ▸ listed, rfl⟩
    rw [headUses_diagnostics] at none
    cases none
  | component exports declared noted =>
    subst is
    unfold hardwareLine at noted
    split at noted
    · cases List.mem_singleton.mp noted
      exact .noClass declared
    · dsimp only at noted
      split at noted
      · cases noted
      · cases List.mem_singleton.mp noted
  | statement heads member found unwritable =>
    cases is
    obtain ⟨parent, up⟩ := tree.up_of_mem_statementStack member
    refine .notStatement up found fun kind => unwritable ?_
    rw [kind]
    rfl
  | value emitted found other noted =>
    obtain ⟨parent, up⟩ := emitted.up tree
    exact expression_value_cause up found other (is ▸ noted)
  | call emitted found kind carried noted =>
    obtain ⟨parent, up⟩ := emitted.up tree
    subst is
    cases resolveCall_block noted
    exact .call up found kind carried noted
  | library => cases is

/-- An outline reports the handlers of library functions. -/
theorem Handler.collect_cause {blocks : List Block} {used : List String}
    (found : ∀ block ∈ blocks, g.block? block.id = some block) (member : diagnostic ∈ (collect blocks used).2) :
    Cause g own scope diagnostic := by
  induction blocks generalizing used with
  | nil => cases member
  | cons first rest ih =>
    have later := fun block listed => found block (List.mem_cons_of_mem _ listed)
    unfold collect at member
    split at member
    · next call kind carried =>
      split at member
      · next unsent =>
        rcases List.mem_cons.mp member with rfl | member
        · have sender : ∃ module, call.target = .moduleFunction module := by
            unfold baseName? at unsent
            cases target : call.target with
            | moduleFunction module => exact ⟨module, rfl⟩
            | _ => simp [target] at unsent
          obtain ⟨module, sender⟩ := sender
          exact .noSender (found first (List.mem_cons_self ..)) kind carried sender
        · exact ih later member
      · exact ih later member
    · exact ih later member

theorem Outline.cause (collected : Outline.collect? type name g = some outline)
    (member : diagnostic ∈ outline.diagnostics) : Cause g own scope diagnostic := by
  obtain ⟨className, -, rfl⟩ := Option.map_eq_some_iff.mp collected
  refine Handler.collect_cause (fun block listed => ?_) member
  obtain ⟨id, -, found⟩ := List.mem_filterMap.mp listed
  exact Graph.block?_id found ▸ found

/-- Every diagnostic of a module has a cause in its graph. -/
theorem generate_cause (tree : g.Tree) (made : generate type name g scope options = .ok generated)
    (member : diagnostic ∈ generated.diagnostics) : Cause g (.collect g) scope diagnostic := by
  obtain ⟨outline, collected, rfl⟩ := generate_eq tree made
  have own : outline.declarations = .collect g := Outline.declarations_eq collected
  rcases List.mem_append.mp member with reported | noted
  · exact Outline.cause collected reported
  · exact own ▸ Taken.cause tree ((mem_diagnostics_written tree collected).mp noted)

/-- What is wrong with a written call is reported. -/
theorem Emitted.reported {complaint : Complaint} (tree : g.Tree)
    (made : generate type name g scope options = .ok generated) (emitted : Emitted g (.collect g) scope id)
    (found : g.block? id = some block) (kind : block.kind = .methodCall) (carried : block.extra.call? = some call)
    (noted : .complain id complaint ∈ (resolveCall (.collect g) scope id call).2.2) :
    ⟨id, complaint⟩ ∈ generated.diagnostics := by
  obtain ⟨outline, collected, rfl⟩ := generate_eq tree made
  have own : outline.declarations = .collect g := Outline.declarations_eq collected
  rw [← own] at emitted noted
  obtain ⟨-, among⟩ := emitted.in_class tree collected
  have noted : .complain id complaint ∈ (expression g outline.declarations scope id).2 := by
    rw [expression_call tree found kind carried]
    exact List.mem_append_left _ (List.mem_append_left _ noted)
  exact List.mem_append_right _ (List.mem_filterMap.mpr ⟨_, among noted, rfl⟩)

end Code
end RobotBlocks
