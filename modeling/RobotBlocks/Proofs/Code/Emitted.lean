import RobotBlocks.Proofs.Code.Total

/-! Which blocks are written, and where. A body is written for every head, an expression for every statement
of a body that has one, and then for the arguments that calls pass. The expression stands in a line of
the class, and the notes on it come with those on the class. -/
namespace RobotBlocks.Code

open RobotBlocks.Graph

variable {g : Graph} {own : Declarations} {scope : Scope} {id : BlockId} {block : Block} {call : CallState}
  {type : ModuleType} {name : String} {options : Options} {outline : Outline} {generated : Generated}

/-! Heads. -/

/-- A top block whose statements are written: a method definition, or a handler of an event that
something sends. -/
inductive Heads (g : Graph) : BlockId → Prop where
  | definition {id : BlockId} {block : Block} (top : id ∈ g.topBlocks) (found : g.block? id = some block)
      (kind : block.kind = .methodDef) : Heads g id
  | handler {id : BlockId} {block : Block} {call : CallState} (top : id ∈ g.topBlocks)
      (found : g.block? id = some block) (kind : block.kind = .eventHandler) (carried : block.extra = .call call)
      (sent : ∀ module, call.target ≠ .moduleFunction module) : Heads g id

namespace Handler

theorem baseName?_isSome : (baseName? call).isSome = true ↔ ∀ module, call.target ≠ .moduleFunction module := by
  unfold baseName?
  cases call.target <;> simp

/-- By induction on the blocks; which names are used up does not matter. -/
theorem mem_collect (blocks : List Block) (used : List String) (id : BlockId) :
    (∃ handler ∈ (collect blocks used).1, handler.block = id) ↔ ∃ block ∈ blocks, block.id = id ∧
      block.kind = .eventHandler ∧ ∃ call, block.extra = .call call ∧ (baseName? call).isSome = true := by
  induction blocks generalizing used with
  | nil => simp [collect]
  | cons first rest ih =>
    unfold collect
    split
    · next call kind carried =>
      split
      · next unsent =>
        simp only [ih, List.mem_cons, exists_eq_or_imp, carried, ExtraState.call.injEq, exists_eq_left', unsent,
          Option.isSome_none, Bool.false_eq_true, and_false, false_or]
      · next base sent =>
        simp only [List.mem_cons, exists_eq_or_imp, ih, kind, carried, ExtraState.call.injEq, exists_eq_left', sent,
          Option.isSome_some, and_true]
    · next other =>
      rw [ih]
      constructor
      · rintro ⟨block, member, rest⟩
        exact ⟨block, List.mem_cons_of_mem _ member, rest⟩
      · rintro ⟨block, member, same, kind, call, carried, sent⟩
        rcases List.mem_cons.mp member with rfl | later
        · exact (other call kind carried).elim
        · exact ⟨block, later, same, kind, call, carried, sent⟩

end Handler

theorem Outline.declarations_eq (collected : Outline.collect? type name g = some outline) :
    outline.declarations = .collect g := by
  obtain ⟨className, -, rfl⟩ := Option.map_eq_some_iff.mp collected
  rfl

theorem Outline.mem_handlers (collected : Outline.collect? type name g = some outline) :
    (∃ handler ∈ outline.handlers, handler.block = id) ↔
      id ∈ g.topBlocks ∧ ∃ block call, g.block? id = some block ∧ block.kind = .eventHandler ∧
        block.extra = .call call ∧ ∀ module, call.target ≠ .moduleFunction module := by
  obtain ⟨className, -, rfl⟩ := Option.map_eq_some_iff.mp collected
  dsimp only
  rw [Handler.mem_collect]
  simp only [List.mem_filterMap, Handler.baseName?_isSome]
  constructor
  · rintro ⟨block, ⟨top, listed, found⟩, rfl, kind, call, carried, sent⟩
    cases Graph.block?_id found
    exact ⟨listed, block, call, found, kind, carried, sent⟩
  · rintro ⟨top, block, call, found, kind, carried, sent⟩
    exact ⟨block, ⟨id, top, found⟩, Graph.block?_id found, kind, call, carried, sent⟩

theorem Outline.heads_iff (collected : Outline.collect? type name g = some outline) : Heads g id ↔
    id ∈ outline.methods ∨ ∃ handler ∈ outline.handlers, handler.block = id := by
  rw [Outline.mem_methods collected, Outline.mem_handlers collected]
  constructor
  · rintro (⟨top, found, kind⟩ | ⟨top, found, kind, carried, sent⟩)
    · exact .inl ⟨top, _, found, kind⟩
    · exact .inr ⟨top, _, _, found, kind, carried, sent⟩
  · rintro (⟨top, block, found, kind⟩ | ⟨top, block, call, found, kind, carried, sent⟩)
    · exact .definition top found kind
    · exact .handler top found kind carried sent

/-- The body of a head is that of a method of the class. -/
theorem Heads.mem_bodies (scope : Scope) (heads : Heads g id)
    (collected : Outline.collect? type name g = some outline) : ∃ noted ∈ bodies g scope outline,
      noted.1.body = (body g outline.declarations scope id).1 ∧
      noted.2 = (body g outline.declarations scope id).2 := by
  rcases (Outline.heads_iff collected).mp heads with member | ⟨handler, member, rfl⟩
  · exact ⟨_, List.mem_append_left _ (List.mem_map_of_mem member), rfl, rfl⟩
  · exact ⟨_, List.mem_append_right _ (List.mem_map_of_mem member), rfl, rfl⟩

/-! Expressions inside expressions. -/

namespace Expr

/-- The arguments of a call or of an event that is fired. -/
def args : Expr → List Expr
  | .call _ _ args | .fire _ args => args
  | _ => []

/-- One expression stands somewhere in the other. -/
inductive Within : Expr → Expr → Prop where
  | refl (expr : Expr) : Within expr expr
  | arg {inner expr outer : Expr} (member : expr ∈ outer.args) (within : Within inner expr) : Within inner outer

theorem Within.trans {inner expr outer : Expr} (first : Within inner expr) (second : Within expr outer) :
    Within inner outer := by
  induction second with
  | refl => exact first
  | arg member _ ih => exact .arg member ih

end Expr

theorem callExpr_args (target : CallTarget) (name : String) (args : List Expr) :
    (callExpr target name args).1.args = args := by
  cases target <;> rfl

/-- The blocks for which an expression is written. -/
inductive Emitted (g : Graph) (own : Declarations) (scope : Scope) : BlockId → Prop where
  | stated {owner id : BlockId} {block : Block} (heads : Heads g owner)
      (member : id ∈ g.statementStack owner Socket.stack) (found : g.block? id = some block)
      (writable : (block.kind = .methodCall || block.kind.isValue) = true) : Emitted g own scope id
  | passed {caller id : BlockId} {block : Block} {call : CallState} {i : Nat}
      (emitted : Emitted g own scope caller) (found : g.block? caller = some block)
      (kind : block.kind = .methodCall) (carried : block.extra.call? = some call)
      (taken : i < (resolveCall own scope caller call).2.1) (shown : i < call.args.length)
      (plugged : g.plugged? caller (Socket.arg i) = some id) : Emitted g own scope id

namespace Emitted

/-- What is written of an argument is part of what is written of the call. -/
theorem argument_within {caller : BlockId} {i : Nat} (tree : g.Tree) (found : g.block? caller = some block)
    (kind : block.kind = .methodCall) (carried : block.extra.call? = some call)
    (taken : i < (resolveCall own scope caller call).2.1) (shown : i < call.args.length)
    (plugged : g.plugged? caller (Socket.arg i) = some id) :
    (expression g own scope id).1.Within (expression g own scope caller).1 ∧
      (expression g own scope id).2 ⊆ (expression g own scope caller).2 := by
  have given : argument g own scope caller call i = expression g own scope id := by
    rw [argument, if_pos shown, plugged, Option.elim_some]
  have member : expression g own scope id ∈
      (List.range (resolveCall own scope caller call).2.1).map (argument g own scope caller call) :=
    List.mem_map.mpr ⟨i, List.mem_range.mpr taken, given⟩
  rw [expression_call tree found kind carried]
  refine ⟨.arg ?_ (.refl _), fun note noted => ?_⟩
  · rw [callExpr_args]
    exact List.mem_map_of_mem member
  · exact List.mem_append_left _ (List.mem_append_right _ (List.mem_flatMap.mpr ⟨_, member, noted⟩))

/-- By induction on how the block comes to be written: its expression stands in that of a statement. -/
theorem in_statement (tree : g.Tree) (emitted : Emitted g own scope id) :
    ∃ owner root, Heads g owner ∧ root ∈ g.statementStack owner Socket.stack ∧
      statement g own scope root = (some (expression g own scope root).1.code, (expression g own scope root).2) ∧
      (expression g own scope id).1.Within (expression g own scope root).1 ∧
      (expression g own scope id).2 ⊆ (expression g own scope root).2 := by
  induction emitted with
  | @stated owner id block heads member found writable =>
    refine ⟨owner, id, heads, member, ?_, .refl _, List.Subset.refl _⟩
    rw [statement, found]
    exact if_pos writable
  | passed emitted found kind carried taken shown plugged ih =>
    obtain ⟨owner, root, heads, member, is, within, noted⟩ := ih
    obtain ⟨inside, more⟩ := argument_within tree found kind carried taken shown plugged
    exact ⟨owner, root, heads, member, is, inside.trans within, fun _ own => noted (more own)⟩

/-- The expression of a written block stands in a line of the class, and its notes are among those on
the class. -/
theorem in_class (tree : g.Tree) (collected : Outline.collect? type name g = some outline)
    (emitted : Emitted g outline.declarations scope id) :
    (∃ method ∈ (written g scope outline).1.methods, ∃ expr : Expr, expr.code ∈ method.body ∧
      (expression g outline.declarations scope id).1.Within expr) ∧
    (expression g outline.declarations scope id).2 ⊆ (written g scope outline).2 := by
  obtain ⟨owner, root, heads, member, is, within, noted⟩ := emitted.in_statement tree
  obtain ⟨method, listed, lines, notes⟩ := heads.mem_bodies scope collected
  have among : statement g outline.declarations scope root ∈
      (g.statementStack owner Socket.stack).map (statement g outline.declarations scope) :=
    List.mem_map_of_mem member
  refine ⟨⟨method.1, List.mem_append_right _ (List.mem_map_of_mem listed), _, ?_, within⟩, fun note own => ?_⟩
  · rw [lines]
    exact List.mem_filterMap.mpr ⟨_, among, by rw [is]⟩
  · refine List.mem_append_right _ (List.mem_flatMap.mpr ⟨method, List.mem_append_right _ listed, ?_⟩)
    rw [notes]
    exact List.mem_flatMap.mpr ⟨_, among, by rw [is]; exact noted own⟩

end Emitted
end RobotBlocks.Code
