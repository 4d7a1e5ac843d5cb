import RobotBlocks.Proofs.Graph.Mirrored
import RobotBlocks.Proofs.Graph.Storable
import RobotBlocks.Proofs.Session.Document

/-! The code of a graph that was stored and loaded again. The generator looks at no warning, at no event
that waits and not at the counter of ids, and that is all that storing leaves out. So the loaded graph
stands for the same code, and what could not be written of it could not be written before. -/
namespace RobotBlocks.Code

open RobotBlocks.Graph

variable {g h : Graph} (mirrors : g.Mirrors h) (tree : g.Tree) (tree' : h.Tree) (own : Declarations)
  (scope : Scope)
include mirrors tree tree'

/-! Expressions and methods. -/

/-- By induction on the depth: the arguments of a call are those of its image. -/
theorem exprWithin_mirrors (depth : Nat) (plugged : Option BlockId) :
    exprWithin h own scope depth plugged = exprWithin g own scope depth plugged := by
  induction depth generalizing plugged with
  | zero => rfl
  | succ depth ih =>
    cases plugged with
    | none => rfl
    | some id =>
      unfold exprWithin
      simp only [ih, mirrors.plugged? tree tree']
      refine mirrors.get_bind (fun block => ?_) id
      simp only [Block.kind_cleared, Block.extra_cleared, Block.fieldD_cleared, Block.field?_cleared]
      rfl

theorem exprOf_mirrors (id : BlockId) : exprOf h own scope id = exprOf g own scope id := by
  rw [exprOf, exprOf, mirrors.size, exprWithin_mirrors mirrors tree tree']

theorem statements_mirrors (ids : List BlockId) :
    statements h own scope ids = statements g own scope ids := by
  induction ids with
  | nil => rfl
  | cons id rest ih =>
    unfold statements
    simp only [ih, exprOf_mirrors mirrors tree tree']
    exact mirrors.get_bind (fun _ => rfl) id

theorem bodyOf_mirrors (id : BlockId) : bodyOf h own scope id = bodyOf g own scope id := by
  rw [bodyOf, bodyOf, mirrors.statementStack tree tree', statements_mirrors mirrors tree tree']

theorem methodOf_mirrors (id : BlockId) : methodOf h own scope id = methodOf g own scope id := by
  unfold methodOf
  simp only [bodyOf_mirrors mirrors tree tree']
  exact mirrors.get_bind (fun _ => rfl) id

theorem handlerMethod_mirrors (handler : Handler) :
    handlerMethod h own scope handler = handlerMethod g own scope handler := by
  rw [handlerMethod, handlerMethod, bodyOf_mirrors mirrors tree tree']

/-! The outline and the class. -/

omit mirrors tree tree' in
theorem Handler.collect_cleared (blocks : List Block) (used : List String) :
    collect (blocks.map Block.cleared) used = collect blocks used := by
  induction blocks generalizing used with
  | nil => rfl
  | cons block rest ih =>
    simp only [List.map_cons, collect, ih]
    rfl

theorem Outline.collect?_mirrors (type : ModuleType) (name : String) :
    Outline.collect? type name h = Outline.collect? type name g := by
  have tops : (h.topBlocks.filterMap h.block?).map Block.cleared
      = (g.topBlocks.filterMap g.block?).map Block.cleared := by
    rw [mirrors.topBlocks tree tree', List.map_filterMap, List.map_filterMap]
    exact List.filterMap_congr fun id _ => mirrors.blocks id
  have handlers : Handler.collect (h.topBlocks.filterMap h.block?) []
      = Handler.collect (g.topBlocks.filterMap g.block?) [] := by
    rw [← Handler.collect_cleared, tops, Handler.collect_cleared]
  have definitions : ∀ blocks : List Block,
      ((blocks.map Block.cleared).filter fun block => block.kind = .methodDef).map (·.id)
        = (blocks.filter fun block => block.kind = .methodDef).map (·.id) := by
    intro blocks
    rw [List.filter_map, List.map_map]
    rfl
  have methods : ((h.topBlocks.filterMap h.block?).filter fun block => block.kind = .methodDef).map (·.id)
      = ((g.topBlocks.filterMap g.block?).filter fun block => block.kind = .methodDef).map (·.id) := by
    rw [← definitions, tops, definitions]
  simp only [Outline.collect?, handlers, methods, mirrors.collect tree tree', mirrors.opMode tree tree']

theorem classOf_mirrors (outline : Outline) : classOf h scope outline = classOf g scope outline := by
  have defs : ∀ own, methodOf h own scope = methodOf g own scope := fun own =>
    funext (methodOf_mirrors mirrors tree tree' own scope)
  have handlers : ∀ own, handlerMethod h own scope = handlerMethod g own scope := fun own =>
    funext (handlerMethod_mirrors mirrors tree tree' own scope)
  simp only [classOf, defs, handlers]

theorem generate_mirrors (type : ModuleType) (name : String) (options : Options) :
    generate type name h scope options = generate type name g scope options := by
  simp only [generate, Outline.collect?_mirrors mirrors tree tree', classOf_mirrors mirrors tree tree']

omit mirrors tree tree' in
/-- A graph generates the same code, declarations and diagnostics, or fails with the same error, before
it is stored and after it is loaded again. -/
theorem generate_ofForest_toForest (reached : g.Reachable) (loaded : ofForest g.toForest = .ok h)
    (type : ModuleType) (name : String) (scope : Scope) (options : Options) :
    generate type name h scope options = generate type name g scope options := by
  have sound := reached.sound
  obtain ⟨mirrors, sound'⟩ := sound.mirrors_ofForest loaded
  exact generate_mirrors mirrors sound.tree sound'.tree scope type name options

omit mirrors tree tree' in
/-- The warning of a call is lost when its graph is stored; what is generated of the call stays. -/
theorem generate_ofForest_toForest_warned :
    let edits : List Mutation := [.add .methodDef (.method {}), .setField ⟨0⟩ Field.name "go",
      .add .methodCall (.call { name := "stop" }), .connectSocket ⟨0⟩ Socket.stack ⟨1⟩,
      .setWarning ⟨1⟩ (some "unused")]
    let g := edits.foldl Graph.mutate Graph.empty
    ∃ loaded, ofForest g.toForest = .ok loaded ∧ loaded.block? ⟨1⟩ ≠ g.block? ⟨1⟩ ∧
      generate .robot "A" loaded {} {} = generate .robot "A" g {} {} ∧
      (generate .robot "A" loaded {} {}).toOption.map (·.diagnostics) = some [⟨⟨1⟩, .missing "stop"⟩] := by
  intro edits g
  have reached : g.Reachable := Reachable.empty.foldl_mutate edits
  obtain ⟨loaded, stored⟩ : ∃ loaded, ofForest g.toForest = .ok loaded := ⟨_, rfl⟩
  have same := generate_ofForest_toForest reached stored .robot "A" {} {}
  refine ⟨loaded, stored, ?_, same, ?_⟩
  · cases stored
    decide
  · rw [same]
    rfl

end RobotBlocks.Code
