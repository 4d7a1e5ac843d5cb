import RobotBlocks.Code.Generator
import RobotBlocks.Proofs.Graph.Content
import RobotBlocks.Proofs.Result

/-! What is written of a graph. The generator fails nowhere on a forest and never meets its bound on the
depth of arguments, so the class it writes is told by equations: the expression of a call is made of those of
the blocks in its argument sockets, a body of the expressions of its statements, and the class of one
method for every definition and every handler. -/
namespace RobotBlocks.Code

open RobotBlocks.Graph

variable {g : Graph} {own : Declarations} {scope : Scope} {id : BlockId} {block : Block} {call : CallState}

/-! Expressions. -/

/-- The block that a call passes for an argument is plugged into it. -/
theorem up_of_passed (tree : g.Tree) {i : Nat} {value : BlockId}
    (passed : (if i < call.args.length then g.plugged? id (Socket.arg i) else none) = some value) :
    g.Up value id := by
  split at passed
  · exact tree.up_of_child? passed
  · cases passed

/-- What is plugged into a block is there, so its expression can be written. -/
theorem exprWithin_ok (tree : g.Tree) (own : Declarations) (scope : Scope) (depth : Nat)
    {plugged : Option BlockId} (present : ∀ id, plugged = some id → g.contains id = true) :
    ∃ noted, exprWithin g own scope depth plugged = .ok noted := by
  induction depth generalizing plugged with
  | zero => exact ⟨_, rfl⟩
  | succ depth ih =>
    cases plugged with
    | none => exact ⟨_, rfl⟩
    | some id =>
      obtain ⟨block, found⟩ := Graph.contains_iff_block.mp (present id rfl)
      have args : ∀ (call : CallState) (arity : Nat), ∃ args, (List.range arity).mapM (fun i =>
          exprWithin g own scope depth
            (if i < call.args.length then g.plugged? id (Socket.arg i) else none)) = .ok args := by
        intro call arity
        exact exists_mapM_eq_ok fun i _ => ih fun value passed =>
          Tree.contains_child (up_of_passed tree passed)
      unfold exprWithin
      simp only [Graph.get_eq_ok.mpr found, bind, Except.bind]
      cases block.kind with
      | number =>
        cases numeral? (block.fieldD Field.num) <;> exact ⟨_, rfl⟩
      | methodCall =>
        cases carried : block.extra.call? with
        | none => exact ⟨_, rfl⟩
        | some call =>
          obtain ⟨exprs, made⟩ := args call (resolveCall own scope id call).2.1
          simp only [made]
          exact ⟨_, rfl⟩
      | _ => exact ⟨_, rfl⟩

/-- Below a block there are fewer blocks than there are levels left. -/
theorem exprWithin_succ (tree : g.Tree) {depth : Nat} {plugged : Option BlockId}
    (present : ∀ id, plugged = some id → g.contains id = true)
    (enough : ∀ id, plugged = some id → g.size ≤ depth + g.depth id) :
    exprWithin g own scope (depth + 1) plugged = exprWithin g own scope depth plugged := by
  induction depth generalizing plugged with
  | zero =>
    cases plugged with
    | none => rfl
    | some id =>
      have shallow := tree.depth_lt_size (present id rfl)
      have deep := enough id rfl
      omega
  | succ depth ih =>
    cases plugged with
    | none => rfl
    | some id =>
      have args : ∀ (call : CallState) (i : Nat),
          exprWithin g own scope (depth + 1) (if i < call.args.length then g.plugged? id (Socket.arg i) else none)
            = exprWithin g own scope depth (if i < call.args.length then g.plugged? id (Socket.arg i) else none) := by
        intro call i
        refine ih (fun value passed => Tree.contains_child (up_of_passed tree passed)) fun value passed => ?_
        have deeper := tree.depth_child (up_of_passed tree passed)
        have deep := enough id rfl
        omega
      unfold exprWithin
      simp only [args]

/-- The expression of a block of a forest, with the notes on it. -/
def expression (g : Graph) (own : Declarations) (scope : Scope) (id : BlockId) : Noted Expr :=
  (exprOf g own scope id).toOption.getD (.none, [])

/-- What is written for an argument of a call: the expression of the block in its socket, or `None`. -/
def argument (g : Graph) (own : Declarations) (scope : Scope) (id : BlockId) (call : CallState) (i : Nat) :
    Noted Expr :=
  (if i < call.args.length then g.plugged? id (Socket.arg i) else none).elim (.none, []) (expression g own scope)

theorem exprOf_eq (tree : g.Tree) (present : g.contains id = true) :
    exprOf g own scope id = .ok (expression g own scope id) :=
  toOption_getD (exprWithin_ok tree own scope _ fun _ same => Option.some.inj same ▸ present) _

theorem exprWithin_argument (tree : g.Tree) (call : CallState) (i : Nat) :
    exprWithin g own scope g.size (if i < call.args.length then g.plugged? id (Socket.arg i) else none)
      = .ok (argument g own scope id call i) := by
  have inside : ∀ value, (if i < call.args.length then g.plugged? id (Socket.arg i) else none) = some value →
      g.contains value = true := fun value passed => Tree.contains_child (up_of_passed tree passed)
  rw [← exprWithin_succ tree inside fun value _ => Nat.le_add_right .., argument]
  cases passed : (if i < call.args.length then g.plugged? id (Socket.arg i) else none) with
  | none => rfl
  | some value => exact exprOf_eq tree (inside value passed)

/-- The expression of a call passes what its declaration takes. -/
theorem expression_call (tree : g.Tree) (found : g.block? id = some block) (kind : block.kind = .methodCall)
    (carried : block.extra.call? = some call) : expression g own scope id =
      let (name, arity, notes) := resolveCall own scope id call
      let args := (List.range arity).map (argument g own scope id call)
      let (expr, uses) := callExpr call.target name (args.map (·.1))
      (expr, notes ++ args.flatMap (·.2) ++ uses) := by
  have args : ∀ arity, (List.range arity).mapM (fun i => exprWithin g own scope g.size
      (if i < call.args.length then g.plugged? id (Socket.arg i) else none))
        = .ok ((List.range arity).map (argument g own scope id call)) :=
    fun arity => mapM_eq_ok fun i _ => exprWithin_argument tree call i
  rw [expression, exprOf, exprWithin, Graph.get_eq_ok.mpr found]
  simp only [bind, Except.bind, kind, carried, args]
  rfl

/-- A call without a target is written as `None`. -/
theorem expression_bare (found : g.block? id = some block) (kind : block.kind = .methodCall)
    (carried : block.extra.call? = none) : expression g own scope id = (.none, []) := by
  rw [expression, exprOf, exprWithin, Graph.get_eq_ok.mpr found]
  simp only [bind, Except.bind, kind, carried]
  rfl

/-- What is written for a block that is no call. -/
def valueCode (id : BlockId) (block : Block) : Noted Expr :=
  match block.kind with
  | .number =>
    match numeral? (block.fieldD Field.num) with
    | some numeral => (.number numeral, [])
    | none => (.number "0", [.complain id (.notNumber (Text.trim (block.fieldD Field.num)))])
  | .text => (.text (block.fieldD Field.text), [])
  | .boolean => (.bool (block.field? Field.bool = some "TRUE"), [])
  | .variableGet => (.variable (Text.identifier (block.fieldD Field.var)), [])
  | kind => (.none, [.complain id (.notValue kind)])

theorem expression_value (found : g.block? id = some block) (other : block.kind ≠ .methodCall) :
    expression g own scope id = valueCode id block := by
  rw [expression, exprOf, exprWithin, Graph.get_eq_ok.mpr found]
  simp only [bind, Except.bind, valueCode]
  cases kind : block.kind with
  | methodCall => exact absurd kind other
  | number => cases numeral? (block.fieldD Field.num) <;> rfl
  | _ => rfl

/-- The cases of what is written for a block that is no call, one for each kind of value. -/
inductive Leaf (id : BlockId) (block : Block) : Noted Expr → Prop where
  | number {numeral : String} (kind : block.kind = .number) (read : numeral? (block.fieldD Field.num) = some numeral) :
      Leaf id block (.number numeral, [])
  | refused (kind : block.kind = .number) (read : numeral? (block.fieldD Field.num) = none) :
      Leaf id block (.number "0", [.complain id (.notNumber (Text.trim (block.fieldD Field.num)))])
  | text (kind : block.kind = .text) : Leaf id block (.text (block.fieldD Field.text), [])
  | bool (kind : block.kind = .boolean) (value : Bool) : Leaf id block (.bool value, [])
  | get (kind : block.kind = .variableGet) :
      Leaf id block (.variable (Text.identifier (block.fieldD Field.var)), [])
  | none (other : block.kind.isValue = false) : Leaf id block (.none, [.complain id (.notValue block.kind)])

theorem expression_leaf (found : g.block? id = some block) (other : block.kind ≠ .methodCall) :
    Leaf id block (expression g own scope id) := by
  rw [expression_value found other, valueCode]
  cases kind : block.kind with
  | methodCall => exact absurd kind other
  | number =>
    cases read : numeral? (block.fieldD Field.num) with
    | none => exact .refused kind read
    | some numeral => exact .number kind read
  | text => exact .text kind
  | boolean => exact .bool kind _
  | variableGet => exact .get kind
  | _ =>
    dsimp only
    rw [← kind]
    exact .none (by rw [kind]; rfl)

/-- By induction downwards: what holds of all values and of calls whose arguments have it holds of every
expression. -/
theorem expression_induct (tree : g.Tree) (P : Noted Expr → Prop) (bare : P (.none, []))
    (leaf : ∀ {id block noted}, Leaf id block noted → P noted)
    (call : ∀ {id block call} (args : List (Noted Expr)), g.block? id = some block →
      block.extra.call? = some call → (∀ arg ∈ args, P arg) →
        let (name, _, notes) := resolveCall own scope id call
        let (expr, uses) := callExpr call.target name (args.map (·.1))
        P (expr, notes ++ args.flatMap (·.2) ++ uses))
    (present : g.contains id = true) : P (expression g own scope id) := by
  induction id using tree.descends.induction with
  | h id ih =>
    obtain ⟨block, found⟩ := Graph.contains_iff_block.mp present
    by_cases kind : block.kind = .methodCall
    · cases carried : block.extra.call? with
      | none =>
        rw [expression_bare found kind carried]
        exact bare
      | some state =>
        rw [expression_call tree found kind carried]
        refine call _ found carried fun arg member => ?_
        obtain ⟨i, -, rfl⟩ := List.mem_map.mp member
        unfold argument
        cases passed : (if i < state.args.length then g.plugged? id (Socket.arg i) else none) with
        | none => exact bare
        | some value =>
          have hangs := up_of_passed tree passed
          exact ih value hangs (Tree.contains_child hangs)
    · exact leaf (expression_leaf found kind)

/-! Bodies and methods. -/

/-- A statement as it is written, if it can be, with the notes on it. -/
def statement (g : Graph) (own : Declarations) (scope : Scope) (id : BlockId) : Noted (Option String) :=
  match g.block? id with
  | none => (none, [])
  | some block =>
    if block.kind = .methodCall || block.kind.isValue then
      (some (expression g own scope id).1.code, (expression g own scope id).2)
    else (none, [.complain id (.notStatement block.kind)])

theorem statements_eq (tree : g.Tree) {ids : List BlockId} (present : ∀ id ∈ ids, g.contains id = true) :
    statements g own scope ids = .ok ((ids.map (statement g own scope)).filterMap (·.1),
      (ids.map (statement g own scope)).flatMap (·.2)) := by
  induction ids with
  | nil => rfl
  | cons id rest ih =>
    have here := present id (List.mem_cons_self ..)
    obtain ⟨block, found⟩ := Graph.contains_iff_block.mp here
    have later := ih fun other member => present other (List.mem_cons_of_mem _ member)
    simp only [statements, Graph.get_eq_ok.mpr found, later, exprOf_eq tree here, bind, Except.bind, pure,
      Except.pure, List.map_cons, List.filterMap_cons, List.flatMap_cons, statement, found]
    by_cases writable : (decide (block.kind = .methodCall) || block.kind.isValue) = true
    · simp only [writable, if_true]
      rfl
    · simp only [writable]
      rfl

/-- The body of a definition or handler. -/
def body (g : Graph) (own : Declarations) (scope : Scope) (id : BlockId) : Noted (List String) :=
  let written := (g.statementStack id Socket.stack).map (statement g own scope)
  (written.filterMap (·.1), written.flatMap (·.2))

theorem bodyOf_eq (tree : g.Tree) (id : BlockId) : bodyOf g own scope id = .ok (body g own scope id) :=
  statements_eq tree fun _ => tree.contains_of_mem_statementStack

/-- The method of a method definition. -/
def definition (g : Graph) (own : Declarations) (scope : Scope) (id : BlockId) : Noted Method :=
  ({ name := Text.identifier ((g.block? id).elim "" Block.name)
     params := paramNames (((g.block? id).bind (·.extra.params?)).getD [])
     body := (body g own scope id).1 }, (body g own scope id).2)

theorem methodOf_eq (tree : g.Tree) (present : g.contains id = true) :
    methodOf g own scope id = .ok (definition g own scope id) := by
  obtain ⟨block, found⟩ := Graph.contains_iff_block.mp present
  simp only [methodOf, definition, Graph.get_eq_ok.mpr found, bodyOf_eq tree, found, bind, Except.bind, pure,
    Except.pure, Option.elim_some, Option.bind_some]

/-- The method of a handler. -/
def handling (g : Graph) (own : Declarations) (scope : Scope) (handler : Handler) : Noted Method :=
  ({ name := handler.methodName, params := paramNames handler.params
     body := (body g own scope handler.block).1 }, (body g own scope handler.block).2)

theorem handlerMethod_eq (tree : g.Tree) (handler : Handler) :
    handlerMethod g own scope handler = .ok (handling g own scope handler) := by
  simp only [handlerMethod, handling, bodyOf_eq tree, bind, Except.bind, pure, Except.pure]

/-! The class. -/

variable {type : ModuleType} {name : String} {options : Options} {outline : Outline} {generated : Generated}

/-- The methods of a class that stand for blocks, with the notes on them. -/
def bodies (g : Graph) (scope : Scope) (outline : Outline) : List (Noted Method) :=
  outline.methods.map (definition g outline.declarations scope)
    ++ outline.handlers.map (handling g outline.declarations scope)

/-- The method that builds the hardware, for a robot or a mechanism. -/
def hardware (outline : Outline) : List (Noted Method) :=
  if outline.type.exports then [hardwareMethod outline.declarations] else []

/-- The methods of a class that no block stands for. -/
def furniture (outline : Outline) : List Method :=
  initMethod outline :: (hardware outline).map (·.1)
    ++ if outline.handlers.isEmpty then [] else [registerMethod outline.handlers]

/-- The symbols that the head of a class needs. -/
def headUses (outline : Outline) : List Note :=
  .needs (.symbol (baseOf outline.type).1 (baseOf outline.type).2)
    :: (outline.opMode.elim [] decorators).map fun (symbol, _) => .needs (.symbol baseClasses symbol)

/-- The class of an outline, with the notes on it. -/
def written (g : Graph) (scope : Scope) (outline : Outline) : Noted Class :=
  ({ decorators := (outline.opMode.elim [] decorators).map fun (symbol, args) => "@" ++ symbol ++ args
     name := outline.className
     base := (baseOf outline.type).2
     methods := furniture outline ++ (bodies g scope outline).map (·.1) },
    headUses outline ++ (hardware outline ++ bodies g scope outline).flatMap (·.2))

theorem headUses_diagnostics (outline : Outline) : (headUses outline).filterMap Note.diagnostic? = [] := by
  refine List.filterMap_eq_nil_iff.mpr fun note member => ?_
  rcases List.mem_cons.mp member with rfl | mark
  · rfl
  · obtain ⟨_, -, rfl⟩ := List.mem_map.mp mark
    rfl

theorem classOf_eq (tree : g.Tree) (present : ∀ id ∈ outline.methods, g.contains id = true) :
    classOf g scope outline = .ok (written g scope outline) := by
  have methods : outline.methods.mapM (methodOf g outline.declarations scope)
      = .ok (outline.methods.map (definition g outline.declarations scope)) :=
    mapM_eq_ok fun id member => methodOf_eq tree (present id member)
  have handlers : outline.handlers.mapM (handlerMethod g outline.declarations scope)
      = .ok (outline.handlers.map (handling g outline.declarations scope)) :=
    mapM_eq_ok fun handler _ => handlerMethod_eq tree handler
  unfold classOf
  simp only [methods, handlers, bind, Except.bind, pure, Except.pure, written, furniture, headUses, hardware,
    bodies, List.map_append, List.append_assoc, List.cons_append]

end RobotBlocks.Code
