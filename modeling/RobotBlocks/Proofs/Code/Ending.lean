import RobotBlocks.Proofs.Code.Handlers

/-! Generating ends. Expressions are written by a recursion that nothing bounds but the graph: a call asks for as many
arguments as its declaration has, and each of them is written in the same way. In a forest this recursion ends, in one
way, and on no missing block. So do the loops over stacks, trees and names, and the options and the type of the module
are all that can be refused. -/
namespace RobotBlocks.Code

open RobotBlocks.Graph

variable {g : Graph} {own : Declarations} {scope : Scope} {id : BlockId} {block : Block} {call : CallState}
  {result : Except GraphError (Noted Expr)} {type : ModuleType} {name : String} {options : Options}

/-! The recursion. -/

/-- The block that a call passes for an argument. -/
def passed? (g : Graph) (id : BlockId) (call : CallState) (i : Nat) : Option BlockId :=
  if i < call.args.length then g.plugged? id (Socket.arg i) else none

/-- The code of a call from that of its arguments. -/
def callCode (own : Declarations) (scope : Scope) (id : BlockId) (call : CallState) (args : Nat → Noted Expr) :
    Noted Expr :=
  let (name, arity, notes) := resolveCall own scope id call
  let given := (List.range arity).map args
  let (expr, uses) := callExpr call.target name (given.map (·.1))
  (expr, notes ++ given.flatMap (·.2) ++ uses)

/-- A finished run of the recursion, with its result. A block that is not there ends it, and so does an argument that
cannot be written; the arguments are written one after the other. -/
inductive Evaluates (g : Graph) (own : Declarations) (scope : Scope) :
    Option BlockId → Except GraphError (Noted Expr) → Prop where
  | empty : Evaluates g own scope none (.ok (.none, []))
  | absent {id : BlockId} {error : GraphError} (refused : g.get id = .error error) :
      Evaluates g own scope (some id) (.error error)
  | value {id : BlockId} {block : Block} (found : g.get id = .ok block) (other : block.kind ≠ .methodCall) :
      Evaluates g own scope (some id) (.ok (valueCode id block))
  | bare {id : BlockId} {block : Block} (found : g.get id = .ok block) (kind : block.kind = .methodCall)
      (carried : block.extra.call? = none) : Evaluates g own scope (some id) (.ok (.none, []))
  | call {id : BlockId} {block : Block} {call : CallState} {args : Nat → Noted Expr} (found : g.get id = .ok block)
      (kind : block.kind = .methodCall) (carried : block.extra.call? = some call)
      (written : ∀ i < (resolveCall own scope id call).2.1,
        Evaluates g own scope (passed? g id call i) (.ok (args i))) :
      Evaluates g own scope (some id) (.ok (callCode own scope id call args))
  | aborted {id : BlockId} {block : Block} {call : CallState} {args : Nat → Noted Expr} {last : Nat}
      {error : GraphError} (found : g.get id = .ok block) (kind : block.kind = .methodCall)
      (carried : block.extra.call? = some call) (asked : last < (resolveCall own scope id call).2.1)
      (written : ∀ i < last, Evaluates g own scope (passed? g id call i) (.ok (args i)))
      (refused : Evaluates g own scope (passed? g id call last) (.error error)) :
      Evaluates g own scope (some id) (.error error)

theorem expression_callCode (tree : g.Tree) (found : g.block? id = some block) (kind : block.kind = .methodCall)
    (carried : block.extra.call? = some call) :
    expression g own scope id = callCode own scope id call (argument g own scope id call) :=
  expression_call tree found kind carried

/-- Only the arguments that a call asks for matter to it. -/
theorem callCode_congr {args args' : Nat → Noted Expr}
    (same : ∀ i < (resolveCall own scope id call).2.1, args i = args' i) :
    callCode own scope id call args = callCode own scope id call args' := by
  have given : (List.range (resolveCall own scope id call).2.1).map args
      = (List.range (resolveCall own scope id call).2.1).map args' :=
    List.map_congr_left fun i within => same i (List.mem_range.mp within)
  simp only [callCode, given]

/-- By induction downwards: the recursion ends on the expression of the block, and on nothing else. -/
theorem evaluates_iff (tree : g.Tree) (present : g.contains id = true) :
    Evaluates g own scope (some id) result ↔ result = .ok (expression g own scope id) := by
  induction id using tree.descends.induction generalizing result with
  | h id ih =>
    obtain ⟨block, found⟩ := contains_iff_block.mp present
    have got : g.get id = .ok block := Graph.get_eq_ok.mpr found
    have below : ∀ (call : CallState) (i : Nat) (given : Except GraphError (Noted Expr)),
        Evaluates g own scope (passed? g id call i) given ↔ given = .ok (argument g own scope id call i) := by
      intro call i given
      unfold argument
      cases passed : passed? g id call i with
      | none =>
        rw [passed?] at passed
        rw [passed, Option.elim_none]
        constructor
        · rintro ⟨⟩
          rfl
        · rintro rfl
          exact .empty
      | some value =>
        have hangs := up_of_passed tree passed
        rw [passed?] at passed
        rw [passed, Option.elim_some]
        exact ih value hangs (Tree.contains_child hangs)
    constructor
    · intro run
      cases run with
      | absent refused => cases got.symm.trans refused
      | value there other =>
        cases got.symm.trans there
        rw [expression_value found other]
      | bare there kind carried =>
        cases got.symm.trans there
        rw [expression_bare found kind carried]
      | call there kind carried written =>
        cases got.symm.trans there
        rw [expression_callCode tree found kind carried]
        exact congrArg _ (callCode_congr fun i asked => Except.ok.inj ((below _ i _).mp (written i asked)))
      | aborted _ _ _ _ _ refused => cases (below _ _ _).mp refused
    · rintro rfl
      by_cases kind : block.kind = .methodCall
      · cases carried : block.extra.call? with
        | none =>
          rw [expression_bare found kind carried]
          exact .bare got kind carried
        | some call =>
          rw [expression_callCode tree found kind carried]
          exact .call got kind carried fun i _ => (below call i _).mpr rfl
      · rw [expression_value found kind]
        exact .value got kind

/-! What is refused. -/

theorem Options.isValid_eq_false : options.isValid = false ↔ options.indent = 0 ∨ 8 < options.indent := by
  rw [Options.isValid, Bool.and_eq_false_iff, decide_eq_false_iff_not, decide_eq_false_iff_not]
  exact or_congr Nat.pos_iff_ne_zero.not_left Nat.not_le

/-- Each error is about the options or, if these are fine, about the type. -/
theorem generate_eq_error_iff (tree : g.Tree) {error : GenerateError} :
    generate type name g scope options = .error error ↔
      options.isValid = false ∧ error = .invalidIndent options.indent ∨
        options.isValid = true ∧ type = .unknown ∧ error = .unsupportedType type := by
  cases valid : options.isValid with
  | false =>
    have refused : generate type name g scope options = .error (.invalidIndent options.indent) := by
      unfold generate
      rw [valid]
      rfl
    rw [refused]
    simp [eq_comm]
  | true =>
    by_cases known : type = .unknown
    · have refused : generate type name g scope options = .error (.unsupportedType type) := by
        subst known
        unfold generate
        rw [valid]
        rfl
      rw [refused]
      simp [known, eq_comm]
    · obtain ⟨generated, made⟩ : ∃ generated, generate type name g scope options = .ok generated :=
        (generate_ok_iff tree scope).mpr ⟨valid, known⟩
      rw [made]
      simp [known]

/-- The generator ends. It fails exactly if the indent is 0 or above 8 or the type of the module is unknown, and says
so; the blocks of a graph never make it fail. Every expression is written by a run of the recursion that finishes, and
every other run of it has the same result. Stacks, trees and the names of handlers are gone through to their ends. -/
theorem generate_ends (reached : g.Assembled) (type : ModuleType) (name : String) (scope : Scope)
    (options : Options) :
    ((∃ error, generate type name g scope options = .error error) ↔
      options.indent = 0 ∨ 8 < options.indent ∨ type = .unknown) ∧
    (∀ error, generate type name g scope options = .error error ↔
      (options.indent = 0 ∨ 8 < options.indent) ∧ error = .invalidIndent options.indent ∨
        ¬ (options.indent = 0 ∨ 8 < options.indent) ∧ type = .unknown ∧ error = .unsupportedType type) ∧
    (∀ id, g.contains id = true → ∃ noted, exprOf g (.collect g) scope id = .ok noted ∧
      ∀ result, Evaluates g (.collect g) scope (some id) result ↔ result = .ok noted) ∧
    (∀ first, Ends g.stackStep ([], if g.contains first then some first else none) (g.stack first, none)) ∧
    (∀ root, Ends g.walkStep ([], if g.contains root then [root] else []) (g.walk root, [])) ∧
    ∀ base used, ∃ n, Ends (Handler.searchStep base used) (base, 2) (Handler.uniqueName base used, n) := by
  have tree := reached.tree
  have errors : ∀ error, generate type name g scope options = .error error ↔
      (options.indent = 0 ∨ 8 < options.indent) ∧ error = .invalidIndent options.indent ∨
        ¬ (options.indent = 0 ∨ 8 < options.indent) ∧ type = .unknown ∧ error = .unsupportedType type := by
    intro error
    rw [generate_eq_error_iff tree, ← Options.isValid_eq_false, Bool.not_eq_false]
  refine ⟨?_, errors, fun id present => ⟨_, exprOf_eq tree present, fun result => evaluates_iff tree present⟩,
    tree.stack_ends, tree.walk_ends, Handler.uniqueName_ends⟩
  rw [← or_assoc]
  constructor
  · rintro ⟨error, refused⟩
    rcases (errors error).mp refused with ⟨indent, -⟩ | ⟨-, unknown, -⟩
    · exact .inl indent
    · exact .inr unknown
  · intro refused
    by_cases indent : options.indent = 0 ∨ 8 < options.indent
    · exact ⟨_, (errors _).mpr (.inl ⟨indent, rfl⟩)⟩
    · exact ⟨_, (errors _).mpr (.inr ⟨indent, refused.resolve_left indent, rfl⟩)⟩

/-- A definition and a number without their states, and a call of a method that nobody declares: the call in the body
passes a call in turn, and its number cannot be read. -/
theorem generate_ends_mangled :
    let call : CallState := { target := .selfModule, name := "go", args := [⟨"speed", none⟩] }
    let bare (id : Nat) (kind : Kind) (sockets : List Socket) (extra : ExtraState) : Operation :=
      .insert { id := ⟨id⟩, kind, fields := [], sockets, extra }
    let g := [bare 0 .methodDef [⟨Socket.stack, .statement⟩] .none, bare 1 .methodCall [⟨"ARG0", .value⟩] (.call call),
      bare 2 .methodCall [⟨"ARG0", .value⟩] (.call call), bare 3 .number [] (.call call),
      .mutate (.connectSocket ⟨0⟩ Socket.stack ⟨1⟩), .mutate (.connectSocket ⟨1⟩ "ARG0" ⟨2⟩),
      .mutate (.connectSocket ⟨2⟩ "ARG0" ⟨3⟩)].foldl Graph.operate Graph.empty
    g.contains ⟨1⟩ = true ∧ (g.parent? ⟨3⟩ = some ⟨2⟩ ∧ g.parent? ⟨2⟩ = some ⟨1⟩) ∧
    (∃ noted, exprOf g (.collect g) {} ⟨1⟩ = .ok noted ∧
      ∀ result, Evaluates g (.collect g) {} (some ⟨1⟩) result ↔ result = .ok noted) ∧
    (¬ ∃ error, generate .robot "R" g {} { indent := 8 } = .error error) ∧
    generate .robot "R" g {} { indent := 9 } = .error (.invalidIndent 9) := by
  intro call bare g
  have reached : g.Assembled := Assembled.empty.foldl_operate _
  have shows : g.contains ⟨1⟩ = true ∧ (g.parent? ⟨3⟩ = some ⟨2⟩ ∧ g.parent? ⟨2⟩ = some ⟨1⟩) := by decide +kernel
  obtain ⟨fails, -, written, -⟩ := generate_ends reached .robot "R" {} { indent := 8 }
  obtain ⟨-, errors, -⟩ := generate_ends reached .robot "R" {} { indent := 9 }
  refine ⟨shows.1, shows.2, written ⟨1⟩ shows.1, fun refused => ?_, (errors _).mpr (.inl ⟨by decide, rfl⟩)⟩
  exact absurd (fails.mp refused) (by decide)

end RobotBlocks.Code
