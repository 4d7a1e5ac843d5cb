import RobotBlocks.Proofs.Code.File
import RobotBlocks.Proofs.Session.Reconcile
import RobotBlocks.Proofs.Session.Regular

/-! Calls and the methods that they call. The definition of a method is written from the graph that has
it; a call of it is written from another graph, by what that graph is told of the declaration. They fit:
the call names the function as the definition does and passes one argument for each of its parameters,
whatever the call itself still shows. -/
namespace RobotBlocks

theorem Declarations.exported_methods (own : Declarations) : own.exported.methods ⊆ own.methods :=
  fun _ => List.mem_of_mem_filter

namespace Code

open RobotBlocks.Graph

variable {o g : Graph} {own known : Declarations} {scope : Scope} {id : BlockId} {block : Block}
  {call : CallState} {target : CallTarget} {method : MethodDecl} {type : ModuleType} {name : String}
  {options : Options} {outline : Outline}

/-! Declarations and where they are looked up. -/

/-- The graph that declares what calls of a target can refer to, and what the calling graph is told of
these declarations. -/
inductive Owner (g : Graph) (scope : Scope) : CallTarget → Graph → Declarations → Prop where
  | own : Owner g scope .selfModule g (.collect g)
  | robot {o : Graph} (told : scope.robot = some (Declarations.collect o).exported) :
      Owner g scope .robot o (Declarations.collect o).exported
  | mechanism {o : Graph} {inst module : String}
      (told : scope.mechanisms.get? module = some (Declarations.collect o).exported) :
      Owner g scope (.mechanism inst module) o (Declarations.collect o).exported

namespace Owner

theorem owner? (owner : Owner g scope target o known) : scope.owner? (.collect g) target = some known := by
  cases owner with
  | own => rfl
  | robot told => exact told
  | mechanism told => exact told

theorem wantsMethod (owner : Owner g scope call.target o known) : Scope.wantsEvent .methodCall call = false := by
  unfold Scope.wantsEvent
  generalize call.target = target at owner
  cases owner <;> rfl

theorem lookup (owner : Owner g scope call.target o known)
    (finds : known.findMethod? call.declaration call.name = some method) :
    scope.lookup (.collect g) .methodCall call = .found method.signature := by
  refine Scope.lookup_eq_found.mpr ⟨known, owner.owner?, ?_⟩
  rw [owner.wantsMethod]
  exact ⟨method, finds, rfl⟩

theorem declares (owner : Owner g scope target o known) (member : method ∈ known.methods) :
    method ∈ (Declarations.collect o).methods := by
  cases owner with
  | own => exact member
  | robot told => exact Declarations.exported_methods _ member
  | mechanism told => exact Declarations.exported_methods _ member

/-- The call of a function on what owns it. -/
theorem callExpr_eq (owner : Owner g scope target o known) (name : String) (args : List Expr) :
    ∃ receiver, callExpr target name args = (.call receiver (Text.identifier name) args, []) := by
  cases owner <;> exact ⟨_, rfl⟩

end Owner

/-! Definitions. -/

/-- A definition comes up once. -/
theorem Outline.methods_nodup (tree : g.Tree) (collected : Outline.collect? type name g = some outline) :
    outline.methods.Nodup := by
  rw [methods_eq collected]
  exact tree.topBlocks_nodup.filter _

/-- A class has one method for a method that its module declares. The methods of the class stand for no block,
for a definition or for a handler; the declaring block is among the definitions once, and what is written
for it has the declared name and parameters. -/
structure Defines (o : Graph) (scope : Scope) (outline : Outline) (c : Class) (method : MethodDecl) : Prop where
  methods : c.methods = furniture outline
    ++ outline.methods.map (fun id => (definition o outline.declarations scope id).1)
    ++ outline.handlers.map fun handler => (handling o outline.declarations scope handler).1
  once : outline.methods.count method.block = 1
  apart : ∀ handler ∈ outline.handlers, handler.block ≠ method.block
  name : (definition o outline.declarations scope method.block).1.name = method.identifier
  params : (definition o outline.declarations scope method.block).1.params
    = method.args.map fun param => Text.identifier param.name

theorem Defines.line {imports : List String} {c : Class} {code : String} (defines : Defines o scope outline c method)
    (prints : Prints options imports c code) : Text.HasLines code [indented options.indent
      (defLine method.identifier (method.args.map fun param => Text.identifier param.name))] := by
  have listed : method.block ∈ outline.methods := List.one_le_count_iff.mp (Nat.le_of_eq defines.once.symm)
  rw [← defines.name, ← defines.params]
  refine prints.head (defines.methods ▸ List.mem_append_left _ (List.mem_append_right _ ?_))
  exact List.mem_map_of_mem listed

theorem defines_of_collect (tree : o.Tree) (usual : o.Usual)
    (collected : Outline.collect? type name o = some outline)
    (member : method ∈ (Declarations.collect o).methods) :
    Defines o scope outline (written o scope outline).1 method := by
  obtain ⟨top, block, found, declares⟩ := Declarations.top_of_collect member
  obtain ⟨state, carried, shows⟩ := MethodDecl.ofBlock?_eq_some.mp declares
  have kind : block.kind = .methodDef := ExtraState.kind_of_method (carried ▸ usual.like found)
  refine ⟨?_, ?_, fun handler listed same => ?_, ?_, ?_⟩
  · simp only [written, bodies, List.map_append, List.map_map, List.append_assoc]
    rfl
  · exact List.count_eq_one_of_mem (Outline.methods_nodup tree collected)
      ((Outline.mem_methods collected).mpr ⟨top, block, found, kind⟩)
  · obtain ⟨-, other, _, there, handles, -⟩ := (Outline.mem_handlers collected).mp ⟨handler, listed, rfl⟩
    rw [same, found] at there
    cases there
    cases kind.symm.trans handles
  · rw [definition, found, shows]
    rfl
  · rw [definition, found, shows, Option.bind_some, carried]
    rfl

/-! Calls. -/

/-- A class has the call of a declared method. The block is written as a call of the function of the declared
name, in a line of some method, with one argument for each parameter: the expression of the block that is
plugged in, where the call has the socket and a block in it, and otherwise `None`. -/
structure Calls (g : Graph) (scope : Scope) (c : Class) (id : BlockId) (call : CallState) (method : MethodDecl)
    (receiver : Receiver) (args : List Expr) : Prop where
  expr : ∃ notes, exprOf g (.collect g) scope id = .ok (.call receiver method.identifier args, notes)
  stands : ∃ caller ∈ c.methods, ∃ line : Expr, line.code ∈ caller.body ∧
    (Expr.call receiver method.identifier args).Within line
  arity : args.length = method.args.length
  plugged : ∀ {i value}, i < method.args.length → i < call.args.length →
    g.plugged? id (Socket.arg i) = some value →
      ∃ arg notes, exprOf g (.collect g) scope value = .ok (arg, notes) ∧ args[i]? = some arg
  padded : ∀ {i}, i < method.args.length →
    (i < call.args.length → g.plugged? id (Socket.arg i) = none) → args[i]? = some .none

theorem Calls.line {imports : List String} {c : Class} {code : String} {receiver : Receiver} {args : List Expr}
    (calls : Calls g scope c id call method receiver args) (prints : Prints options imports c code) :
    ∃ line, Text.HasLines code [indented (2 * options.indent) line] ∧
      Inside (receiver.code ++ "." ++ method.identifier ++ "(" ++ ", ".intercalate (args.map Expr.code) ++ ")")
        line := by
  obtain ⟨caller, listed, line, stands, within⟩ := calls.stands
  have inside := within.inside
  rw [Expr.code_call] at inside
  exact ⟨line.code, prints.statement listed stands, inside⟩

theorem calls_of_emitted (tree : g.Tree) (collected : Outline.collect? type name g = some outline)
    (owner : Owner g scope call.target o known) (emitted : Emitted g (.collect g) scope id)
    (found : g.block? id = some block) (kind : block.kind = .methodCall) (carried : block.extra.call? = some call)
    (finds : known.findMethod? call.declaration call.name = some method)
    (named : method.identifier = Text.identifier method.name) :
    ∃ receiver args, Calls g scope (written g scope outline).1 id call method receiver args := by
  have own : outline.declarations = .collect g := Outline.declarations_eq collected
  have resolved := owner.lookup finds
  let args := (List.range method.args.length).map fun i => (argument g (.collect g) scope id call i).1
  obtain ⟨receiver, shape⟩ := owner.callExpr_eq method.name args
  have expr : (expression g (.collect g) scope id).1 = .call receiver method.identifier args := by
    rw [expression_call tree found kind carried, resolveCall, resolved]
    simp only [List.map_map]
    exact (congrArg Prod.fst shape).trans (by rw [named])
  have given : ∀ {i}, i < method.args.length → args[i]? = some (argument g (.collect g) scope id call i).1 := by
    intro i below
    simp [args, below]
  have written : exprOf g (.collect g) scope id
      = .ok (.call receiver method.identifier args, (expression g (.collect g) scope id).2) := by
    rw [exprOf_eq tree (Graph.contains_iff_block.mpr ⟨block, found⟩), ← expr]
  refine ⟨receiver, args, ⟨_, written⟩, ?_, by simp [args], ?_, ?_⟩
  · rw [← own] at emitted expr
    obtain ⟨⟨caller, listed, line, stands, within⟩, -⟩ := emitted.in_class tree collected
    exact ⟨caller, listed, line, stands, expr ▸ within⟩
  · intro i value taken shown plugged
    have present : g.contains value = true := Tree.contains_child (tree.up_of_child? plugged)
    refine ⟨(expression g (.collect g) scope value).1, _, exprOf_eq tree present, (given taken).trans ?_⟩
    rw [argument, if_pos shown, plugged, Option.elim_some]
  · intro i taken empty
    rw [given taken, argument]
    split
    · next shown => rw [empty shown, Option.elim_none]
    · rfl

/-- Whatever a written call shows, it fits the method to which it resolves: the class of the module that
declares the method has one definition for it, and the call names that function and passes what it takes. Both
stand in lines of the generated files. -/
theorem call_fits_definition (owned : o.Reachable) (usual : o.Usual) (calling : g.Reachable)
    (owner : Owner g scope call.target o known) (emitted : Emitted g (.collect g) scope id)
    (found : g.block? id = some block) (kind : block.kind = .methodCall) (carried : block.extra = .call call)
    (finds : known.findMethod? call.declaration call.name = some method)
    {type' : ModuleType} {options' : Options} (supported : type ≠ .unknown) (valid : options.isValid = true)
    (supported' : type' ≠ .unknown) (valid' : options'.isValid = true) (name name' : String) (scope' : Scope) :
    (scope.lookup (.collect g) .methodCall call = .found method.signature ∧
      method.identifier = Text.identifier method.name) ∧
    (∃ generated imports outline c, generate type' name' o scope' options' = .ok generated ∧
      Prints options' imports c generated.code ∧ Outline.collect? type' name' o = some outline ∧
      Defines o scope' outline c method ∧ Text.HasLines generated.code [indented options'.indent
        (defLine method.identifier (method.args.map fun param => Text.identifier param.name))]) ∧
    ∃ generated imports c receiver args, generate type name g scope options = .ok generated ∧
      Prints options imports c generated.code ∧ Calls g scope c id call method receiver args ∧
      ∃ line, Text.HasLines generated.code [indented (2 * options.indent) line] ∧
        Inside (receiver.code ++ "." ++ method.identifier ++ "(" ++ ", ".intercalate (args.map Expr.code) ++ ")")
          line := by
  have member := owner.declares (Declarations.findMethod?_mem finds)
  obtain ⟨-, _, -, declares⟩ := Declarations.top_of_collect member
  have named : method.identifier = Text.identifier method.name := by
    obtain ⟨state, -, rfl⟩ := MethodDecl.ofBlock?_eq_some.mp declares
    rfl
  obtain ⟨made', accepted'⟩ : ∃ generated, generate type' name' o scope' options' = .ok generated :=
    (generate_ok_iff owned.sound scope').mpr ⟨valid', supported'⟩
  obtain ⟨made, accepted⟩ : ∃ generated, generate type name g scope options = .ok generated :=
    (generate_ok_iff calling.sound scope).mpr ⟨valid, supported⟩
  obtain ⟨outline', collected', -⟩ := generate_eq owned.sound accepted'
  obtain ⟨outline, collected, -⟩ := generate_eq calling.sound accepted
  obtain ⟨receiver, args, calls⟩ := calls_of_emitted calling.sound collected owner emitted found kind
    (by rw [carried]; rfl) finds named
  have defines : Defines o scope' outline' (written o scope' outline').1 method :=
    defines_of_collect owned.sound usual collected' member
  have prints' := generate_prints owned.sound accepted' collected'
  have prints := generate_prints calling.sound accepted collected
  exact ⟨⟨owner.lookup finds, named⟩,
    ⟨_, _, outline', _, accepted', prints', collected', defines, defines.line prints'⟩,
    _, _, _, receiver, args, accepted, prints, calls, calls.line prints⟩

/-- The call shows an old name and one parameter; the method has got another name and two. -/
theorem call_fits_definition_stale :
    let params : List Parameter := [⟨"top speed", none⟩, ⟨"time", none⟩]
    let o := [Mutation.add .methodDef (.method { visibility := .outside, params }),
      .setField ⟨0⟩ Field.name "go fast"].foldl Graph.mutate Graph.empty
    let call : CallState :=
      { target := .robot, name := "go", args := [⟨"speed", none⟩], declaration := some ⟨0⟩ }
    let g := [Mutation.add .methodDef (.method {}), .add .methodCall (.call call),
      .connectSocket ⟨0⟩ Socket.stack ⟨1⟩, .add .number .none, .setField ⟨2⟩ Field.num "5",
      .connectSocket ⟨1⟩ "ARG0" ⟨2⟩].foldl Graph.mutate Graph.empty
    let scope : Scope := { robot := some (Declarations.collect o).exported }
    (∃ generated imports outline c, generate .robot "R" o {} {} = .ok generated ∧
      Prints {} imports c generated.code ∧ Outline.collect? .robot "R" o = some outline ∧
      Defines o {} outline c ⟨⟨0⟩, "go fast", "go_fast", .outside, none, params⟩ ∧
      Text.HasLines generated.code ["    def go_fast(self, top_speed, time):"]) ∧
    ∃ generated imports c receiver args, generate .mechanism "M" g scope {} = .ok generated ∧
      Prints {} imports c generated.code ∧
      Calls g scope c ⟨1⟩ call ⟨⟨0⟩, "go fast", "go_fast", .outside, none, params⟩ receiver args ∧
      args.length = 2 ∧ args[1]? = some .none := by
  intro params o call g scope
  have owned : o.Reachable := Reachable.empty.foldl_mutate _
  have calling : g.Reachable := Reachable.empty.foldl_mutate _
  have usual : o.Usual := by
    intro block member
    obtain rfl := List.mem_singleton.mp member
    trivial
  have owner : Owner g scope call.target o (Declarations.collect o).exported := .robot rfl
  have shows : (g.topBlocks = [⟨0⟩] ∧ g.statementStack ⟨0⟩ Socket.stack = [⟨1⟩]) ∧
      (g.block? ⟨0⟩).map (·.kind) = some .methodDef ∧
      (g.block? ⟨1⟩).map (fun block => (block.kind, block.extra)) = some (.methodCall, .call call) := by
    decide +kernel
  have finds : (Declarations.collect o).exported.findMethod? call.declaration call.name
      = some ⟨⟨0⟩, "go fast", "go_fast", .outside, none, params⟩ := by
    decide +kernel
  obtain ⟨⟨top, stack⟩, definition, calls⟩ := shows
  obtain ⟨head, headFound, headKind⟩ := Option.map_eq_some_iff.mp definition
  obtain ⟨block, found, is⟩ := Option.map_eq_some_iff.mp calls
  obtain ⟨kind, carried⟩ := Prod.mk.inj is
  have emitted : Emitted g (.collect g) scope ⟨1⟩ :=
    .stated (.definition (by rw [top]; exact List.mem_singleton_self _) headFound headKind)
      (by rw [stack]; exact List.mem_singleton_self _) found (by rw [kind]; rfl)
  have supported : ModuleType.mechanism ≠ .unknown := by decide
  have supported' : ModuleType.robot ≠ .unknown := by decide
  have valid : ({} : Options).isValid = true := by decide
  obtain ⟨-, ⟨made', imports', outline, c', accepted', prints', collected, defines, line⟩, made, imports, c, receiver,
      args, accepted, prints, fits, -⟩ :=
    call_fits_definition owned usual calling owner emitted found kind carried finds supported valid supported'
      valid "M" "R" {}
  have opens : indented ({} : Options).indent (defLine "go_fast" (params.map fun param => Text.identifier param.name))
      = "    def go_fast(self, top_speed, time):" := by decide +kernel
  exact ⟨⟨made', imports', outline, c', accepted', prints', collected, defines, opens ▸ line⟩,
    made, imports, c, receiver, args, accepted, prints, fits, fits.arity,
    fits.padded (by decide) fun shown => absurd shown (by decide)⟩

end Code
end RobotBlocks
