import RobotBlocks.Proofs.Code.Causes
import RobotBlocks.Proofs.Session.Rearrangement

/-! The references of a module. A call has code where a body states it or passes it on, a handler where it is
a top block that something sends events to. A call that does not fit its declaration is reported under its
block; of a handler nothing is reported, whether or not there is an event of its name. -/
namespace RobotBlocks

/-- A component is declared by a block that refers to nothing. -/
theorem Declarations.component_of_collect {g : Graph} {component : ComponentDecl}
    (member : component ∈ (collect g).components) :
    ∃ block, g.block? component.block = some block ∧ block.extra.call? = none := by
  simp only [collect, List.mem_flatMap, List.mem_filterMap, List.mem_append, sectionBlocks] at member
  obtain ⟨holder, -, block, listed, declares⟩ := member
  have found : g.block? block.id = some block := by
    rcases listed with ⟨id, -, found⟩ | ⟨id, -, found⟩ <;> exact Graph.block?_id found ▸ found
  unfold ComponentDecl.ofBlock? at declares
  split at declares
  · next state carried =>
    cases Option.some.inj declares
    exact ⟨block, found, by rw [carried]; rfl⟩
  · next state carried =>
    cases Option.some.inj declares
    exact ⟨block, found, by rw [carried]; rfl⟩
  · cases declares

namespace Code

open RobotBlocks.Graph

variable {g : Graph} {own : Declarations} {scope : Scope} {id : BlockId} {block : Block}
  {call : CallState} {kind : Kind} {handler : Handler} {diagnostic : Diagnostic} {type : ModuleType} {name : String}
  {options : Options} {outline : Outline} {generated : Generated}

/-- The references that have code, with the calls that they carry. -/
inductive Refers (g : Graph) (scope : Scope) : BlockId → Kind → CallState → Prop where
  | call {id : BlockId} {block : Block} {call : CallState} (emitted : Emitted g (.collect g) scope id)
      (found : g.block? id = some block) (kind : block.kind = .methodCall) (carried : block.extra = .call call) :
      Refers g scope id .methodCall call
  | handler {id : BlockId} {block : Block} {call : CallState} (top : id ∈ g.topBlocks)
      (found : g.block? id = some block) (kind : block.kind = .eventHandler) (carried : block.extra = .call call)
      (sent : ∀ module, call.target ≠ .moduleFunction module) : Refers g scope id .eventHandler call

/-! The code of a reference. -/

namespace Handler

/-- The line that registers a handler with its sender. -/
def registration (handler : Handler) : String :=
  handler.receiver.code ++ ".register_event_handler(" ++
    commaSeparated [Text.quoted handler.event, "self." ++ handler.methodName] ++ ")"

/-- The handler of a block with a call. -/
structure StandsFor (handler : Handler) (id : BlockId) (call : CallState) : Prop where
  block : handler.block = id
  sender : handler.sender = call.target
  event : handler.event = call.name
  params : handler.params = call.args

theorem standsFor_of_mem_collect {blocks : List Block} {used : List String}
    (member : handler ∈ (collect blocks used).1) :
    ∃ block ∈ blocks, ∃ call, block.extra = .call call ∧ handler.StandsFor block.id call := by
  induction blocks generalizing used with
  | nil => cases member
  | cons first rest ih =>
    have later : ∀ {used}, handler ∈ (collect rest used).1 →
        ∃ block ∈ first :: rest, ∃ call, block.extra = .call call ∧ handler.StandsFor block.id call := by
      intro used member
      obtain ⟨block, listed, stands⟩ := ih member
      exact ⟨block, List.mem_cons_of_mem _ listed, stands⟩
    unfold collect at member
    split at member
    · next call _ carried =>
      split at member
      · exact later member
      · rcases List.mem_cons.mp member with rfl | member
        · exact ⟨first, List.mem_cons_self .., call, carried, rfl, rfl, rfl, rfl⟩
        · exact later member
    · exact later member

end Handler

theorem Outline.standsFor (collected : Outline.collect? type name g = some outline)
    (member : handler ∈ outline.handlers) (found : g.block? handler.block = some block)
    (carried : block.extra = .call call) : handler.StandsFor handler.block call := by
  obtain ⟨className, -, rfl⟩ := Option.map_eq_some_iff.mp collected
  obtain ⟨other, listed, call', carried', stands⟩ := Handler.standsFor_of_mem_collect member
  obtain ⟨id, -, there⟩ := List.mem_filterMap.mp listed
  cases Graph.block?_id there
  rw [stands.block] at found
  cases there.symm.trans found
  cases carried.symm.trans carried'
  rwa [stands.block]

/-- The code of a reference in a class. A call is an expression in a line of some method; a handler is a
method of its own that another one registers. -/
inductive Coded (g : Graph) (scope : Scope) (c : Class) : BlockId → Kind → CallState → Prop where
  | call {id : BlockId} {call : CallState} {function : String} {args : List Expr} {notes : List Note}
      (expr : exprOf g (.collect g) scope id = .ok ((callExpr call.target function args).1, notes))
      (stands : ∃ method ∈ c.methods, ∃ line : Expr, line.code ∈ method.body ∧
        (callExpr call.target function args).1.Within line) : Coded g scope c id .methodCall call
  | handler {id : BlockId} {call : CallState} {handler : Handler} (stands : handler.StandsFor id call)
      (defined : ∃ method ∈ c.methods, method.name = handler.methodName ∧ method.params = paramNames call.args)
      (registered : ∃ method ∈ c.methods, method.name = "register_event_handlers" ∧
        handler.registration ∈ method.body) : Coded g scope c id .eventHandler call

theorem Refers.coded (tree : g.Tree) (collected : Outline.collect? type name g = some outline)
    (refers : Refers g scope id kind call) : Coded g scope (written g scope outline).1 id kind call := by
  have own : outline.declarations = .collect g := Outline.declarations_eq collected
  cases refers with
  | call emitted found kind carried =>
    have written : exprOf g (.collect g) scope id = .ok (expression g (.collect g) scope id) :=
      exprOf_eq tree (contains_iff_block.mpr ⟨_, found⟩)
    have shape : expression g (.collect g) scope id = _ :=
      expression_call tree found kind (call?_eq_some.mpr carried)
    rw [shape] at written
    refine .call written ?_
    rw [← own] at emitted shape
    obtain ⟨⟨method, listed, line, stands, within⟩, -⟩ := emitted.in_class tree collected
    rw [shape, own] at within
    exact ⟨method, listed, line, stands, within⟩
  | handler top found kind carried sent =>
    obtain ⟨handler, member, rfl⟩ := (Outline.mem_handlers collected).mpr ⟨top, _, _, found, kind, carried, sent⟩
    have stands := Outline.standsFor collected member found carried
    refine .handler stands ⟨(handling g outline.declarations scope handler).1, ?_, rfl, ?_⟩
      ⟨registerMethod outline.handlers, ?_, rfl, List.mem_map.mpr ⟨handler, member, rfl⟩⟩
    · refine List.mem_append_right _ (List.mem_map_of_mem (List.mem_append_right _ ?_))
      exact List.mem_map_of_mem member
    · exact congrArg paramNames stands.params
    · refine List.mem_append_left _ (List.mem_append_right _ ?_)
      rw [if_neg (by simpa using List.ne_nil_of_mem member)]
      exact List.mem_singleton_self _

/-! What is reported. -/

/-- The owner of a call declares no method or event for it, or one with another number of parameters. -/
def Misfits (scope : Scope) (own : Declarations) (call : CallState) : Prop :=
  scope.lookup own .methodCall call = .missing ∨
    ∃ signature, scope.lookup own .methodCall call = .found signature ∧ signature.args.length ≠ call.args.length

theorem misfits_iff (id : BlockId) : Misfits scope own call ↔
    ∃ complaint, .complain id complaint ∈ (resolveCall own scope id call).2.2 := by
  unfold Misfits resolveCall
  cases resolved : scope.lookup own .methodCall call with
  | found signature =>
    by_cases same : signature.args.length = call.args.length
    · simp [same]
    · simp only [reduceCtorEq, Lookup.found.injEq, exists_eq_left', false_or, ne_eq, same, not_false_eq_true,
        if_false, List.mem_singleton, Note.complain, Note.found.injEq, Diagnostic.mk.injEq, true_and, exists_eq]
  | missing =>
    simp only [true_or, List.mem_singleton, Note.complain, Note.found.injEq, Diagnostic.mk.injEq, true_and,
      exists_eq]
  | unresolvable => simp

/-- A reference is reported if it is a call that does not fit its declaration. -/
theorem Refers.named_iff (tree : g.Tree) (made : generate type name g scope options = .ok generated)
    (refers : Refers g scope id kind call) : (∃ diagnostic ∈ generated.diagnostics, diagnostic.block = id) ↔
      kind = .methodCall ∧ Misfits scope (.collect g) call := by
  cases refers with
  | call emitted found kind carried =>
    have carried := call?_eq_some.mpr carried
    rw [misfits_iff id]
    constructor
    · rintro ⟨diagnostic, member, rfl⟩
      refine ⟨rfl, diagnostic.complaint, ?_⟩
      cases generate_cause tree made member with
      | noSender there handles =>
        cases found.symm.trans there
        cases kind.symm.trans handles
      | noClass declared =>
        obtain ⟨other, there, none⟩ := Declarations.component_of_collect declared
        cases found.symm.trans there
        cases none.symm.trans carried
      | notStatement _ there other =>
        cases found.symm.trans there
        exact absurd kind other
      | notNumber _ there number =>
        cases found.symm.trans there
        cases kind.symm.trans number
      | notValue _ there other =>
        cases found.symm.trans there
        exact absurd kind other
      | call _ there _ carried' noted =>
        cases found.symm.trans there
        cases carried.symm.trans carried'
        exact noted
    · rintro ⟨-, complaint, noted⟩
      exact ⟨_, emitted.reported tree made found kind carried noted, rfl⟩
  | handler top found kind carried sent =>
    refine iff_of_false ?_ fun both => nomatch both.1
    rintro ⟨diagnostic, member, rfl⟩
    have loose := tree.not_up_of_top top
    cases generate_cause tree made member with
    | noSender there _ carried' sender =>
      cases found.symm.trans there
      cases carried.symm.trans carried'
      exact sent _ sender
    | noClass declared =>
      obtain ⟨other, there, none⟩ := Declarations.component_of_collect declared
      cases found.symm.trans there
      cases none.symm.trans (call?_eq_some.mpr carried)
    | notStatement up => exact loose _ up
    | notNumber up => exact loose _ up
    | notValue up => exact loose _ up
    | call up => exact loose _ up

/-- All references have code. A call without a declaration is reported in the words of its warning, and of a
handler nothing is reported; so everything that is missing is reported exactly if the event of every handler
is declared or its sender unknown. -/
theorem references_reported_iff (reached : g.Reachable) (supported : type ≠ .unknown)
    (valid : options.isValid = true) (name : String) (scope : Scope) :
    ∃ generated imports c, generate type name g scope options = .ok generated ∧
      generated.code = fileText options imports c ∧
      (∀ id kind call, Refers g scope id kind call → Coded g scope c id kind call) ∧
      (∀ id call, Refers g scope id .methodCall call → scope.lookup (.collect g) .methodCall call = .missing →
        ⟨id, .missing call.name⟩ ∈ generated.diagnostics) ∧
      (∀ id call, Refers g scope id .eventHandler call → ∀ diagnostic ∈ generated.diagnostics,
        diagnostic.block ≠ id) ∧
      ((∀ id kind call, Refers g scope id kind call → scope.lookup (.collect g) kind call = .missing →
          ∃ diagnostic ∈ generated.diagnostics, diagnostic.block = id) ↔
        ∀ id call, Refers g scope id .eventHandler call →
          scope.lookup (.collect g) .eventHandler call ≠ .missing) := by
  have sound := reached.sound
  obtain ⟨generated, made⟩ : ∃ generated, generate type name g scope options = .ok generated :=
    (generate_ok_iff sound scope).mpr ⟨valid, supported⟩
  obtain ⟨outline, collected, is⟩ := generate_eq sound made
  have calls : ∀ id call, Refers g scope id .methodCall call →
      scope.lookup (.collect g) .methodCall call = .missing →
        ⟨id, .missing call.name⟩ ∈ generated.diagnostics := by
    intro id call refers missing
    cases refers with
    | call emitted found kind carried =>
      refine emitted.reported sound made found kind (call?_eq_some.mpr carried) ?_
      rw [resolveCall, missing]
      exact List.mem_singleton_self _
  have handlers : ∀ id call, Refers g scope id .eventHandler call →
      ∀ diagnostic ∈ generated.diagnostics, diagnostic.block ≠ id := by
    intro id call refers diagnostic member names
    exact nomatch ((refers.named_iff sound made).mp ⟨diagnostic, member, names⟩).1
  refine ⟨generated, _, _, made, congrArg Generated.code is, fun id kind call refers =>
    refers.coded sound collected, calls, handlers, ?_⟩
  constructor
  · intro all id call refers missing
    obtain ⟨diagnostic, member, names⟩ := all id .eventHandler call refers missing
    exact handlers id call refers diagnostic member names
  · intro declared id kind call refers missing
    cases refers with
    | call emitted found kind carried =>
      exact ⟨_, calls id call (.call emitted found kind carried) missing, rfl⟩
    | handler top found kind carried sent =>
      exact absurd missing (declared id call (.handler top found kind carried sent))

/-- The robot has no events. The handler of one is registered with it all the same, and not reported. -/
theorem references_reported_iff_handler :
    let call : CallState := { target := .robot, name := "shoot" }
    let g := [Mutation.add .eventHandler (.call call)].foldl Graph.mutate Graph.empty
    let scope : Scope := { robot := some {} }
    ∃ generated imports c, generate .opMode "M" g scope {} = .ok generated ∧
      generated.code = fileText {} imports c ∧ Coded g scope c ⟨0⟩ .eventHandler call ∧
      scope.lookup (.collect g) .eventHandler call = .missing ∧
      ∀ diagnostic ∈ generated.diagnostics, diagnostic.block ≠ ⟨0⟩ := by
  intro call g scope
  have reached : g.Reachable := Reachable.empty.foldl_mutate _
  have shows : g.topBlocks = [⟨0⟩] ∧
      (g.block? ⟨0⟩).map (fun block => (block.kind, block.extra)) = some (.eventHandler, .call call) := by
    decide +kernel
  obtain ⟨top, handles⟩ := shows
  obtain ⟨block, found, is⟩ := Option.map_eq_some_iff.mp handles
  obtain ⟨kind, carried⟩ := Prod.mk.inj is
  have refers : Refers g scope ⟨0⟩ .eventHandler call :=
    .handler (by rw [top]; exact List.mem_singleton_self _) found kind carried nofun
  have supported : ModuleType.opMode ≠ .unknown := by decide
  have valid : ({} : Options).isValid = true := by decide
  obtain ⟨generated, imports, c, made, text, coded, -, silent, -⟩ :=
    references_reported_iff reached supported valid "M" scope
  exact ⟨generated, imports, c, made, text, coded _ _ _ refers, rfl, silent _ _ refers⟩

end Code
end RobotBlocks
