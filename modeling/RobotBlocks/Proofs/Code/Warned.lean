import RobotBlocks.Proofs.Code.Causes
import RobotBlocks.Proofs.Session.Document
import RobotBlocks.Proofs.Session.InLine

/-! What the generator and the loading of a session say of the same call. Loading brings every reference in
line with its declaration and warns those that have none; the generator looks the references up again, in
the declarations of the loaded graph. It finds the same, so that no call passes another number of arguments
than its declaration takes, and a call is reported as missing where it is warned. -/
namespace RobotBlocks

namespace Code

open RobotBlocks.Graph

variable {g : Graph} {own : Declarations} {scope : Scope} {id : BlockId} {block : Block} {call : CallState}
  {diagnostic : Diagnostic} {type : ModuleType} {name : String} {options : Options} {generated : Generated}

/-! Where complaints about references come from. -/

/-- Whether a complaint is about what a call refers to. -/
def Complaint.isOfCall : Complaint → Bool
  | .wrongArity .. | .missing _ => true
  | _ => false

/-- The diagnostic comes up where a call of the graph is resolved. -/
def Raises (g : Graph) (own : Declarations) (scope : Scope) (diagnostic : Diagnostic) : Prop :=
  ∃ block call, g.block? diagnostic.block = some block ∧ block.kind = .methodCall ∧
    block.extra.call? = some call ∧ .found diagnostic ∈ (resolveCall own scope diagnostic.block call).2.2

/-- All complaints about references come from calls of the graph. -/
theorem generate_raises (sound : g.Sound) (made : generate type name g scope options = .ok generated)
    (member : diagnostic ∈ generated.diagnostics) (refers : diagnostic.complaint.isOfCall = true) :
    Raises g (.collect g) scope diagnostic := by
  cases generate_cause sound made member with
  | call _ found kind carried noted => exact ⟨_, _, found, kind, carried, noted⟩
  | _ => cases refers

end Code

/-! Calls of a loaded graph. -/

/-- A reference that was not warned before its turn is warned by it only if it has no declaration. -/
theorem Scope.missing_of_warned {scope : Scope} {own : Declarations} {block : Block} {message : String}
    (fresh : block.warning = none) (warned : (scope.settle own block).warning = some message) :
    ∃ call, (scope.settle own block).extra.call? = some call ∧
      scope.lookup own (scope.settle own block).kind call = .missing := by
  unfold settle at warned ⊢
  cases carried : block.extra.call? with
  | none =>
    simp only [carried] at warned
    cases fresh.symm.trans warned
  | some call =>
    cases resolved : scope.lookup own block.kind call with
    | found signature =>
      simp only [carried, resolved] at warned
      split at warned <;> cases warned
    | missing => exact ⟨call, by simp only [carried, resolved, and_self]⟩
    | unresolvable =>
      simp only [carried, resolved] at warned
      cases fresh.symm.trans warned

namespace Graph

variable {g h : Graph} {own : Declarations} {scope : Scope} {id : BlockId} {block : Block}

/-- Every call shows the declaration to which it resolves, and is warned if and only if there is none. -/
structure CallsTold (h : Graph) (own : Declarations) (scope : Scope) : Prop where
  inLine : ∀ {id block}, h.block? id = some block → block.kind = .methodCall → scope.InLine own block
  warned : ∀ {id block message}, h.block? id = some block → block.kind = .methodCall →
    block.warning = some message →
      ∃ call, block.extra.call? = some call ∧ scope.lookup own .methodCall call = .missing

theorem warning_ofForest {forest : Forest} (loaded : ofForest forest = .ok g) (found : g.block? id = some block) :
    block.warning = none := by
  obtain ⟨spot, member, rfl⟩ := spot_of_contains loaded (contains_iff_block.mpr ⟨block, found⟩)
  rw [block?, node?_spot loaded member] at found
  cases found
  exact BlockTree.warning_block _

theorem Settled.callsTold (settled : Settled own scope g.references g h) (sound : g.Sound) (clear : scope.Clear)
    (unambiguous : own.Unambiguous) (fresh : ∀ {id block}, g.block? id = some block → block.warning = none) :
    h.CallsTold own scope where
  inLine found kind := by
    obtain ⟨before, -, rfl⟩ := settled.turned sound found (by rw [kind]; rfl)
    exact Scope.inLine_settle clear unambiguous before
  warned found kind warned := by
    obtain ⟨before, there, rfl⟩ := settled.turned sound found (by rw [kind]; rfl)
    obtain ⟨call, carried, missing⟩ := Scope.missing_of_warned (fresh there) warned
    exact ⟨call, carried, kind ▸ missing⟩

end Graph

namespace Code

open RobotBlocks.Graph

variable {h : Graph} {own : Declarations} {scope : Scope} {id : BlockId} {block : Block} {call : CallState}
  {diagnostic : Diagnostic} {message : String}

/-- What is passed is what is taken, where a call shows the declaration to which it resolves. -/
theorem resolveCall_arity (current : ∀ signature, scope.lookup own .methodCall call = .found signature →
    call.args = signature.args) : (resolveCall own scope id call).2.1 = call.args.length := by
  unfold resolveCall
  cases resolved : scope.lookup own .methodCall call with
  | found signature => exact congrArg List.length (current signature resolved).symm
  | missing => rfl
  | unresolvable => rfl

theorem resolveCall_found {signature : Signature} (resolved : scope.lookup own .methodCall call = .found signature)
    (shows : call.args = signature.args) : (resolveCall own scope id call).2.2 = [] := by
  unfold resolveCall
  rw [resolved]
  exact if_pos (congrArg List.length shows).symm

theorem resolveCall_missing (missing : scope.lookup own .methodCall call = .missing) :
    (resolveCall own scope id call).2.2 = [.complain id (.missing call.name)] := by
  unfold resolveCall
  rw [missing]

/-- A call that shows the declaration to which it resolves raises nothing but that it has none. -/
theorem Raises.missing (told : h.CallsTold own scope) (raises : Raises h own scope diagnostic) :
    ∃ (block : Block) (call : CallState), h.block? diagnostic.block = some block ∧
      diagnostic.complaint = .missing call.name ∧
      block.warning = some (missingWarning call.name) := by
  obtain ⟨block, call, found, kind, carried, noted⟩ := raises
  have inLine := told.inLine found kind
  refine ⟨block, call, found, ?_⟩
  cases resolved : scope.lookup own .methodCall call with
  | found signature =>
    have shows := inLine.current call signature carried (kind ▸ resolved)
    rw [resolveCall_found resolved (congrArg CallState.args shows)] at noted
    cases noted
  | missing =>
    rw [resolveCall_missing resolved] at noted
    have is : diagnostic = ⟨_, .missing call.name⟩ := Note.found.inj (List.mem_singleton.mp noted)
    exact ⟨congrArg Diagnostic.complaint is, inLine.missing call carried (kind ▸ resolved)⟩
  | unresolvable =>
    unfold resolveCall at noted
    rw [resolved] at noted
    cases noted

/-- The blocks below an emitted body: its statements, and what is plugged into the argument sockets of
calls among them. -/
inductive Reached (g : Graph) : BlockId → Prop where
  | stated {owner id : BlockId} (heads : Heads g owner) (member : id ∈ g.statementStack owner Socket.stack) :
      Reached g id
  | passed {caller id : BlockId} {block : Block} {i : Nat} (reached : Reached g caller)
      (found : g.block? caller = some block) (kind : block.kind = .methodCall)
      (plugged : g.plugged? caller (Socket.arg i) = some id) : Reached g id

/-- A socket for an argument is that of a parameter that the call shows. -/
theorem call_of_plugged {i : Nat} {value : BlockId} (sound : h.Sound) (found : h.block? id = some block)
    (plugged : h.plugged? id (Socket.arg i) = some value) :
    ∃ call, block.extra.call? = some call ∧ i < call.args.length := by
  have linked := sound.tree.child?_eq_some.mp plugged
  obtain ⟨owner, there, kind, offered⟩ := sound.owner_of_arg linked
  cases found.symm.trans there
  have member := List.mem_of_find?_eq_some offered
  rw [(sound.fitted found).sockets, kind] at member
  obtain ⟨j, below, same⟩ := List.mem_map.mp member
  obtain rfl : j = i := Socket.arg_injective (congrArg Socket.name same)
  have below := List.mem_range.mp below
  cases carried : block.extra.call? with
  | none => simp [carried] at below
  | some call => exact ⟨call, rfl, by simpa [carried] using below⟩

/-- By induction on how a call is reached: no argument is cut off, so it is written. -/
theorem Reached.emitted (sound : h.Sound) (told : h.CallsTold own scope) (reached : Reached h id)
    (found : h.block? id = some block) (kind : block.kind = .methodCall) : Emitted h own scope id := by
  induction reached generalizing block with
  | stated heads member => exact .stated heads member found (by simp [kind])
  | passed _ there calls plugged ih =>
    obtain ⟨call, carried, shown⟩ := call_of_plugged sound there plugged
    have inLine := told.inLine there calls
    refine .passed (ih there calls) there calls carried ?_ shown plugged
    rw [resolveCall_arity fun signature resolved => ?_]
    · exact shown
    · exact congrArg CallState.args (inLine.current call signature carried (calls ▸ resolved))

/-- A warned call that code reaches is reported, in the words of its warning. -/
theorem Reached.reported {type : ModuleType} {name : String} {options : Options} {generated : Generated}
    (sound : h.Sound) (told : h.CallsTold (.collect h) scope)
    (made : generate type name h scope options = .ok generated) (reached : Reached h id)
    (found : h.block? id = some block) (kind : block.kind = .methodCall) (warned : block.warning = some message) :
    ∃ call : CallState, message = missingWarning call.name ∧
      ⟨id, .missing call.name⟩ ∈ generated.diagnostics := by
  obtain ⟨call, carried, missing⟩ := told.warned found kind warned
  have words : block.warning = some (missingWarning call.name) :=
    (told.inLine found kind).missing call carried (by rw [kind]; exact missing)
  refine ⟨call, Option.some.inj (warned.symm.trans words), ?_⟩
  refine (reached.emitted sound told found kind).reported sound made found kind carried ?_
  rw [resolveCall_missing missing]
  exact List.mem_singleton_self _

end Code

namespace Session

open Code RobotBlocks.Graph

/-- After loading, no call passes another number of arguments than its declaration takes, what is reported
as missing is warned with the same words, and every warned call that code reaches is reported. -/
theorem load_reports {forest : Forest} {g : Graph} {scope : Scope} {type : ModuleType} {options : Options}
    (distinct : forest.Distinct) (loaded : ofForest forest = .ok g) (few : forest.size < 100000)
    (regular : forest.Regular) (apart : scope.Distinct) (known : type ≠ .unknown) (valid : options.isValid = true)
    (name : String) : ∃ s generated, Session.load forest scope .standard = .ok s ∧
      Code.generate type name s.graph s.scope options = .ok generated ∧
      (∀ diagnostic ∈ generated.diagnostics, ∀ called passed taken,
        diagnostic.complaint ≠ .wrongArity called passed taken) ∧
      (∀ diagnostic ∈ generated.diagnostics, ∀ called, diagnostic.complaint = .missing called →
        ∃ block, s.graph.block? diagnostic.block = some block ∧ block.warning = some diagnostic.message) ∧
      ∀ id block message, Reached s.graph id → s.graph.block? id = some block → block.kind = .methodCall →
        block.warning = some message → ∃ diagnostic ∈ generated.diagnostics, diagnostic.block = id ∧
          (∃ called, diagnostic.complaint = .missing called) ∧ diagnostic.message = message := by
  have steady : g.Regular := .ofForest loaded distinct regular
  obtain ⟨s, opened, settled⟩ := load_settled scope loaded steady few
  have sees : s.scope = scope := load_scope opened
  have declared : Declarations.collect s.graph = .collect g := load_declares loaded steady few opened
  have told : s.graph.CallsTold (.collect s.graph) s.scope := by
    rw [sees, declared]
    exact settled.callsTold steady.sound apart.clear (Declarations.unambiguous_collect g) (warning_ofForest loaded)
  obtain ⟨generated, made⟩ : ∃ generated, Code.generate type name s.graph s.scope options = .ok generated :=
    (generate_ok_iff settled.sound s.scope).mpr ⟨valid, known⟩
  have origin : ∀ diagnostic ∈ generated.diagnostics, diagnostic.complaint.isOfCall = true →
      ∃ (block : Block) (call : CallState), s.graph.block? diagnostic.block = some block ∧
        diagnostic.complaint = .missing call.name ∧
        block.warning = some (missingWarning call.name) := fun diagnostic member refers =>
    (generate_raises settled.sound made member refers).missing told
  refine ⟨s, generated, opened, made, ?_, ?_, ?_⟩
  · intro diagnostic member called passed taken is
    obtain ⟨-, call, -, missing, -⟩ := origin diagnostic member (by rw [is]; rfl)
    cases is.symm.trans missing
  · intro diagnostic member called is
    obtain ⟨block, call, found, missing, warned⟩ := origin diagnostic member (by rw [is]; rfl)
    exact ⟨block, found, by rw [Diagnostic.message, missing]; exact warned⟩
  · intro id block message reached found kind warned
    obtain ⟨call, rfl, reported⟩ := reached.reported settled.sound told made found kind warned
    exact ⟨_, reported, rfl, ⟨_, rfl⟩, rfl⟩

/-- A call of a method that the robot does not have, and in its argument one of a method that nothing
declares: both are warned and reported. -/
theorem load_reports_nested :
    let inner : ExtraState := .call { name := "gone" }
    let outer : ExtraState := .call { target := .robot, name := "lost", args := [⟨"a", none⟩] }
    let forest : Forest := ⟨[[.node ⟨0⟩ .methodDef [(Field.name, "go")] (.method {})
      [(Socket.stack, [.node ⟨1⟩ .methodCall [] outer [("ARG0", [.node ⟨2⟩ .methodCall [] inner []])]])]]]⟩
    let scope : Scope := { robot := some {} }
    ∃ g, Graph.ofForest forest = .ok g ∧ ∃ s generated, Session.load forest scope .standard = .ok s ∧
      Code.generate .mechanism "M" s.graph s.scope {} = .ok generated ∧
      (∃ diagnostic ∈ generated.diagnostics, diagnostic.block = ⟨1⟩ ∧
        diagnostic.message = missingWarning "lost") ∧
      ∃ diagnostic ∈ generated.diagnostics, diagnostic.block = ⟨2⟩ ∧
        diagnostic.message = missingWarning "gone" := by
  intro inner outer forest scope
  have distinct : forest.Distinct := by
    simp [forest, Forest.Distinct, BlockTree.DistinctChain, BlockTree.Distinct,
      BlockTree.DistinctInputs, Labelled.labels]
  have regular : forest.Regular := by
    intro spot member
    simp [forest, Forest.spots, BlockTree.chainSpots, BlockTree.spots, BlockTree.inputSpots] at member
    rcases member with rfl | rfl | rfl
    · exact ⟨trivial, by simp [BlockTree.kind]⟩
    · refine ⟨trivial, fun _ name chain listed => ?_⟩
      simp [BlockTree.inputs] at listed
      obtain ⟨-, rfl⟩ := listed
      decide
    · exact ⟨trivial, fun _ name chain listed => by simp [BlockTree.inputs] at listed⟩
  have apart : scope.Distinct := by
    refine ⟨fun known robot => ?_, by simp [scope]⟩
    cases robot
    exact ⟨by decide, by decide⟩
  obtain ⟨g, loaded⟩ : ∃ g, Graph.ofForest forest = .ok g := ⟨_, rfl⟩
  have known : ModuleType.mechanism ≠ .unknown := by decide
  have valid : ({} : Options).isValid = true := by decide
  obtain ⟨s, generated, opened, made, -, -, reports⟩ :=
    load_reports distinct loaded (by decide) regular apart known valid "M"
  have shows : (s.graph.topBlocks = [⟨0⟩] ∧ s.graph.statementStack ⟨0⟩ Socket.stack = [⟨1⟩] ∧
      s.graph.plugged? ⟨1⟩ (Socket.arg 0) = some ⟨2⟩) ∧
      (s.graph.block? ⟨0⟩).map (·.kind) = some .methodDef ∧
      (s.graph.block? ⟨1⟩).map (fun block => (block.kind, block.warning))
        = some (.methodCall, some (missingWarning "lost")) ∧
      (s.graph.block? ⟨2⟩).map (fun block => (block.kind, block.warning))
        = some (.methodCall, some (missingWarning "gone")) := by
    cases opened
    decide +kernel
  obtain ⟨⟨top, stack, plugged⟩, definition, call, passed⟩ := shows
  obtain ⟨head, headFound, headKind⟩ := Option.map_eq_some_iff.mp definition
  obtain ⟨first, firstFound, firstShows⟩ := Option.map_eq_some_iff.mp call
  obtain ⟨second, secondFound, secondShows⟩ := Option.map_eq_some_iff.mp passed
  obtain ⟨firstKind, firstWarned⟩ := Prod.mk.inj firstShows
  obtain ⟨secondKind, secondWarned⟩ := Prod.mk.inj secondShows
  have below : Reached s.graph ⟨1⟩ :=
    .stated (.definition (by rw [top]; exact List.mem_singleton_self _) headFound headKind)
      (by rw [stack]; exact List.mem_singleton_self _)
  obtain ⟨lost, listed, of_first, -, told⟩ := reports ⟨1⟩ first _ below firstFound firstKind firstWarned
  obtain ⟨gone, also, of_second, -, too⟩ := reports ⟨2⟩ second _ (.passed below firstFound firstKind plugged)
    secondFound secondKind secondWarned
  exact ⟨g, loaded, s, generated, opened, made, ⟨lost, listed, of_first, told⟩, gone, also, of_second, too⟩

end Session
end RobotBlocks
