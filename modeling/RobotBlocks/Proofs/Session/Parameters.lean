import RobotBlocks.Proofs.Code.Total
import RobotBlocks.Proofs.ParameterEditor.Numbering
import RobotBlocks.Proofs.Session.Whole

/-! The parameters of definitions in the class. A parameter editor gives a definition parameters of different names,
and no other operation takes them away. In the class the parameters have the identifiers of these names, though,
and stand behind `self`: the main result says exactly when no two of them are the same. -/
namespace RobotBlocks

namespace Graph

variable {g g' : Graph} {d : BlockId} {params : List Parameter}

/-- Wherever a block is there, it declares the parameters. -/
def Declares (g : Graph) (d : BlockId) (params : List Parameter) : Prop :=
  ∀ block, g.block? d = some block → block.extra.params? = some params

theorem Declares.of_keeps (declares : g.Declares d params) (keeps : Keeps (fun _ => False) g g') :
    g'.Declares d params := by
  intro after there
  obtain ⟨before, here, alike⟩ := keeps d after id there
  rw [alike.extra]
  exact declares before here

/-- Moves, deletions and warnings change no declaration. -/
theorem Declares.allows (d : BlockId) (params : List Parameter) :
    Allows fun g g' => g.Declares d params → g'.Declares d params where
  refl _ := id
  trans first second := second ∘ first
  unplug h declares := declares.of_keeps (Calm.unplug h).keeps
  connectSocket h declares := declares.of_keeps (Calm.connectSocket h).keeps
  deleteBlock h declares := declares.of_keeps (Calm.deleteBlock h).keeps
  setWarning h declares := declares.of_keeps (Calm.setWarning h).keeps

/-- References declare nothing, before and after they get another call. -/
theorem Declares.answers (d : BlockId) (params : List Parameter) :
    Answers (fun _ _ => True) fun g g' => g.Declares d params → g'.Declares d params := by
  refine (Declares.allows d params).answers fun {g id edit g'} h declares after there => ?_
  obtain ⟨block, call, found, carried, -, blocks⟩ := updateCall_cases h
  rw [blocks] at there
  split at there
  · next here =>
    have own := declares block (here ▸ found)
    rw [carried] at own
    cases own
  · exact declares after there

end Graph

namespace Session

variable {s s' t : Session} {d : BlockId} {params : List Parameter}

/-- Handling events keeps what a block declares, however many events are handled. -/
theorem declares_settled (standard : s.registry = .standard) (declares : s.graph.Declares d params) :
    s.settled.graph.Declares d params := by
  refine (handleWithin_keeps (P := fun t => t.registry = .standard ∧ t.graph.Declares d params) ⟨standard, declares⟩
    id (fun {t event pending} ⟨standard, declares⟩ _ own => ⟨(handle_registry ..).trans standard, ?_⟩)
    none eventLimit).2
  exact handle_answers (s := { t with graph := { t.graph with pending } }) (Graph.Declares.allows d params)
    (Graph.Declares.answers d params) standard (fun _ _ _ => trivial) (fun _ _ _ _ => trivial) own declares

/-! Operations. -/

theorem declares_withGraph {g : Graph} (standard : s.registry = .standard) (declares : g.Declares d params) :
    (s.withGraph g).graph.Declares d params :=
  declares_settled (s := { s with graph := g }) standard declares

/-- Only the parameter editor of a declaration gives it other parameters. -/
theorem declares_run {edit : SessionEdit} (standard : s.registry = .standard) (present : s.graph.contains d = true)
    (declares : s.graph.Declares d params) (other : ∀ editor, edit ≠ .applyEditor d editor)
    (ran : edit.run s = .ok s') : s'.graph.Declares d params := by
  have answers := Graph.Declares.answers d params
  have settles : ∀ {g : Graph}, g.Declares d params → (s.withGraph g).graph.Declares d params :=
    declares_withGraph standard
  have apart : d ≠ s.graph.freshId := by
    rintro rfl
    simp [s.graph.freshId_fresh] at present
  have created : ∀ kind extra, (s.graph.addBlock kind extra).2.Declares d params := by
    intro kind extra block found
    rw [Graph.block?_addBlock, if_neg apart] at found
    exact declares block found
  cases SessionEdit.performs ran with
  | create kind extra => exact settles (created kind extra)
  | createCallTo asked set =>
    refine settles fun block found => ?_
    rw [Graph.block?_setField set, if_neg apart] at found
    exact created _ _ block found
  | same => exact declares
  | setField found accepted differs set =>
    refine settles fun block there => ?_
    rw [Graph.block?_setField set] at there
    split at there
    · next here =>
      obtain ⟨before, was, rfl⟩ := Option.map_eq_some_iff.mp there
      exact declares before was
    · exact declares block there
  | connectNext linked => exact settles (declares.of_keeps (Graph.Calm.connectNext linked).keeps)
  | connectSocket linked => exact settles (answers.connectSocket linked declares)
  | unplug freed => exact settles (answers.unplug freed declares)
  | delete deleted => exact settles (answers.deleteBlock deleted declares)
  | @applyEditor declaration editor g changes set =>
    have elsewhere : d ≠ declaration := fun same => other editor (same ▸ rfl)
    refine settles fun block there => ?_
    rw [Graph.block?_setSignature set, if_neg elsewhere] at there
    exact declares block there
  | setScope scope =>
    exact declares_settled (s := { s with scope, graph := (s.graph.reconcileAll scope).2 }) standard
      (answers.reconcileEach (fun _ _ => trivial) _ declares)

theorem declares_foldl {edits : List SessionEdit} (whole : s.Whole) (declares : s.graph.Declares d params)
    (others : ∀ edit ∈ edits, ∀ editor, edit ≠ .applyEditor d editor)
    (stays : ∀ before, before <+: edits → (before.foldl Session.edit s).graph.contains d = true) :
    (edits.foldl Session.edit s).Whole ∧ (edits.foldl Session.edit s).graph.Declares d params := by
  induction edits generalizing s with
  | nil => exact ⟨whole, declares⟩
  | cons edit edits ih =>
    obtain ⟨first, others⟩ := List.forall_mem_cons.mp others
    refine ih (whole.edit edit) ?_ others fun before early =>
      stays (edit :: before) (List.cons_prefix_cons.mpr ⟨rfl, early⟩)
    rw [Session.edit_eq]
    cases ran : edit.run s with
    | error error => exact declares
    | ok edited => exact declares_run whole.standard (stays [] (List.nil_prefix)) declares first ran

/-- The editor gives the declaration exactly its own parameters. -/
theorem declares_applyEditor {editor after : Graph} {changes : List ParamChange} (standard : s.registry = .standard)
    (applied : s.applyEditor d editor = .ok (changes, after, t)) :
    t.graph.Declares d (changes.map (·.param)) := by
  obtain ⟨g, set, rfl⟩ := applyEditor_cases applied
  refine declares_withGraph standard fun block there => ?_
  obtain ⟨declared, found, declares, -⟩ := Graph.setSignature_cases set
  rw [Graph.block?_setSignature set, if_pos rfl, found, Option.map_some, Option.some.injEq] at there
  rw [← there, Block.showParams_withParams declares]
  exact ExtraState.params?_withParams declares _

/-- A method definition that an editor gave its parameters, however the editor was edited, and that stays there and
gets no other editor. All parameters have different names. In the class they are different, and different from
`self`, exactly if none is named `self` and no two names have the same identifier. -/
theorem applyEditor_signature {editor after : Graph} {changes : List ParamChange} {edits : List SessionEdit}
    {block : Block} {type : ModuleType} {options : Code.Options} (whole : s.Whole)
    (applied : s.applyEditor d editor = .ok (changes, after, t))
    (others : ∀ edit ∈ edits, ∀ editor, edit ≠ .applyEditor d editor)
    (stays : ∀ before, before <+: edits → (before.foldl Session.edit t).graph.contains d = true)
    (found : (edits.foldl Session.edit t).graph.block? d = some block) (kind : block.kind = .methodDef)
    (top : d ∈ (edits.foldl Session.edit t).graph.topBlocks) (known : type ≠ .unknown)
    (valid : options.isValid = true) (name : String) (scope : Scope) :
    let names := changes.map (·.param.name)
    names.Nodup ∧ ∃ generated imports c,
      Code.generate type name (edits.foldl Session.edit t).graph scope options = .ok generated ∧
      generated.code = Code.fileText options imports c ∧
      ∃ method ∈ c.methods, method.name = Text.identifier block.name ∧ method.params = names.map Text.identifier ∧
        (("self" :: method.params).Nodup ↔ "self" ∉ names ∧ ∀ one ∈ names, ∀ other ∈ names,
          Text.identifier one = Text.identifier other → one = other) := by
  intro names
  have given : names.Nodup ∧ ∀ name ∈ names, Text.trim name = name := by
    obtain ⟨composed, composes, rfl, -⟩ := applyEditor_composed applied
    exact ParameterEditor.compose_names composes
  have edited : t.Whole := by
    obtain ⟨g, set, rfl⟩ := applyEditor_cases applied
    exact whole.withGraph (whole.graph.run (.setSignature d changes) set)
  obtain ⟨whole', declares⟩ := declares_foldl edited (declares_applyEditor whole.standard applied) others stays
  obtain ⟨generated, imports, c, made, code, method, member, named, params⟩ :=
    Code.definition_in_class whole'.graph.sound known valid top found kind (declares block found) name scope
  have shown : method.params = names.map Text.identifier := by
    rw [params, Code.paramNames, List.map_map, List.map_map]
    rfl
  refine ⟨given.1, generated, imports, c, made, code, method, member, named, shown, ?_⟩
  rw [shown]
  exact Text.identifiers_nodup_iff given.1 given.2

/-- A name with a blank in it and the same one with an underscore become one parameter twice. -/
theorem applyEditor_signature_blank :
    let s := (Session.createBlock {} .methodDef (.default .methodDef)).2
    let items : List Graph.Mutation :=
      [.add .paramContainer .none, .add .paramItem (.paramItem none), .add .paramItem (.paramItem none),
        .setField ⟨1⟩ Field.name "max rpm", .setField ⟨2⟩ Field.name "max_rpm",
        .connectSocket ⟨0⟩ Socket.stack ⟨1⟩, .connectNext ⟨1⟩ ⟨2⟩]
    let later : List SessionEdit := [.setField ⟨0⟩ Field.name "drive"]
    ∃ changes after t, s.applyEditor ⟨0⟩ (items.foldl Graph.mutate Graph.empty) = .ok (changes, after, t) ∧
      changes.map (·.param.name) = ["max rpm", "max_rpm"] ∧ ∃ generated imports c,
      Code.generate .opMode "Auto" (later.foldl Session.edit t).graph {} {} = .ok generated ∧
      generated.code = Code.fileText {} imports c ∧
      ∃ method ∈ c.methods, method.name = "drive" ∧ method.params = ["max_rpm", "max_rpm"] ∧
        ¬ ("self" :: method.params).Nodup := by
  intro s items later
  have whole : s.Whole := Whole.new.edit (.create .methodDef (.default .methodDef))
  have names : (s.applyEditor ⟨0⟩ (items.foldl Graph.mutate Graph.empty)).toOption.map
      (·.1.map (·.param.name)) = some ["max rpm", "max_rpm"] := by decide +kernel
  have there : (s.applyEditor ⟨0⟩ (items.foldl Graph.mutate Graph.empty)).toOption.map
      (·.2.2.graph.contains ⟨0⟩) = some true := by decide +kernel
  have edited : (s.applyEditor ⟨0⟩ (items.foldl Graph.mutate Graph.empty)).toOption.map (fun (_, _, t) =>
      let g := (later.foldl Session.edit t).graph
      ((g.block? ⟨0⟩).map fun block => (block.kind, block.name), g.topBlocks))
      = some (some (.methodDef, "drive"), [⟨0⟩]) := by decide +kernel
  cases applied : s.applyEditor ⟨0⟩ (items.foldl Graph.mutate Graph.empty) with
  | error fault =>
    rw [applied] at names
    cases names
  | ok result =>
    obtain ⟨changes, after, t⟩ := result
    rw [applied] at names there edited
    have names : changes.map (·.param.name) = ["max rpm", "max_rpm"] := Option.some.inj names
    obtain ⟨block, tops⟩ := Prod.mk.inj (Option.some.inj edited)
    obtain ⟨block, found, same⟩ := Option.map_eq_some_iff.mp block
    obtain ⟨kind, named⟩ := Prod.mk.inj same
    have others : ∀ edit ∈ later, ∀ editor, edit ≠ .applyEditor ⟨0⟩ editor := by
      intro edit member editor same
      cases (List.mem_singleton.mp member).symm.trans same
    have stays : ∀ before, before <+: later → (before.foldl Session.edit t).graph.contains ⟨0⟩ = true := by
      intro before early
      obtain rfl | ⟨rest, rfl, none⟩ := List.prefix_cons_iff.mp early
      · exact Option.some.inj there
      · rw [List.prefix_nil.mp none]
        exact Graph.contains_iff_block.mpr ⟨block, found⟩
    obtain ⟨-, generated, imports, c, made, code, method, member, title, params, apart⟩ :=
      applyEditor_signature whole applied others stays found kind
        (tops ▸ List.mem_singleton_self _)
        (by decide : ModuleType.opMode ≠ .unknown) (by decide : ({} : Code.Options).isValid = true) "Auto" {}
    rw [names] at params
    rw [named] at title
    exact ⟨changes, after, t, rfl, names, generated, imports, c, made, code, method, member, title, params,
      by rw [params]; decide⟩

end Session
end RobotBlocks
