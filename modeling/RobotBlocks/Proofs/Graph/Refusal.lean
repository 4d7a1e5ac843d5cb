import RobotBlocks.Proofs.Graph.InPlace
import RobotBlocks.Proofs.Graph.Splice

/-! When operations are refused. For each operation the refusals are told by the graph and the arguments alone,
and a refused operation leaves the whole graph as it was, although it is carried out step by step. -/
namespace RobotBlocks.Graph

variable {g g' : Graph} {id other parent child previous : BlockId} {block : Block}

/-- Whether a block is there and is a value. -/
def IsValue (g : Graph) (id : BlockId) : Prop := ∃ block, g.block? id = some block ∧ block.kind.isValue = true

/-- What stands against an operation. -/
def Operation.Refused (g : Graph) : Operation → Prop
  | mutate (.add ..) => False
  | insert block => g.contains block.id = true ∨ BlockId.last.number ≤ block.id.number
  | mutate (.insert id ..) => g.contains id = true ∨ BlockId.last.number ≤ id.number
  | mutate (.connectNext previous id) => g.contains previous = false ∨ g.contains id = false ∨
    g.Climbs previous id ∨ g.IsValue id ∨ g.IsValue previous
  | mutate (.connectSocket parent socket child) => g.contains parent = false ∨ g.contains child = false ∨
    g.Climbs parent child ∨ g.socketKind? parent socket = none ∨
    g.socketKind? parent socket = some .statement ∧ g.IsValue child
  | mutate (.setExtra id extra) => g.contains id = false ∨ ∃ block socket child, g.block? id = some block ∧
    g.plugged? id socket = some child ∧ (block.withExtra extra).hasSocket socket = false
  | mutate (.setSignature id _) => g.contains id = false ∨
    ∃ block, g.block? id = some block ∧ block.extra.params? = none
  | mutate (.delete id _) | mutate (.unplug id _) | mutate (.setField id ..) | mutate (.setWarning id _) =>
    g.contains id = false

theorem isValue_iff (found : g.block? id = some block) : g.IsValue id ↔ block.kind.isValue = true := by
  constructor
  · rintro ⟨_, there, value⟩
    cases found.symm.trans there
    exact value
  · exact fun value => ⟨block, found, value⟩

/-! What is not refused succeeds. -/

theorem ok_insertBlock_iff : (∃ g', g.insertBlock block = .ok g') ↔
    ¬ (g.contains block.id = true ∨ BlockId.last.number ≤ block.id.number) := by
  simp [insertBlock_eq_ok]

theorem ok_deleteBlock_iff {heal : Bool} : (∃ g', (g.deleteBlock id heal).map (·.2) = .ok g') ↔
    g.contains id = true := by
  simp [map_eq_ok, deleteBlock_eq_ok]

theorem ok_unplug_iff {heal : Bool} : (∃ g', g.unplug id heal = .ok g') ↔ g.contains id = true := by
  simp only [Graph.unplug, bind_eq_ok, get_eq_ok, contains_iff_block]
  refine ⟨fun ⟨_, block, found, _⟩ => ⟨block, found⟩, fun ⟨block, found⟩ => ?_⟩
  cases g.parent? id with
  | none => exact ⟨g, block, found, rfl⟩
  | some parent => exact ⟨_, block, found, rfl⟩

theorem ok_setField_iff {name value : String} : (∃ g', (g.setField id name value).map (·.2) = .ok g') ↔
    g.contains id = true := by
  constructor
  · rintro ⟨_, h⟩
    obtain ⟨⟨old, edited⟩, set, -⟩ := map_eq_ok.mp h
    obtain ⟨block, found, -⟩ := setField_cases set
    exact contains_iff_block.mpr ⟨block, found⟩
  · intro present
    obtain ⟨block, found⟩ := contains_iff_block.mp present
    obtain ⟨old, g', set⟩ := setField_ok name value found
    exact ⟨g', by rw [set]; rfl⟩

theorem ok_setSignature_iff {changes : List ParamChange} : (∃ g', g.setSignature id changes = .ok g') ↔
    ∃ block, g.block? id = some block ∧ block.extra.params? ≠ none := by
  simp only [setSignature, bind_eq_ok, get_eq_ok, throw_bind, refuse_eq_ok, pure_eq_ok, Option.isNone_iff_eq_none]
  constructor
  · rintro ⟨_, block, found, declares, -⟩
    exact ⟨block, found, declares⟩
  · rintro ⟨block, found, declares⟩
    exact ⟨_, block, found, declares, rfl⟩

section Tree

variable (tree : g.Tree)
include tree

theorem Tree.ok_checkLink_iff : (∃ kind, g.checkLink parent child = .ok kind) ↔
    g.contains parent = true ∧ g.contains child = true ∧ ¬ g.Climbs parent child := by
  simp only [checkLink_eq_ok, ← tree.isAncestorOrSelf_iff, Bool.not_eq_true]
  constructor
  · rintro ⟨kind, there, ⟨block, found, -⟩, apart⟩
    exact ⟨there, contains_iff_block.mpr ⟨block, found⟩, apart⟩
  · rintro ⟨there, present, apart⟩
    obtain ⟨block, found⟩ := contains_iff_block.mp present
    exact ⟨block.kind, there, ⟨block, found, rfl⟩, apart⟩

theorem Tree.ok_connectNext_iff : (∃ g', g.connectNext previous id = .ok g') ↔
    g.contains previous = true ∧ g.contains id = true ∧ ¬ g.Climbs previous id ∧
      ¬ g.IsValue id ∧ ¬ g.IsValue previous := by
  constructor
  · rintro ⟨g', h⟩
    obtain ⟨kind, above, checked, found, statements, -⟩ := connectNext_cases h
    obtain ⟨there, present, apart⟩ := tree.ok_checkLink_iff.mp ⟨kind, checked⟩
    obtain ⟨-, ⟨block, found', rfl⟩, -⟩ := checkLink_eq_ok.mp checked
    rw [Bool.or_eq_false_iff] at statements
    simp [isValue_iff found, isValue_iff found', there, present, apart, statements]
  · rintro ⟨there, present, apart, own, statement⟩
    obtain ⟨kind, checked⟩ := tree.ok_checkLink_iff.mpr ⟨there, present, apart⟩
    obtain ⟨-, ⟨block, found', rfl⟩, -⟩ := checkLink_eq_ok.mp checked
    obtain ⟨above, found⟩ := contains_iff_block.mp there
    rw [isValue_iff found', Bool.not_eq_true] at own
    rw [isValue_iff found, Bool.not_eq_true] at statement
    simp only [Graph.connectNext, checked, get_eq_ok.mpr found, ok_bind, own, statement, Bool.or_self,
      Bool.false_eq_true, if_false]
    exact ⟨_, rfl⟩

theorem Tree.ok_connectSocket_iff {socket : String} : (∃ g', g.connectSocket parent socket child = .ok g') ↔
    g.contains parent = true ∧ g.contains child = true ∧ ¬ g.Climbs parent child ∧
      g.socketKind? parent socket ≠ none ∧ ¬ (g.socketKind? parent socket = some .statement ∧ g.IsValue child) := by
  constructor
  · rintro ⟨g', h⟩
    obtain ⟨kind, owner, socketKind, vacated, checked, found, offered, allowed, -⟩ := connectSocket_cases h
    obtain ⟨there, present, apart⟩ := tree.ok_checkLink_iff.mp ⟨kind, checked⟩
    obtain ⟨-, ⟨block, found', rfl⟩, -⟩ := checkLink_eq_ok.mp checked
    have same : g.socketKind? parent socket = some socketKind := socketKind?_eq_some.mpr ⟨owner, found, offered⟩
    refine ⟨there, present, apart, by simp [same], ?_⟩
    rintro ⟨statement, value⟩
    rw [isValue_iff found', allowed (Option.some.inj (same.symm.trans statement))] at value
    cases value
  · rintro ⟨there, present, apart, offers, fits⟩
    obtain ⟨kind, checked⟩ := tree.ok_checkLink_iff.mpr ⟨there, present, apart⟩
    obtain ⟨-, ⟨block, found', rfl⟩, -⟩ := checkLink_eq_ok.mp checked
    obtain ⟨socketKind, same⟩ := Option.ne_none_iff_exists'.mp offers
    obtain ⟨owner, found, offered⟩ := socketKind?_eq_some.mp same
    have moves := Moves.detach g child false
    obtain ⟨vacated, makes, -⟩ := InPlace.perform_vacate (tree.detach child false) socket socketKind
      ((moves.contains child).trans present) fun climbs => apart (climbs_of_detach climbs)
    have allowed : (decide (socketKind = .statement) && block.kind.isValue) = false := by
      rw [Bool.and_eq_false_imp, decide_eq_true_iff]
      rintro rfl
      exact Bool.eq_false_iff.mpr fun value => fits ⟨same, block, found', value⟩
    rw [connectSocket_eq checked found, offered]
    simp only [allowed, makes, Bool.false_eq_true, if_false]
    exact ⟨_, rfl⟩

theorem Tree.ok_setExtra_iff {extra : ExtraState} : (∃ g', g.setExtra id extra = .ok g') ↔
    ∃ block, g.block? id = some block ∧ ∀ socket child, g.plugged? id socket = some child →
      (block.withExtra extra).hasSocket socket = true := by
  simp only [setExtra_eq_ok]
  constructor
  · rintro ⟨_, block, found, kept, -⟩
    refine ⟨block, found, fun socket child held => ?_⟩
    -- What hangs from a socket hangs from one that the block declares.
    have declared := tree.declared (tree.child?_eq_some.mp held)
    obtain ⟨owner, there, offered⟩ := (Option.any_eq_true _ _).mp declared
    cases found.symm.trans there
    obtain ⟨own, same⟩ := Option.isSome_iff_exists.mp offered
    have named : own.name = socket := by simpa using List.find?_some same
    exact named ▸ kept own (List.mem_of_find?_eq_some same) (by rw [named, held]; rfl)
  · rintro ⟨block, found, kept⟩
    refine ⟨_, block, found, fun socket _ held => ?_, rfl⟩
    obtain ⟨child, held⟩ := Option.isSome_iff_exists.mp held
    exact kept socket.name child held

theorem Tree.ok_iff (operation : Operation) : (∃ g', operation.run g = .ok g') ↔ ¬ operation.Refused g := by
  cases operation with
  | insert block => exact ok_insertBlock_iff
  | mutate edit =>
    cases edit with
    | add kind extra => exact iff_of_true ⟨_, rfl⟩ not_false
    | insert id kind extra =>
      refine ok_insertBlock_iff.trans ?_
      simp [Operation.Refused]
    | delete id heal => exact ok_deleteBlock_iff.trans (by simp [Operation.Refused])
    | unplug id heal => exact ok_unplug_iff.trans (by simp [Operation.Refused])
    | connectNext previous id => exact tree.ok_connectNext_iff.trans (by simp [Operation.Refused])
    | connectSocket parent socket child => exact tree.ok_connectSocket_iff.trans (by simp [Operation.Refused])
    | setField id name value => exact ok_setField_iff.trans (by simp [Operation.Refused])
    | setExtra id extra =>
      refine tree.ok_setExtra_iff.trans ?_
      cases present : g.contains id with
      | false => simp [Operation.Refused, present, block?_of_missing present]
      | true =>
        obtain ⟨block, found⟩ := contains_iff_block.mp present
        simp [Operation.Refused, present, found]
    | setSignature id changes =>
      refine ok_setSignature_iff.trans ?_
      cases present : g.contains id with
      | false => simp [Operation.Refused, present, block?_of_missing present]
      | true =>
        obtain ⟨block, found⟩ := contains_iff_block.mp present
        simp [Operation.Refused, present, found]
    | setWarning id warning =>
      refine Iff.trans ?_ (show g.contains id = true ↔ _ by simp [Operation.Refused])
      exact ⟨fun ⟨_, warns⟩ => (setWarning_eq_ok.mp warns).1, fun present => ⟨_, setWarning_eq_ok.mpr ⟨present, rfl⟩⟩⟩

end Tree

/-- What stands against an operation is all that it is refused for. An operation is carried out step by step, and
where it is refused its graph is in all parts as it was: blocks, links, events and the counter of ids. -/
theorem Assembled.refused_untouched (reached : g.Assembled) (operation : Operation) :
    ((∃ fault, (operation.inPlace.perform g).1 = .error fault) ↔ operation.Refused g) ∧
    (∀ fault, (operation.inPlace.perform g).1 = .error fault →
      operation.run g = .error fault ∧ (operation.inPlace.perform g).2 = g) ∧
    ∀ g', operation.run g = .ok g' → operation.inPlace.perform g = (.ok (), g') := by
  have settles := reached.tree.perform_inPlace operation
  have succeeds := reached.tree.ok_iff operation
  rw [settles]
  cases ran : operation.run g with
  | ok changed =>
    rw [ran] at succeeds
    have stands : ¬ operation.Refused g := succeeds.mp ⟨changed, rfl⟩
    refine ⟨iff_of_false nofun stands, nofun, fun g' same => ?_⟩
    cases same
    rfl
  | error fault =>
    rw [ran] at succeeds
    have stands : operation.Refused g := by
      by_contra clear
      obtain ⟨_, same⟩ := succeeds.mpr clear
      cases same
    refine ⟨iff_of_true ⟨fault, rfl⟩ stands, fun other same => ?_, nofun⟩
    cases same
    exact ⟨rfl, rfl⟩

/-- A call that holds another one neither goes below it nor loses the socket. -/
theorem refused_untouched_holder :
    let edits : List Mutation :=
      [.add .methodCall (.call { args := [{ name := "x" }] }), .add .methodCall (.call {}),
        .connectSocket ⟨0⟩ (Socket.arg 0) ⟨1⟩]
    let g := edits.foldl Graph.mutate Graph.empty
    let below : Operation := .mutate (.connectNext ⟨1⟩ ⟨0⟩)
    let bare : Operation := .mutate (.setExtra ⟨0⟩ (.call {}))
    (∃ fault, (below.inPlace.perform g).1 = .error fault) ∧ (below.inPlace.perform g).2 = g ∧
      (∃ fault, (bare.inPlace.perform g).1 = .error fault) ∧ (bare.inPlace.perform g).2 = g := by
  intro edits g below bare
  have reached : g.Assembled := Assembled.empty.foldl_mutate edits
  obtain ⟨refuses, untouched, -⟩ := reached.refused_untouched below
  obtain ⟨refuses', untouched', -⟩ := reached.refused_untouched bare
  have up : g.Climbs ⟨1⟩ ⟨0⟩ := .single (show g.parent? ⟨1⟩ = some ⟨0⟩ by decide +kernel)
  obtain ⟨block, found⟩ : ∃ block, g.block? ⟨0⟩ = some block := contains_iff_block.mp (by decide +kernel)
  have lost : (block.withExtra (.call {})).hasSocket (Socket.arg 0) = false := by
    have same : (g.block? ⟨0⟩).map (fun block => (block.withExtra (.call {})).hasSocket (Socket.arg 0)) =
        some false := by decide +kernel
    rw [found] at same
    exact Option.some.inj same
  obtain ⟨fault, refused⟩ := refuses.mpr (.inr (.inr (.inl up)))
  obtain ⟨fault', refused'⟩ := refuses'.mpr (.inr ⟨block, Socket.arg 0, ⟨1⟩, found, by decide +kernel, lost⟩)
  exact ⟨⟨fault, refused⟩, (untouched fault refused).2, ⟨fault', refused'⟩, (untouched' fault' refused').2⟩

end RobotBlocks.Graph
