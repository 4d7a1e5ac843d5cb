import RobotBlocks.Proofs.Session.Evolution

/-! What an edit leaves alone. A calm edit changes the kind, state and name of no block but those
it is about, creates nothing, and queues no event that a reaction answers by editing a reference. -/
namespace RobotBlocks

/-- The return type that a block declares. -/
def Block.returnType (block : Block) : Option String :=
  match block.extra with
  | .method state => state.returnType
  | _ => none

/-- Blocks that declare the same and refer to the same. -/
structure Block.Alike (a b : Block) : Prop where
  kind : a.kind = b.kind
  extra : a.extra = b.extra
  name : a.name = b.name

namespace Block.Alike

variable {a b c : Block}

theorem refl (a : Block) : a.Alike a := ⟨rfl, rfl, rfl⟩

theorem trans (h : a.Alike b) (k : b.Alike c) : a.Alike c :=
  ⟨h.kind.trans k.kind, h.extra.trans k.extra, h.name.trans k.name⟩

theorem returnType (h : a.Alike b) : a.returnType = b.returnType := by
  simp only [Block.returnType, h.extra]

theorem warn (a : Block) (warning : Option String) : ({ a with warning } : Block).Alike a :=
  ⟨rfl, rfl, rfl⟩

/-- Another field than the name. -/
theorem put (a : Block) {field : String} (value : String) (other : field ≠ Field.name) :
    ({ a with fields := a.fields.put field value } : Block).Alike a :=
  ⟨rfl, rfl, by simp [Block.name, Block.fieldD, Block.field?, other]⟩

end Block.Alike

/-- No standard reaction answers the event by editing a reference. -/
def Event.Quiet (event : Event) : Prop :=
  match event.payload with
  | .created => ∀ kind, event.blockKind = some kind → kind.isReference = false
  | .fieldChanged field _ _ =>
    ∀ kind, event.blockKind = some kind → kind.isDeclaration = true → field ≠ Field.name
  | .signatureChanged _ => ∀ kind, event.blockKind = some kind → kind.isDeclaration = false
  | _ => True

namespace Graph

variable {g g' g'' : Graph} {id parent child asked : BlockId} {block : Block}
  {except other : BlockId → Prop}

/-- Blocks apart from the excepted ones are as they were or gone. -/
def Keeps (except : BlockId → Prop) (g g' : Graph) : Prop :=
  ∀ id after, ¬ except id → g'.block? id = some after →
    ∃ before, g.block? id = some before ∧ after.Alike before

structure Calm (except : BlockId → Prop) (g g' : Graph) : Prop where
  keeps : Keeps except g g'
  counter : g'.nextNumber = g.nextNumber
  told : ∃ told, g'.pending.toList = g.pending.toList ++ told ∧ ∀ event ∈ told, event.Quiet

/-- An edit that is about no block. -/
abbrev CalmAll : Graph → Graph → Prop := Calm fun _ => False

theorem Keeps.trans (h : Keeps except g g') (k : Keeps except g' g'') : Keeps except g g'' := by
  intro id after apart found
  obtain ⟨middle, there, second⟩ := k id after apart found
  obtain ⟨before, here, first⟩ := h id middle apart there
  exact ⟨before, here, second.trans first⟩

namespace Calm

/-- No event is told. -/
theorem silent (keeps : Keeps except g g') (counter : g'.nextNumber = g.nextNumber)
    (pending : g'.pending = g.pending) : Calm except g g' :=
  ⟨keeps, counter, [], by rw [pending, List.append_nil], List.forall_mem_nil _⟩

/-- A queue of quiet events stays one. -/
theorem quiet (h : Calm except g g') (before : ∀ event ∈ g.pending.toList, event.Quiet) :
    ∀ event ∈ g'.pending.toList, event.Quiet := by
  obtain ⟨told, appended, quiet⟩ := h.told
  intro event member
  rw [appended, List.mem_append] at member
  exact member.elim (before event) (quiet event)

theorem refl (g : Graph) : Calm except g g :=
  silent (fun _ after _ found => ⟨after, found, .refl after⟩) rfl rfl

theorem trans (h : Calm except g g') (k : Calm except g' g'') : Calm except g g'' := by
  refine ⟨h.keeps.trans k.keeps, k.counter.trans h.counter, ?_⟩
  obtain ⟨first, earlier, quiet⟩ := h.told
  obtain ⟨second, later, quiet'⟩ := k.told
  refine ⟨first ++ second, by rw [later, earlier, List.append_assoc], fun event member => ?_⟩
  exact (List.mem_append.mp member).elim (quiet event) (quiet' event)

theorem weaken (h : Calm except g g') (more : ∀ id, except id → other id) : Calm other g g' :=
  ⟨fun _ _ apart => h.keeps _ _ fun held => apart (more _ held), h.counter, h.told⟩

theorem push (g : Graph) {event : Event} (quiet : event.Quiet) : Calm except g (g.push event) :=
  ⟨fun _ after _ found => ⟨after, found, .refl after⟩, rfl, [event], EventQueue.toList_push ..,
    List.forall_mem_singleton.mpr quiet⟩

theorem moves (h : g.Moves g') (counter : g'.nextNumber = g.nextNumber)
    (pending : g'.pending = g.pending) : CalmAll g g' :=
  silent (fun id after _ found => ⟨after, h.blocks id ▸ found, .refl after⟩) counter pending

theorem updateBlock (g : Graph) (id : BlockId) (change : Block → Block)
    (keeps : ∀ block, block.id = id → (change block).id = id) :
    Calm (· = id) g (g.updateBlock id change) := by
  refine silent (fun asked after apart found => ⟨after, ?_, .refl after⟩) rfl rfl
  rwa [block?_updateBlock g id change keeps, if_neg apart] at found

/-! Moves. -/

theorem setParent (g : Graph) (id : BlockId) (place : Option (BlockId × Link)) :
    CalmAll g (g.setParent id place) :=
  moves (.setParent g id place) rfl rfl

theorem link (g : Graph) (parent : BlockId) (hook : Link) (child : BlockId) :
    CalmAll g (g.link parent hook child) :=
  setParent g child _

theorem detach (g : Graph) (id : BlockId) (heal : Bool) : CalmAll g (g.detach id heal) := by
  cases linked : g.parentLink? id with
  | none => simpa only [Graph.detach, linked] using refl g
  | some place =>
    rcases detach_cases heal linked with same | ⟨follower, -, same⟩
    · exact same ▸ setParent g id none
    · exact same ▸ (setParent g id none).trans (link _ _ _ _)

theorem appendChain (g : Graph) (first displaced : BlockId) :
    CalmAll g (g.appendChain first displaced) :=
  (detach g displaced false).trans (link _ _ _ _)

theorem moved (g : Graph) (id : BlockId) (kind : Kind) (source destination : Option BlockId) :
    Calm except g (g.emit id kind (.moved source destination)) :=
  push g trivial

theorem unplug {heal : Bool} (h : g.unplug id heal = .ok g') : CalmAll g g' := by
  rcases unplug_cases h with ⟨-, rfl⟩ | ⟨kind, parent, -, rfl⟩
  · exact refl _
  · exact (detach g id heal).trans (moved _ _ _ _ _)

theorem connectNext (h : g.connectNext parent id = .ok g') : CalmAll g g' := by
  obtain ⟨kind, above, -, -, -, rfl⟩ := connectNext_cases h
  have loose := detach g id false
  refine Calm.trans ?_ (moved _ _ _ _ _)
  split
  · exact (loose.trans (appendChain _ _ _)).trans (link _ _ _ _)
  · exact loose.trans (link _ _ _ _)

theorem connectSocket {socket : String} (h : g.connectSocket parent socket child = .ok g') :
    CalmAll g g' := by
  obtain ⟨kind, owner, socketKind, vacated, -, -, -, -, rfl, made⟩ := connectSocket_cases h
  have loose := detach g child false
  have before : CalmAll g vacated := by
    split at made
    · exact made ▸ loose
    · exact loose.trans (unplug made)
    · exact made ▸ loose.trans (appendChain _ _ _)
  exact (before.trans (link _ _ _ _)).trans (moved _ _ _ _ _)

/-! Deletion. -/

theorem removeNode (g : Graph) (id : BlockId) : CalmAll g (g.removeNode id) := by
  refine ⟨?_, ?_, ?_⟩
  · intro asked after _ found
    rw [block?_removeNode] at found
    split at found
    · simp at found
    · exact ⟨after, found, .refl after⟩
  · exact nextNumber_removeNode g id
  · unfold Graph.removeNode
    split
    · exact ⟨[], (List.append_nil _).symm, List.forall_mem_nil _⟩
    · exact ⟨_, EventQueue.toList_push .., List.forall_mem_singleton.mpr trivial⟩

theorem foldl_removeNode (g : Graph) (doomed : List BlockId) :
    CalmAll g (doomed.foldl Graph.removeNode g) := by
  induction doomed generalizing g with
  | nil => exact refl g
  | cons first doomed ih => exact (removeNode g first).trans (ih _)

theorem deleteBlock {heal : Bool} {doomed : List BlockId}
    (h : g.deleteBlock id heal = .ok (doomed, g')) : CalmAll g g' := by
  obtain ⟨-, -, rfl⟩ := deleteBlock_eq_ok.mp h
  exact (detach g id heal).trans (foldl_removeNode _ doomed)

/-! Content. -/

theorem setWarning {warning : Option String} (h : g.setWarning id warning = .ok g') :
    CalmAll g g' := by
  obtain ⟨-, rfl⟩ := setWarning_eq_ok.mp h
  refine silent ?_ rfl rfl
  intro asked after _ found
  rw [block?_updateBlock g id (fun block => { block with warning }) (fun _ same => same)] at found
  split at found
  · obtain ⟨before, there, rfl⟩ := Option.map_eq_some_iff.mp found
    exact ⟨before, there, .warn before warning⟩
  · exact ⟨after, found, .refl after⟩

theorem allows : Allows CalmAll where
  refl := refl
  trans := trans
  unplug := unplug
  connectSocket := connectSocket
  deleteBlock := deleteBlock
  setWarning := setWarning

/-- A field of a block that declares nothing. -/
theorem setField {name value : String} {old : Option String}
    (h : g.setField id name value = .ok (old, g'))
    (undeclared : ∀ block, g.block? id = some block → block.kind.isDeclaration = false) :
    Calm (· = id) g g' := by
  obtain ⟨block, found, -, rfl⟩ := setField_cases h
  have edited := updateBlock g id
    (fun block => { block with fields := block.fields.put name value }) fun _ same => same
  dsimp only
  split
  · exact edited
  · refine edited.trans (push _ ?_)
    intro kind same declares
    cases same
    simp [undeclared block found] at declares

/-- Another field than the name. -/
theorem setLabel {name value : String} {old : Option String}
    (h : g.setField id name value = .ok (old, g')) (other : name ≠ Field.name) : CalmAll g g' := by
  have blocks := block?_setField h
  obtain ⟨block, found, -, rfl⟩ := setField_cases h
  refine ⟨fun asked after _ there => ?_, ?_, ?_⟩
  · rw [blocks] at there
    split at there
    · obtain ⟨before, here, rfl⟩ := Option.map_eq_some_iff.mp there
      exact ⟨before, here, .put before value other⟩
    · exact ⟨after, there, .refl after⟩
  · dsimp only
    split <;> rfl
  · dsimp only
    split
    · exact ⟨[], (List.append_nil _).symm, List.forall_mem_nil _⟩
    · exact ⟨_, EventQueue.toList_push .., List.forall_mem_singleton.mpr fun _ _ _ => other⟩

theorem setExtra {extra : ExtraState} (h : g.setExtra id extra = .ok g') : Calm (· = id) g g' := by
  obtain ⟨block, found, -, rfl⟩ := setExtra_eq_ok.mp h
  have named := block?_id found
  exact (updateBlock g id _ fun _ _ => by simpa using named).trans (push _ trivial)

end Calm
end Graph
end RobotBlocks
