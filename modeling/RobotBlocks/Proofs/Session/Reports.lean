import RobotBlocks.Proofs.Session.Calm

/-! What the events of an edit tell. The edits that bring a reference in line queue events about the
reference and about what hangs from its arguments; none of these events tells of a creation or of the end
of loading. -/
namespace RobotBlocks.Graph

variable {g g' g'' : Graph} {id : BlockId} {block : Block} {about other : BlockId → Prop}

/-- No block gets another kind, and the new events tell what became of certain blocks. -/
structure Reports (about : BlockId → Prop) (g g' : Graph) : Prop where
  kinds : ∀ {id after}, g'.block? id = some after →
    ∃ before, g.block? id = some before ∧ after.kind = before.kind
  events : ∃ told, g'.pending.toList = g.pending.toList ++ told ∧ ∀ event ∈ told,
    ∃ id block payload, about id ∧ g.block? id = some block ∧
      (payload.kind ≠ .create ∧ payload.kind ≠ .finishedLoading) ∧ event = .onBlock id block.kind payload

namespace Reports

theorem refl (g : Graph) : Reports about g g :=
  ⟨fun found => ⟨_, found, rfl⟩, [], by simp, List.forall_mem_nil _⟩

theorem trans (h : Reports about g g') (k : Reports about g' g'') : Reports about g g'' := by
  constructor
  · intro id after found
    obtain ⟨middle, there, second⟩ := k.kinds found
    obtain ⟨before, here, first⟩ := h.kinds there
    exact ⟨before, here, second.trans first⟩
  · obtain ⟨first, earlier, tells⟩ := h.events
    obtain ⟨second, later, tells'⟩ := k.events
    refine ⟨first ++ second, by rw [later, earlier, List.append_assoc], fun event member => ?_⟩
    rcases List.mem_append.mp member with old | new
    · exact tells event old
    · obtain ⟨id, middle, payload, held, there, other, rfl⟩ := tells' event new
      obtain ⟨before, here, kind⟩ := h.kinds there
      exact ⟨id, before, payload, held, here, other, by rw [kind]⟩

theorem weaken (h : Reports about g g') (more : ∀ id, about id → other id) : Reports other g g' := by
  obtain ⟨told, appended, tells⟩ := h.events
  refine ⟨h.kinds, told, appended, fun event member => ?_⟩
  obtain ⟨id, block, payload, held, rest⟩ := tells event member
  exact ⟨id, block, payload, more id held, rest⟩

/-- Links come and go without an event. -/
theorem moves (h : g.Moves g') (pending : g'.pending = g.pending) : Reports about g g' :=
  ⟨fun found => ⟨_, h.blocks _ ▸ found, rfl⟩, [], by simp [pending], List.forall_mem_nil _⟩

theorem emit {payload : Payload} (found : g.block? id = some block) (held : about id)
    (other : payload.kind ≠ .create ∧ payload.kind ≠ .finishedLoading) :
    Reports about g (g.emit id block.kind payload) := by
  refine ⟨fun found => ⟨_, found, rfl⟩, _, EventQueue.toList_push .., fun event member => ?_⟩
  cases List.mem_singleton.mp member
  exact ⟨id, block, payload, held, found, other, rfl⟩

theorem updateBlock (g : Graph) (id : BlockId) (change : Block → Block)
    (keeps : ∀ block, block.id = id → (change block).id = id)
    (kind : ∀ block, g.block? id = some block → (change block).kind = block.kind) :
    Reports about g (g.updateBlock id change) := by
  refine ⟨fun {asked after} found => ?_, [], (List.append_nil _).symm, List.forall_mem_nil _⟩
  rw [block?_updateBlock g id change keeps] at found
  split at found
  · next here =>
    obtain ⟨before, there, rfl⟩ := Option.map_eq_some_iff.mp found
    exact ⟨before, there, kind before (here ▸ there)⟩
  · exact ⟨after, found, rfl⟩

theorem detach (g : Graph) (id : BlockId) (heal : Bool) : Reports about g (g.detach id heal) :=
  moves (.detach g id heal) (pending_detach g id heal)

theorem unplug {heal : Bool} (h : g.unplug id heal = .ok g') (held : about id) : Reports about g g' := by
  simp only [Graph.unplug, bind_eq_ok, get_eq_ok] at h
  obtain ⟨block, found, h⟩ := h
  cases up : g.parent? id with
  | none =>
    simp only [up, pure_eq_ok] at h
    exact h ▸ refl g
  | some parent =>
    simp only [up, pure_eq_ok] at h
    subst h
    have there := ((Moves.detach g id heal).blocks id).trans found
    exact (detach g id heal).trans (emit there held (by simp [Payload.kind]))

theorem setWarning {warning : Option String} (h : g.setWarning id warning = .ok g') :
    Reports about g g' := by
  obtain ⟨-, rfl⟩ := setWarning_eq_ok.mp h
  exact updateBlock g id (fun block => { block with warning }) (fun _ same => same) fun _ _ => rfl

/-- A block is changed and the change told. -/
theorem told {payload : Payload} {change : Block → Block} (found : g.block? id = some block)
    (keeps : ∀ block, block.id = id → (change block).id = id) (kind : (change block).kind = block.kind)
    (held : about id) (other : payload.kind ≠ .create ∧ payload.kind ≠ .finishedLoading) :
    Reports about g ((g.updateBlock id change).emit id block.kind payload) := by
  have edited : Reports about g (g.updateBlock id change) := updateBlock g id change keeps fun _ same => by
    cases found.symm.trans same
    exact kind
  have there : (g.updateBlock id change).block? id = some (change block) := by
    rw [block?_updateBlock g id change keeps, if_pos rfl, found, Option.map_some]
  exact edited.trans (kind ▸ emit there held other)

theorem setExtra {extra : ExtraState} (h : g.setExtra id extra = .ok g') (held : about id) :
    Reports about g g' := by
  obtain ⟨block, found, -, rfl⟩ := setExtra_eq_ok.mp h
  have named := block?_id found
  exact told found (fun _ _ => by simpa using named) (by simp [Block.withExtra]) held (by simp [Payload.kind])

theorem setField {name value : String} {old : Option String}
    (h : g.setField id name value = .ok (old, g')) (held : about id) : Reports about g g' := by
  obtain ⟨block, found, -, rfl⟩ := setField_cases h
  dsimp only
  split
  · exact updateBlock g id (fun block => { block with fields := block.fields.put name value })
      (fun _ same => same) fun _ _ => rfl
  · have keeps : ∀ block : Block, block.id = id →
        ({ block with fields := block.fields.put name value } : Block).id = id := fun _ same => same
    exact told found keeps rfl held (by simp [Payload.kind])

theorem setSignature {changes : List ParamChange} (h : g.setSignature id changes = .ok g') (held : about id) :
    Reports about g g' := by
  obtain ⟨block, found, -, rfl⟩ := setSignature_cases h
  exact told found (fun _ same => by simpa using same) (Block.kind_showParams _) held (by simp [Payload.kind])

theorem updateCall {edit : CallState → CallState} (h : g.updateCall id edit = .ok g') :
    Reports (· = id) g g' := by
  simp only [Graph.updateCall, bind_eq_ok, pure_eq_ok] at h
  obtain ⟨call, -, shaped, reshaped, ⟨old, named⟩, set, rfl⟩ := h
  have first : Reports (· = id) g shaped := setExtra reshaped rfl
  exact first.trans (setField set rfl)

/-! Deletion. -/

theorem removeNode (g : Graph) (held : about id) : Reports about g (g.removeNode id) := by
  refine ⟨fun {asked after} found => ?_, ?_⟩
  · rw [block?_removeNode] at found
    split at found
    · cases found
    · exact ⟨after, found, rfl⟩
  · unfold Graph.removeNode
    split
    · exact ⟨[], (List.append_nil _).symm, List.forall_mem_nil _⟩
    · next block found =>
      refine ⟨_, EventQueue.toList_push .., fun event member => ?_⟩
      cases List.mem_singleton.mp member
      exact ⟨id, block, .deleted, held, found, by simp [Payload.kind], rfl⟩

theorem foldl_removeNode (g : Graph) {doomed : List BlockId} (held : ∀ id ∈ doomed, about id) :
    Reports about g (doomed.foldl Graph.removeNode g) := by
  induction doomed generalizing g with
  | nil => exact refl g
  | cons first doomed ih =>
    have here := removeNode g (held first (List.mem_cons_self ..))
    exact here.trans (ih _ fun id member => held id (List.mem_cons_of_mem _ member))

/-! Edits that may tell of any block. -/

theorem link (g : Graph) (parent : BlockId) (hook : Link) (child : BlockId) :
    Reports about g (g.link parent hook child) :=
  moves (.link g parent hook child) (pending_link g parent hook child)

theorem appendChain (g : Graph) (first displaced : BlockId) :
    Reports about g (g.appendChain first displaced) :=
  moves (.appendChain g first displaced) (pending_appendChain g first displaced)

theorem connectNext {previous : BlockId} (h : g.connectNext previous id = .ok g') :
    Reports (fun _ => True) g g' := by
  have there := (Moves.connectNext h).blocks id
  obtain ⟨kind, above, checked, -, -, rfl⟩ := connectNext_cases h
  obtain ⟨-, ⟨block, found, rfl⟩, -⟩ := checkLink_eq_ok.mp checked
  have loose : Reports (fun _ => True) g (g.detach id false) := detach g id false
  refine Reports.trans ?_ (emit (there.trans found) trivial (by simp [Payload.kind]))
  split
  · exact (loose.trans (appendChain _ _ _)).trans (link _ _ _ _)
  · exact loose.trans (link _ _ _ _)

theorem connectSocket {parent child : BlockId} {socket : String}
    (h : g.connectSocket parent socket child = .ok g') : Reports (fun _ => True) g g' := by
  obtain ⟨kind, owner, socketKind, vacated, checked, -, -, -, rfl, made⟩ := connectSocket_cases h
  obtain ⟨-, ⟨block, found, rfl⟩, -⟩ := checkLink_eq_ok.mp checked
  have loose : Reports (fun _ => True) g (g.detach child false) := detach g child false
  have before : Reports (fun _ => True) g vacated := by
    split at made
    · exact made ▸ loose
    · exact loose.trans (unplug made trivial)
    · exact made ▸ loose.trans (appendChain _ _ _)
  have linked := before.trans (link vacated parent (.socket socket) child)
  have there : (vacated.link parent (.socket socket) child).block? child = some block := by
    rw [← found, ← (Moves.connectSocket h).blocks child]
    rfl
  exact linked.trans (emit there trivial (by simp [Payload.kind]))

theorem deleteBlock {heal : Bool} {doomed : List BlockId} (h : g.deleteBlock id heal = .ok (doomed, g')) :
    Reports (fun _ => True) g g' := by
  obtain ⟨-, -, rfl⟩ := deleteBlock_eq_ok.mp h
  exact (detach g id heal).trans (foldl_removeNode _ fun _ _ => trivial)

theorem allows : Allows (Reports fun _ => True) where
  refl := refl
  trans := trans
  unplug h := unplug h trivial
  connectSocket := connectSocket
  deleteBlock := deleteBlock
  setWarning := setWarning

theorem answers : Answers (fun _ _ => True) (Reports fun _ => True) :=
  allows.answers fun h => (updateCall h).weaken fun _ _ => trivial

theorem reconcile (own : Declarations) (scope : Scope) (g : Graph) (id : BlockId) :
    Leads (fun result => Reports (fun _ => True) g result.2) (Reports (fun _ => True) g) (g.reconcile own scope id) :=
  answers.reconcile own scope trivial

theorem reconcileEach (own : Declarations) (scope : Scope) (g : Graph) (ids : List BlockId)
    (report : ReconcileReport) : Reports (fun _ => True) g (reconcileEach own scope g ids report).2 :=
  answers.reconcileEach (fun _ _ => trivial) report

end Reports
end RobotBlocks.Graph
