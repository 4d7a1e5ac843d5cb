import RobotBlocks.Proofs.Graph.Enforcement
import RobotBlocks.Proofs.Session.Regular
import RobotBlocks.Proofs.Session.Run

/-! Blocks that are bound to a section of a component holder. A move is answered for the block that was
moved; the statements below it come along unasked. So the sections stay in order as long as these
statements fit where the block is put. -/
namespace RobotBlocks

namespace Graph

variable {g g' g'' : Graph} {id r : BlockId} {changes : List ParamChange}

/-- The block may hang from the socket. -/
def Admits (g : Graph) (place : Option (BlockId × String)) (id : BlockId) : Prop :=
  ∀ block rule socket, g.block? id = some block → PlacementRule.ofKind? block.kind = some rule →
    place = some socket → rule.names g socket = true

/-- Blocks that are bound to a section hang from it or from no socket. -/
def Sectioned (g : Graph) : Prop := ∀ id, g.Admits (g.enclosingSocket id) id

theorem admits_of_holds {block : Block} {rule : PlacementRule} (found : g.block? id = some block)
    (bound : PlacementRule.ofKind? block.kind = some rule) (holds : rule.holds g id = true) :
    g.Admits (g.enclosingSocket id) id := by
  intro own rule' socket found' bound' hangs
  cases found.symm.trans found'
  cases bound.symm.trans bound'
  simp only [PlacementRule.holds, hangs, Option.any_some] at holds
  exact holds

/-- The block hangs from an argument of a call. -/
def InArgument (g : Graph) (id : BlockId) : Prop :=
  ∃ socket owner, g.enclosingSocket id = some socket ∧ g.block? socket.1 = some owner ∧
    owner.kind = .methodCall

/-- Blocks hang from where they hung, or from nowhere, or had hung from an argument. -/
structure Stays (g g' : Graph) : Prop where
  kinds : ∀ {id after}, g'.block? id = some after →
    ∃ before, g.block? id = some before ∧ after.kind = before.kind
  socket : ∀ {id place}, g'.enclosingSocket id = some place →
    g.enclosingSocket id = some place ∨ g.InArgument id

namespace Stays

theorem refl (g : Graph) : g.Stays g := ⟨fun found => ⟨_, found, rfl⟩, .inl⟩

theorem trans (h : g.Stays g') (k : g'.Stays g'') : g.Stays g'' := by
  constructor
  · intro id after found
    obtain ⟨middle, there, second⟩ := k.kinds found
    obtain ⟨before, here, first⟩ := h.kinds there
    exact ⟨before, here, second.trans first⟩
  · intro id place hangs
    rcases k.socket hangs with same | ⟨other, owner, argument, found, call⟩
    · exact h.socket same
    · rcases h.socket argument with same | before
      · obtain ⟨first, here, kind⟩ := h.kinds found
        exact .inr ⟨other, first, same, here, kind ▸ call⟩
      · exact .inr before

/-- It is enough to look at the links. -/
theorem of_links (tree : g.Tree) (tree' : g'.Tree)
    (kinds : ∀ {id after}, g'.block? id = some after →
      ∃ before, g.block? id = some before ∧ after.kind = before.kind)
    (links : ∀ {id place}, g'.parentLink? id = some place →
      g.parentLink? id = some place ∨ g.InArgument id) : g.Stays g' := by
  refine ⟨kinds, fun {id place} hangs => ?_⟩
  induction id using tree'.grounded.induction with
  | h id ih =>
    rw [tree'.enclosingSocket_eq] at hangs
    obtain ⟨⟨parent, hook⟩, linked, hangs⟩ := Option.bind_eq_some_iff.mp hangs
    rcases links linked with same | argument
    · rw [InArgument, tree.enclosingSocket_of_link same]
      cases hook with
      | next => exact ih parent (up_of_parentLink linked) hangs
      | socket name => exact .inl hangs
    · exact .inr argument

theorem of_same_links (tree : g.Tree) (tree' : g'.Tree)
    (kinds : ∀ {id after}, g'.block? id = some after →
      ∃ before, g.block? id = some before ∧ after.kind = before.kind)
    (links : ∀ id, g'.parentLink? id = g.parentLink? id) : g.Stays g' :=
  of_links tree tree' kinds fun linked => .inl (links _ ▸ linked)

end Stays

/-- Blocks that stay where they hang stay in their sections. -/
theorem Sectioned.stays (placed : g.Sectioned) (stays : g.Stays g') (tree' : g'.Tree) : g'.Sectioned := by
  intro id after rule place found bound hangs
  obtain ⟨before, here, kind⟩ := stays.kinds found
  rw [kind] at bound
  rcases stays.socket hangs with same | ⟨other, owner, argument, call, kind'⟩
  · obtain ⟨section', holder, there, is⟩ :=
      PlacementRule.names_iff.mp (placed id before rule place here bound same)
    obtain ⟨holder', there'⟩ := contains_iff_block.mp (contains_of_enclosingSocket tree' hangs)
    obtain ⟨_, same, kind'⟩ := stays.kinds there'
    cases there.symm.trans same
    exact PlacementRule.names_iff.mpr ⟨section', holder', there', kind'.trans is⟩
  · obtain ⟨-, holder, there, is⟩ :=
      PlacementRule.names_iff.mp (placed id before rule other here bound argument)
    cases there.symm.trans call
    rw [PlacementRule.ofKind?_container bound, kind'] at is
    cases is

/-! Edits that leave blocks where they hang. -/

section Edits

variable (sound : g.Sound)
include sound

theorem Sound.stays_detach (id : BlockId) (heal : Bool) : g.Stays (g.detach id heal) := by
  have kinds : ∀ {asked after}, (g.detach id heal).block? asked = some after →
      ∃ before, g.block? asked = some before ∧ after.kind = before.kind := fun found =>
    ⟨_, (Moves.detach g id heal).blocks _ ▸ found, rfl⟩
  cases heal with
  | false =>
    refine .of_links sound.tree (sound.detach id false).tree kinds fun {asked place} linked => .inl ?_
    rw [parentLink?_detach] at linked
    split at linked
    · cases linked
    · exact linked
  | true =>
    refine ⟨kinds, fun {asked place} hangs => .inl ?_⟩
    rw [sound.tree.enclosingSocket_heal] at hangs
    split at hangs
    · cases hangs
    · exact hangs

theorem Sound.stays_unplug {heal : Bool} (h : g.unplug id heal = .ok g') : g.Stays g' := by
  have sound' := sound.unplug h
  rcases unplug_cases h with ⟨-, rfl⟩ | ⟨_, _, -, rfl⟩
  · exact .refl _
  · exact (sound.stays_detach id heal).trans
      (.of_same_links (sound.detach id heal).tree sound'.tree (fun found => ⟨_, found, rfl⟩) fun _ => rfl)

theorem Sound.stays_setWarning {warning : Option String} (h : g.setWarning id warning = .ok g') :
    g.Stays g' := by
  have reports : Reports (· = id) g g' := .setWarning h
  exact .of_same_links sound.tree (sound.setWarning h).tree reports.kinds (parentLink?_setWarning h)

theorem Sound.stays_setField {name value : String} {old : Option String}
    (h : g.setField id name value = .ok (old, g')) : g.Stays g' := by
  have reports : Reports (· = id) g g' := .setField h rfl
  exact .of_same_links sound.tree (sound.setField h).tree reports.kinds (parentLink?_setField h)

theorem Sound.stays_updateCall {edit : CallState → CallState} (h : g.updateCall id edit = .ok g') :
    g.Stays g' := by
  obtain ⟨_, _, -, -, links, -⟩ := updateCall_cases h
  exact .of_same_links sound.tree ((Evolves.updateCall h).sound sound).tree (Reports.updateCall h).kinds links

theorem Sound.stays_setSignature (h : g.setSignature id changes = .ok g') : g.Stays g' := by
  refine .of_same_links sound.tree (sound.setSignature h).tree (fun {asked after} found => ?_) fun asked => ?_
  · rw [block?_setSignature h] at found
    split at found
    · obtain ⟨before, here, rfl⟩ := Option.map_eq_some_iff.mp found
      exact ⟨before, here, Block.kind_showParams _⟩
    · exact ⟨after, found, rfl⟩
  · obtain ⟨block, -, -, rfl⟩ := setSignature_cases h
    rw [emit, parentLink?_push, parentLink?_updateBlock g id _ fun _ same => by simpa using same]

theorem Sound.stays_deleteBlock {heal : Bool} {doomed : List BlockId}
    (h : g.deleteBlock id heal = .ok (doomed, g')) : g.Stays g' := by
  obtain ⟨-, rfl, rfl⟩ := deleteBlock_eq_ok.mp h
  have loose := sound.detach id heal
  have first : g.Stays (g.detach id heal) := sound.stays_detach id heal
  have reports : Reports (· ∈ (g.detach id heal).walk id) (g.detach id heal) _ :=
    .foldl_removeNode _ fun _ member => member
  refine first.trans (.of_links loose.tree (loose.foldl_removeNode _).tree reports.kinds
    fun linked => .inl ?_)
  exact ((parentLink?_foldl_removeNode loose.tree _).mp linked).2.2

/-- Arguments are all that new parameters of a reference move. -/
theorem Sound.stays_regenerateArguments (h : g.regenerateArguments r changes = .ok g') : g.Stays g' := by
  cases got : g.getCall r with
  | error reason =>
    simp only [Graph.regenerateArguments, got] at h
    cases h
  | ok call =>
    obtain ⟨block, found, carried⟩ := getCall_eq_ok.mp got
    obtain ⟨after, same, -, rearranged⟩ := regenerateArguments_ok sound found carried changes
    cases h.symm.trans same
    refine .of_links sound.tree rearranged.tree rearranged.reports.kinds fun {id place} linked => ?_
    obtain ⟨own, there⟩ := contains_iff_block.mp (contains_of_parentLink linked)
    rw [rearranged.link fun value member climbs => by
      cases (rearranged.gone member climbs).symm.trans there] at linked
    split at linked
    · next argument =>
      obtain ⟨i, -, -, hung⟩ := sound.tree.mem_held.mp argument
      obtain ⟨owner, here, kind, -⟩ := sound.owner_of_arg hung
      exact .inr ⟨_, owner, sound.tree.enclosingSocket_of_link hung, here, kind⟩
    · exact .inl linked

theorem Sound.stays_updateEach {edit : Graph → BlockId → Except (GraphError × Graph) Graph}
    (each : ∀ {g id}, g.Sound → Leads (fun edited => edited.Sound ∧ g.Stays edited) (· = g) (edit g id))
    (ids : List BlockId) : g.Stays (updateEach edit g ids).2 := by
  induction ids generalizing g with
  | nil => exact .refl g
  | cons id ids ih =>
    unfold updateEach
    split
    · next edited ran =>
      obtain ⟨sound', stays⟩ := (each sound).ok ran
      exact stays.trans (ih sound')
    · next stop left ran =>
      rw [(each sound).error ran]
      exact ih sound

theorem Sound.stays_reconcile {own : Declarations} {scope : Scope} {outcome : Reconciled}
    (h : g.reconcile own scope id = .ok (outcome, g')) : g.Stays g' := by
  rcases reconcile_cases h with ⟨-, rfl⟩ | ⟨-, name, warns⟩ | found
  · exact .refl _
  · exact sound.stays_setWarning warns
  · obtain ⟨call, signature, named, shaped, -, -, renames, reshapes, clears⟩ := found
    have first : named.Sound ∧ g.Stays named := by
      split at renames
      · exact ⟨(Evolves.updateCall renames).sound sound, sound.stays_updateCall renames⟩
      · subst renames
        exact ⟨sound, .refl _⟩
    have second : shaped.Sound ∧ named.Stays shaped := by
      split at reshapes
      · exact ⟨(Evolves.regenerateArguments reshapes).sound first.1,
          first.1.stays_regenerateArguments reshapes⟩
      · subst reshapes
        exact ⟨first.1, .refl _⟩
    exact (first.2.trans second.2).trans (second.1.stays_setWarning clears)

theorem Sound.stays_reconcileEach (own : Declarations) (scope : Scope) (ids : List BlockId)
    (report : ReconcileReport) : g.Stays (reconcileEach own scope g ids report).2 := by
  induction ids generalizing g report with
  | nil => exact .refl g
  | cons id ids ih =>
    unfold reconcileEach
    split
    · next outcome after ran =>
      exact (sound.stays_reconcile ran).trans (ih (((Evolves.reconcile ..).ok ran).sound sound) _)
    · next stop left ran =>
      rw [sound.reconcile_error ran]
      exact ih sound report

theorem Sound.stays_checkPlacement {placement : Placement} (h : g.checkPlacement id = .ok (placement, g')) :
    g.Stays g' := by
  simp only [Graph.checkPlacement, bind_eq_ok] at h
  obtain ⟨block, -, h⟩ := h
  split at h
  · obtain ⟨-, rfl⟩ := Prod.mk.inj (pure_eq_ok.mp h)
    exact .refl _
  · split at h
    · simp only [bind_eq_ok, pure_eq_ok, Prod.mk.injEq] at h
      obtain ⟨cleared, clears, -, rfl⟩ := h
      exact sound.stays_setWarning clears
    · simp only [bind_eq_ok, pure_eq_ok, Prod.mk.injEq] at h
      obtain ⟨loose, freed, warned, warns, -, rfl⟩ := h
      exact (sound.stays_unplug freed).trans ((sound.unplug freed).stays_setWarning warns)

end Edits
end Graph

/-! Reactions. -/

namespace Reaction

variable {g : Graph} (sound : g.Sound)
include sound

theorem place_stays (scope : Scope) (id : BlockId) (event : Event) :
    g.Stays (place scope id event g).graph := by
  unfold place
  cases checked : g.checkPlacement id with
  | error error => exact .refl g
  | ok result => exact sound.stays_checkPlacement checked

theorem propagate_stays (scope : Scope) (id : BlockId) (event : Event) :
    g.Stays (propagate scope id event g).graph := by
  unfold propagate
  split
  · split
    · exact sound.stays_updateEach
        (fun sound => .whole (fun _ ran => ⟨(Graph.Evolves.updateCall ran).sound sound, sound.stays_updateCall ran⟩)
          rfl) _
    · exact .refl g
  · exact sound.stays_updateEach (fun sound => .of_cases
      (fun _ ran => ⟨(Graph.Evolves.regenerateArguments ran).sound sound, sound.stays_regenerateArguments ran⟩)
      fun _ _ => sound.regenerateArguments_error) _
  · exact .refl g

theorem orphan_stays (scope : Scope) (id : BlockId) (event : Event) :
    g.Stays (orphan scope id event g).graph :=
  sound.stays_updateEach
    (fun sound => .whole (fun _ ran => ⟨sound.setWarning ran, sound.stays_setWarning ran⟩) rfl) _

theorem reconcile_stays (scope : Scope) (id : BlockId) (event : Event) :
    g.Stays (reconcile scope id event g).graph := by
  have leads : Graph.Leads (fun result => g.Stays result.2) g.Stays (g.reconcile (.collect g) scope id) :=
    .of_cases (fun _ ran => sound.stays_reconcile ran) fun _ _ stopped => sound.reconcile_error stopped ▸ .refl g
  exact leads.map.response

end Reaction

/-- The answer to an event leaves blocks where they hang or takes them out. -/
theorem Registry.dispatch_stays {g : Graph} {journal : List String} (sound : g.Sound) (scope : Scope) (event : Event) :
    g.Stays (standard.dispatch journal scope event g).1 :=
  dispatch_cases event (.refl g) (Reaction.place_stays sound scope)
    (fun id _ _ _ _ => Reaction.propagate_stays sound scope id event) (Reaction.orphan_stays sound scope)
    fun id _ _ _ => Reaction.reconcile_stays sound scope id event

end RobotBlocks
