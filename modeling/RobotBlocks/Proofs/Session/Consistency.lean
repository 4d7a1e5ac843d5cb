import RobotBlocks.Proofs.Session.Foreign
import RobotBlocks.Proofs.Session.InLine
import RobotBlocks.Proofs.Session.Sectioned

/-! References to other modules are in line after every operation, whatever the operations were, so
bringing all references in line again can change references to the module's own declarations alone. -/
namespace RobotBlocks

/-- What a reference to another module resolves to does not depend on the module's own declarations. -/
theorem Scope.InLine.foreign {scope : Scope} {own : Declarations} {block : Block}
    (inLine : scope.InLine own block) (foreign : block.isForeign = true) (other : Declarations) :
    scope.InLine other block := by
  obtain ⟨-, call, carried, abroad⟩ := Block.isForeign_eq_true.mp foreign
  have same : ∀ {call'}, block.extra.call? = some call' →
      scope.lookup other block.kind call' = scope.lookup own block.kind call' := by
    intro call' carried'
    rw [carried] at carried'
    cases carried'
    have owner : scope.owner? other call.target = scope.owner? own call.target := by
      cases target : call.target <;> simp [target, CallTarget.isLocal] at abroad <;> rfl
    simp only [lookup, owner]
  refine ⟨fun call signature carried resolved => ?_, fun call signature carried resolved => ?_,
    fun call carried resolved => ?_⟩
  · exact inLine.current call signature carried (same carried ▸ resolved)
  · exact inLine.found call signature carried (same carried ▸ resolved)
  · exact inLine.missing call carried (same carried ▸ resolved)

namespace Graph

variable {g g' : Graph} {id r : BlockId} {except : BlockId → Prop} {scope : Scope}

/-- References to other modules, apart from the excepted ones, are in line. -/
def ForeignInLine (scope : Scope) (except : BlockId → Prop) (g : Graph) : Prop :=
  ∀ r block, ¬ except r → g.block? r = some block → block.isForeign = true → ∀ own, scope.InLine own block

theorem outward_inLine (scope : Scope) : Outward fun block => ∀ own, scope.InLine own block :=
  fun _ _ kind extra warning inLine own => (inLine own).congr kind extra warning

theorem ForeignInLine.spares (inLine : g.ForeignInLine scope except) (spares : Spares except g g') :
    g'.ForeignInLine scope except :=
  Foreign.spares (outward_inLine scope) inLine spares

/-- The turn of a reference to another module brings it in line, whatever it showed. -/
theorem inLine_turned (clear : scope.Clear) (g : Graph) {block : Block} (foreign : block.isForeign = true) :
    ∀ own, scope.InLine own (scope.settle (.collect g) block) := by
  rw [← Scope.isForeign_settle scope (.collect g)] at foreign
  exact (Scope.inLine_settle clear (Declarations.unambiguous_collect g) block).foreign foreign

/-- Bringing one reference in line. -/
theorem ForeignInLine.reconcile (inLine : g.ForeignInLine scope (· = r)) (sound : g.Sound)
    (clear : scope.Clear) (event : Event) :
    (Reaction.reconcile scope r event g).graph.ForeignInLine scope fun _ => False := by
  rw [Registry.reconcile_turn]
  exact Foreign.turn (outward_inLine scope) inLine sound fun _ _ foreign => inLine_turned clear g foreign

/-- Bringing all references in line. -/
theorem Sound.foreign_reconcileAll (sound : g.Sound) (clear : scope.Clear) :
    (g.reconcileAll scope).2.ForeignInLine scope fun _ => False := by
  have settled := sound.reconcileAll_settled (fun _ => sound.mem_references.mp) scope
  intro r after _ found foreign own
  have reference := (Block.isForeign_eq_true.mp foreign).1
  obtain ⟨before, -, rfl⟩ := settled.turned sound found reference
  exact (Scope.inLine_settle clear (Declarations.unambiguous_collect g) before).foreign foreign own

theorem callStateFor_local {call : CallState} (h : g.callStateFor id = .ok call) :
    call.target.isLocal = true := by
  simp only [callStateFor, bind_eq_ok] at h
  obtain ⟨declared, -, h⟩ := h
  split at h
  · cases pure_eq_ok.mp h
    rfl
  · cases pure_eq_ok.mp h
    rfl
  · exact absurd h throw_ne_ok

/-- A fresh block is not in line yet. -/
theorem ForeignInLine.addBlock {kind : Kind} {extra : ExtraState}
    (inLine : g.ForeignInLine scope fun _ => False) :
    (g.addBlock kind extra).2.ForeignInLine scope (· = g.freshId) := by
  intro r block apart found foreign
  rw [block?_addBlock, if_neg apart] at found
  exact inLine r block not_false found foreign

end Graph

/-- The answer to an event leaves references to other modules in line. -/
theorem Registry.inLine_dispatch {g : Graph} {journal : List String} {scope : Scope}
    (inLine : g.ForeignInLine scope fun _ => False) (sound : g.Sound) (clear : scope.Clear) (event : Event) :
    (standard.dispatch journal scope event g).1.ForeignInLine scope fun _ => False :=
  foreign_dispatch (Graph.outward_inLine scope) inLine sound
    (fun _ foreign _ => Graph.inLine_turned clear g foreign) event

namespace Session

variable {s s' : Session}

theorem Open.foreign (opened : s.Open) (sound : s.graph.Sound) (clear : s.scope.Clear)
    (inLine : s.graph.ForeignInLine s.scope fun _ => False) (own : Option Declarations) (budget : Nat) :
    (s.handleWithin own budget).1.graph.ForeignInLine s.scope fun _ => False := by
  obtain ⟨-, -, kept⟩ := opened.handleWithin
    (P := fun g => g.Sound ∧ g.ForeignInLine s.scope fun _ => False) ⟨sound, inLine⟩
    (fun ⟨sound, inLine⟩ => ⟨sound.queue {}, inLine⟩)
    (fun {g event pending} _ ⟨sound, inLine⟩ _ => ⟨(Registry.dispatch_evolves ..).sound (sound.queue pending),
      Registry.inLine_dispatch (g := { g with pending }) inLine (sound.queue pending) clear event⟩) own budget
  exact kept

/-- The creation of a reference is answered first. -/
theorem Open.foreign_created {id : BlockId} {block : Block} {rest : List Event} (opened : s.Open)
    (sound : s.graph.Sound) (clear : s.scope.Clear) (found : s.graph.block? id = some block)
    (waiting : s.graph.pending.toList = .onBlock id block.kind .created :: rest)
    (inLine : s.graph.ForeignInLine s.scope (· = id)) :
    s.settled.graph.ForeignInLine s.scope fun _ => False := by
  obtain ⟨pending, t, own, -, still, sees, answer, handled⟩ := opened.settled_cons waiting
  have sound' := sound.queue pending
  have first : (Registry.standard.dispatch s.journal s.scope (.onBlock id block.kind .created)
      { s.graph with pending }).1.ForeignInLine s.scope fun _ => False := by
    have silent : block.kind.isReference = false →
        Graph.ForeignInLine s.scope (fun _ => False) { s.graph with pending } := by
      intro silent other after _ here foreign
      refine inLine other after ?_ here foreign
      rintro rfl
      cases found.symm.trans here
      have reference := (Block.isForeign_eq_true.mp foreign).1
      rw [silent] at reference
      cases reference
    rw [Registry.dispatch_standard]
    cases is : block.kind with
    | methodCall => exact Graph.ForeignInLine.reconcile (g := { s.graph with pending }) inLine sound' clear _
    | eventHandler => exact Graph.ForeignInLine.reconcile (g := { s.graph with pending }) inLine sound' clear _
    | _ => exact silent (by rw [is]; rfl)
  have kept := still.foreign (by rw [answer]; exact (Registry.dispatch_evolves ..).sound sound')
    (by rw [sees]; exact clear) (by rw [answer, sees]; exact first)
  rw [handled]
  rw [sees] at kept
  exact kept _ _

/-- Between operations references to other modules are in line. -/
structure Consistent (s : Session) : Prop where
  rested : s.Rested
  clear : s.scope.Clear
  foreign : s.graph.ForeignInLine s.scope fun _ => False

theorem consistent_new {scope : Scope} (clear : scope.Clear) : Consistent { scope } := by
  refine ⟨rested_new scope, clear, fun r block _ found => ?_⟩
  simp [Graph.block?, Graph.node?, Graph.empty] at found

theorem Open.consistent (opened : s.Open) (sound : s.graph.Sound) (clear : s.scope.Clear)
    (inLine : s.graph.ForeignInLine s.scope fun _ => False) : s.settled.Consistent := by
  refine ⟨rested_settled opened sound, by rwa [settled_scope], ?_⟩
  rw [settled_scope]
  exact opened.foreign sound clear inLine none eventLimit

/-- A created block is brought in line if it refers to another module. -/
theorem Consistent.createBlock (consistent : s.Consistent) (kind : Kind) (extra : ExtraState) :
    (s.createBlock kind extra).2.Consistent := by
  have sound := consistent.rested.sound.addBlock kind extra
  have opened : Open { s with graph := (s.graph.addBlock kind extra).2 } :=
    ⟨consistent.rested.opened.registry, consistent.rested.opened.phase⟩
  have waiting : (s.graph.addBlock kind extra).2.pending.toList
      = [.onBlock s.graph.freshId (Block.create s.graph.freshId kind extra).kind .created] := by
    simp [Graph.addBlock, Graph.place, Graph.emit, Graph.push, consistent.rested.idle]
  have settled := opened.foreign_created sound consistent.clear (Graph.block?_created ..) waiting
    consistent.foreign.addBlock
  have sees : (s.createBlock kind extra).2.scope = s.scope := settled_scope _
  exact ⟨rested_settled opened sound, sees ▸ consistent.clear, sees ▸ settled⟩

/-- A call of a declaration of the same graph refers to no other module. -/
theorem Consistent.called {d : BlockId} {call : CallState} {old : Option String} {g : Graph}
    (consistent : s.Consistent) (asked : s.graph.callStateFor d = .ok call)
    (named : (s.graph.addBlock .methodCall (.call call)).2.setField s.graph.freshId Field.name call.name
      = .ok (old, g)) : (s.withGraph g).Consistent := by
  have added := consistent.rested.sound.addBlock .methodCall (.call call)
  refine Open.consistent ⟨consistent.rested.opened.registry, consistent.rested.opened.phase⟩
    (added.setField named) consistent.clear (Graph.ForeignInLine.spares ?_ (.setField named))
  intro r block _ found foreign
  by_cases here : r = s.graph.freshId
  · subst here
    cases (Graph.block?_created ..).symm.trans found
    obtain ⟨-, call', carried, abroad⟩ := Block.isForeign_eq_true.mp foreign
    rw [Block.extra_create] at carried
    cases carried
    rw [Graph.callStateFor_local asked] at abroad
    cases abroad
  · exact consistent.foreign.addBlock r block here found foreign

theorem Consistent.run {edit : SessionEdit} (consistent : s.Consistent)
    (clear : ∀ next, edit = .setScope next → next.Clear) (ran : edit.run s = .ok s') : s'.Consistent := by
  have rested := consistent.rested
  have spared : ∀ {g : Graph}, g.Sound → s.graph.Spares (fun _ => False) g → (s.withGraph g).Consistent :=
    fun sound spares => Open.consistent ⟨rested.opened.registry, rested.opened.phase⟩ sound consistent.clear
      (consistent.foreign.spares spares)
  have moved : ∀ {g : Graph}, g.Sound → s.graph.Moves g → (s.withGraph g).Consistent :=
    fun sound moves => spared sound (.of_blocks fun found => moves.blocks _ ▸ found)
  cases SessionEdit.performs ran with
  | create kind extra => exact consistent.createBlock kind extra
  | createCallTo asked named => exact consistent.called asked named
  | same => exact consistent
  | setField found accepted differs set => exact spared (rested.sound.setField set) (.setField set)
  | connectNext linked => exact moved (rested.sound.connectNext linked) (.connectNext linked)
  | connectSocket linked => exact moved (rested.sound.connectSocket linked) (.connectSocket linked)
  | unplug freed => exact moved (rested.sound.unplug freed) (.unplug freed)
  | delete deleted => exact spared (rested.sound.deleteBlock deleted) (.deleteBlock deleted)
  | applyEditor set => exact spared (rested.sound.setSignature set) (.setSignature set)
  | setScope scope =>
    exact Open.consistent ⟨rested.opened.registry, rested.opened.phase⟩
      ((Graph.Evolves.reconcileEach ..).sound rested.sound) (clear scope rfl)
      (rested.sound.foreign_reconcileAll (clear scope rfl))

theorem Consistent.edit {edit : SessionEdit} (consistent : s.Consistent)
    (clear : ∀ next, edit = .setScope next → next.Clear) : (s.edit edit).Consistent := by
  rw [Session.edit_eq]
  cases ran : edit.run s with
  | error error => exact consistent
  | ok edited => exact consistent.run clear ran

theorem consistent_foldl {scope : Scope} (clear : scope.Clear) {edits : List SessionEdit}
    (scopes : ∀ next, .setScope next ∈ edits → next.Clear) :
    (edits.foldl Session.edit { scope }).Consistent := by
  induction edits using List.reverseRecOn with
  | nil => exact consistent_new clear
  | append_singleton edits edit ih =>
    rw [List.foldl_append]
    exact (ih fun next member => scopes next (List.mem_append_left _ member)).edit
      fun next is => scopes next (is ▸ List.mem_concat_self ..)

/-- With no event waiting, a round of turns that renews no call is all that a new scope brings about. -/
theorem Rested.setScope_still_iff (rested : s.Rested) (scope : Scope) :
    ((s.setScope scope).1.updated = 0 ∧ (s.setScope scope).2.graph.nodes = s.graph.nodes) ↔
      ((s.graph.reconcileAll scope).1.updated = 0 ∧ (s.graph.reconcileAll scope).2.nodes = s.graph.nodes) := by
  refine and_congr_right fun (count : (s.graph.reconcileAll scope).1.updated = 0) => ?_
  have idle : (s.graph.reconcileAll scope).2.pending.toList = [] := by
    rw [Graph.reconcileAll, rested.sound.pending_reconcileEach _ _ count, rested.idle]
  have still : (s.setScope scope).2.graph = (s.graph.reconcileAll scope).2 :=
    congrArg graph (settled_idle (s := { s with scope, graph := (s.graph.reconcileAll scope).2 }) idle)
  rw [still]

/-- After any operations the scope of a session brings nothing new, exactly if each reference to the
module's own declarations is in line with what the module declares now. References to other modules
are always in line. -/
theorem setScope_still_iff_local {scope : Scope} (clear : scope.Clear) {edits : List SessionEdit}
    (scopes : ∀ next, .setScope next ∈ edits → next.Clear) :
    let s := edits.foldl Session.edit { scope }
    ((s.setScope s.scope).1.updated = 0 ∧ (s.setScope s.scope).2.graph.nodes = s.graph.nodes) ↔
      ∀ r block call, s.graph.block? r = some block → block.kind.isReference = true →
        block.extra = .call call → call.target.isLocal = true → s.scope.InLine s.declarations block := by
  intro s
  have consistent : s.Consistent := consistent_foldl clear scopes
  rw [consistent.rested.setScope_still_iff, consistent.rested.sound.reconcileAll_still_iff]
  constructor
  · intro inLine r block call found reference _ _
    exact inLine r block found reference
  · intro own r block found reference
    cases carried : block.extra.call? with
    | none => exact Scope.settle_eq_self_iff.mp (by simp [Scope.settle, carried])
    | some call =>
      have carries := Graph.call?_eq_some.mp carried
      cases target : call.target.isLocal with
      | true => exact own r block call found reference carries target
      | false =>
        exact consistent.foreign r block not_false found
          (Block.isForeign_eq_true.mpr ⟨reference, call, carries, target⟩) _

/-- A call of a method that is declared under its name afterwards stays unbound until the scope is set
again. -/
theorem setScope_still_iff_local_named :
    let edits : List SessionEdit :=
      [.create .methodCall (.call { name := "f" }), .create .methodDef (.method {}),
        .setField ⟨1⟩ Field.name "f"]
    let s := edits.foldl Session.edit {}
    s.warnings = [(⟨0⟩, missingWarning "f")] ∧ (s.setScope s.scope).1.updated = 1 ∧
      ¬ ∀ r block call, s.graph.block? r = some block → block.kind.isReference = true →
        block.extra = .call call → call.target.isLocal = true → s.scope.InLine s.declarations block := by
  intro edits s
  have updated : (s.setScope s.scope).1.updated = 1 := by decide +kernel
  refine ⟨by decide +kernel, updated, fun inLine => ?_⟩
  have clear : Scope.Clear {} := ⟨nofun, nofun⟩
  have scopes : ∀ next, .setScope next ∈ edits → next.Clear := by simp [edits]
  obtain ⟨none, -⟩ := (setScope_still_iff_local clear scopes).mpr inLine
  cases updated.symm.trans none

end Session
end RobotBlocks
