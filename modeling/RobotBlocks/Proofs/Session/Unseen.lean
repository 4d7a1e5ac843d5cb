import RobotBlocks.Proofs.Code.References
import RobotBlocks.Proofs.Code.Warned
import RobotBlocks.Proofs.Session.Foreign

/-! References to modules that a scope does not have. Nothing can be looked up for them, and that counts for no
finding: loading leaves them as they are stored, and the generator emits them without a word. -/
namespace RobotBlocks

namespace Scope

variable {scope : Scope} {own : Declarations} {kind : Kind} {call : CallState} {block : Block}
  {target : CallTarget} {name module : String}

/-- The scope has no declarations for a target, whatever the module itself declares. -/
def Unseen (scope : Scope) (target : CallTarget) : Prop := ∀ own, scope.owner? own target = none

theorem unseen_mechanism_iff :
    scope.Unseen (.mechanism name module) ↔ scope.mechanisms.get? module = none :=
  ⟨fun unseen => unseen {}, fun absent _ => absent⟩

theorem Unseen.lookup (unseen : scope.Unseen call.target) (own : Declarations) (kind : Kind) :
    scope.lookup own kind call = .unresolvable := by
  rw [Scope.lookup, unseen own]

theorem Unseen.foreign (unseen : scope.Unseen target) : target.isLocal = false := by
  cases target with
  | selfModule | fireEvent => exact nomatch unseen {}
  | robot | mechanism _ _ | component _ | moduleFunction _ => rfl

/-- A block that refers to what the scope does not have is not warned. -/
def Silent (scope : Scope) (block : Block) : Prop :=
  ∀ call, block.extra = .call call → scope.Unseen call.target → block.warning = none

theorem outward_silent (scope : Scope) : Graph.Outward scope.Silent :=
  fun _ _ _ extra warning silent call carried unseen =>
    warning.trans (silent call (extra.symm.trans carried) unseen)

/-- A turn warns those references alone whose owner is there. -/
theorem Silent.settle (silent : scope.Silent block) (own : Declarations) : scope.Silent (scope.settle own block) := by
  cases carried : block.extra.call? with
  | none =>
    have still : scope.settle own block = block := by simp [Scope.settle, carried]
    rwa [still]
  | some call =>
    have carries := Graph.call?_eq_some.mp carried
    cases resolved : scope.lookup own block.kind call with
    | found signature =>
      rw [settle_of_found carries resolved]
      intro _ _ _
      split <;> rfl
    | missing =>
      intro call' carried' unseen
      have same : (scope.settle own block).extra = block.extra := by simp [Scope.settle, carried, resolved]
      cases (same.symm.trans carried').symm.trans carries
      cases resolved.symm.trans (unseen.lookup own block.kind)
    | unresolvable =>
      have still : scope.settle own block = block := by simp [Scope.settle, carried, resolved]
      rwa [still]

end Scope

/-! Loading. -/

namespace Session

variable {s : Session} {id : BlockId} {block : Block} {call : CallState} {message : String}

/-- No reference to what the scope does not have is warned. -/
def Quiet (s : Session) : Prop := s.graph.Foreign s.scope.Silent fun _ => False

/-- A turn that is taken while a graph is loading. -/
theorem Quiet.handleLoading (quiet : s.Quiet) (sound : s.graph.Sound) (known : Option Declarations) (event : Event) :
    (s.handleLoading known event).1.Quiet := by
  have turned : ∀ own id, (s.graph.turn own s.scope id).Foreign s.scope.Silent fun _ => False := fun own id =>
    Graph.Foreign.turn s.scope.outward_silent (fun r block _ => quiet r block not_false) sound
      fun block found foreign => (quiet id block not_false found foreign).settle own
  unfold Session.handleLoading
  split
  · exact quiet
  · next id kind _ _ _ =>
    split
    · have after := turned (known.getD (.collect s.graph)) id
      unfold Graph.turn at after
      dsimp only
      split
      · next outcome graph ran =>
        rw [ran] at after
        exact after
      · next error ran =>
        rw [ran] at after
        exact after
    · exact quiet
  · exact quiet

theorem Quiet.handle (quiet : s.Quiet) (standard : s.registry = .standard) (sound : s.graph.Sound)
    (known : Option Declarations) (event : Event) : (s.handle known event).1.Quiet := by
  unfold Session.handle
  split
  · exact quiet.handleLoading sound known event
  · rw [standard]
    exact Registry.foreign_dispatch s.scope.outward_silent quiet sound
      (fun _ _ silent => silent.settle _) event

/-- Handling keeps the session quiet in both phases. -/
theorem Quiet.handleWithin (quiet : s.Quiet) (standard : s.registry = .standard) (sound : s.graph.Sound)
    (known : Option Declarations) (budget : Nat) : (s.handleWithin known budget).1.Quiet := by
  refine (handleWithin_keeps (P := fun t => t.Quiet ∧ t.registry = .standard ∧ t.graph.Sound)
    ⟨quiet, standard, sound⟩ (fun ⟨quiet, standard, sound⟩ => ⟨quiet, standard, sound.queue {}⟩)
    (fun {t event pending} ⟨quiet, standard, sound⟩ _ known => ?_) known budget).1
  let u : Session := { t with graph := { t.graph with pending } }
  have waiting : u.graph.Sound := sound.queue pending
  exact ⟨Quiet.handle (s := u) quiet standard waiting known event, (handle_registry u known event).trans standard,
    (handle_evolves u standard known event).sound waiting⟩

/-- Nothing is warned in a stored graph. -/
theorem load_quiet {forest : Forest} {scope : Scope} (loaded : Session.load forest scope .standard = .ok s) :
    s.Quiet ∧ s.scope = scope := by
  obtain ⟨g, stored, rfl⟩ := load_eq_ok.mp loaded
  refine ⟨?_, settled_scope _⟩
  exact Quiet.handleWithin (fun _ _ _ found _ _ _ _ => Graph.warning_ofForest stored found) rfl
    ((Graph.Sound.ofForest stored).queue _) none eventLimit

theorem mem_warnings (sound : s.graph.Sound) : (id, message) ∈ s.warnings ↔
    ∃ block, s.graph.block? id = some block ∧ block.warning = some message := by
  have listed : id ∈ (s.graph.blocks.filter fun block => block.warning = some message).map (·.id) ↔
      ∃ block, s.graph.block? id = some block ∧ decide (block.warning = some message) = true :=
    sound.tree.mem_filter_blocks
  simp only [decide_eq_true_eq] at listed
  rw [← listed]
  simp only [warnings, List.mem_filterMap, Option.map_eq_some_iff, Prod.mk.injEq, List.mem_map, List.mem_filter,
    decide_eq_true_eq]
  constructor
  · rintro ⟨block, member, _, warned, rfl, rfl⟩
    exact ⟨block, ⟨member, warned⟩, rfl⟩
  · rintro ⟨block, ⟨member, warned⟩, rfl⟩
    exact ⟨block, member, _, warned, rfl, rfl⟩

theorem Quiet.unwarned (quiet : s.Quiet) (sound : s.graph.Sound) (found : s.graph.block? id = some block)
    (reference : block.kind.isReference = true) (carried : block.extra = .call call)
    (unseen : s.scope.Unseen call.target) (message : String) : (id, message) ∉ s.warnings := by
  rw [mem_warnings sound]
  rintro ⟨_, there, warned⟩
  cases found.symm.trans there
  have foreign := Block.isForeign_eq_true.mpr ⟨reference, call, carried, unseen.foreign⟩
  cases (quiet id block not_false found foreign call carried unseen).symm.trans warned

end Session

/-! Code. -/

namespace Code

variable {g : Graph} {scope : Scope} {id : BlockId} {kind : Kind} {call : CallState} {type : ModuleType}
  {name : String} {options : Options} {generated : Generated}

theorem Refers.block (refers : Refers g scope id kind call) : ∃ block, g.block? id = some block ∧
    block.kind.isReference = true ∧ block.extra = .call call := by
  cases refers with
  | call _ found kind carried => exact ⟨_, found, by rw [kind]; rfl, carried⟩
  | handler _ found kind carried => exact ⟨_, found, by rw [kind]; rfl, carried⟩

/-- A reference to what the scope does not have is emitted, and not reported. -/
theorem Refers.unreported (sound : g.Sound) (made : generate type name g scope options = .ok generated)
    (refers : Refers g scope id kind call) (unseen : scope.Unseen call.target) :
    ∀ diagnostic ∈ generated.diagnostics, diagnostic.block ≠ id := by
  intro diagnostic member named
  obtain ⟨-, missing | ⟨signature, found, -⟩⟩ := (refers.named_iff sound made).mp ⟨diagnostic, member, named⟩
  · cases missing.symm.trans (unseen.lookup _ _)
  · cases found.symm.trans (unseen.lookup _ _)

end Code
end RobotBlocks
