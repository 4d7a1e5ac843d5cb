import RobotBlocks.Proofs.Session.Revision

/-! What becomes of a graph when references are brought in line. What it is to be is told of the graph
at the start and of the set of references that had their turn, so the order of the turns does not
matter: a reference that an earlier turn deleted has nothing left to lose. -/
namespace RobotBlocks

theorem Labelled.put_put {α : Type} (entries : Labelled α) (label : String) (first second : α) :
    (entries.put label first).put label second = entries.put label second := by
  induction entries with
  | nil => simp [put]
  | cons entry entries ih =>
    obtain ⟨name, value⟩ := entry
    by_cases here : name = label <;> simp [put, here, ih]

/-- The call of a reference that resolves to the signature. -/
def Signature.call (signature : Signature) (target : CallTarget) : CallState :=
  ⟨target, signature.name, signature.args, signature.returnType, some signature.block⟩

/-- A call with the name and the return type of the signature. -/
def Signature.named (signature : Signature) (call : CallState) : CallState :=
  ⟨call.target, signature.name, call.args, signature.returnType, some signature.block⟩

theorem Signature.named_eq {signature : Signature} {call : CallState}
    (same : call.args = signature.args) : signature.named call = signature.call call.target := by
  rw [Signature.named, same, Signature.call]

namespace Scope

/-- The block of a reference that has been brought in line. -/
def settle (scope : Scope) (own : Declarations) (block : Block) : Block :=
  match block.extra.call? with
  | none => block
  | some call =>
    match scope.lookup own block.kind call with
    | .found signature =>
      if call = signature.call call.target then { block with warning := none }
      else { Graph.callBlock block (signature.call call.target) with warning := none }
    | .missing => { block with warning := some (missingWarning call.name) }
    | .unresolvable => block

theorem settle_of_found {scope : Scope} {own : Declarations} {block : Block} {call : CallState}
    {signature : Signature} (carried : block.extra = .call call)
    (resolved : scope.lookup own block.kind call = .found signature) :
    scope.settle own block = if call = signature.call call.target then { block with warning := none }
      else { Graph.callBlock block (signature.call call.target) with warning := none } := by
  simp [settle, carried, ExtraState.call?, resolved]

theorem settle_of_missing {scope : Scope} {own : Declarations} {block : Block} {call : CallState}
    (carried : block.extra = .call call) (resolved : scope.lookup own block.kind call = .missing) :
    scope.settle own block = { block with warning := some (missingWarning call.name) } := by
  simp [settle, carried, ExtraState.call?, resolved]

theorem kind_settle (scope : Scope) (own : Declarations) (block : Block) :
    (scope.settle own block).kind = block.kind := by
  unfold settle
  split
  · rfl
  · split
    · split <;> rfl
    · rfl
    · rfl

/-- The parameters that a reference shows and those that it is to show, if they differ. -/
def reshape? (scope : Scope) (own : Declarations) (block : Block) :
    Option (List Parameter × List Parameter) :=
  match block.extra.call? with
  | none => none
  | some call =>
    match scope.lookup own block.kind call with
    | .found signature =>
      if call.args = signature.args then none else some (call.args, signature.args)
    | _ => none

end Scope

namespace Graph

variable {g g' h h' : Graph} {id r value : BlockId} {block : Block} {done : List BlockId}

section Turns

variable (own : Declarations) (scope : Scope)

/-- The arguments that a reference gives away at its turn. -/
def given (g : Graph) (r : BlockId) : List (String × Option BlockId) :=
  ((g.block? r).bind (scope.reshape? own)).elim [] fun (shown, _) => g.held r 0 shown

/-- The sockets that the arguments get at the turn, and the arguments that get none. -/
def seating (g : Graph) (r : BlockId) : List (Nat × BlockId) × List (String × Option BlockId) :=
  ((g.block? r).bind (scope.reshape? own)).elim ([], []) fun (shown, asked) =>
    seat 0 (asked.map .kept) (g.held r 0 shown)

/-- What becomes of the link of a block at the turn of its parent. -/
def relinked (g : Graph) (id : BlockId) (link : BlockId × Link) : Option (BlockId × Link) :=
  if id ∈ argumentBlocks (g.given own scope link.1) then
    (seatOf? (g.seating own scope link.1).1 id).map fun i => (link.1, .socket (Socket.arg i))
  else some link

/-- The block hangs from an argument that got no socket. -/
def Dropped (g : Graph) (done : List BlockId) (id : BlockId) : Prop :=
  ∃ r ∈ done, ∃ value ∈ argumentBlocks (g.seating own scope r).2, g.Climbs id value

/-- The graph after the turns of some references. -/
structure Settled (done : List BlockId) (g h : Graph) : Prop where
  sound : h.Sound
  gone : ∀ {id}, g.Dropped own scope done id → h.block? id = none
  block : ∀ {id}, ¬ g.Dropped own scope done id →
    h.block? id = if id ∈ done then (g.block? id).map (scope.settle own) else g.block? id
  link : ∀ {id}, ¬ g.Dropped own scope done id →
    h.parentLink? id = (g.parentLink? id).bind fun link =>
      if link.1 ∈ done then g.relinked own scope id link else some link

/-- The turn of a reference; one that is gone has none. -/
def turn (g : Graph) (r : BlockId) : Graph :=
  match g.reconcile own scope r with
  | .ok (_, turned) => turned
  | .error (_, left) => left

end Turns

variable {own : Declarations} {scope : Scope}

/-! Arguments at a turn. -/

theorem seating_eq {shown asked : List Parameter} (found : g.block? r = some block)
    (reshapes : scope.reshape? own block = some (shown, asked)) :
    g.given own scope r = g.held r 0 shown ∧
      g.seating own scope r = seat 0 (asked.map .kept) (g.held r 0 shown) := by
  simp [given, seating, found, reshapes]

theorem seating_of_steady (steady : (g.block? r).bind (scope.reshape? own) = none) :
    g.given own scope r = [] ∧ g.seating own scope r = ([], []) := by
  simp [given, seating, steady]

/-- What is given away at a turn hung from an argument socket of the reference. -/
theorem Tree.link_of_given (tree : g.Tree) (member : value ∈ argumentBlocks (g.given own scope r)) :
    ∃ i, g.parentLink? value = some (r, .socket (Socket.arg i)) := by
  cases turned : (g.block? r).bind (scope.reshape? own) with
  | none => simp [(seating_of_steady turned).1, argumentBlocks] at member
  | some both =>
    obtain ⟨i, -, -, hung⟩ : ∃ i, _ := tree.mem_held.mp (by simpa [given, turned] using member)
    exact ⟨i, hung⟩

theorem mem_given_of_unused (unused : value ∈ argumentBlocks (g.seating own scope r).2) :
    value ∈ argumentBlocks (g.given own scope r) := by
  cases turned : (g.block? r).bind (scope.reshape? own) with
  | none => simp [(seating_of_steady turned).2, argumentBlocks] at unused
  | some both =>
    simp only [seating, given, turned, Option.elim_some] at unused ⊢
    exact (seat_perm ..).mem_iff.mpr (List.mem_append_right _ unused)

/-- Each argument gets a socket or is left over. -/
theorem Tree.unused_of_unseated (tree : g.Tree) (member : value ∈ argumentBlocks (g.given own scope r))
    (unseated : seatOf? (g.seating own scope r).1 value = none) :
    value ∈ argumentBlocks (g.seating own scope r).2 := by
  cases turned : (g.block? r).bind (scope.reshape? own) with
  | none => simp [(seating_of_steady turned).1, argumentBlocks] at member
  | some both =>
    simp only [seating, given, turned, Option.elim_some] at member unseated ⊢
    exact (seatOf?_eq_none_iff tree.held_nodup member).mp unseated

/-- A turn depends on the block of the reference and on what its sockets hold. -/
theorem given_congr (block : h.block? r = g.block? r)
    (children : ∀ hook, h.child? r hook = g.child? r hook) :
    h.given own scope r = g.given own scope r ∧ h.seating own scope r = g.seating own scope r := by
  have held : ∀ params, h.held r 0 params = g.held r 0 params :=
    fun params => held_congr fun i _ => children _
  simp only [given, seating, block, held, and_self]

/-- Bringing a reference in line, as a revision. -/
def Revision.reconciling (own : Declarations) (scope : Scope) : Revision where
  renew := scope.settle own
  given g r := g.given own scope r
  seating g r := g.seating own scope r
  hung := Tree.link_of_given
  mem_given := mem_given_of_unused
  mem_unused := Tree.unused_of_unseated
  reads := given_congr

/-! The first turns. -/

namespace Settled

theorem revised (settled : Settled own scope done g h) : (Revision.reconciling own scope).Revised done g h :=
  ⟨settled.sound, settled.gone, settled.block, settled.link⟩

theorem of_revised (revised : (Revision.reconciling own scope).Revised done g h) : Settled own scope done g h :=
  ⟨revised.sound, revised.gone, revised.block, revised.link⟩

theorem refl (sound : g.Sound) : Settled own scope [] g g := of_revised (.refl sound)

theorem congr {others : List BlockId} (same : ∀ r, r ∈ done ↔ r ∈ others)
    (settled : Settled own scope done g h) : Settled own scope others g h :=
  of_revised (settled.revised.congr same)

/-- What is left was there before, and the references that had their turns are settled. -/
theorem before {after : Block} (settled : Settled own scope done g h) (there : h.block? id = some after) :
    ∃ before, g.block? id = some before ∧ after = if id ∈ done then scope.settle own before else before :=
  settled.revised.before there

theorem block?_eq_none_iff (settled : Settled own scope done g h) (found : g.block? id = some block) :
    h.block? id = none ↔ g.Dropped own scope done id :=
  settled.revised.block?_eq_none_iff found

/-- What the turns of some references make of a graph is determined by the references. -/
theorem nodes_eq (settled : Settled own scope done g h) (other : Settled own scope done g h') :
    h.nodes = h'.nodes :=
  settled.revised.nodes_eq other.revised

end Settled

/-! One turn. -/

/-- The turn of a reference that keeps its parameters. -/
theorem Settled.of_block (sound : g'.Sound) (found : g.block? r = some block)
    (keeps : scope.reshape? own block = none)
    (blocks : ∀ id, g'.block? id = if id = r then some (scope.settle own block) else g.block? id)
    (links : ∀ id, g'.parentLink? id = g.parentLink? id) : Settled own scope [r] g g' := by
  have steady : (g.block? r).bind (scope.reshape? own) = none := by rw [found]; exact keeps
  obtain ⟨given, seating⟩ := seating_of_steady steady
  refine ⟨sound, ?_, fun {id} _ => ?_, fun {id} _ => ?_⟩
  · rintro id ⟨other, member, value, unused, -⟩
    cases List.mem_singleton.mp member
    simp [seating, argumentBlocks] at unused
  · rw [blocks]
    by_cases here : id = r <;> simp [here, found]
  · rw [links]
    cases linked : g.parentLink? id with
    | none => rfl
    | some link =>
      by_cases here : link.1 = r <;> simp [here, relinked, given, argumentBlocks]

/-- A warning on the reference does not touch its arguments. -/
theorem Rearranged.setWarning {renewed : Block} {changes : List ParamChange} {lifted : List (String × Option BlockId)}
    {shaped : Graph} {warning : Option String} (rearranged : Rearranged g r renewed changes lifted shaped)
    (warns : shaped.setWarning r warning = .ok g') :
    Rearranged g r { renewed with warning } changes lifted g' := by
  refine ⟨rearranged.tree.setWarning warns, fun member climbs => ?_, fun {id} apart => ?_, fun {id} apart => ?_,
    rearranged.reports.trans (.setWarning warns)⟩
  · rw [block?_setWarning warns, rearranged.gone member climbs]
    split <;> rfl
  · rw [block?_setWarning warns, rearranged.block apart]
    by_cases here : id = r <;> simp [here]
  · rw [parentLink?_setWarning warns, rearranged.link apart]

/-- The turn of a reference that gets other parameters. -/
theorem Settled.of_rearranged {renewed : Block} {shown asked : List Parameter} (tree : g.Tree)
    (found : g.block? r = some block) (reshapes : scope.reshape? own block = some (shown, asked))
    (settles : scope.settle own block = { renewed with warning := none }) {shaped : Graph} (sound : shaped.Sound)
    (rearranged : Rearranged g r renewed (asked.map .kept) (g.held r 0 shown) shaped)
    (clears : shaped.setWarning r none = .ok g') : Settled own scope [r] g g' := by
  obtain ⟨given, seating⟩ := seating_eq found reshapes
  exact of_revised (.of_rearranged tree found given seating settles (sound.setWarning clears)
    (rearranged.setWarning clears))

theorem callBlock_callBlock (block : Block) {first second : CallState} (name : first.name = second.name) :
    callBlock (callBlock block first) second = callBlock block second := by
  simp only [callBlock, name, Labelled.put_put]

theorem links_of_update {edit : CallState → CallState} {call : CallState} {named : Graph}
    (found : g.block? r = some block) (carried : block.extra = .call call)
    (updated : g.updateCall r edit = .ok named) :
    (∀ id, named.block? id = if id = r then some (callBlock block (edit call)) else g.block? id) ∧
      ∀ id, named.parentLink? id = g.parentLink? id := by
  obtain ⟨before, old, here, isCall, links, blocks⟩ := updateCall_cases updated
  cases found.symm.trans here
  cases carried.symm.trans isCall
  exact ⟨blocks, links⟩

/-- Another call of the reference does not touch its arguments. -/
theorem Rearranged.of_named {named : Graph} {current renewed : Block} {changes : List ParamChange}
    {params : List Parameter} (tree : g.Tree) (tree' : named.Tree)
    (blocks : ∀ id, named.block? id = if id = r then some current else g.block? id)
    (links : ∀ id, named.parentLink? id = g.parentLink? id) (reports : Reports (· = r) g named)
    (rearranged : Rearranged named r renewed changes (named.held r 0 params) g') :
    Rearranged g r renewed changes (g.held r 0 params) g' := by
  have held : named.held r 0 params = g.held r 0 params :=
    held_congr fun i _ => tree.child?_congr tree' links r (.socket (Socket.arg i))
  have climbs : ∀ {id value}, named.Climbs id value ↔ g.Climbs id value :=
    climbs_congr fun passed _ => by rw [parent?, parent?, links]
  rw [held] at rearranged
  refine ⟨rearranged.tree, fun member above => rearranged.gone member (climbs.mpr above), ?_, ?_, ?_⟩
  · intro id apart
    rw [rearranged.block fun value member above => apart value member (climbs.mp above), blocks]
    split <;> rfl
  · intro id apart
    rw [rearranged.link fun value member above => apart value member (climbs.mp above), links]
  · refine (reports.weaken fun id same => .inl same).trans (rearranged.reports.weaken ?_)
    rintro id (same | ⟨value, member, above⟩)
    · exact .inl same
    · exact .inr ⟨value, member, climbs.mp above⟩

/-- The events of a turn tell of the reference and of what hangs from its arguments. -/
def About (g : Graph) (r id : BlockId) : Prop :=
  id = r ∨ ∃ value i, g.parentLink? value = some (r, .socket (Socket.arg i)) ∧ g.Climbs id value

/-- A reference whose call shows the name and the return type of the signature. -/
structure Renamed (g : Graph) (r : BlockId) (block : Block) (call : CallState) (signature : Signature)
    (named : Graph) (current : Block) : Prop where
  ran : (if isStale call signature then g.updateCall r fun call =>
    { call with
      declaration := some signature.block
      name := signature.name
      returnType := signature.returnType } else pure g) = .ok named
  sound : named.Sound
  blocks : ∀ id, named.block? id = if id = r then some current else g.block? id
  links : ∀ id, named.parentLink? id = g.parentLink? id
  reports : Reports (· = r) g named
  kind : current.kind = block.kind
  carried : current.extra = .call (signature.named call)
  settled : current = block ∧ call = signature.named call ∨
    current = callBlock block (signature.named call) ∧ call ≠ signature.named call

theorem rename_ok {call : CallState} (signature : Signature) (sound : g.Sound)
    (found : g.block? r = some block) (carried : block.extra = .call call) :
    ∃ named current, Renamed g r block call signature named current := by
  have stale : isStale call signature = true ↔
      call ≠ signature.named call := by
    obtain ⟨target, name, args, returns, declaration⟩ := call
    simp only [isStale, Signature.named, ne_eq, CallState.mk.injEq, Bool.or_eq_true,
      decide_eq_true_iff]
    tauto
  by_cases shows : call = signature.named call
  · have current : ¬ isStale call signature = true := fun is => stale.mp is shows
    refine ⟨g, block, by rw [if_neg current]; rfl, sound, fun id => ?_, fun _ => rfl, .refl g, rfl,
      carried.trans (congrArg ExtraState.call shows), .inl ⟨rfl, shows⟩⟩
    by_cases here : id = r <;> simp [here, found]
  · obtain ⟨named, updated⟩ := updateCall_ok (fun call =>
        { call with
          declaration := some signature.block
          name := signature.name
          returnType := signature.returnType }) found carried (by
      intro socket member _
      rw [(sound.fitted found).sockets, carried] at member
      exact ⟨socket, by cases kind : block.kind <;> rw [kind] at member <;> exact member, rfl⟩)
    obtain ⟨blocks, links⟩ := links_of_update found carried updated
    refine ⟨named, _, by rw [if_pos (stale.mpr shows)]; exact updated,
      (Evolves.updateCall updated).sound sound, blocks, links, .updateCall updated, rfl, rfl,
      .inr ⟨rfl, shows⟩⟩

/-- The steps of a turn that brings a reference in line. -/
theorem reconcile_of_found {call : CallState} {signature : Signature} {named shaped turned : Graph}
    (found : g.block? r = some block) (carried : block.extra = .call call)
    (resolved : scope.lookup own block.kind call = .found signature)
    (ran : (if isStale call signature then g.updateCall r fun call =>
      { call with
        declaration := some signature.block
        name := signature.name
        returnType := signature.returnType } else pure g) = .ok named)
    (regenerated : (if call.args = signature.args then pure named
      else named.regenerateArguments r (signature.args.map .kept)) = .ok shaped)
    (clears : shaped.setWarning r none = .ok turned) :
    g.reconcile own scope r = .ok
      (if isStale call signature || call.args ≠ signature.args then .updated else .unchanged, turned) := by
  by_cases stale : isStale call signature = true <;> by_cases same : call.args = signature.args
  · rw [if_pos stale] at ran
    rw [if_pos same] at regenerated
    cases pure_eq_ok.mp regenerated
    simp [reconcile, get_eq_ok.mpr found, mapError_ok, carried, ExtraState.call?, resolved, stale, same, ran,
      clears, bind, Except.bind, pure, Except.pure]
  · rw [if_pos stale] at ran
    rw [if_neg same] at regenerated
    simp [reconcile, get_eq_ok.mpr found, mapError_ok, carried, ExtraState.call?, resolved, stale, same, ran,
      regenerated, clears, bind, Except.bind, pure, Except.pure]
  · rw [if_neg stale] at ran
    rw [if_pos same] at regenerated
    cases pure_eq_ok.mp ran
    cases pure_eq_ok.mp regenerated
    simp [reconcile, get_eq_ok.mpr found, mapError_ok, carried, ExtraState.call?, resolved, stale, same, clears,
      bind, Except.bind, pure, Except.pure]
  · rw [if_neg stale] at ran
    rw [if_neg same] at regenerated
    cases pure_eq_ok.mp ran
    simp [reconcile, get_eq_ok.mpr found, mapError_ok, carried, ExtraState.call?, resolved, stale, same,
      regenerated, clears, bind, Except.bind, pure, Except.pure]

section Found

variable {call : CallState} {signature : Signature} (sound : g.Sound) (found : g.block? r = some block)
  (carried : block.extra = .call call) (resolved : scope.lookup own block.kind call = .found signature)
include sound found carried resolved

/-- A reference that shows the parameters of the declaration keeps its arguments. -/
theorem reconcile_kept (same : call.args = signature.args) :
    ∃ outcome turned, g.reconcile own scope r = .ok (outcome, turned) ∧
      Settled own scope [r] g turned ∧ Reports (g.About r) g turned := by
  obtain ⟨named, current, renamed⟩ := rename_ok signature sound found carried
  have there : named.block? r = some current := (renamed.blocks r).trans (if_pos rfl)
  have keeps : scope.reshape? own block = none := by
    simp [Scope.reshape?, carried, ExtraState.call?, resolved, same]
  obtain ⟨turned, clears⟩ : ∃ turned, named.setWarning r none = .ok turned :=
    ⟨_, setWarning_eq_ok.mpr ⟨contains_iff_block.mpr ⟨_, there⟩, rfl⟩⟩
  have settled := renamed.settled
  rw [Signature.named_eq same] at settled
  have shows : scope.settle own block = { current with warning := none } := by
    rw [Scope.settle_of_found carried resolved]
    rcases settled with ⟨rfl, shown⟩ | ⟨rfl, differs⟩
    · rw [if_pos shown]
    · rw [if_neg differs]
  refine ⟨_, turned, reconcile_of_found found carried resolved renamed.ran (if_pos same) clears, ?_, ?_⟩
  · refine .of_block (renamed.sound.setWarning clears) found keeps (fun id => ?_) fun id => ?_
    · rw [block?_setWarning clears, renamed.blocks]
      by_cases here : id = r <;> simp [here, shows]
    · rw [parentLink?_setWarning clears, renamed.links]
  · exact (renamed.reports.weaken fun id here => .inl here).trans (.setWarning clears)

/-- A reference that shows other parameters than the declaration gets its arguments rearranged. -/
theorem reconcile_reshaped (differs : call.args ≠ signature.args) :
    ∃ outcome turned, g.reconcile own scope r = .ok (outcome, turned) ∧
      Settled own scope [r] g turned ∧ Reports (g.About r) g turned := by
  obtain ⟨named, current, renamed⟩ := rename_ok signature sound found carried
  have there : named.block? r = some current := (renamed.blocks r).trans (if_pos rfl)
  have reshapes : scope.reshape? own block = some (call.args, signature.args) := by
    simp [Scope.reshape?, carried, ExtraState.call?, resolved, differs]
  obtain ⟨shaped, regenerated, soundShaped, rearranged⟩ :=
    regenerateArguments_ok renamed.sound there renamed.carried (signature.args.map .kept)
  have params : (signature.args.map ParamChange.kept).map (·.param) = signature.args := by
    rw [List.map_map]
    exact List.map_id _
  have renewed : callBlock current { signature.named call with
      args := (signature.args.map ParamChange.kept).map (·.param) }
        = callBlock block (signature.call call.target) := by
    rw [params]
    rcases renamed.settled with ⟨rfl, -⟩ | ⟨rfl, -⟩
    · rfl
    · exact callBlock_callBlock block rfl
  rw [renewed] at rearranged
  have whole := rearranged.of_named sound.tree renamed.sound.tree renamed.blocks renamed.links
    renamed.reports
  obtain ⟨turned, clears⟩ : ∃ turned, shaped.setWarning r none = .ok turned :=
    ⟨_, setWarning_eq_ok.mpr ⟨contains_iff_block.mpr ⟨_, whole.own sound.tree⟩, rfl⟩⟩
  have ran := reconcile_of_found found carried resolved renamed.ran ((if_neg differs).trans regenerated)
    clears
  have shows : scope.settle own block
      = { callBlock block (signature.call call.target) with warning := none } := by
    rw [Scope.settle_of_found carried resolved, if_neg fun shown => differs (congrArg CallState.args shown)]
  refine ⟨_, turned, ran, .of_rearranged sound.tree found reshapes shows soundShaped whole clears, ?_⟩
  refine (whole.reports.weaken ?_).trans (.setWarning clears)
  rintro id (here | ⟨value, member, climbs⟩)
  · exact .inl here
  · obtain ⟨i, -, -, hung⟩ := sound.tree.mem_held.mp member
    exact .inr ⟨value, i, hung, climbs⟩

end Found

/-- A reference that is there has its turn. -/
theorem reconcile_ok (sound : g.Sound) (found : g.block? r = some block) :
    ∃ outcome turned, g.reconcile own scope r = .ok (outcome, turned) ∧
      Settled own scope [r] g turned ∧ Reports (g.About r) g turned := by
  have present := contains_iff_block.mpr ⟨block, found⟩
  have unmoved : scope.settle own block = block → scope.reshape? own block = none →
      Settled own scope [r] g g := by
    intro settles keeps
    refine .of_block sound found keeps (fun id => ?_) fun _ => rfl
    by_cases here : id = r <;> simp [here, found, settles]
  cases carried : block.extra.call? with
  | none =>
    refine ⟨.unchanged, g, ?_, unmoved ?_ ?_, .refl g⟩
    · simp [reconcile, get_eq_ok.mpr found, mapError_ok, carried, bind, Except.bind, pure, Except.pure]
    · simp [Scope.settle, carried]
    · simp [Scope.reshape?, carried]
  | some call =>
    cases resolved : scope.lookup own block.kind call with
    | found signature =>
      have carries := call?_eq_some.mp carried
      by_cases same : call.args = signature.args
      · exact reconcile_kept sound found carries resolved same
      · exact reconcile_reshaped sound found carries resolved same
    | missing =>
      obtain ⟨turned, warns⟩ : ∃ turned, g.setWarning r (some (missingWarning call.name)) = .ok turned :=
        ⟨_, setWarning_eq_ok.mpr ⟨present, rfl⟩⟩
      refine ⟨.dangling, turned, ?_, ?_, .setWarning warns⟩
      · simp [reconcile, get_eq_ok.mpr found, mapError_ok, carried, resolved, warns, bind, Except.bind, pure,
          Except.pure]
      · refine .of_block (sound.setWarning warns) found (by simp [Scope.reshape?, carried, resolved])
          (fun id => ?_) (parentLink?_setWarning warns)
        rw [block?_setWarning warns]
        by_cases here : id = r <;> simp [here, found, Scope.settle, carried, resolved]
    | unresolvable =>
      refine ⟨.skipped, g, ?_, unmoved ?_ ?_, .refl g⟩
      · simp [reconcile, get_eq_ok.mpr found, mapError_ok, carried, resolved, bind, Except.bind, pure, Except.pure]
      · simp [Scope.settle, carried, resolved]
      · simp [Scope.reshape?, carried, resolved]

theorem Sound.mem_references (sound : g.Sound) :
    r ∈ g.references ↔ ∃ block, g.block? r = some block ∧ block.kind.isReference = true :=
  sound.tree.mem_filter_blocks

theorem Sound.refersAt_reference (sound : g.Sound) (member : id ∈ g.references) : g.RefersAt id := by
  obtain ⟨block, found, reference⟩ := sound.mem_references.mp member
  exact refersAt_of_block? found reference

/-- Only a block that is not there has no turn. -/
theorem Sound.reconcile_error {error : GraphError} (sound : g.Sound)
    (h : g.reconcile own scope r = .error (error, g')) : g' = g := by
  cases found : g.block? r with
  | none =>
    simp only [reconcile, get, found] at h
    cases h
    rfl
  | some block =>
    obtain ⟨outcome, turned, ran, -⟩ : ∃ outcome turned, g.reconcile own scope r = .ok (outcome, turned) ∧ _ :=
      reconcile_ok sound found
    cases ran.symm.trans h

end Graph
end RobotBlocks
