import RobotBlocks.Proofs.Session.Arguments

/-! New parameters for a reference: its arguments are taken out, its call and its sockets are derived
anew, and the arguments are put back or deleted. -/
namespace RobotBlocks.Graph

variable {g g' : Graph} {id r child value : BlockId} {block : Block} {index : Nat}
  {params : List Parameter}

/-! Calls. -/

theorem Block.withCall_eq (block : Block) (call : CallState) :
    block.withExtra (.call call)
      = { block with extra := .call call, sockets := Socket.declared block.kind (.call call) } :=
  rfl

/-- The block of a reference with another call. -/
def callBlock (block : Block) (call : CallState) : Block :=
  { block with
    extra := .call call
    sockets := Socket.declared block.kind (.call call)
    fields := block.fields.put Field.name call.name }

theorem call?_eq_some {extra : ExtraState} {call : CallState} :
    extra.call? = some call ↔ extra = .call call := by
  cases extra <;> simp [ExtraState.call?]

theorem getCall_eq_ok {call : CallState} :
    g.getCall id = .ok call ↔ ∃ block, g.block? id = some block ∧ block.extra = .call call := by
  simp only [getCall, bind_eq_ok, get_eq_ok]
  refine exists_congr fun block => and_congr_right fun _ => ?_
  rw [← call?_eq_some]
  cases block.extra.call? <;> simp [pure_eq_ok, throw_ne_ok]

theorem updateCall_ok {call : CallState} (edit : CallState → CallState)
    (found : g.block? r = some block) (carried : block.extra = .call call)
    (kept : ∀ socket ∈ block.sockets, (g.plugged? r socket.name).isSome →
      ∃ other ∈ Socket.declared block.kind (.call (edit call)), other.name = socket.name) :
    ∃ g', g.updateCall r edit = .ok g' := by
  have got := getCall_eq_ok.mpr ⟨block, found, carried⟩
  obtain ⟨shaped, reshaped⟩ : ∃ shaped, g.setExtra r (.call (edit call)) = .ok shaped := by
    refine ⟨_, setExtra_eq_ok.mpr ⟨block, found, fun socket member plugged => ?_, rfl⟩⟩
    obtain ⟨other, offered, named⟩ := kept socket member plugged
    rw [Block.hasSocket, Block.socket?, List.find?_isSome]
    exact ⟨other, offered, by simp [named]⟩
  have there : shaped.block? r = some (block.withExtra (.call (edit call))) := by
    rw [block?_setExtra reshaped]
    simp [found]
  obtain ⟨old, named, set⟩ := setField_ok Field.name (edit call).name there
  exact ⟨named, by simp [updateCall, got, reshaped, set, bind, Except.bind, pure, Except.pure]⟩

theorem updateCall_cases {edit : CallState → CallState} (h : g.updateCall r edit = .ok g') :
    ∃ block call, g.block? r = some block ∧ block.extra = .call call ∧
      (∀ asked, g'.parentLink? asked = g.parentLink? asked) ∧
      ∀ asked, g'.block? asked
        = if asked = r then some (callBlock block (edit call)) else g.block? asked := by
  simp only [updateCall, bind_eq_ok, pure_eq_ok, getCall_eq_ok] at h
  obtain ⟨call, ⟨block, found, carried⟩, shaped, reshaped, ⟨old, named⟩, set, rfl⟩ := h
  refine ⟨block, call, found, carried, fun asked => ?_, fun asked => ?_⟩
  · rw [parentLink?_setField set, parentLink?_setExtra reshaped]
  · rw [block?_setField set, block?_setExtra reshaped]
    by_cases here : asked = r
    · subst here
      simp only [if_true, found, Option.map_some, Block.withCall_eq, callBlock]
    · simp [here]

/-- The name of a reference is shown and no other block changes. -/
theorem Calm.updateCall {edit : CallState → CallState} (h : g.updateCall r edit = .ok g')
    (undeclared : ∀ block, g.block? r = some block → block.kind.isDeclaration = false) :
    Calm (· = r) g g' := by
  simp only [Graph.updateCall, bind_eq_ok, pure_eq_ok] at h
  obtain ⟨call, -, shaped, reshaped, ⟨old, named⟩, set, rfl⟩ := h
  refine (setExtra reshaped).trans (setField set fun block found => ?_)
  rw [block?_setExtra reshaped, if_pos rfl] at found
  obtain ⟨before, here, rfl⟩ := Option.map_eq_some_iff.mp found
  simpa [Block.withExtra] using undeclared before here

/-- Whatever block has the id is a reference. -/
def RefersAt (g : Graph) (id : BlockId) : Prop :=
  ∀ block, g.block? id = some block → block.kind.isReference = true

theorem refersAt_of_block? (found : g.block? r = some block) (reference : block.kind.isReference = true) :
    g.RefersAt r := by
  intro other there
  cases found.symm.trans there
  exact reference

theorem RefersAt.undeclared (refers : g.RefersAt id) :
    ∀ block, g.block? id = some block → block.kind.isDeclaration = false := by
  intro block found
  have reference := refers block found
  cases is : block.kind <;> first | rfl | (rw [is] at reference; cases reference)

theorem RefersAt.reports (refers : g.RefersAt id) {about : BlockId → Prop}
    (reports : Reports about g g') : g'.RefersAt id := by
  intro after there
  obtain ⟨before, here, kind⟩ := reports.kinds there
  rw [kind]
  exact refers before here

/-- Edits of one reference are calm but for that reference. -/
theorem Calm.about (r : BlockId) : Answers (fun g id => id = r ∧ g.RefersAt id)
    fun g g' => Calm (· = r) g g' ∧ Reports (fun _ => True) g g' where
  refl g := ⟨.refl g, .refl g⟩
  trans first second := ⟨first.1.trans second.1, first.2.trans second.2⟩
  unplug ran := ⟨(unplug ran).weaken fun _ => False.elim, .unplug ran trivial⟩
  connectSocket ran := ⟨(connectSocket ran).weaken fun _ => False.elim, .connectSocket ran⟩
  deleteBlock ran := ⟨(deleteBlock ran).weaken fun _ => False.elim, Reports.allows.deleteBlock ran⟩
  stays edited may := ⟨may.1, may.2.reports edited.2⟩
  setWarning _ ran := ⟨(setWarning ran).weaken fun _ => False.elim, Reports.allows.setWarning ran⟩
  updateCall may ran _ := ⟨may.1 ▸ updateCall ran may.2.undeclared, (Reports.updateCall ran).weaken fun _ _ => trivial⟩

/-- Moves, deletions and warnings tell nothing loud. -/
theorem Calm.allowed : Allows fun g g' => Calm (fun _ => True) g g' ∧ Reports (fun _ => True) g g' := by
  have all : ∀ {g g'}, CalmAll g g' → Calm (fun _ => True) g g' := fun calm => calm.weaken fun _ none => none.elim
  exact {
    refl := fun g => ⟨.refl g, .refl g⟩
    trans := fun first second => ⟨first.1.trans second.1, first.2.trans second.2⟩
    unplug := fun h => ⟨all (Calm.unplug h), Reports.allows.unplug h⟩
    connectSocket := fun h => ⟨all (Calm.connectSocket h), Reports.allows.connectSocket h⟩
    deleteBlock := fun h => ⟨all (Calm.deleteBlock h), Reports.allows.deleteBlock h⟩
    setWarning := fun h => ⟨all (Calm.setWarning h), Reports.allows.setWarning h⟩ }

/-- Nor do other calls for references. -/
theorem Calm.answers : Answers RefersAt fun g g' => Calm (fun _ => True) g g' ∧ Reports (fun _ => True) g g' where
  toRearranges := Calm.allowed.toRearranges
  stays quiet refers := refers.reports quiet.2
  setWarning _ := Calm.allowed.setWarning
  updateCall refers h _ := ⟨(Calm.updateCall h refers.undeclared).weaken fun _ _ => trivial,
    (Reports.updateCall h).weaken fun _ _ => trivial⟩

/-- Its arguments are moved or deleted and no other block changes. -/
theorem Calm.regenerateArguments (changes : List ParamChange) (refers : g.RefersAt r) :
    Leads (Calm (· = r) g) (Calm (· = r) g) (g.regenerateArguments r changes) :=
  ((about r).regenerateArguments changes ⟨rfl, refers⟩).mono (fun _ => And.left) fun _ => And.left

/-- Bringing a reference in line tells nothing that would edit another one. -/
theorem Calm.reconcile (own : Declarations) (scope : Scope) (refers : g.RefersAt r) :
    Leads (fun result => Calm (· = r) g result.2) (Calm (· = r) g) (g.reconcile own scope r) :=
  ((about r).reconcile own scope ⟨rfl, refers⟩).mono (fun _ => And.left) fun _ => And.left

/-! Together. -/

theorem declared_arg {call : CallState} {i : Nat} :
    (∃ socket ∈ Socket.declared .methodCall (.call call), socket.name = Socket.arg i) ↔
      i < call.args.length := by
  simp only [Socket.declared, ExtraState.call?, Option.elim_some, List.mem_map, List.mem_range]
  constructor
  · rintro ⟨_, ⟨j, within, rfl⟩, same⟩
    exact Socket.arg_injective same ▸ within
  · intro within
    exact ⟨_, ⟨i, within, rfl⟩, rfl⟩

theorem declared_arg_kind {call : CallState} {socket : Socket}
    (member : socket ∈ Socket.declared .methodCall (.call call)) :
    ∃ i, i < call.args.length ∧ socket = ⟨Socket.arg i, .value⟩ := by
  simp only [Socket.declared, ExtraState.call?, Option.elim_some, List.mem_map, List.mem_range]
    at member
  obtain ⟨i, within, rfl⟩ := member
  exact ⟨i, within, rfl⟩

theorem arg_ne_stack (i : Nat) : Socket.arg i ≠ Socket.stack := by
  intro same
  have first := congrArg String.toList same
  simp [Socket.arg, Socket.stack] at first

/-- A block hangs in a socket of the reference that its kind and state do not ask for. -/
def strays (g : Graph) (r : BlockId) : Bool :=
  (g.block? r).any fun block => block.sockets.any fun socket =>
    (g.plugged? r socket.name).isSome && !(Socket.declared block.kind block.extra).any (·.name = socket.name)

theorem strays_eq_false (found : g.block? r = some block) : g.strays r = false ↔
    ∀ socket ∈ block.sockets, (g.plugged? r socket.name).isSome →
      ∃ asked ∈ Socket.declared block.kind block.extra, asked.name = socket.name := by
  rw [strays, found, Option.any_some, List.any_eq_false]
  refine forall₂_congr fun socket _ => ?_
  rw [← List.any_eq_true.trans (exists_congr fun _ => and_congr_right fun _ => decide_eq_true_iff)]
  cases (g.plugged? r socket.name).isSome <;> simp

/-- Where none strays, a link leads from a socket that kind and state ask for. -/
theorem Tree.declared_of_link (tree : g.Tree) (found : g.block? r = some block) (fits : g.strays r = false)
    {socket : String} (linked : g.parentLink? child = some (r, .socket socket)) :
    ∃ own ∈ Socket.declared block.kind block.extra, own.name = socket := by
  have declared := tree.declared linked
  simp only [linkDeclared, found, Option.any_some] at declared
  obtain ⟨own, offered⟩ := Option.isSome_iff_exists.mp declared
  have named : own.name = socket := by simpa using List.find?_some offered
  subst named
  refine (strays_eq_false found).mp fits own (List.mem_of_find?_eq_some offered) ?_
  rw [plugged?, tree.child?_eq_some.mpr linked]
  rfl

/-- In a sound graph every block has the sockets that its kind and state ask for. -/
theorem Sound.strays (sound : g.Sound) (r : BlockId) : g.strays r = false := by
  cases found : g.block? r with
  | none => rw [Graph.strays, found, Option.any_none]
  | some block =>
    exact (strays_eq_false found).mpr fun socket member _ => ⟨socket, (sound.fitted found).sockets ▸ member, rfl⟩

/-- Whether a block strays in a reference is seen in its own block and in what hangs from it. -/
theorem strays_congr (tree : g.Tree) (tree' : g'.Tree) (same : g'.block? r = g.block? r)
    (links : ∀ id, g'.parentLink? id = g.parentLink? id) : g'.strays r = g.strays r := by
  have plugged : ∀ socket, g'.plugged? r socket = g.plugged? r socket := fun socket =>
    tree.child?_congr tree' links r (.socket socket)
  simp only [Graph.strays, same, plugged]

section Unshaped

variable {call : CallState} (edit : CallState → CallState) (found : g.block? r = some block)
  (carried : block.extra = .call call)
  (asks : Socket.declared block.kind (.call (edit call)) = Socket.declared block.kind (.call call))
include found carried asks

/-- Another call that asks for the same sockets is refused where a block strays, and nowhere else. -/
theorem updateCall_of_fits (fits : g.strays r = false) : ∃ g', g.updateCall r edit = .ok g' := by
  refine updateCall_ok edit found carried fun socket member plugged => ?_
  rw [asks, ← carried]
  exact (strays_eq_false found).mp fits socket member plugged

theorem updateCall_of_strays (strays : g.strays r = true) : ∃ error, g.updateCall r edit = .error error := by
  cases ran : g.updateCall r edit with
  | error error => exact ⟨error, rfl⟩
  | ok edited =>
    simp only [updateCall, bind_eq_ok, getCall_eq_ok] at ran
    obtain ⟨own, ⟨same, here, carries⟩, shaped, reshaped, -⟩ := ran
    cases found.symm.trans here
    cases carried.symm.trans carries
    obtain ⟨same, here, kept, -⟩ := setExtra_eq_ok.mp reshaped
    cases found.symm.trans here
    have fits : g.strays r = false := (strays_eq_false found).mpr fun socket member plugged => by
      obtain ⟨offered, holds⟩ := Option.isSome_iff_exists.mp (kept socket member plugged)
      refine ⟨offered, ?_, by simpa using List.find?_some holds⟩
      rw [carried, ← asks]
      exact List.mem_of_find?_eq_some holds
    cases strays.symm.trans fits

end Unshaped

/-- A link from a socket of a reference leads from an argument or from the stack of a handler. -/
theorem Sound.arg_of_link (sound : g.Sound) (found : g.block? r = some block) {socket : String}
    (linked : g.parentLink? child = some (r, .socket socket)) :
    ∃ own ∈ Socket.declared block.kind block.extra, own.name = socket :=
  sound.tree.declared_of_link found (sound.strays r) linked

/-- Only a method call asks for other sockets when its arguments are others. -/
theorem declared_withArgs {kind : Kind} (call : CallState) (args : List Parameter) (other : kind ≠ .methodCall) :
    Socket.declared kind (.call { call with args }) = Socket.declared kind (.call call) := by
  cases kind <;> first | rfl | exact absurd rfl other

section Lifted

variable {call : CallState} {loose shaped : Graph}
  (lift : Lifts g (argumentBlocks (g.held r 0 call.args)) loose) (tree : g.Tree)
include lift tree

/-- What was lifted is loose and not above the call. -/
theorem Lifts.standsAlone {edit : CallState → CallState} (updated : loose.updateCall r edit = .ok shaped) :
    Loose shaped r (argumentBlocks (g.held r 0 call.args)) := by
  obtain ⟨_, _, -, -, links, blocks⟩ := updateCall_cases updated
  have narrows : g.Narrows shaped := lift.narrows.trans ⟨fun {child parent} step => by
    rwa [Up, parent?, links] at step⟩
  refine ⟨tree.held_nodup, fun value member => ?_, fun value member up => ?_⟩
  · obtain ⟨i, -, -, hung⟩ := tree.mem_held.mp member
    refine ⟨?_, by simp [parent?, links, lift.links, member]⟩
    have differs : value ≠ r := by
      rintro rfl
      exact tree.not_climbs_child (up_of_parentLink hung) .refl
    obtain ⟨own, own_found⟩ := contains_iff_block.mp (contains_of_parentLink hung)
    refine contains_iff_block.mpr ⟨own, ?_⟩
    rw [blocks, if_neg differs, lift.moves.blocks, own_found]
  · obtain ⟨i, -, -, hung⟩ := tree.mem_held.mp member
    exact tree.not_climbs_child (up_of_parentLink hung) (narrows.climbs up)

variable (found : g.block? r = some block) (fits : g.strays r = false) (carried : block.extra = .call call)
include found fits carried

/-- No argument socket of the call holds a block any more. -/
theorem Lifts.vacant (kind : block.kind = .methodCall) (i : Nat) : loose.plugged? r (Socket.arg i) = none := by
  apply lift.tree.child?_eq_none.mpr
  intro child linked
  rw [lift.links] at linked
  split at linked
  · cases linked
  · next outside =>
    have own := tree.declared_of_link found fits linked
    rw [kind, carried] at own
    have within := declared_arg.mp own
    exact outside (tree.mem_held.mpr ⟨i, Nat.zero_le i, by omega, linked⟩)

theorem Lifts.updateCall_ok (args : List Parameter) :
    ∃ shaped, loose.updateCall r (fun call => { call with args }) = .ok shaped := by
  apply Graph.updateCall_ok _ ((lift.moves.blocks r).trans found) carried
  intro socket member plugged
  obtain ⟨child, inside⟩ := Option.isSome_iff_exists.mp plugged
  have linked := lift.tree.child?_eq_some.mp inside
  have before : g.parentLink? child = some (r, .socket socket.name) := by
    rw [lift.links] at linked
    split at linked
    · cases linked
    · exact linked
  obtain ⟨own, asked, named⟩ := tree.declared_of_link found fits before
  rw [carried] at asked
  by_cases kind : block.kind = .methodCall
  · rw [kind] at asked
    obtain ⟨i, -, rfl⟩ := declared_arg_kind asked
    rw [← named] at inside
    cases (lift.vacant tree found fits carried kind i).symm.trans inside
  · exact ⟨own, declared_withArgs call args kind ▸ asked, named⟩

/-- The lifted blocks go to the sockets of the new arguments as far as their names are still there. -/
theorem Lifts.plug_ok (changes : List ParamChange)
    (updated : loose.updateCall r (fun call => { call with args := changes.map (·.param) }) = .ok shaped)
    (there : shaped.block? r = some (callBlock block { call with args := changes.map (·.param) })) :
    ∃ placed, shaped.plugArguments r 0 changes (g.held r 0 call.args)
        = .ok ((seat 0 changes (g.held r 0 call.args)).2, placed) ∧
      Seats shaped r (seat 0 changes (g.held r 0 call.args)).1 placed ∧
      Loose placed r (argumentBlocks (seat 0 changes (g.held r 0 call.args)).2) := by
  have treeShaped := (Evolves.updateCall updated).tree lift.tree
  obtain ⟨_, _, -, -, links, -⟩ := updateCall_cases updated
  have alone := lift.standsAlone tree updated
  by_cases kind : block.kind = .methodCall
  · refine plugArguments_ok changes 0 _ treeShaped there (fun i _ within => ⟨?_, ?_⟩) alone
    · have derived : (callBlock block { call with args := changes.map (·.param) }).sockets =
          Socket.declared .methodCall (.call { call with args := changes.map (·.param) }) := by
        rw [callBlock, kind]
      have member : (⟨Socket.arg i, .value⟩ : Socket) ∈ Socket.declared .methodCall
          (.call { call with args := changes.map (·.param) }) := by
        simp only [Socket.declared, ExtraState.call?, Option.elim_some, List.mem_map, List.mem_range, List.length_map]
        exact ⟨i, by omega, rfl⟩
      exact Block.socket?_of_declared derived (derived ▸ member)
    · apply treeShaped.child?_eq_none.mpr
      intro child linked
      rw [links] at linked
      exact lift.tree.child?_eq_none.mp (lift.vacant tree found fits carried kind i) child linked
  · -- only a method call has argument sockets, so nothing was lifted
    have none : argumentBlocks (g.held r 0 call.args) = [] := by
      apply List.eq_nil_iff_forall_not_mem.mpr
      intro value member
      obtain ⟨i, -, -, hung⟩ := tree.mem_held.mp member
      obtain ⟨own, asked, named⟩ := tree.declared_of_link found fits hung
      exact kind (Socket.of_arg asked named).1
    rw [seat_of_empty changes 0 none]
    exact ⟨shaped, plugArguments_of_empty changes 0 none,
      ⟨treeShaped, .refl shaped, fun _ => rfl, .refl shaped⟩, alone⟩

end Lifted

/-- A reference is not below its own arguments. -/
theorem Tree.not_climbs_held (tree : g.Tree) (member : value ∈ argumentBlocks (g.held r index params)) :
    ¬ g.Climbs r value := by
  obtain ⟨i, -, -, hung⟩ := tree.mem_held.mp member
  exact tree.not_climbs_child (up_of_parentLink hung)

/-- A reference has a new block, and its arguments have new sockets or none. -/
structure Placed (g : Graph) (r : BlockId) (renewed : Block) (params : List Parameter)
    (seated : List (Nat × BlockId)) (placed : Graph) : Prop where
  block : ∀ id, placed.block? id = if id = r then some renewed else g.block? id
  link : ∀ id, placed.parentLink? id = if id ∈ argumentBlocks (g.held r 0 params)
    then (seatOf? seated id).map fun i => (r, .socket (Socket.arg i)) else g.parentLink? id

namespace Placed

variable {renewed : Block} {seated : List (Nat × BlockId)} {placed : Graph}
  (places : Placed g r renewed params seated placed) (tree : g.Tree)
include places tree

/-- Arguments stay below the reference or become loose. -/
theorem narrows : g.Narrows placed := by
  refine ⟨fun {child parent} step => ?_⟩
  obtain ⟨hook, linked⟩ := step.exists_link
  rw [places.link] at linked
  split at linked
  · next member =>
    obtain ⟨i, -, -, hung⟩ := tree.mem_held.mp member
    obtain ⟨j, -, same⟩ := Option.map_eq_some_iff.mp linked
    cases same
    exact up_of_parentLink hung
  · exact up_of_parentLink linked

/-- What hangs from an argument hangs from it still. -/
theorem climbs (member : value ∈ argumentBlocks (g.held r 0 params)) (below : g.Climbs id value) :
    placed.Climbs id value := by
  induction below using Relation.ReflTransGen.head_induction_on with
  | refl => exact .refl
  | @head child parent step onward ih =>
    obtain ⟨hook, linked⟩ := step.exists_link
    have stays : placed.parentLink? child = some (parent, hook) := by
      rw [places.link, if_neg, linked]
      intro argument
      obtain ⟨i, -, -, hung⟩ := tree.mem_held.mp argument
      have same := Up.unique step (up_of_parentLink hung)
      exact tree.not_climbs_held member (same ▸ onward)
    exact .head (up_of_parentLink stays) ih

end Placed

/-- A reference has a new block, its arguments have new sockets, and arguments without a socket are
deleted with all that hangs from them. -/
structure Rearranged (g : Graph) (r : BlockId) (renewed : Block) (changes : List ParamChange)
    (lifted : List (String × Option BlockId)) (g' : Graph) : Prop where
  tree : g'.Tree
  gone : ∀ {id value}, value ∈ argumentBlocks (seat 0 changes lifted).2 → g.Climbs id value →
    g'.block? id = none
  block : ∀ {id}, (∀ value ∈ argumentBlocks (seat 0 changes lifted).2, ¬ g.Climbs id value) →
    g'.block? id = if id = r then some renewed else g.block? id
  link : ∀ {id}, (∀ value ∈ argumentBlocks (seat 0 changes lifted).2, ¬ g.Climbs id value) →
    g'.parentLink? id = if id ∈ argumentBlocks lifted
      then (seatOf? (seat 0 changes lifted).1 id).map fun i => (r, .socket (Socket.arg i))
      else g.parentLink? id
  reports : Reports (fun id => id = r ∨ ∃ value ∈ argumentBlocks lifted, g.Climbs id value) g g'

theorem Rearranged.own {renewed : Block} {changes : List ParamChange} (tree : g.Tree)
    (rearranged : Rearranged g r renewed changes (g.held r index params) g') :
    g'.block? r = some renewed := by
  rw [rearranged.block, if_pos rfl]
  intro value member
  exact tree.not_climbs_held ((seat_perm ..).mem_iff.mpr (List.mem_append_right _ member))

/-- Every step of it: the arguments are taken out, the call is replaced, the arguments that have a seat go there,
and the others are deleted. -/
theorem regenerateArguments_steps {call : CallState} (tree : g.Tree) (found : g.block? r = some block)
    (fits : g.strays r = false) (carried : block.extra = .call call) (changes : List ParamChange) :
    ∃ loose shaped placed g', g.regenerateArguments r changes = .ok g' ∧
      Lifts g (argumentBlocks (g.held r 0 call.args)) loose ∧
      loose.updateCall r (fun call => { call with args := changes.map (·.param) }) = .ok shaped ∧
      Seats shaped r (seat 0 changes (g.held r 0 call.args)).1 placed ∧
      Drops placed (argumentBlocks (seat 0 changes (g.held r 0 call.args)).2) g' ∧
      Placed g r (callBlock block { call with args := changes.map (·.param) }) call.args
        (seat 0 changes (g.held r 0 call.args)).1 placed := by
  have got := getCall_eq_ok.mpr ⟨block, found, carried⟩
  obtain ⟨loose, lifts, lift⟩ := liftArguments_ok tree r 0 call.args
  obtain ⟨shaped, updated⟩ := lift.updateCall_ok tree found fits carried (changes.map (·.param))
  obtain ⟨before, old, same, carries, links, blocks⟩ := updateCall_cases updated
  cases ((lift.moves.blocks r).trans found).symm.trans same
  cases carried.symm.trans carries
  obtain ⟨placed, plugged, seats, left⟩ :=
    lift.plug_ok tree found fits carried changes updated ((blocks r).trans (if_pos rfl))
  obtain ⟨g', dropped, drops⟩ := dropArguments_ok seats.tree left
  have perm := seat_perm 0 changes (g.held r 0 call.args)
  refine ⟨loose, shaped, placed, g', ?_, lift, updated, seats, drops,
    fun id => by rw [seats.moves.blocks, blocks, lift.moves.blocks], fun id => ?_⟩
  · simp [regenerateArguments, got, mapError_ok, lifts, updated, plugged, dropped, bind, Except.bind]
  · rw [seats.links, links, lift.links]
    split
    · exact Option.or_none
    · next outside =>
      have unseated : seatOf? (seat 0 changes (g.held r 0 call.args)).1 id = none := by
        rw [← Option.not_isSome_iff_eq_none, seatOf?_isSome]
        exact fun member => outside (perm.mem_iff.mpr (List.mem_append_left _ member))
      rw [unseated]
      rfl

/-- What it tells is about the reference, its arguments, and what hangs from those that are deleted. -/
theorem regenerateArguments_reports {call : CallState} {changes : List ParamChange} (tree : g.Tree)
    (found : g.block? r = some block) (fits : g.strays r = false) (carried : block.extra = .call call)
    (ran : g.regenerateArguments r changes = .ok g') :
    Reports (fun id => id = r ∨ id ∈ argumentBlocks (g.held r 0 call.args) ∨
      ∃ value ∈ argumentBlocks (seat 0 changes (g.held r 0 call.args)).2, g.Climbs id value) g g' := by
  obtain ⟨loose, shaped, placed, edited, ran', lift, updated, seats, drops, places⟩ :=
    regenerateArguments_steps tree found fits carried changes
  cases ran.symm.trans ran'
  have perm := seat_perm 0 changes (g.held r 0 call.args)
  refine (lift.reports.weaken ?_).trans ((Reports.updateCall updated).weaken ?_ |>.trans
    ((seats.reports.weaken ?_).trans (drops.reports.weaken ?_)))
  · exact fun id member => .inr (.inl member)
  · exact fun id same => .inl same
  · exact fun id member => .inr (.inl (perm.mem_iff.mpr (List.mem_append_left _ member)))
  · rintro id ⟨value, member, climbs⟩
    exact .inr (.inr ⟨value, member, (places.narrows tree).climbs climbs⟩)

/-- A reference in whose sockets nothing strays gets its new parameters. -/
theorem Tree.regenerateArguments_ok {call : CallState} (tree : g.Tree) (found : g.block? r = some block)
    (fits : g.strays r = false) (carried : block.extra = .call call) (changes : List ParamChange) :
    ∃ g', g.regenerateArguments r changes = .ok g' ∧ Rearranged g r
      (callBlock block { call with args := changes.map (·.param) }) changes (g.held r 0 call.args) g' := by
  obtain ⟨loose, shaped, placed, g', ran, lift, updated, seats, drops, places⟩ :=
    regenerateArguments_steps tree found fits carried changes
  have narrows := places.narrows tree
  have listed : ∀ {value}, value ∈ argumentBlocks (seat 0 changes (g.held r 0 call.args)).2 →
      value ∈ argumentBlocks (g.held r 0 call.args) :=
    fun member => (seat_perm ..).mem_iff.mpr (List.mem_append_right _ member)
  refine ⟨g', ran, drops.tree, ?_, ?_, ?_, ?_⟩
  · exact fun member climbs => drops.gone member (places.climbs tree (listed member) climbs)
  · intro id apart
    rw [drops.block fun value member climbs => apart value member (narrows.climbs climbs), places.block]
  · intro id apart
    rw [drops.link fun value member climbs => apart value member (narrows.climbs climbs), places.link]
  · refine (regenerateArguments_reports tree found fits carried ran).weaken ?_
    rintro id (same | argument | ⟨value, member, climbs⟩)
    · exact .inl same
    · exact .inr ⟨id, argument, .refl⟩
    · exact .inr ⟨value, listed member, climbs⟩

theorem regenerateArguments_ok {call : CallState} (sound : g.Sound) (found : g.block? r = some block)
    (carried : block.extra = .call call) (changes : List ParamChange) :
    ∃ g', g.regenerateArguments r changes = .ok g' ∧ g'.Sound ∧ Rearranged g r
      (callBlock block { call with args := changes.map (·.param) }) changes (g.held r 0 call.args) g' := by
  obtain ⟨g', ran, rearranged⟩ := sound.tree.regenerateArguments_ok found (sound.strays r) carried changes
  exact ⟨g', ran, (Evolves.regenerateArguments ran).sound sound, rearranged⟩

/-- In a sound graph what has no call is refused at once, and nothing else is. -/
theorem Sound.regenerateArguments_error {changes : List ParamChange} {error : GraphError} (sound : g.Sound)
    (h : g.regenerateArguments r changes = .error (error, g')) : g' = g := by
  cases got : g.getCall r with
  | error reason =>
    simp only [regenerateArguments, got] at h
    cases h
    rfl
  | ok call =>
    obtain ⟨block, found, carried⟩ := getCall_eq_ok.mp got
    obtain ⟨after, ran, -⟩ := regenerateArguments_ok sound found carried changes
    cases ran.symm.trans h

end RobotBlocks.Graph
