import RobotBlocks.Proofs.Graph.Listing
import RobotBlocks.Proofs.Session.Foreign
import RobotBlocks.Proofs.Session.Loading
import RobotBlocks.Proofs.Session.Sectioned

/-! Creating a call of a declaration. The call is written with what the block declares and is then brought in
line like any other reference, so it stays with the block where that is listed among the declarations, or where
no declaration listed has its name; otherwise it goes over to the first one of the name. -/
namespace RobotBlocks

namespace Graph

variable {g g' : Graph} {id : BlockId} {block : Block}

/-! Declarations beside a block that declares nothing. -/

section Beside

variable (tree : g.Tree) (tree' : g'.Tree) (blocks : ∀ other, other ≠ id → g'.block? other = g.block? other)
include tree tree' blocks

theorem Tree.ofKind_beside {kind : Kind}
    (differs : ∀ block, g.block? id = some block ∨ g'.block? id = some block → block.kind ≠ kind) :
    g'.ofKind kind = g.ofKind kind := by
  refine eq_of_ascending (tree'.filter_blocks_ascending _) (tree.filter_blocks_ascending _) fun other => ?_
  rw [tree'.mem_ofKind, tree.mem_ofKind]
  by_cases here : other = id
  · subst here
    exact iff_of_false (fun ⟨block, found, same⟩ => differs block (.inr found) same)
      fun ⟨block, found, same⟩ => differs block (.inl found) same
  · rw [blocks other here]

variable (links : ∀ other, g'.parentLink? other = g.parentLink? other)
include links

theorem Tree.sectionBlocks_beside (top : g.parentLink? id = none) (holder : BlockId) (socket : String) :
    Declarations.sectionBlocks g' holder socket = Declarations.sectionBlocks g holder socket := by
  rw [Declarations.sectionBlocks, Declarations.sectionBlocks, tree.statementStack_congr tree' links]
  refine List.filterMap_congr fun other member => blocks other ?_
  rintro rfl
  cases (tree.enclosingSocket_top top).symm.trans (tree.mem_statementStack.mp member)

theorem Tree.methods_beside
    (silent : ∀ block, g.block? id = some block ∨ g'.block? id = some block → MethodDecl.ofBlock? block = none) :
    (Declarations.collect g').methods = (Declarations.collect g).methods := by
  -- The block may be in one graph and not in the other, but no method is read from it.
  have reads : ∀ {h : Graph}, (∀ block, h.block? id = some block → MethodDecl.ofBlock? block = none) →
      (Declarations.collect h).methods = (h.topBlocks.filter (· ≠ id)).filterMap fun other =>
        (h.block? other).bind MethodDecl.ofBlock? := by
    intro h silent
    rw [Declarations.collect, List.filterMap_filterMap, List.filterMap_filter]
    refine List.filterMap_congr fun other _ => ?_
    by_cases here : other = id
    · subst here
      simpa using silent
    · simp [here]
  have tops : g'.topBlocks.filter (· ≠ id) = g.topBlocks.filter (· ≠ id) := by
    refine eq_of_ascending (tree'.topBlocks_ascending.filter _) (tree.topBlocks_ascending.filter _) fun other => ?_
    simp only [List.mem_filter, tree'.mem_topBlocks, tree.mem_topBlocks, parent?, links, decide_eq_true_iff,
      contains_iff_block]
    exact and_congr_left fun apart => by rw [blocks other apart]
  rw [reads fun block found => silent block (.inr found), reads fun block found => silent block (.inl found), tops]
  refine List.filterMap_congr fun other member => ?_
  rw [blocks other (by simpa using (List.mem_filter.mp member).2)]

/-- The declarations do not depend on a top block that neither declares anything nor holds sections. -/
theorem Tree.collect_beside (top : g.parentLink? id = none)
    (mute : ∀ block, g.block? id = some block ∨ g'.block? id = some block →
      block.kind ≠ .componentHolder ∧ MethodDecl.ofBlock? block = none) :
    Declarations.collect g' = .collect g := by
  have holders := tree.ofKind_beside tree' blocks fun block found => (mute block found).1
  have sections := tree.sectionBlocks_beside tree' blocks links top
  have methods := tree.methods_beside tree' blocks links fun block found => (mute block found).2
  simp only [Declarations.collect, Declarations.mk.injEq, holders, sections, true_and]
  exact methods

end Beside

/-! A call that has just been made. -/

section Drawn

variable {call : CallState} {name : String} {old : Option String}
  (named : (g.addBlock .methodCall (.call call)).2.setField g.freshId Field.name name = .ok (old, g'))
include named

theorem parentLink?_drawn (asked : BlockId) : g'.parentLink? asked = g.parentLink? asked := by
  rw [parentLink?_setField named, parentLink?_addBlock]

theorem block?_drawn_of_ne {asked : BlockId} (old : asked ≠ g.freshId) : g'.block? asked = g.block? asked := by
  rw [block?_setField named, if_neg old, block?_addBlock, if_neg old]

theorem block?_drawn : ∃ block, g'.block? g.freshId = some block ∧ block.kind = .methodCall ∧
    block.extra = .call call ∧ block.name = name := by
  have made := block?_setField named g.freshId
  rw [if_pos rfl, block?_addBlock, if_pos rfl, Option.map_some] at made
  exact ⟨_, made, Block.kind_create .., Block.extra_create .., by simp [Block.name, Block.fieldD, Block.field?]⟩

theorem Tree.bare_drawn (tree : g.Tree) (value : BlockId) (hook : Link) :
    g'.parentLink? value ≠ some (g.freshId, hook) := by
  rw [parentLink?_drawn named]
  intro linked
  cases g.freshId_fresh.symm.trans (tree.contains_parent (up_of_parentLink linked))

/-- A call declares nothing. -/
theorem Sound.collect_drawn (sound : g.Sound) (pending : EventQueue) :
    Declarations.collect { g' with pending } = .collect g := by
  obtain ⟨block, made, kind, carried, -⟩ := block?_drawn named
  have drawn := (sound.addBlock .methodCall (.call call)).setField named
  have links := parentLink?_drawn named
  have blocks : ∀ other, other ≠ g.freshId → g'.block? other = g.block? other := fun _ => block?_drawn_of_ne named
  refine sound.tree.collect_beside (drawn.queue pending).tree blocks links (parentLink?_of_missing g.freshId_fresh)
    fun other found => ?_
  rcases found with missing | (found : g'.block? _ = _)
  · cases (block?_of_missing g.freshId_fresh).symm.trans missing
  · cases made.symm.trans found
    exact ⟨by rw [kind]; decide, by rw [MethodDecl.ofBlock?, carried]⟩

end Drawn

/-- The turn of a reference from which nothing hangs brings it in line and tells of nothing else. -/
theorem turn_bare (sound : g.Sound) (found : g.block? id = some block) (refers : block.kind.isReference = true)
    (bare : ∀ value hook, g.parentLink? value ≠ some (id, hook)) (own : Declarations) (scope : Scope) :
    (g.turn own scope id).block? id = some (scope.settle own block) ∧
      ∃ told, (g.turn own scope id).pending.toList = g.pending.toList ++ told ∧ ∀ event ∈ told, event.Idle := by
  obtain ⟨settled, reports⟩ : Settled own scope [id] g (g.turn own scope id) ∧ _ := turn_ok sound found
  have kept : ¬ g.Dropped own scope [id] id := by
    rintro ⟨r, member, value, unused, -⟩
    cases List.mem_singleton.mp member
    obtain ⟨i, hung⟩ := sound.tree.link_of_given (mem_given_of_unused unused)
    exact bare value _ hung
  refine ⟨by rw [settled.block kept, if_pos (List.mem_singleton_self _), found, Option.map_some], ?_⟩
  obtain ⟨told, appended, tells⟩ := reports.events
  refine ⟨told, appended, fun event member => ?_⟩
  obtain ⟨other, caller, payload, here | ⟨value, i, hung, -⟩, there, ⟨silent, -⟩, rfl⟩ := tells event member
  · subst here
    cases found.symm.trans there
    exact ⟨_, _, payload, rfl, silent, .inl refers⟩
  · exact (bare value _ hung).elim

end Graph

/-! The declarations among which a call is looked up. -/

namespace Declarations

variable {g : Graph} {d : BlockId} {declared : Block} {call : CallState} {peer : Signature}

/-- The listed declarations of the sort of a block: the events for an event, the methods for a method. -/
def peers (own : Declarations) (declared : Block) : List Signature :=
  match declared.extra with
  | .event _ => own.events.map (·.signature)
  | .method _ => own.methods.map (·.signature)
  | _ => []

/-- What a call of a block resolves to: the declaration of the block, else the first one of its name. -/
def peer? (own : Declarations) (declared : Block) (d : BlockId) : Option Signature :=
  ((own.peers declared).find? (·.block = d)).or ((own.peers declared).find? (·.name = declared.name))

/-- A listed declaration shows the block from which it was read. -/
theorem shows_of_peer (member : peer ∈ (collect g).peers declared) (target : CallTarget) :
    ∃ block, g.block? peer.block = some block ∧ Graph.Shows (peer.call target) block := by
  unfold peers at member
  split at member
  · obtain ⟨event, listed, rfl⟩ := List.mem_map.mp member
    obtain ⟨block, found, declares⟩ := event_of_collect listed
    obtain ⟨params, shape, rfl⟩ := EventDecl.ofBlock?_eq_some.mp declares
    exact ⟨block, found, rfl, by simp [shape, ExtraState.params?, Signature.call, EventDecl.signature],
      by simp [shape, Block.returnType, Signature.call, EventDecl.signature]⟩
  · obtain ⟨method, listed, rfl⟩ := List.mem_map.mp member
    obtain ⟨block, found, declares⟩ := method_of_collect listed
    obtain ⟨state, shape, rfl⟩ := MethodDecl.ofBlock?_eq_some.mp declares
    exact ⟨block, found, rfl, by simp [shape, ExtraState.params?, Signature.call, MethodDecl.signature],
      by simp [shape, Block.returnType, Signature.call, MethodDecl.signature]⟩
  · cases member

/-- A block with parameters can be called, and no other one. -/
theorem callStateFor_isOk (found : g.block? d = some declared) :
    (∃ call, g.callStateFor d = .ok call) ↔ declared.extra.params?.isSome = true := by
  simp only [Graph.callStateFor, Graph.get_eq_ok.mpr found, bind, Except.bind]
  cases declared.extra <;> simp [ExtraState.params?, pure_eq_ok, throw_ne_ok]

/-- A fresh call is looked up among the declarations of the sort of its block. -/
theorem lookup_asked (asked : g.callStateFor d = .ok call) (found : g.block? d = some declared)
    (scope : Scope) (own : Declarations) :
    scope.lookup own .methodCall call = (own.peer? declared d).elim .missing .found := by
  simp only [Graph.callStateFor, Graph.get_eq_ok.mpr found, bind, Except.bind] at asked
  split at asked
  · next params shape =>
    cases pure_eq_ok.mp asked
    simp [Scope.lookup, Scope.owner?, Scope.wantsEvent, peer?, peers, shape, findEvent?, List.find?_map,
      Function.comp_def, EventDecl.signature, ← Option.map_or]
  · next state shape =>
    cases pure_eq_ok.mp asked
    simp [Scope.lookup, Scope.owner?, Scope.wantsEvent, peer?, peers, shape, findMethod?, List.find?_map,
      Function.comp_def, MethodDecl.signature, ← Option.map_or]
  · exact absurd asked throw_ne_ok

/-- A call that resolves to the declaration of its block, or to nothing, stays with the block. -/
theorem stays_iff {settled : CallState} (found : g.block? d = some declared)
    (names : call.declaration = some d) (shows : Graph.Shows call declared)
    (bound : settled = match ((collect g).peer? declared d).elim Lookup.missing .found with
      | .found signature => signature.call call.target
      | _ => call) :
    ((settled.declaration = some d ∧ Graph.Shows settled declared) ↔
        (∃ peer ∈ (collect g).peers declared, peer.block = d) ∨
          ∀ peer ∈ (collect g).peers declared, peer.name ≠ declared.name) ∧
      (¬ (settled.declaration = some d ∧ Graph.Shows settled declared) → ∃ peer,
        ((collect g).peers declared).find? (·.name = declared.name) = some peer ∧
          settled = peer.call settled.target) := by
  unfold peer? at bound
  cases listed : ((collect g).peers declared).find? (·.block = d) with
  | some peer =>
    have member := List.mem_of_find?_eq_some listed
    have own : peer.block = d := by simpa using List.find?_some listed
    obtain ⟨block, here, fits⟩ := shows_of_peer member call.target
    cases found.symm.trans (own ▸ here)
    have same : settled = peer.call call.target := by simpa [listed] using bound
    have keeps : settled.declaration = some d := by rw [same, ← own]; rfl
    exact ⟨iff_of_true ⟨keeps, same ▸ fits⟩ (.inl ⟨peer, member, own⟩), fun differs =>
      absurd ⟨keeps, same ▸ fits⟩ differs⟩
  | none =>
    have apart : ∀ peer ∈ (collect g).peers declared, peer.block ≠ d := by simpa using listed
    cases namesake : ((collect g).peers declared).find? (·.name = declared.name) with
    | some peer =>
      have member := List.mem_of_find?_eq_some namesake
      have alike : peer.name = declared.name := by simpa using List.find?_some namesake
      have same : settled = peer.call call.target := by simpa [listed, namesake] using bound
      refine ⟨iff_of_false ?_ ?_, fun _ => ⟨peer, rfl, same ▸ rfl⟩⟩
      · rintro ⟨keeps, -⟩
        rw [same] at keeps
        exact apart peer member (Option.some.inj keeps)
      · rintro (⟨other, listed, own⟩ | free)
        · exact apart other listed own
        · exact free peer member alike
    | none =>
      have free : ∀ peer ∈ (collect g).peers declared, peer.name ≠ declared.name := by simpa using namesake
      have same : settled = call := by simpa [listed, namesake] using bound
      subst same
      exact ⟨iff_of_true ⟨names, shows⟩ (.inr free), fun differs => absurd ⟨names, shows⟩ differs⟩

end Declarations

/-- A reference that shows its name still does when it has been brought in line. -/
theorem Scope.settle_shows (scope : Scope) (own : Declarations) {block : Block} {call : CallState}
    (carried : block.extra = .call call) (shown : block.name = call.name) :
    ∃ settled, (scope.settle own block).extra = .call settled ∧ (scope.settle own block).name = settled.name ∧
      settled = match scope.lookup own block.kind call with
        | .found signature => signature.call call.target
        | _ => call := by
  cases resolved : scope.lookup own block.kind call with
  | found signature =>
    rw [settle_of_found carried resolved]
    split
    · next same => exact ⟨call, carried, shown, same⟩
    · exact ⟨_, rfl, by simp [Block.name, Block.fieldD, Block.field?, Graph.callBlock, Signature.call], rfl⟩
  | missing =>
    rw [settle_of_missing carried resolved]
    exact ⟨call, carried, shown, rfl⟩
  | unresolvable =>
    have same : scope.settle own block = block := by simp [settle, carried, ExtraState.call?, resolved]
    rw [same]
    exact ⟨call, carried, shown, rfl⟩

namespace Session

variable {s : Session}

/-- A fresh call is brought in line with the declarations that were there before it, and nothing else
comes of it. -/
theorem Rested.called {call : CallState} {old : Option String} {g : Graph} (rested : s.Rested)
    (named : (s.graph.addBlock .methodCall (.call call)).2.setField s.graph.freshId Field.name call.name
      = .ok (old, g)) :
    ∃ block, block.kind = .methodCall ∧ block.extra = .call call ∧ block.name = call.name ∧
      (s.withGraph g).graph.block? s.graph.freshId = some (s.scope.settle s.declarations block) := by
  obtain ⟨rest, waiting, own⟩ := pending_created named
  rw [rested.idle, List.nil_append] at waiting
  have opened : Open { s with graph := g } := ⟨rested.opened.registry, rested.opened.phase⟩
  obtain ⟨pending, t, known, empty, still, -, answer, handled⟩ := opened.settled_cons waiting
  have sound : Graph.Sound { g with pending } :=
    ((rested.sound.addBlock .methodCall (.call call)).setField named).queue pending
  obtain ⟨block, made, kind, carried, shown⟩ := Graph.block?_drawn named
  -- The call is read against what was declared before it.
  have same : Declarations.collect { g with pending } = s.declarations := rested.sound.collect_drawn named pending
  have bare : ∀ value hook, g.parentLink? value ≠ some (s.graph.freshId, hook) := rested.sound.tree.bare_drawn named
  have turned : t.graph = Graph.turn s.declarations s.scope { g with pending } s.graph.freshId := by
    rw [answer, Registry.dispatch_standard, ← same]
    exact Registry.reconcile_turn ..
  obtain ⟨settles, told, appended, tells⟩ := Graph.turn_bare sound made (by rw [kind]; rfl) bare s.declarations
    s.scope
  rw [← turned] at settles appended
  have idle : ∀ event ∈ t.graph.pending.toList, event.Idle := by
    intro event member
    rw [appended, empty] at member
    rcases List.mem_append.mp member with waits | heard
    · obtain ⟨payload, rfl, other⟩ := own event waits
      exact ⟨_, _, payload, rfl, other, .inl rfl⟩
    · exact tells event heard
  obtain ⟨left, ends⟩ := handleWithin_idle still idle known (eventLimit - 1)
  have final : (s.withGraph g).graph = { t.graph with pending := left } := (congrArg graph handled).trans ends
  refine ⟨block, kind, carried, shown, ?_⟩
  rw [final]
  exact settles

/-- A call of a block can be created exactly if the block has parameters. It stays with the block exactly if
the declarations list the block, or nothing of its name; otherwise it goes over to the first one of the name. -/
theorem createCallTo_binds_iff (scope : Scope) (edits : List SessionEdit) (d : BlockId) (declared : Block) :
    let s := edits.foldl Session.edit { scope }
    s.graph.block? d = some declared →
      ((∃ answer, s.createCallTo d = .ok answer) ↔ declared.extra.params?.isSome = true) ∧
      ∀ id s', s.createCallTo d = .ok (id, s') → s.graph.contains id = false ∧
        ∃ block call, s'.graph.block? id = some block ∧ block.kind = .methodCall ∧ block.extra = .call call ∧
          block.name = call.name ∧
          ((call.declaration = some d ∧ Graph.Shows call declared) ↔
            (∃ peer ∈ s.declarations.peers declared, peer.block = d) ∨
              ∀ peer ∈ s.declarations.peers declared, peer.name ≠ declared.name) ∧
          (¬ (call.declaration = some d ∧ Graph.Shows call declared) → ∃ peer,
            (s.declarations.peers declared).find? (·.name = declared.name) = some peer ∧
              call = peer.call call.target) := by
  intro s found
  have rested : s.Rested := rested_foldl scope edits
  refine ⟨?_, fun id s' created => ?_⟩
  · rw [← Declarations.callStateFor_isOk found]
    constructor
    · rintro ⟨⟨id, s'⟩, created⟩
      simp only [createCallTo, bind_eq_ok] at created
      obtain ⟨call, asked, -⟩ := created
      exact ⟨call, asked⟩
    · rintro ⟨call, asked⟩
      obtain ⟨old, g, named⟩ := Graph.setField_ok Field.name call.name
        (Graph.block?_created s.graph .methodCall (.call call))
      exact ⟨_, by simp only [createCallTo, asked, Graph.addBlock, named, bind, Except.bind, pure, Except.pure]; rfl⟩
  · simp only [createCallTo, bind_eq_ok, pure_eq_ok, Prod.mk.injEq] at created
    obtain ⟨call, asked, ⟨old, g⟩, named, rfl, rfl⟩ := created
    obtain ⟨block, kind, carried, shown, there⟩ := rested.called named
    obtain ⟨settled, carries, shows, bound⟩ := s.scope.settle_shows s.declarations carried shown
    rw [kind, Declarations.lookup_asked asked found] at bound
    refine ⟨s.graph.freshId_fresh, _, settled, there, (Scope.kind_settle ..).trans kind, carries, shows, ?_⟩
    obtain ⟨own, here, names, fits⟩ := Graph.callStateFor_shows asked
    cases found.symm.trans here
    exact Declarations.stays_iff found names fits bound

/-- A call of an event that stands in no section goes over to the listed event that has no name either. -/
theorem createCallTo_binds_iff_namesake :
    let edits : List SessionEdit :=
      [.create .componentHolder .none, .create .event (.event [⟨"x", none⟩]), .create .event (.event []),
        .connectSocket ⟨0⟩ Socket.events ⟨1⟩]
    let s := edits.foldl Session.edit {}
    ∃ id s' block call, s.createCallTo ⟨2⟩ = .ok (id, s') ∧ s'.graph.block? id = some block ∧
      block.extra = .call call ∧ call.declaration = some ⟨1⟩ ∧ call.args = [⟨"x", none⟩] := by
  intro edits s
  have found : s.graph.block? ⟨2⟩ = some (.create ⟨2⟩ .event (.event [])) := by decide +kernel
  obtain ⟨callable, binds⟩ := createCallTo_binds_iff {} edits ⟨2⟩ _ found
  obtain ⟨⟨id, s'⟩, created⟩ := callable.mpr rfl
  obtain ⟨-, block, call, there, -, carried, -, stays, goes⟩ := binds id s' created
  have peers : s.declarations.peers (.create ⟨2⟩ .event (.event [])) = [⟨⟨1⟩, "", [⟨"x", none⟩], none⟩] := by
    decide +kernel
  have leaves : ¬ ((∃ peer ∈ s.declarations.peers (.create ⟨2⟩ .event (.event [])), peer.block = ⟨2⟩) ∨
      ∀ peer ∈ s.declarations.peers (.create ⟨2⟩ .event (.event [])),
        peer.name ≠ (Block.create ⟨2⟩ .event (.event [])).name) := by
    rw [peers]
    decide
  obtain ⟨peer, namesake, same⟩ := goes (leaves ∘ stays.mp)
  have member : peer ∈ s.declarations.peers (.create ⟨2⟩ .event (.event [])) := List.mem_of_find?_eq_some namesake
  rw [peers] at member
  cases List.mem_singleton.mp member
  exact ⟨id, s', block, call, created, there, carried, by rw [same]; rfl, by rw [same]; rfl⟩

end Session
end RobotBlocks
