import RobotBlocks.Proofs.Session.Alerts
import RobotBlocks.Proofs.Session.Callers
import RobotBlocks.Proofs.Session.Draining

/-! What an edit of a declaration does to its references. The first event of the edit is answered by editing
every reference; what that tells is about references and their arguments, and edits none of them again. -/
namespace RobotBlocks

/-- The block, its call under another name. -/
def Block.called (block : Block) (name : String) : Block :=
  match block.extra.call? with
  | some call => Graph.callBlock block { call with name }
  | none => block

theorem Block.called_of_call {block : Block} {call : CallState} (carried : block.extra = .call call)
    (name : String) : block.called name = Graph.callBlock block { call with name } := by
  simp [called, carried, ExtraState.call?]

namespace Graph

variable {g g' g'' : Graph} {d r : BlockId} {todo : List BlockId} {name : String}

/-! A new name. -/

/-- A reference asks for the same sockets under every name. -/
theorem declared_withName (kind : Kind) (call : CallState) (name : String) :
    Socket.declared kind (.call { call with name }) = Socket.declared kind (.call call) := by
  cases kind <;> rfl

/-- Some references have another name, and nothing else has changed. -/
structure Renames (name : String) (todo : List BlockId) (g g' : Graph) : Prop where
  block : ∀ id, g'.block? id = if id ∈ todo then (g.block? id).map (·.called name) else g.block? id
  link : ∀ id, g'.parentLink? id = g.parentLink? id
  reports : Reports (· ∈ todo) g g'

namespace Renames

theorem updateCall (ran : g.updateCall r (fun call => { call with name }) = .ok g') : Renames name [r] g g' := by
  obtain ⟨block, call, found, carried, links, blocks⟩ := updateCall_cases ran
  refine ⟨fun id => ?_, links, (Reports.updateCall ran).weaken fun _ same => List.mem_singleton.mpr same⟩
  rw [blocks]
  by_cases here : id = r
  · rw [if_pos here, if_pos (List.mem_singleton.mpr here), here, found, Option.map_some,
      Block.called_of_call carried]
  · rw [if_neg here, if_neg (mt List.mem_singleton.mp here)]

theorem cons (first : Renames name [r] g g') (rest : Renames name todo g' g'') (once : r ∉ todo) :
    Renames name (r :: todo) g g'' := by
  refine ⟨fun id => ?_, fun id => (rest.link id).trans (first.link id), ?_⟩
  · rw [rest.block, first.block]
    by_cases here : id = r
    · simp [here, once]
    · simp [here]
  · exact (first.reports.weaken fun _ own => List.mem_cons.mpr (.inl (List.mem_singleton.mp own))).trans
      (rest.reports.weaken fun _ member => List.mem_cons_of_mem _ member)

/-- References in which a block strays are skipped. -/
theorem updateEach (name : String) (tree : g.Tree) (distinct : todo.Nodup)
    (calls : ∀ r ∈ todo, ∃ block call, g.block? r = some block ∧ block.extra = .call call) :
    Renames name (todo.filter fun r => !g.strays r) g
      (updateEach (fun g id => (g.updateCall id fun call => { call with name }).mapError (·, g)) g todo).2 := by
  induction todo generalizing g with
  | nil => exact ⟨fun _ => (if_neg List.not_mem_nil).symm, fun _ => rfl, .refl g⟩
  | cons r todo ih =>
    obtain ⟨once, distinct⟩ := List.nodup_cons.mp distinct
    obtain ⟨⟨block, call, found, carried⟩, others⟩ := List.forall_mem_cons.mp calls
    unfold Graph.updateEach
    cases fits : g.strays r with
    | true =>
      obtain ⟨error, refused⟩ := updateCall_of_strays (fun call => { call with name }) found carried
        (declared_withName ..) fits
      rw [List.filter_cons_of_neg (by simp [fits]), refused]
      exact ih tree distinct others
    | false =>
      obtain ⟨edited, ran⟩ := updateCall_of_fits (fun call => { call with name }) found carried
        (declared_withName ..) fits
      have first := updateCall ran
      have tree' := (Evolves.updateCall ran).tree tree
      have kept : ∀ other ∈ todo, edited.block? other = g.block? other := fun other member => by
        refine (first.block other).trans (if_neg fun own => once ?_)
        rwa [← List.mem_singleton.mp own]
      have rest := ih tree' distinct fun other member => kept other member ▸ others other member
      rw [List.filter_congr fun other member => by rw [strays_congr tree tree' (kept other member) first.link]] at rest
      rw [List.filter_cons_of_pos (by simp [fits]), mapError_eq_ok.mpr ran]
      exact first.cons rest fun member => once (List.mem_of_mem_filter member)

end Renames

/-! References of a declaration. -/

/-- A declaration is no reference to itself. -/
theorem Tree.ne_of_caller {declared : Block} (tree : g.Tree) (found : g.block? d = some declared)
    (declares : declared.kind.isDeclaration = true) (member : r ∈ g.callersOf d) : r ≠ d := by
  rintro rfl
  have undeclared := (tree.refersAt_caller member).undeclared declared found
  rw [declares] at undeclared
  cases undeclared

/-- A declaration that is edited has the same references as before. -/
theorem mem_callersOf_congr {declared renewed : Block} (tree : g.Tree) (tree' : g'.Tree)
    (found : g.block? d = some declared) (found' : g'.block? d = some renewed)
    (declares : declared.kind.isDeclaration = true) (kind : renewed.kind = declared.kind)
    (same : ∀ r, r ≠ d → g'.block? r = g.block? r) : r ∈ g'.callersOf d ↔ r ∈ g.callersOf d := by
  constructor
  · intro member
    have apart := tree'.ne_of_caller found' (kind ▸ declares) member
    rw [mem_callersOf tree', same r apart] at member
    exact (mem_callersOf tree).mpr member
  · intro member
    have apart := tree.ne_of_caller found declares member
    rw [mem_callersOf tree, ← same r apart] at member
    exact (mem_callersOf tree').mpr member

theorem mem_callersOf_setSignature {changes : List ParamChange} {declared : Block} (tree : g.Tree)
    (found : g.block? d = some declared) (declares : declared.kind.isDeclaration = true)
    (set : g.setSignature d changes = .ok g') : r ∈ g'.callersOf d ↔ r ∈ g.callersOf d := by
  have blocks := block?_setSignature set
  have own : g'.block? d = some _ := (blocks d).trans ((if_pos rfl).trans (congrArg _ found))
  exact mem_callersOf_congr tree (tree.setSignature set) found own declares (Block.kind_showParams _)
    fun r apart => (blocks r).trans (if_neg apart)

end Graph

namespace Session

variable {s t : Session} {g : Graph} {d r : BlockId} {event : Event} {declared : Block} {name : String}

/-- The only event that waits is answered first. -/
theorem Open.withGraph_answer (opened : s.Open) (waiting : g.pending.toList = [event]) :
    ∃ t own budget, t.Open ∧ t.graph = (Registry.standard.dispatch s.journal s.scope event { g with pending := {} }).1 ∧
      s.withGraph g = (Session.handleWithin t own budget).1 := by
  have opened : Open { s with graph := g } := ⟨opened.registry, opened.phase⟩
  obtain ⟨pending, t, own, empty, still, -, answer, handled⟩ := opened.settled_cons waiting
  cases EventQueue.eq_empty empty
  exact ⟨t, own, _, still, answer, handled⟩

/-- What the answer to a change tells alerts references at most. -/
theorem Open.answered (opened : s.Open) (sound : g.Sound) (waiting : g.pending.toList = [event])
    (other : event.kind ≠ .create) :
    (Registry.standard.dispatch s.journal s.scope event { g with pending := {} }).1.Alerts (s.withGraph g).graph := by
  obtain ⟨t, known, budget, still, answer, handled⟩ := opened.withGraph_answer waiting
  have sound := sound.queue {}
  have calm := sound.calm_dispatch s.journal s.scope other
  have evolves := Registry.dispatch_evolves s.journal s.scope event { g with pending := {} }
  rw [handled, ← answer]
  rw [← answer] at calm evolves
  exact (still.alerts (evolves.sound sound) (calm.quiet (List.forall_mem_nil _)) known budget).2

/-- Where nothing answers to what the answer tells, the answer is all that comes of a change. -/
theorem Open.withGraph_idle {answer : Graph} (opened : s.Open) (waiting : g.pending.toList = [event])
    (answers : (Registry.standard.dispatch s.journal s.scope event { g with pending := {} }).1 = answer)
    (idle : ∀ told ∈ answer.pending.toList, told.Idle) :
    ∃ pending, (s.withGraph g).graph = { answer with pending } := by
  obtain ⟨t, known, budget, still, same, handled⟩ := opened.withGraph_answer waiting
  rw [answers] at same
  subst same
  obtain ⟨pending, ends⟩ := handleWithin_idle still idle known budget
  exact ⟨pending, handled ▸ ends⟩

/-- A new name reaches every reference in which no block strays, and nothing else comes of it. -/
theorem Open.renamed {old : Option String} (opened : s.Open) (tree : s.graph.Tree)
    (idle : s.graph.pending.toList = []) (found : s.graph.block? d = some declared)
    (declares : declared.kind.isDeclaration = true) (differs : declared.field? Field.name ≠ some name)
    (set : s.graph.setField d Field.name name = .ok (old, g)) :
    (∀ id, (s.withGraph g).graph.block? id = if id ∈ s.graph.callersOf d ∧ s.graph.strays id = false
      then (g.block? id).map (·.called name) else g.block? id) ∧
    ∀ id, (s.withGraph g).graph.parentLink? id = g.parentLink? id := by
  have waiting := Graph.waiting_setField idle found differs set
  have blocks := Graph.block?_setField set
  have treeSet := tree.setField set
  have treeIdle : Graph.Tree { g with pending := {} } := treeSet.congr rfl (fun _ => rfl) fun _ => rfl
  have renames := Graph.Renames.updateEach name treeIdle (Graph.callersOf_nodup treeIdle d) fun r member => by
    obtain ⟨block, call, there, -, carried, -⟩ := (Graph.mem_callersOf treeIdle).mp member
    exact ⟨block, call, there, carried⟩
  -- What the references tell is about themselves, so no reaction answers it.
  obtain ⟨pending, ends⟩ := opened.withGraph_idle waiting (Registry.dispatch_renamed declares) <| by
    obtain ⟨told, appended, tells⟩ := renames.reports.events
    intro event member
    rw [Graph.renameCallers, appended] at member
    obtain ⟨id, block, payload, caller, there, ⟨other, -⟩, rfl⟩ := tells event member
    have refers := treeIdle.refersAt_caller (List.mem_of_mem_filter caller)
    exact ⟨id, block.kind, payload, rfl, other, .inl (refers block there)⟩
  have own : g.block? d = some _ := (blocks d).trans ((if_pos rfl).trans (congrArg _ found))
  have callers : ∀ id, id ∈ g.callersOf d ↔ id ∈ s.graph.callersOf d := fun _ =>
    Graph.mem_callersOf_congr tree treeSet found own declares rfl fun r apart => (blocks r).trans (if_neg apart)
  have named : ∀ id, id ∈ (g.callersOf d).filter (fun r => !g.strays r) ↔
      id ∈ s.graph.callersOf d ∧ s.graph.strays id = false := by
    intro id
    rw [List.mem_filter, callers, Bool.not_eq_true']
    refine and_congr_right fun member => ?_
    rw [Graph.strays_congr tree treeSet ((blocks id).trans (if_neg (tree.ne_of_caller found declares member)))
      (Graph.parentLink?_setField set)]
  rw [ends]
  refine ⟨fun id => (renames.block id).trans ?_, renames.link⟩
  rw [← if_congr (named id) rfl rfl]
  rfl

/-- New parameters reach every reference that is left. -/
theorem Rested.reshaped {changes : List ParamChange} {after : Block} (rested : s.Rested)
    (found : s.graph.block? d = some declared) (declares : declared.kind.isDeclaration = true)
    (set : s.graph.setSignature d changes = .ok g) (member : r ∈ s.graph.callersOf d)
    (there : (s.withGraph g).graph.block? r = some after) :
    ∃ before call, s.graph.block? r = some before ∧ before.extra = .call call ∧
      after.extra = .call { call with args := changes.map (·.param) } := by
  have waiting := Graph.waiting_setSignature rested.idle found set
  have sound := (rested.sound.setSignature set).queue {}
  have alerts := rested.opened.answered (rested.sound.setSignature set) waiting nofun
  have reports := Graph.reports_dispatch { g with pending := {} } s.journal s.scope
    (.onBlock d declared.kind (.signatureChanged changes))
  have revised : (Graph.Revision.regenerating changes).Revised (g.callersOf d) { g with pending := {} }
      (Registry.standard.dispatch s.journal s.scope (.onBlock d declared.kind (.signatureChanged changes))
        { g with pending := {} }).1 := by
    rw [Registry.dispatch_reshaped declares]
    exact sound.mutateEach_revised d changes (.refl _)
  have blocks := Graph.block?_setSignature set
  have callers : r ∈ g.callersOf d ↔ r ∈ s.graph.callersOf d :=
    Graph.mem_callersOf_setSignature rested.sound found declares set
  obtain ⟨before, call, old, reference, carried, -⟩ := (Graph.mem_callersOf rested.sound).mp member
  obtain ⟨middle, between, -⟩ := alerts.before there
  obtain ⟨caller, here, renewed⟩ := revised.before between
  have apart := rested.sound.tree.ne_of_caller found declares member
  cases old.symm.trans (((blocks r).trans (if_neg apart)).symm.trans here)
  obtain ⟨_, home, kind⟩ := reports.kinds between
  cases here.symm.trans home
  refine ⟨before, call, old, carried, ?_⟩
  rw [(alerts.alerted between there (kind ▸ reference)).extra, renewed, if_pos (callers.mpr member)]
  exact Graph.extra_regenerating changes carried

/-- Edits of a declaration reach its references. -/
structure Propagates (s : Session) : Prop where
  renames : ∀ {d declared raw name t}, s.graph.block? d = some declared → declared.kind.isDeclaration = true →
    s.setField d Field.name raw = .ok (.applied name, t) → ∀ r ∈ s.graph.callersOf d,
      t.graph.block? r = (s.graph.block? r).map (·.called name)
  reshapes : ∀ {d declared editor changes after t}, s.graph.block? d = some declared →
    declared.kind.isDeclaration = true → s.applyEditor d editor = .ok (changes, after, t) →
      ∀ r ∈ s.graph.callersOf d, ∀ block, t.graph.block? r = some block →
        ∃ before call, s.graph.block? r = some before ∧ before.extra = .call call ∧
          block.extra = .call { call with args := changes.map (·.param) }

theorem Rested.propagates (rested : s.Rested) : s.Propagates where
  renames {d declared raw name t} found declares h r member := by
    rcases setField_cases h with ⟨none, -⟩ | ⟨own, stored, old, g, here, -, differs, set, applied, rfl⟩
    · exact absurd rfl (none name)
    · cases found.symm.trans here
      cases applied
      have apart := rested.sound.tree.ne_of_caller found declares member
      rw [(rested.opened.renamed rested.sound.tree rested.idle found declares differs set).1,
        if_pos ⟨member, rested.sound.strays r⟩, Graph.block?_setField set, if_neg apart]
  reshapes {d declared editor changes after t} found declares h r member block there := by
    obtain ⟨g, set, rfl⟩ := applyEditor_cases h
    exact rested.reshaped found declares set member there

end Session
end RobotBlocks
