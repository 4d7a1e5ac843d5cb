import RobotBlocks.Proofs.Graph.Deletion
import RobotBlocks.Proofs.Session.Renaming

/-! References to declarations that are deleted. A deletion tells of each block that goes, after all of them
have gone; every declaration among them is answered by a warning on the references that are left, and by
nothing else. -/
namespace RobotBlocks

namespace Block

/-- The block, warned that nothing has the name that it calls. -/
def orphaned (block : Block) : Block :=
  { block with warning := some (missingWarning (block.extra.call?.elim "" (·.name))) }

/-- The block after certain declarations are gone. -/
def bereft (gone : List BlockId) (block : Block) : Block :=
  if gone.any fun d => Graph.isCallerOf d block then block.orphaned else block

variable {block : Block} {d : BlockId} {call : CallState}

theorem orphaned_of_call (carried : block.extra = .call call) :
    block.orphaned = { block with warning := some (missingWarning call.name) } := by
  simp only [orphaned, carried, ExtraState.call?, Option.elim_some]

theorem isCallerOf_iff : Graph.isCallerOf d block = true ↔ ∃ call, block.RefersTo d call := by
  simp only [Graph.isCallerOf, Bool.and_eq_true, Option.any_eq_true, decide_eq_true_iff, Graph.call?_eq_some]
  constructor
  · rintro ⟨reference, call, carried, isLocal, declaration⟩
    exact ⟨call, reference, carried, isLocal, declaration⟩
  · rintro ⟨call, reference, carried, isLocal, declaration⟩
    exact ⟨reference, call, carried, isLocal, declaration⟩

@[simp] theorem bereft_nil (block : Block) : block.bereft [] = block := rfl

/-- A warning does not change whose caller a block is. -/
theorem isCallerOf_bereft (gone : List BlockId) (block : Block) :
    Graph.isCallerOf d (block.bereft gone) = Graph.isCallerOf d block := by
  unfold bereft
  split <;> rfl

theorem bereft_bereft (first second : List BlockId) (block : Block) :
    (block.bereft first).bereft second = block.bereft (first ++ second) := by
  have same : (block.bereft first).bereft second
      = if second.any fun d => Graph.isCallerOf d block then (block.bereft first).orphaned else block.bereft first := by
    rw [bereft]
    simp only [isCallerOf_bereft]
  rw [same, bereft, bereft, List.any_append]
  cases first.any fun d => Graph.isCallerOf d block <;> cases second.any fun d => Graph.isCallerOf d block <;> rfl

end Block

namespace Graph

variable {g g' g'' : Graph} {d id : BlockId} {gone more : List BlockId}

/-- References to certain declarations are warned, and nothing else has changed. -/
structure Flags (gone : List BlockId) (g g' : Graph) : Prop where
  block : ∀ id, g'.block? id = (g.block? id).map (·.bereft gone)
  link : ∀ id, g'.parentLink? id = g.parentLink? id
  tree : g'.Tree

namespace Flags

theorem refl (tree : g.Tree) : Flags [] g g :=
  ⟨fun id => by simp, fun _ => rfl, tree⟩

theorem trans (first : Flags gone g g') (second : Flags more g' g'') : Flags (gone ++ more) g g'' := by
  refine ⟨fun id => ?_, fun id => (second.link id).trans (first.link id), second.tree⟩
  rw [second.block, first.block, Option.map_map]
  exact congrArg (Option.map · (g.block? id)) (funext fun block => Block.bereft_bereft gone more block)

theorem queue (flags : Flags gone g g') (pending : EventQueue) : Flags gone g { g' with pending } :=
  ⟨flags.block, flags.link, flags.tree.congr rfl (fun _ => rfl) fun _ => rfl⟩

end Flags

/-- Warnings on some blocks, one after the other. -/
theorem Tree.warnEach (tree : g.Tree) (todo : List BlockId) :
    let warned := (updateEach (fun g id => (g.setWarning id (some (missingWarning
      (((g.block? id).bind (·.extra.call?)).elim "" (·.name))))).mapError (·, g)) g todo).2
    (∀ id, warned.block? id = if id ∈ todo then (g.block? id).map Block.orphaned else g.block? id) ∧
      (∀ id, warned.parentLink? id = g.parentLink? id) ∧ warned.Tree ∧ warned.pending = g.pending := by
  induction todo generalizing g with
  | nil => exact ⟨fun id => by simp [updateEach], fun _ => rfl, tree, rfl⟩
  | cons first todo ih =>
    unfold updateEach
    split
    · next warned ran =>
      have warns := mapError_eq_ok.mp ran
      obtain ⟨blocks, links, tree', pending⟩ := ih (tree.setWarning warns)
      refine ⟨fun id => ?_, fun id => (links id).trans (parentLink?_setWarning warns id), tree', ?_⟩
      · rw [blocks, block?_setWarning warns]
        by_cases here : id = first
        · subst here
          cases found : g.block? id with
          | none => simp
          | some block => simp [Block.orphaned]
        · simp [here]
      · obtain ⟨-, rfl⟩ := setWarning_eq_ok.mp warns
        exact pending
    · next error left refused =>
      obtain ⟨reason, -, same⟩ := mapError_eq_error.mp refused
      cases same
      -- Only a block that is not there is not warned.
      have missing : g.block? first = none := by
        refine Option.eq_none_iff_forall_ne_some.mpr fun block found => ?_
        cases refused.symm.trans
          (mapError_eq_ok.mpr (setWarning_eq_ok.mpr ⟨contains_iff_block.mpr ⟨block, found⟩, rfl⟩))
      obtain ⟨blocks, rest⟩ := ih tree
      refine ⟨fun id => ?_, rest⟩
      rw [blocks]
      by_cases here : id = first
      · subst here
        simp [missing]
      · simp [here]

theorem Tree.flagOrphans (tree : g.Tree) (d : BlockId) :
    Flags [d] g (g.flagOrphans d).2 ∧ (g.flagOrphans d).2.pending = g.pending := by
  obtain ⟨blocks, links, tree', pending⟩ := tree.warnEach (g.callersOf d)
  refine ⟨⟨fun id => (blocks id).trans ?_, links, tree'⟩, pending⟩
  cases found : g.block? id with
  | none => simp
  | some block =>
    have caller : id ∈ g.callersOf d ↔ isCallerOf d block = true := by
      rw [callersOf, tree.mem_filter_blocks, found]
      simp
    simp only [caller, Option.map_some, Block.bereft, List.any_cons, List.any_nil, Bool.or_false]
    split <;> rfl

/-! What a deletion tells. -/

theorem Tree.contains_of_mem_walk {other : BlockId} (tree : g.Tree) (present : g.contains id = true)
    (member : other ∈ g.walk id) : g.contains other = true := by
  rcases Relation.ReflTransGen.cases_head ((tree.mem_walk present).mp member) with rfl | ⟨_, step, -⟩
  · exact present
  · exact Tree.contains_child step

/-- The event that tells that a block of a kind has gone. -/
def deletion (entry : BlockId × Kind) : Event := .onBlock entry.1 entry.2 .deleted

/-- The declarations among some blocks. -/
def declared (lost : List (BlockId × Kind)) : List BlockId :=
  (lost.filter fun entry => entry.2.isDeclaration).map (·.1)

theorem removeNode_lost (g : Graph) (id : BlockId) : ∃ lost : List (BlockId × Kind),
    (g.removeNode id).pending.toList = g.pending.toList ++ lost.map deletion ∧ lost.length ≤ 1 ∧
      ∀ d kind, (d, kind) ∈ lost ↔ d = id ∧ (g.block? d).map (·.kind) = some kind := by
  unfold removeNode
  split
  · next missing =>
    refine ⟨[], by simp, Nat.zero_le 1, fun d kind => ?_⟩
    simp only [List.not_mem_nil, false_iff, not_and]
    rintro rfl
    simp [missing]
  · next block found =>
    refine ⟨[(id, block.kind)], EventQueue.toList_push .., Nat.le_refl 1, fun d kind => ?_⟩
    simp only [List.mem_singleton, Prod.mk.injEq]
    refine and_congr_right fun here => ?_
    rw [here, found, Option.map_some, Option.some.injEq, eq_comm]

/-- Every block that goes is told of, with the kind that it had. -/
theorem foldl_removeNode_lost (g : Graph) (doomed : List BlockId) : ∃ lost : List (BlockId × Kind),
    (doomed.foldl removeNode g).pending.toList = g.pending.toList ++ lost.map deletion ∧
      lost.length ≤ doomed.length ∧
      ∀ d kind, (d, kind) ∈ lost ↔ d ∈ doomed ∧ (g.block? d).map (·.kind) = some kind := by
  induction doomed generalizing g with
  | nil => exact ⟨[], by simp, Nat.le_refl 0, by simp⟩
  | cons first doomed ih =>
    obtain ⟨lost, tells, count, own⟩ := removeNode_lost g first
    obtain ⟨later, tells', count', own'⟩ := ih (g.removeNode first)
    refine ⟨lost ++ later, by rw [List.foldl_cons, tells', tells, List.map_append, List.append_assoc], ?_,
      fun d kind => ?_⟩
    · rw [List.length_append, List.length_cons]
      omega
    · rw [List.mem_append, own, own', block?_removeNode, List.mem_cons]
      by_cases here : d = first <;> simp [here]

theorem mem_declared {lost : List (BlockId × Kind)} :
    d ∈ declared lost ↔ ∃ kind, (d, kind) ∈ lost ∧ kind.isDeclaration = true := by
  simp only [declared, List.mem_map, List.mem_filter]
  constructor
  · rintro ⟨⟨_, kind⟩, told, rfl⟩
    exact ⟨kind, told⟩
  · rintro ⟨kind, told⟩
    exact ⟨(d, kind), told, rfl⟩

/-- Blocks are gone, the references to declarations among them are warned, and all other blocks are as they
were. -/
structure Bereaved (g : Graph) (gone : List BlockId) (g' : Graph) : Prop where
  gone_iff : ∀ {id}, id ∈ gone ↔ g.contains id = true ∧ g'.contains id = false
  reference : ∀ {r block call d declared}, r ∉ gone → g.block? r = some block → block.RefersTo d call → d ∈ gone →
    g.block? d = some declared → declared.kind.isDeclaration = true →
      g'.block? r = some { block with warning := some (missingWarning call.name) }
  other : ∀ {id}, id ∉ gone → (∀ block call d declared, g.block? id = some block → block.RefersTo d call →
    d ∈ gone → g.block? d = some declared → declared.kind.isDeclaration = false) → g'.block? id = g.block? id

/-- Blocks go, and the references to those of them that are declarations are warned. -/
theorem Bereaved.of_bereft {listed : List BlockId} (present : ∀ id ∈ gone, g.contains id = true)
    (blocks : ∀ id, g'.block? id = if id ∈ gone then none else (g.block? id).map (·.bereft listed))
    (own : ∀ d, d ∈ listed ↔ d ∈ gone ∧ ∃ declared, g.block? d = some declared ∧ declared.kind.isDeclaration = true) :
    g.Bereaved gone g' := by
  refine ⟨fun {id} => ⟨fun went => ⟨present id went, ?_⟩, fun ⟨there, missing⟩ => ?_⟩,
    fun {r block call d declared} stays found refers went there declares => ?_, fun {id} stays silent => ?_⟩
  · rw [← Bool.not_eq_true, contains_iff_block]
    rintro ⟨block, found⟩
    rw [blocks, if_pos went] at found
    cases found
  · by_contra stays
    obtain ⟨block, found⟩ := contains_iff_block.mp there
    have kept := (blocks id).trans (if_neg stays)
    rw [found] at kept
    cases missing.symm.trans (contains_iff_block.mpr ⟨_, kept⟩)
  · have calls : listed.any (fun d => isCallerOf d block) = true :=
      List.any_eq_true.mpr ⟨d, (own d).mpr ⟨went, declared, there, declares⟩, Block.isCallerOf_iff.mpr ⟨call, refers⟩⟩
    rw [blocks, if_neg stays, found, Option.map_some, Block.bereft, if_pos calls, Block.orphaned_of_call refers.carried]
  · rw [blocks, if_neg stays]
    cases found : g.block? id with
    | none => rfl
    | some block =>
      have free : ¬ listed.any (fun d => isCallerOf d block) = true := by
        intro calls
        obtain ⟨d, member, calls⟩ := List.any_eq_true.mp calls
        obtain ⟨call, refers⟩ := Block.isCallerOf_iff.mp calls
        obtain ⟨went, declared, there, declares⟩ := (own d).mp member
        cases (silent block call d declared found refers went there).symm.trans declares
      rw [Option.map_some, Block.bereft, if_neg free]

end Graph

namespace Registry

theorem dispatch_deletion (g : Graph) (journal : List String) (scope : Scope) (entry : BlockId × Kind) :
    (standard.dispatch journal scope (Graph.deletion entry) g).1 =
      if entry.2.isDeclaration then (g.flagOrphans entry.1).2 else g := by
  obtain ⟨id, kind⟩ := entry
  rw [Graph.deletion, dispatch_standard]
  cases kind <;> rfl

theorem dispatch_flags {g : Graph} (tree : g.Tree) (journal : List String) (scope : Scope) (entry : BlockId × Kind) :
    Graph.Flags (Graph.declared [entry]) g (standard.dispatch journal scope (Graph.deletion entry) g).1 ∧
      (standard.dispatch journal scope (Graph.deletion entry) g).1.pending = g.pending := by
  rw [dispatch_deletion, Graph.declared]
  cases declares : entry.2.isDeclaration with
  | true => simpa [declares] using tree.flagOrphans entry.1
  | false => simpa [declares] using .refl tree

end Registry

namespace Session

variable {s : Session} {id : BlockId}

/-- The answers to deletions, as many as the budget allows. -/
theorem Open.flags {lost : List (BlockId × Kind)} (opened : s.Open) (tree : s.graph.Tree)
    (waiting : s.graph.pending.toList = lost.map Graph.deletion) (own : Option Declarations) {budget : Nat}
    (enough : lost.length ≤ budget) :
    Graph.Flags (Graph.declared lost) s.graph (s.handleWithin own budget).1.graph := by
  induction lost generalizing s own budget with
  | nil =>
    obtain ⟨pending, same⟩ := handleWithin_idle opened (by simp [waiting]) own budget
    exact same ▸ (Graph.Flags.refl tree).queue pending
  | cons entry lost ih =>
    obtain ⟨budget, rfl⟩ := Nat.exists_eq_add_one_of_ne_zero (Nat.ne_of_gt (Nat.zero_lt_of_lt enough))
    obtain ⟨pending, popped, rest⟩ := EventQueue.pop?_cons waiting
    have popping := handleWithin_pop popped own budget
    dsimp only at popping
    obtain ⟨still, answer⟩ := handle_open { s with graph := { s.graph with pending } }
      ⟨opened.registry, opened.phase⟩ own (Graph.deletion entry)
    have queued := (Graph.Flags.refl tree).queue pending
    obtain ⟨first, untold⟩ := Registry.dispatch_flags queued.tree s.journal s.scope entry
    rw [← answer] at first untold
    have all := fun known => (queued.trans first).trans
      (ih still first.tree (by rw [untold]; exact rest) known (Nat.le_of_succ_le_succ enough))
    rw [List.nil_append, Graph.declared, Graph.declared, ← List.map_append, ← List.filter_append] at all
    exact popping ▸ all _

/-- A deletion that tells of no more blocks than are handled at once warns the references to what it took, each
with the name that it calls, and neither changes nor moves anything else that it left. -/
theorem deleteBlock_orphans (reached : s.graph.Assembled) (registry : s.registry = .standard)
    (phase : s.phase = .afterLoading) (idle : s.graph.pending.toList = []) (present : s.graph.contains id = true)
    (heal : Bool) : ∃ removed t g, s.deleteBlock id heal = .ok (removed, t) ∧
      s.graph.deleteBlock id heal = .ok (removed, g) ∧
      (removed.length ≤ eventLimit → s.graph.Bereaved removed t.graph ∧
        ∀ other, t.graph.parentLink? other = g.parentLink? other) := by
  have tree := reached.tree
  let loose := s.graph.detach id heal
  let g := (loose.walk id).foldl Graph.removeNode loose
  have deleted : s.graph.deleteBlock id heal = .ok (loose.walk id, g) := Graph.deleteBlock_eq_ok.mpr ⟨present, rfl, rfl⟩
  have same : ∀ other, loose.block? other = s.graph.block? other := (Graph.Moves.detach s.graph id heal).blocks
  refine ⟨loose.walk id, s.withGraph g, g, ?_, deleted, fun few => ?_⟩
  · rw [Session.deleteBlock, deleted]
    rfl
  obtain ⟨lost, tells, count, own⟩ := Graph.foldl_removeNode_lost loose (loose.walk id)
  have waiting : g.pending.toList = lost.map Graph.deletion := by
    rw [tells, Graph.pending_detach, idle, List.nil_append]
  have opened : Open { s with graph := g } := ⟨registry, phase⟩
  have flags : Graph.Flags (Graph.declared lost) g (s.withGraph g).graph :=
    opened.flags (tree.deleteBlock deleted) waiting none (count.trans few)
  have blocks : ∀ other, (s.withGraph g).graph.block? other = if other ∈ loose.walk id then none
      else (s.graph.block? other).map (·.bereft (Graph.declared lost)) := by
    intro other
    rw [flags.block, Graph.block?_foldl_removeNode, same]
    split <;> rfl
  have moves := Graph.Moves.detach s.graph id heal
  have inside : ∀ other ∈ loose.walk id, s.graph.contains other = true := fun other member =>
    (moves.contains other).symm.trans
      ((tree.detach id heal).contains_of_mem_walk ((moves.contains id).trans present) member)
  refine ⟨.of_bereft inside blocks fun d => ?_, flags.link⟩
  simp only [Graph.mem_declared, own, same, Option.map_eq_some_iff]
  constructor
  · rintro ⟨_, ⟨went, declared, there, rfl⟩, declares⟩
    exact ⟨went, declared, there, declares⟩
  · rintro ⟨went, declared, there, declares⟩
    exact ⟨_, ⟨went, declared, there, rfl⟩, declares⟩

/-- Two events go with their holder. A call of the first and a handler of the second are warned, and a call into
another module that has the number of the first one is not. -/
theorem deleteBlock_orphans_events :
    let fires : CallState := { target := .fireEvent, name := "shot", declaration := some ⟨1⟩ }
    let handles : CallState := { name := "aimed", declaration := some ⟨2⟩ }
    let edits : List Graph.Mutation :=
      [.add .componentHolder .none, .add .event (.event []), .add .event (.event []),
        .connectSocket ⟨0⟩ Socket.events ⟨1⟩, .connectNext ⟨1⟩ ⟨2⟩, .add .methodCall (.call fires),
        .add .eventHandler (.call handles), .add .methodCall (.call { fires with target := .robot })]
    let s : Session := { graph := { edits.foldl Graph.mutate Graph.empty with pending := {} } }
    ∃ t, s.deleteBlock ⟨0⟩ false = .ok ([⟨0⟩, ⟨1⟩, ⟨2⟩], t) ∧
      (t.graph.block? ⟨3⟩).bind (·.warning) = some "Cannot find a declaration named 'shot'" ∧
      (t.graph.block? ⟨4⟩).bind (·.warning) = some "Cannot find a declaration named 'aimed'" ∧
      t.graph.block? ⟨5⟩ = s.graph.block? ⟨5⟩ := by
  intro fires handles edits s
  have reached : s.graph.Assembled := (Graph.Assembled.empty.foldl_mutate edits).queued {}
  have present : s.graph.contains ⟨0⟩ = true := by decide +kernel
  obtain ⟨removed, t, g, ran, deleted, all⟩ := deleteBlock_orphans reached rfl rfl rfl present false
  have listed : (s.graph.deleteBlock ⟨0⟩ false).toOption.map (·.1) = some [⟨0⟩, ⟨1⟩, ⟨2⟩] := by decide +kernel
  rw [deleted] at listed
  cases Option.some.inj listed
  obtain ⟨bereaved, -⟩ := all (by decide)
  have first : s.graph.block? ⟨1⟩ = some (.create ⟨1⟩ .event (.event [])) := by decide +kernel
  have second : s.graph.block? ⟨2⟩ = some (.create ⟨2⟩ .event (.event [])) := by decide +kernel
  have call : s.graph.block? ⟨3⟩ = some (.create ⟨3⟩ .methodCall (.call fires)) := by decide +kernel
  have handler : s.graph.block? ⟨4⟩ = some (.create ⟨4⟩ .eventHandler (.call handles)) := by decide +kernel
  have far : s.graph.block? ⟨5⟩ = some (.create ⟨5⟩ .methodCall (.call { fires with target := .robot })) := by
    decide +kernel
  refine ⟨t, ran, ?_, ?_, bereaved.other (by decide) fun block call d declared found refers _ _ => ?_⟩
  · rw [bereaved.reference (by decide) call ⟨rfl, rfl, rfl, rfl⟩ (by decide) first rfl]
    rfl
  · rw [bereaved.reference (by decide) handler ⟨rfl, rfl, rfl, rfl⟩ (by decide) second rfl]
    rfl
  · cases far.symm.trans found
    cases refers.carried
    cases refers.isLocal

end Session
end RobotBlocks
