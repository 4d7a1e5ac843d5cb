import Mathlib.Data.List.Induction
import RobotBlocks.Graph.Stored
import RobotBlocks.Proofs.Graph.Content
import RobotBlocks.Proofs.Graph.Loop

/-! Histories of a graph: it starts empty or from a stored forest, and edits follow one another,
each carried out or refused. -/
namespace RobotBlocks

/-- Stored fields come first; those that kind and state ask for are never missing. -/
theorem BlockTree.block_derived (tree : BlockTree) : tree.block.Derived := by
  obtain ⟨id, kind, fields, extra, inputs⟩ := tree
  apply Block.derived_of_fields
  intro label member
  exact (Labelled.labels_foldl_putNew fields _ label).mpr (.inr member)

/-- A property of all states that a run passes: where each step keeps it under a condition and no longer, the
steps have to meet their conditions. -/
theorem foldl_prefixes_iff {σ α : Type} {P : σ → Prop} {Q : σ → α → Prop} {step : σ → α → σ} {s : σ}
    (start : P s) (each : ∀ (before : List α) item, P (before.foldl step s) →
      (P (step (before.foldl step s) item) ↔ Q (before.foldl step s) item)) (items : List α) :
    (∀ before, before <+: items → P (before.foldl step s)) ↔
      ∀ before item, before ++ [item] <+: items → Q (before.foldl step s) item := by
  constructor
  · intro kept before item early
    have after := kept _ early
    rw [List.foldl_append] at after
    exact (each before item (kept before ((List.prefix_append ..).trans early))).mp after
  · intro heeds before
    induction before using List.reverseRecOn with
    | nil => exact fun _ => start
    | append_singleton before item ih =>
      intro early
      rw [List.foldl_append]
      exact (each before item (ih ((List.prefix_append ..).trans early))).mpr (heeds before item early)

namespace Graph

variable {g g' : Graph} {id : BlockId}

theorem Sound.empty : empty.Sound where
  tree := {
    ascending := List.Pairwise.nil
    declared := by simp [parentLink?, node?, Graph.empty]
    unshared := by simp [parentLink?, node?, Graph.empty]
    grounded := ⟨fun child => ⟨child, by simp [Up, parent?, parentLink?, node?, Graph.empty]⟩⟩ }
  fitted := by simp [Fitted, block?, node?, Graph.empty]

/-! Loading. -/

/-- A property of graphs that each block coming in and each link attached leaves intact. -/
structure KeptByLoading (P : Graph → Prop) : Prop where
  insert : ∀ {g g' : Graph} (tree : BlockTree), P g → g.insertBlock tree.block = .ok g' → P g'
  attach : ∀ {g g' : Graph} {parent child : BlockId} {hook : Link}, P g →
    g.attach parent hook child = .ok g' → P g'

namespace KeptByLoading

variable {P : Graph → Prop}

mutual

theorem loadTree {g g' : Graph} (kept : KeptByLoading P) (holds : P g) :
    ∀ tree : BlockTree, g.loadTree tree = .ok g' → P g'
  | .node id kind fields extra inputs, h => by
    simp only [Graph.loadTree, bind_eq_ok] at h
    obtain ⟨placed, inserted, rest⟩ := h
    have placed := kept.insert (.node id kind fields extra inputs) holds inserted
    exact kept.loadInputs placed _ inputs rest

theorem loadInputs {g g' : Graph} (kept : KeptByLoading P) (holds : P g) (block : Block) :
    ∀ inputs : List (String × List BlockTree), g.loadInputs block inputs = .ok g' → P g'
  | [], h => by
    simp only [Graph.loadInputs, pure_eq_ok] at h
    exact h ▸ holds
  | (_, []) :: inputs, h => by
    simp only [Graph.loadInputs, Graph.loadChain, bind_eq_ok, pure_eq_ok] at h
    obtain ⟨_, -, _, rfl, _, rfl, rest⟩ := h
    exact kept.loadInputs holds block inputs rest
  | (socket, head :: below) :: inputs, h => by
    simp only [Graph.loadInputs, bind_eq_ok] at h
    obtain ⟨_, -, loaded, chained, attached, hung, rest⟩ := h
    have inside := kept.loadChain holds (head :: below) chained
    exact kept.loadInputs (kept.attach inside hung) block inputs rest

theorem loadChain {g g' : Graph} (kept : KeptByLoading P) (holds : P g) :
    ∀ chain : List BlockTree, g.loadChain chain = .ok g' → P g'
  | [], h => by
    simp only [Graph.loadChain, pure_eq_ok] at h
    exact h ▸ holds
  | head :: rest, h => by
    simp only [Graph.loadChain, bind_eq_ok] at h
    obtain ⟨loaded, first, below⟩ := h
    exact kept.loadBelow (kept.loadTree holds head first) head.id rest below

theorem loadBelow {g g' : Graph} (kept : KeptByLoading P) (holds : P g) (above : BlockId) :
    ∀ chain : List BlockTree, g.loadBelow above chain = .ok g' → P g'
  | [], h => by
    simp only [Graph.loadBelow, pure_eq_ok] at h
    exact h ▸ holds
  | tree :: rest, h => by
    simp only [Graph.loadBelow, bind_eq_ok] at h
    obtain ⟨loaded, first, attached, hung, below⟩ := h
    exact kept.loadBelow (kept.attach (kept.loadTree holds tree first) hung) tree.id rest below

end

theorem foldlM_loadChain {g g' : Graph} (kept : KeptByLoading P) (holds : P g) (chains : List (List BlockTree))
    (h : chains.foldlM Graph.loadChain g = .ok g') : P g' := by
  induction chains generalizing g with
  | nil => exact pure_eq_ok.mp h ▸ holds
  | cons chain chains ih =>
    simp only [List.foldlM_cons, bind_eq_ok] at h
    obtain ⟨loaded, first, rest⟩ := h
    exact ih (kept.loadChain holds chain first) rest

theorem ofForest {g : Graph} {forest : Forest} (kept : KeptByLoading P) (start : P empty)
    (h : ofForest forest = .ok g) : P g :=
  kept.foldlM_loadChain start forest.chains h

end KeptByLoading

theorem Sound.keptByLoading : KeptByLoading Sound where
  insert tree sound h := sound.insertBlock tree.block_derived h
  attach sound h := sound.attach h

theorem Sound.ofForest {forest : Forest} (h : ofForest forest = .ok g) : g.Sound :=
  keptByLoading.ofForest .empty h

/-! Edits. -/

/-- An edit of a graph with all its arguments. -/
inductive Mutation where
  | add (kind : Kind) (extra : ExtraState)
  /-- Inserts a fresh block under a given id. -/
  | insert (id : BlockId) (kind : Kind) (extra : ExtraState)
  | delete (id : BlockId) (heal : Bool)
  | unplug (id : BlockId) (heal : Bool)
  | connectNext (previous id : BlockId)
  | connectSocket (parent : BlockId) (socket : String) (child : BlockId)
  | setField (id : BlockId) (name value : String)
  | setExtra (id : BlockId) (extra : ExtraState)
  | setSignature (id : BlockId) (changes : List ParamChange)
  | setWarning (id : BlockId) (warning : Option String)
  deriving DecidableEq, Repr

/-- What the edit makes of a graph, or why it is refused. -/
def Mutation.run (g : Graph) : Mutation → Except GraphError Graph
  | .add kind extra => .ok (g.addBlock kind extra).2
  | .insert id kind extra => g.insertBlock (.create id kind extra)
  | .delete id heal => (g.deleteBlock id heal).map (·.2)
  | .unplug id heal => g.unplug id heal
  | .connectNext previous id => g.connectNext previous id
  | .connectSocket parent socket child => g.connectSocket parent socket child
  | .setField id name value => (g.setField id name value).map (·.2)
  | .setExtra id extra => g.setExtra id extra
  | .setSignature id changes => g.setSignature id changes
  | .setWarning id warning => g.setWarning id warning

/-- A refused edit leaves the graph as it was. -/
def mutate (g : Graph) (edit : Mutation) : Graph :=
  match edit.run g with
  | .ok edited => edited
  | .error _ => g

/-- The graphs that edits reach from the empty graph or from a stored forest. -/
inductive Reachable : Graph → Prop where
  | empty : Reachable empty
  | loaded {forest : Forest} {g : Graph} (h : ofForest forest = .ok g) : Reachable g
  | edited {g : Graph} (reached : Reachable g) (edit : Mutation) : Reachable (g.mutate edit)
  /-- Events come and go. -/
  | queued {g : Graph} (reached : Reachable g) (pending : EventQueue) :
      Reachable { g with pending }

theorem Sound.run (sound : g.Sound) {edit : Mutation} (h : edit.run g = .ok g') : g'.Sound := by
  cases edit with
  | add kind extra =>
    cases h
    exact sound.addBlock kind extra
  | insert id kind extra => exact sound.insertBlock (Block.create_derived id kind extra) h
  | delete id heal =>
    obtain ⟨⟨doomed, rest⟩, deleted, rfl⟩ := map_eq_ok.mp h
    exact sound.deleteBlock deleted
  | unplug id heal => exact sound.unplug h
  | connectNext previous id => exact sound.connectNext h
  | connectSocket parent socket child => exact sound.connectSocket h
  | setField id name value =>
    obtain ⟨⟨old, edited⟩, set, rfl⟩ := map_eq_ok.mp h
    exact sound.setField set
  | setExtra id extra => exact sound.setExtra h
  | setSignature id changes => exact sound.setSignature h
  | setWarning id warning => exact sound.setWarning h

theorem Sound.mutate (sound : g.Sound) (edit : Mutation) : (g.mutate edit).Sound := by
  unfold Graph.mutate
  split
  · next edited ran => exact sound.run ran
  · exact sound

theorem Sound.queue (sound : g.Sound) (pending : EventQueue) : Sound { g with pending } :=
  ⟨sound.tree.congr rfl (fun _ => rfl) fun _ => rfl, sound.fitted⟩

theorem Reachable.sound (reached : g.Reachable) : g.Sound := by
  induction reached with
  | empty => exact .empty
  | loaded h => exact .ofForest h
  | edited _ edit ih => exact ih.mutate edit
  | queued _ pending ih => exact ih.queue pending

theorem Reachable.foldl_mutate (reached : g.Reachable) (edits : List Mutation) :
    (edits.foldl Graph.mutate g).Reachable := by
  induction edits generalizing g with
  | nil => exact reached
  | cons edit edits ih => exact ih (reached.edited edit)

/-! Blocks of any make. -/

/-- An edit, or putting in any block, also one that lacks what its kind and state ask for. -/
inductive Operation where
  | mutate (edit : Mutation)
  | insert (block : Block)
  deriving DecidableEq, Repr

def Operation.run (g : Graph) : Operation → Except GraphError Graph
  | .mutate edit => edit.run g
  | .insert block => g.insertBlock block

/-- A refused operation leaves the graph as it was. -/
def operate (g : Graph) (operation : Operation) : Graph :=
  match operation.run g with
  | .ok changed => changed
  | .error _ => g

/-- The graphs that operations reach from the empty graph or from a stored forest. -/
inductive Assembled : Graph → Prop where
  | empty : Assembled empty
  | loaded {forest : Forest} {g : Graph} (h : ofForest forest = .ok g) : Assembled g
  | operated {g : Graph} (reached : Assembled g) (operation : Operation) : Assembled (g.operate operation)
  /-- Events come and go. -/
  | queued {g : Graph} (reached : Assembled g) (pending : EventQueue) : Assembled { g with pending }

theorem Tree.keptByLoading : KeptByLoading Tree where
  insert _ tree h := tree.insertBlock h
  attach tree h := tree.attach h

theorem Tree.edit (tree : g.Tree) {edit : Mutation} (h : edit.run g = .ok g') : g'.Tree := by
  cases edit with
  | add kind extra =>
    cases h
    exact tree.addBlock kind extra
  | insert id kind extra => exact tree.insertBlock h
  | delete id heal =>
    obtain ⟨⟨doomed, rest⟩, deleted, rfl⟩ := map_eq_ok.mp h
    exact tree.deleteBlock deleted
  | unplug id heal => exact tree.unplug h
  | connectNext previous id => exact tree.connectNext h
  | connectSocket parent socket child => exact tree.connectSocket h
  | setField id name value =>
    obtain ⟨⟨old, edited⟩, set, rfl⟩ := map_eq_ok.mp h
    exact tree.setField set
  | setExtra id extra => exact tree.setExtra h
  | setSignature id changes => exact tree.setSignature h
  | setWarning id warning => exact tree.setWarning h

theorem Tree.operation (tree : g.Tree) {operation : Operation} (h : operation.run g = .ok g') : g'.Tree := by
  cases operation with
  | mutate edit => exact tree.edit h
  | insert block => exact tree.insertBlock h

theorem Tree.operate (tree : g.Tree) (operation : Operation) : (g.operate operation).Tree := by
  unfold Graph.operate
  split
  · next changed ran => exact tree.operation ran
  · exact tree

/-- The shape of a forest needs nothing from the blocks. -/
theorem Assembled.tree (reached : g.Assembled) : g.Tree := by
  induction reached with
  | empty => exact Sound.empty.tree
  | loaded h => exact Tree.keptByLoading.ofForest Sound.empty.tree h
  | operated _ operation tree => exact tree.operate operation
  | queued _ pending tree => exact tree.congr rfl (fun _ => rfl) fun _ => rfl

theorem Assembled.foldl_operate (reached : g.Assembled) (operations : List Operation) :
    (operations.foldl Graph.operate g).Assembled := by
  induction operations generalizing g with
  | nil => exact reached
  | cons operation operations ih => exact ih (reached.operated operation)

theorem Assembled.mutate (reached : g.Assembled) (edit : Mutation) : (g.mutate edit).Assembled :=
  reached.operated (.mutate edit)

theorem Assembled.foldl_mutate (reached : g.Assembled) (edits : List Mutation) :
    (edits.foldl Graph.mutate g).Assembled := by
  induction edits generalizing g with
  | nil => exact reached
  | cons edit edits ih => exact ih (reached.mutate edit)

/-! What a history guarantees. -/

/-- All links of a graph: parent, place and child. -/
def links (g : Graph) : List (BlockId × Link × BlockId) :=
  g.nodes.filterMap fun node => node.parent.map fun (parent, link) => (parent, link, node.id)

theorem Tree.mem_links (tree : g.Tree) {parent child : BlockId} {hook : Link} :
    (parent, hook, child) ∈ g.links ↔ g.parentLink? child = some (parent, hook) := by
  rw [links, List.mem_filterMap]
  constructor
  · rintro ⟨node, member, linked⟩
    obtain ⟨⟨owner, place⟩, up, same⟩ := Option.map_eq_some_iff.mp linked
    cases same
    simpa [parentLink?, node?_of_mem tree.distinct member] using up
  · intro linked
    obtain ⟨node, found, up⟩ := Option.bind_eq_some_iff.mp linked
    exact ⟨node, node?_mem found, by simp [up, node?_id found]⟩

theorem Tree.links_nodup (tree : g.Tree) : (g.links.map fun link => link.2.2).Nodup := by
  have sub : (g.links.map fun link => link.2.2).Sublist g.ids := by
    rw [links, List.map_filterMap, ids]
    induction g.nodes with
    | nil => exact .slnil
    | cons node nodes ih =>
      cases linked : node.parent with
      | none => simpa [linked] using ih.cons node.id
      | some place => simpa [linked] using ih.cons_cons node.id
  exact tree.distinct.sublist sub

/-- Links form a forest whatever edits were made: no block hangs twice, no place holds two blocks,
every socket in use is declared, and climbing ends at a top block. So every walk ends, and the
walks of all top blocks meet each block once. -/
theorem Reachable.links_form_forest (reached : g.Reachable) :
    (g.links.map fun (_, _, child) => child).Nodup ∧
    (g.links.map fun (parent, hook, _) => (parent, hook)).Nodup ∧
    (∀ parent socket child, (parent, Link.socket socket, child) ∈ g.links →
      ∃ block, g.block? parent = some block ∧ block.hasSocket socket = true) ∧
    (∀ id, g.contains id = true → ∃ top, g.contains top = true ∧ Ends g.parent? id top) ∧
    (∀ first, Ends g.stackStep ([], if g.contains first then some first else none)
      (g.stack first, none)) ∧
    (∀ root, Ends g.walkStep ([], if g.contains root then [root] else []) (g.walk root, [])) ∧
    (∀ first, Ends g.next? first (g.lastInStack first)) ∧
    (∀ id test, Ends (g.ancestorStep test) (g.parent? id) (g.nearestAncestor id test)) ∧
    (∀ id, ∃ head, Ends g.previous? id head ∧ g.enclosingSocket id = g.holder? head) ∧
    (∀ id, g.walkAll.count id = if g.contains id then 1 else 0) := by
  obtain ⟨tree, fitted⟩ := reached.sound
  refine ⟨tree.links_nodup, ?_, ?_, fun _ => tree.climb_ends, tree.stack_ends, tree.walk_ends,
    tree.lastInStack_ends, tree.nearestAncestor_ends, tree.enclosingSocket_ends, ?_⟩
  · have distinct := tree.links_nodup.of_map
    refine List.Nodup.map_on ?_ distinct
    rintro ⟨parent, hook, a⟩ ha ⟨_, _, b⟩ hb same
    obtain ⟨rfl, rfl⟩ := Prod.mk.inj same
    rw [tree.unshared (tree.mem_links.mp ha) (tree.mem_links.mp hb)]
  · intro parent socket child member
    have declared := tree.declared (tree.mem_links.mp member)
    exact (Option.any_eq_true _ _).mp declared
  · intro id
    have perm := tree.walkAll_perm fitted
    rw [perm.count_eq, tree.distinct.count]
    simp only [contains_iff_mem]

/-- A call moved below another one is met once by the walk of all blocks. -/
theorem links_form_forest_below_call :
    let edits : List Mutation :=
      [.add .methodCall (.call {}), .add .methodCall (.call {}), .connectNext ⟨0⟩ ⟨1⟩]
    (edits.foldl Graph.mutate Graph.empty).walkAll.count ⟨1⟩ = 1 := by
  intro edits
  obtain ⟨-, -, -, -, -, -, -, -, -, once⟩ :=
    (Reachable.empty.foldl_mutate edits).links_form_forest
  exact (once ⟨1⟩).trans (by decide)

end Graph
end RobotBlocks
