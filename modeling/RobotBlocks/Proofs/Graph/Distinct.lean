import RobotBlocks.Proofs.Forest.Codec
import RobotBlocks.Proofs.Graph.RoundTrip

/-! Every block keeps its fields under distinct names, through all edits and through storing and
loading. -/
namespace RobotBlocks

/-- Fields under distinct names. -/
def Block.Distinct (block : Block) : Prop := (Labelled.labels block.fields).Nodup

namespace Labelled

variable {α : Type} {entries : Labelled α}

theorem nodup_put (distinct : entries.labels.Nodup) (label : String) (value : α) :
    (entries.put label value).labels.Nodup := by
  rw [labels_put]
  split
  · exact distinct
  · next unknown =>
    refine List.nodup_append'.mpr ⟨distinct, List.nodup_singleton label, ?_⟩
    intro other member same
    rw [List.mem_singleton.mp same] at member
    exact unknown member

theorem nodup_putNew (distinct : entries.labels.Nodup) (label : String) (value : α) :
    (entries.putNew label value).labels.Nodup := by
  unfold putNew
  split
  · exact distinct
  · next unknown =>
    rw [← put_of_unknown (by rw [← get?_isSome_iff, unknown]; simp)]
    exact nodup_put distinct label value

theorem nodup_foldl_putNew (more : Labelled α) (distinct : entries.labels.Nodup) :
    (more.foldl (fun all (name, value) => all.putNew name value) entries).labels.Nodup := by
  induction more generalizing entries with
  | nil => exact distinct
  | cons entry more ih => exact ih (nodup_putNew distinct entry.1 entry.2)

end Labelled

namespace Block

variable {block : Block}

theorem labels_paramFields_nodup (params : List Parameter) :
    (paramFields 0 params).labels.Nodup := by
  rw [labels_paramFields]
  exact List.Nodup.map Field.param_injective List.nodup_range'

theorem Distinct.showParams (distinct : block.Distinct) : block.showParams.Distinct := by
  unfold Block.showParams
  split
  · exact distinct
  · next params _ =>
    rw [Distinct, Labelled.labels_append]
    have kept : (Labelled.labels (block.fields.filter fun entry => !Field.isParam entry.1)).Sublist
        (Labelled.labels block.fields) := List.filter_sublist.map _
    refine List.nodup_append'.mpr ⟨List.Nodup.sublist kept distinct, labels_paramFields_nodup params, ?_⟩
    intro label old new
    obtain ⟨entry, member, rfl⟩ := List.mem_map.mp old
    rw [labels_paramFields] at new
    obtain ⟨index, -, shown⟩ := List.mem_map.mp new
    have plain : (!Field.isParam entry.1) = true := (List.mem_filter.mp member).2
    rw [← shown, Field.isParam_param] at plain
    cases plain

theorem create_distinct (id : BlockId) (kind : Kind) (extra : ExtraState) :
    (create id kind extra).Distinct := by
  have fresh : (Labelled.labels (defaultFields kind)).Nodup := by cases kind <;> decide
  unfold create
  apply Distinct.showParams
  exact fresh

end Block

theorem BlockTree.block_distinct {id : BlockId} {kind : Kind} {fields : Labelled String}
    {extra : ExtraState} {inputs : List (String × List BlockTree)}
    (distinct : (Labelled.labels fields).Nodup) :
    (BlockTree.node id kind fields extra inputs).block.Distinct :=
  Labelled.nodup_foldl_putNew _ distinct

namespace Graph

variable {g g' : Graph}

def Distinct (g : Graph) : Prop := ∀ id block, g.block? id = some block → block.Distinct

theorem Distinct.empty : Graph.empty.Distinct := by
  intro id block found
  cases found

theorem Moves.distinct (moves : g.Moves g') (distinct : g.Distinct) : g'.Distinct := by
  intro id block found
  rw [moves.blocks] at found
  exact distinct id block found

theorem Distinct.place {block : Block} (distinct : g.Distinct) (fresh : g.contains block.id = false)
    (own : block.Distinct) : (g.place block).Distinct := by
  intro id other found
  rw [block?_place fresh] at found
  split at found
  · cases found
    exact own
  · exact distinct id other found

theorem Distinct.insertBlock {block : Block} (distinct : g.Distinct) (own : block.Distinct)
    (h : g.insertBlock block = .ok g') : g'.Distinct := by
  obtain ⟨fresh, -, rfl⟩ := insertBlock_eq_ok.mp h
  exact distinct.place fresh own

theorem Distinct.addBlock (distinct : g.Distinct) (kind : Kind) (extra : ExtraState) :
    (g.addBlock kind extra).2.Distinct :=
  distinct.place (by rw [Block.id_create]; exact g.freshId_fresh) (Block.create_distinct ..)

/-- A change of one block that keeps its names apart. -/
theorem Distinct.change {id : BlockId} {change : Block → Block} (distinct : g.Distinct)
    (blocks : ∀ asked, g'.block? asked
      = if asked = id then (g.block? asked).map change else g.block? asked)
    (keeps : ∀ block, block.Distinct → (change block).Distinct) : g'.Distinct := by
  intro asked block found
  rw [blocks] at found
  split at found
  · obtain ⟨before, there, rfl⟩ := Option.map_eq_some_iff.mp found
    exact keeps before (distinct asked before there)
  · exact distinct asked block found

theorem Distinct.run (distinct : g.Distinct) {edit : Mutation} (h : edit.run g = .ok g') :
    g'.Distinct := by
  cases edit with
  | add kind extra =>
    cases h
    exact distinct.addBlock kind extra
  | insert id kind extra => exact distinct.insertBlock (Block.create_distinct id kind extra) h
  | delete id heal =>
    obtain ⟨⟨doomed, rest⟩, deleted, rfl⟩ := map_eq_ok.mp h
    obtain ⟨-, -, rfl⟩ := deleteBlock_eq_ok.mp deleted
    intro asked block found
    rw [block?_foldl_removeNode] at found
    split at found
    · cases found
    · exact (Moves.detach g id heal).distinct distinct asked block found
  | unplug id heal => exact (Moves.unplug h).distinct distinct
  | connectNext previous id => exact (Moves.connectNext h).distinct distinct
  | connectSocket parent socket child => exact (Moves.connectSocket h).distinct distinct
  | setField id name value =>
    obtain ⟨⟨old, edited⟩, set, rfl⟩ := map_eq_ok.mp h
    exact distinct.change (block?_setField set) fun block own => Labelled.nodup_put own name value
  | setExtra id extra =>
    exact distinct.change (block?_setExtra h) fun block own => Block.Distinct.showParams own
  | setSignature id changes =>
    exact distinct.change (block?_setSignature h) fun block own => Block.Distinct.showParams own
  | setWarning id warning =>
    obtain ⟨-, rfl⟩ := setWarning_eq_ok.mp h
    exact distinct.change (block?_updateBlock g id (fun block => { block with warning })
      fun _ same => same) fun block own => own

/-! Loading. -/

theorem Distinct.attach {parent child : BlockId} {hook : Link} (distinct : g.Distinct)
    (h : g.attach parent hook child = .ok g') : g'.Distinct := by
  obtain ⟨-, -, -, -, -, rfl⟩ := attach_eq_ok.mp h
  exact (Moves.link g parent hook child).distinct distinct

mutual

theorem Distinct.loadTree {g g' : Graph} (distinct : g.Distinct) :
    ∀ tree : BlockTree, tree.Distinct → g.loadTree tree = .ok g' → g'.Distinct
  | .node id kind fields extra inputs, ⟨own, _, inner⟩, h => by
    simp only [Graph.loadTree, bind_eq_ok] at h
    obtain ⟨placed, inserted, rest⟩ := h
    have placed := distinct.insertBlock (BlockTree.block_distinct own) inserted
    exact placed.loadInputs _ inputs inner rest

theorem Distinct.loadInputs {g g' : Graph} (distinct : g.Distinct) (block : Block) :
    ∀ inputs : List (String × List BlockTree), BlockTree.DistinctInputs inputs →
      g.loadInputs block inputs = .ok g' → g'.Distinct
  | [], _, h => by
    simp only [Graph.loadInputs, pure_eq_ok] at h
    exact h ▸ distinct
  | (_, []) :: inputs, ⟨_, later⟩, h => by
    simp only [Graph.loadInputs, Graph.loadChain, bind_eq_ok, pure_eq_ok] at h
    obtain ⟨_, -, _, rfl, _, rfl, rest⟩ := h
    exact distinct.loadInputs block inputs later rest
  | (socket, head :: below) :: inputs, ⟨inner, later⟩, h => by
    simp only [Graph.loadInputs, bind_eq_ok] at h
    obtain ⟨_, -, loaded, chained, attached, hung, rest⟩ := h
    have inside := distinct.loadChain (head :: below) inner chained
    exact (inside.attach hung).loadInputs block inputs later rest

theorem Distinct.loadChain {g g' : Graph} (distinct : g.Distinct) :
    ∀ chain : List BlockTree, BlockTree.DistinctChain chain → g.loadChain chain = .ok g' →
      g'.Distinct
  | [], _, h => by
    simp only [Graph.loadChain, pure_eq_ok] at h
    exact h ▸ distinct
  | head :: rest, ⟨first, later⟩, h => by
    simp only [Graph.loadChain, bind_eq_ok] at h
    obtain ⟨loaded, ran, below⟩ := h
    exact (distinct.loadTree head first ran).loadBelow head.id rest later below

theorem Distinct.loadBelow {g g' : Graph} (distinct : g.Distinct) (above : BlockId) :
    ∀ chain : List BlockTree, BlockTree.DistinctChain chain → g.loadBelow above chain = .ok g' →
      g'.Distinct
  | [], _, h => by
    simp only [Graph.loadBelow, pure_eq_ok] at h
    exact h ▸ distinct
  | tree :: rest, ⟨first, later⟩, h => by
    simp only [Graph.loadBelow, bind_eq_ok] at h
    obtain ⟨loaded, ran, attached, hung, below⟩ := h
    exact ((distinct.loadTree tree first ran).attach hung).loadBelow tree.id rest later below

end

theorem Distinct.ofForest {forest : Forest} (distinct : forest.Distinct)
    (h : ofForest forest = .ok g) : g.Distinct := by
  have chains : ∀ (chains : List (List BlockTree)) (before after : Graph),
      (∀ chain ∈ chains, BlockTree.DistinctChain chain) → before.Distinct →
      chains.foldlM Graph.loadChain before = .ok after → after.Distinct := by
    intro chains
    induction chains with
    | nil =>
      intro before after _ own ran
      exact pure_eq_ok.mp ran ▸ own
    | cons chain chains ih =>
      intro before after inner own ran
      simp only [List.foldlM_cons, bind_eq_ok] at ran
      obtain ⟨middle, first, rest⟩ := ran
      refine ih middle after (fun other member => inner other (List.mem_cons_of_mem _ member)) ?_ rest
      exact own.loadChain chain (inner chain (List.mem_cons_self ..)) first
  exact chains forest.chains .empty g distinct .empty h

/-! Storing. -/

theorem Distinct.treesWithin (distinct : g.Distinct) (sound : g.Sound) (depth : Nat) (id : BlockId) :
    BlockTree.DistinctChain (g.treesWithin depth id) := by
  have chain : ∀ trees : List BlockTree, (∀ tree ∈ trees, tree.Distinct) →
      BlockTree.DistinctChain trees := by
    intro trees
    induction trees with
    | nil => exact fun _ => trivial
    | cons tree trees ih =>
      exact fun each => ⟨each tree (List.mem_cons_self ..),
        ih fun other member => each other (List.mem_cons_of_mem _ member)⟩
  induction depth generalizing id with
  | zero => trivial
  | succ depth ih =>
    apply chain _
    intro tree member
    obtain ⟨own, -, stored⟩ := List.mem_filterMap.mp member
    obtain ⟨block, found, rfl⟩ := Option.map_eq_some_iff.mp stored
    have inputs : ∀ sockets : List Socket, BlockTree.DistinctInputs (sockets.filterMap fun socket =>
        (g.plugged? own socket.name).map fun child => (socket.name, g.treesWithin depth child)) := by
      intro sockets
      induction sockets with
      | nil => trivial
      | cons socket sockets rest =>
        cases inside : g.plugged? own socket.name with
        | none => simpa [inside] using rest
        | some child =>
          rw [List.filterMap_cons, inside]
          exact ⟨ih child, rest⟩
    refine ⟨distinct own block found, ?_, inputs block.sockets⟩
    have names : ∀ sockets : List Socket, (Labelled.labels (sockets.filterMap fun socket =>
        (g.plugged? own socket.name).map fun child =>
          (socket.name, g.treesWithin depth child))).Sublist (sockets.map (·.name)) := by
      intro sockets
      induction sockets with
      | nil => exact .slnil
      | cons socket sockets rest =>
        cases inside : g.plugged? own socket.name with
        | none => simpa [inside] using rest.cons socket.name
        | some child => simpa [inside, Labelled.labels] using rest
    exact (sound.fitted found).nodup.sublist (names block.sockets)

theorem Distinct.toForest (distinct : g.Distinct) (sound : g.Sound) : g.toForest.Distinct := by
  intro chain member
  obtain ⟨top, -, rfl⟩ := List.mem_map.mp member
  exact distinct.treesWithin sound g.size top

end Graph
end RobotBlocks
