import RobotBlocks.Proofs.Session.Regular
import RobotBlocks.Proofs.Session.Turns

/-! What the turns of references leave. Other blocks than references keep their content, links other
than those of arguments stay, and nothing but arguments goes. So what the graph declares stays as it
is, and with it what the references resolve to. -/
namespace RobotBlocks

/-- A block declares what the other one declares: it is the same up to its warning, or both are calls,
which declare nothing. -/
structure Block.Resembles (after before : Block) : Prop where
  id : after.id = before.id
  kind : after.kind = before.kind
  content : after.fields = before.fields ∧ after.extra = before.extra ∨
    after.extra.call?.isSome ∧ before.extra.call?.isSome

theorem Block.Resembles.refl (block : Block) : block.Resembles block :=
  ⟨rfl, rfl, .inl ⟨rfl, rfl⟩⟩

theorem Scope.settle_resembles (scope : Scope) (own : Declarations) (block : Block) :
    (scope.settle own block).Resembles block := by
  unfold Scope.settle
  cases carried : block.extra.call? with
  | none => exact .refl block
  | some call =>
    dsimp only
    split
    · split
      · exact ⟨rfl, rfl, .inl ⟨rfl, rfl⟩⟩
      · exact ⟨rfl, rfl, .inr ⟨rfl, by rw [carried]; rfl⟩⟩
    · exact ⟨rfl, rfl, .inl ⟨rfl, rfl⟩⟩
    · exact .refl block

/-- A reading of blocks that looks at their ids, fields and states and finds nothing in a call. -/
structure Block.Reads {α : Type} (read : Block → Option α) : Prop where
  content : ∀ {a b : Block}, a.id = b.id → a.fields = b.fields → a.extra = b.extra → read a = read b
  calls : ∀ {block call}, block.extra = .call call → read block = none

theorem Block.Resembles.read_eq {α : Type} {read : Block → Option α} {after before : Block}
    (resembles : after.Resembles before) (reads : Block.Reads read) : read after = read before := by
  rcases resembles.content with ⟨fields, extra⟩ | ⟨calls, called⟩
  · exact reads.content resembles.id fields extra
  · obtain ⟨call, calls⟩ := Option.isSome_iff_exists.mp calls
    obtain ⟨other, called⟩ := Option.isSome_iff_exists.mp called
    rw [reads.calls (Graph.call?_eq_some.mp calls), reads.calls (Graph.call?_eq_some.mp called)]

theorem ComponentDecl.reads : Block.Reads ofBlock? where
  content id fields extra := by
    simp only [ofBlock?, Block.name, Block.fieldD, Block.field?, id, fields, extra]
  calls carried := by simp only [ofBlock?, carried]

theorem EventDecl.reads : Block.Reads ofBlock? where
  content id fields extra := by
    simp only [ofBlock?, Block.name, Block.fieldD, Block.field?, id, fields, extra]
  calls carried := by simp only [ofBlock?, carried]

theorem MethodDecl.reads : Block.Reads ofBlock? where
  content id fields extra := by
    simp only [ofBlock?, Block.name, Block.fieldD, Block.field?, id, fields, extra]
  calls carried := by simp only [ofBlock?, carried]

namespace Graph

variable {g h : Graph} {id r parent child value : BlockId} {done : List BlockId}
  {own : Declarations} {scope : Scope}

structure Trimmed (g h : Graph) : Prop where
  sound : h.Sound
  blocks : ∀ {id after}, h.block? id = some after →
    ∃ before, g.block? id = some before ∧ after.Resembles before
  links : ∀ {id}, h.contains id = true → h.parentLink? id = g.parentLink? id ∨
    ∃ r i j, g.parentLink? id = some (r, .socket (Socket.arg i)) ∧
      h.parentLink? id = some (r, .socket (Socket.arg j))
  gone : ∀ {id}, g.contains id = true → h.contains id = false →
    ∃ r i value, g.parentLink? value = some (r, .socket (Socket.arg i)) ∧ h.contains value = false ∧
      g.Climbs id value

namespace Trimmed

variable (trimmed : g.Trimmed h)
include trimmed

theorem contains (present : h.contains id = true) : g.contains id = true := by
  obtain ⟨after, found⟩ := contains_iff_block.mp present
  obtain ⟨before, here, -⟩ := trimmed.blocks found
  exact contains_iff_block.mpr ⟨before, here⟩

theorem size_le : h.size ≤ g.size := by
  have inside : h.ids ⊆ g.ids := fun id member =>
    contains_iff_mem.mp (trimmed.contains (contains_iff_mem.mpr member))
  simpa [Graph.ids, Graph.size] using (List.subperm_of_subset trimmed.sound.tree.distinct inside).length_le

/-- What hung above a block that is left is left, too. -/
theorem contains_of_climbs (present : h.contains id = true) (climbs : g.Climbs id parent) :
    h.contains parent = true := by
  induction climbs with
  | refl => exact present
  | @tail middle above _ step ih =>
    obtain ⟨hook, linked⟩ := step.exists_link
    rcases trimmed.links ih with same | ⟨r, i, j, argument, moved⟩
    · exact trimmed.sound.tree.contains_parent (up_of_parentLink (same.trans linked))
    · cases linked.symm.trans argument
      exact trimmed.sound.tree.contains_parent (up_of_parentLink moved)

/-- A link that is not that of an argument stays, unless it leads from a block that is gone. -/
theorem parentLink?_iff {hook : Link} (other : ∀ i, hook ≠ .socket (Socket.arg i))
    (present : h.contains parent = true) :
    h.parentLink? child = some (parent, hook) ↔ g.parentLink? child = some (parent, hook) := by
  constructor
  · intro linked
    rcases trimmed.links (contains_of_parentLink linked) with same | ⟨r, i, j, -, moved⟩
    · exact same ▸ linked
    · cases linked.symm.trans moved
      exact absurd rfl (other j)
  · intro linked
    cases left : h.contains child with
    | false =>
      obtain ⟨r, i, value, argument, missing, climbs⟩ := trimmed.gone (contains_of_parentLink linked) left
      rcases Relation.ReflTransGen.cases_head climbs with rfl | ⟨above, step, onward⟩
      · cases linked.symm.trans argument
        exact absurd rfl (other i)
      · cases Up.unique step (up_of_parentLink linked)
        cases missing.symm.trans (trimmed.contains_of_climbs present onward)
    | true =>
      rcases trimmed.links left with same | ⟨r, i, j, argument, -⟩
      · rw [same, linked]
      · cases linked.symm.trans argument
        exact absurd rfl (other i)

theorem argument {i : Nat} (linked : h.parentLink? child = some (parent, .socket (Socket.arg i))) :
    ∃ j, g.parentLink? child = some (parent, .socket (Socket.arg j)) := by
  rcases trimmed.links (contains_of_parentLink linked) with same | ⟨r, i, j, argument, moved⟩
  · exact ⟨i, same ▸ linked⟩
  · obtain ⟨rfl, -⟩ := Prod.mk.inj (Option.some.inj (linked.symm.trans moved))
    exact ⟨i, argument⟩

variable (sound : g.Sound)
include sound

theorem child? {hook : Link} (other : ∀ i, hook ≠ .socket (Socket.arg i)) (present : h.contains parent = true) :
    h.child? parent hook = g.child? parent hook := by
  ext child
  rw [trimmed.sound.tree.child?_eq_some, sound.tree.child?_eq_some, trimmed.parentLink?_iff other present]

theorem next? (present : h.contains id = true) : h.next? id = g.next? id := by
  have other : ∀ i, Link.next ≠ .socket (Socket.arg i) := fun _ => nofun
  exact trimmed.child? sound other present

omit sound in
theorem regular_after (regular : g.Regular) : h.Regular := by
  refine ⟨trimmed.sound, ?_, fun {child parent i} linked => ?_⟩
  · intro parent child name owner linked found offered
    have member := List.mem_of_find?_eq_some offered
    rw [(trimmed.sound.fitted found).sockets] at member
    obtain ⟨i, rfl⟩ := Socket.arg_of_value member
    obtain ⟨j, argument⟩ := trimmed.argument linked
    rw [trimmed.next? regular.sound (contains_of_parentLink linked)]
    exact regular.next?_argument argument
  · obtain ⟨j, argument⟩ := trimmed.argument linked
    obtain ⟨before, there, kind⟩ := regular.arguments argument
    obtain ⟨after, here⟩ := contains_iff_block.mp (contains_of_parentLink linked)
    obtain ⟨same, found, resembles⟩ := trimmed.blocks here
    cases there.symm.trans found
    exact ⟨after, here, resembles.kind ▸ kind⟩

/-! Declarations. -/

theorem stack (present : h.contains id = true) : h.stack id = g.stack id := by
  induction id using trimmed.sound.tree.descends.induction with
  | h id ih =>
    rw [trimmed.sound.tree.stack_eq present, sound.tree.stack_eq (trimmed.contains present),
      trimmed.next? sound present]
    cases below : g.next? id with
    | none => rfl
    | some follower =>
      have follows : h.next? id = some follower := (trimmed.next? sound present).trans below
      have step := trimmed.sound.tree.up_of_child? follows
      simp only [Option.elim_some, ih follower step (Tree.contains_child step)]

theorem statementStack {socket : String} {holder : BlockId} (other : ∀ i, socket ≠ Socket.arg i)
    (present : h.contains holder = true) : h.statementStack holder socket = g.statementStack holder socket := by
  have same : h.plugged? holder socket = g.plugged? holder socket :=
    trimmed.child? sound (fun i same => other i (Link.socket.inj same)) present
  rw [Graph.statementStack, Graph.statementStack, same]
  cases held : g.plugged? holder socket with
  | none => rfl
  | some first =>
    have linked := trimmed.sound.tree.child?_eq_some.mp (same.trans held)
    exact trimmed.stack sound (contains_of_parentLink linked)

theorem topBlocks : h.topBlocks = g.topBlocks := by
  have ascending : ∀ {g : Graph}, g.Tree → g.topBlocks.Pairwise fun a b => a.number < b.number :=
    fun tree => tree.ascending.sublist (List.filter_sublist.map Node.id)
  refine eq_of_ascending (ascending trimmed.sound.tree) (ascending sound.tree) fun id => ?_
  rw [trimmed.sound.tree.mem_topBlocks, sound.tree.mem_topBlocks]
  constructor
  · rintro ⟨present, top⟩
    refine ⟨trimmed.contains present, ?_⟩
    rcases trimmed.links present with same | ⟨r, i, j, -, moved⟩
    · simpa only [parent?, same] using top
    · simp [parent?, moved] at top
  · rintro ⟨present, top⟩
    cases left : h.contains id with
    | false =>
      obtain ⟨r, i, value, argument, -, climbs⟩ := trimmed.gone present left
      rw [top_climbs top climbs] at top
      simp [parent?, argument] at top
    | true =>
      rcases trimmed.links left with same | ⟨r, i, j, argument, -⟩
      · exact ⟨rfl, by simpa only [parent?, same] using top⟩
      · simp [parent?, argument] at top

theorem ofKind (argued : g.Argued) {kind : Kind} (other : kind.isArgument = false) :
    h.ofKind kind = g.ofKind kind := by
  refine eq_of_ascending (trimmed.sound.tree.filter_blocks_ascending _)
    (sound.tree.filter_blocks_ascending _) fun id => ?_
  rw [Graph.ofKind, Graph.ofKind, trimmed.sound.tree.mem_filter_blocks, sound.tree.mem_filter_blocks]
  constructor
  · rintro ⟨after, found, is⟩
    obtain ⟨before, there, resembles⟩ := trimmed.blocks found
    exact ⟨before, there, by rwa [← resembles.kind]⟩
  · rintro ⟨before, there, is⟩
    cases left : h.contains id with
    | false =>
      obtain ⟨r, i, value, argument, -, climbs⟩ := trimmed.gone (contains_iff_block.mpr ⟨before, there⟩) left
      obtain ⟨owner, j, inside⟩ := argued.below_argument sound argument climbs
      obtain ⟨same, found, kind⟩ := argued id owner j inside
      cases there.symm.trans found
      rw [decide_eq_true_iff.mp is, other] at kind
      cases kind
    | true =>
      obtain ⟨after, found⟩ := contains_iff_block.mp left
      obtain ⟨same, here, resembles⟩ := trimmed.blocks found
      cases there.symm.trans here
      exact ⟨after, found, by rwa [resembles.kind]⟩

omit sound in
/-- What is read off blocks that are left is what was read off them before. -/
theorem read_blocks {α : Type} {read : Block → Option α} (reads : Block.Reads read)
    {ids : List BlockId} (present : ∀ id ∈ ids, h.contains id = true) :
    (ids.filterMap h.block?).filterMap read = (ids.filterMap g.block?).filterMap read := by
  rw [List.filterMap_filterMap, List.filterMap_filterMap]
  refine List.filterMap_congr fun id member => ?_
  obtain ⟨after, found⟩ := contains_iff_block.mp (present id member)
  obtain ⟨before, there, resembles⟩ := trimmed.blocks found
  simp [found, there, resembles.read_eq reads]

theorem read_section {α : Type} {read : Block → Option α} (reads : Block.Reads read) {holder : BlockId}
    (present : h.contains holder = true) (socket : Socket)
    (member : socket ∈ Socket.declared .componentHolder .none) :
    (Declarations.sectionBlocks h holder socket.name).filterMap read
      = (Declarations.sectionBlocks g holder socket.name).filterMap read := by
  have other : ∀ i, socket.name ≠ Socket.arg i := fun i named => nomatch (Socket.of_arg member named).1
  rw [Declarations.sectionBlocks, Declarations.sectionBlocks, ← trimmed.statementStack sound other present]
  exact trimmed.read_blocks reads fun id => trimmed.sound.tree.contains_of_mem_statementStack

/-- The graph declares what it declared. -/
theorem collect_of_argued (argued : g.Argued) : Declarations.collect h = Declarations.collect g := by
  have holders : h.ofKind .componentHolder = g.ofKind .componentHolder := trimmed.ofKind sound argued rfl
  have present : ∀ holder ∈ g.ofKind .componentHolder, h.contains holder = true := by
    intro holder member
    rw [← holders, Graph.ofKind, trimmed.sound.tree.mem_filter_blocks] at member
    obtain ⟨block, found, -⟩ := member
    exact contains_iff_block.mpr ⟨block, found⟩
  have tops : ∀ id ∈ g.topBlocks, h.contains id = true := fun id member =>
    (trimmed.sound.tree.mem_topBlocks.mp (trimmed.topBlocks sound ▸ member)).1
  rw [Declarations.collect, Declarations.collect, holders, trimmed.topBlocks sound, Declarations.mk.injEq]
  refine ⟨List.flatMap_congr fun holder member => ?_, List.flatMap_congr fun holder member => ?_, ?_⟩
  · have left := present holder member
    rw [List.filterMap_append, List.filterMap_append]
    congr 1
    · exact trimmed.read_section sound ComponentDecl.reads left ⟨_, _⟩ (.head _)
    · exact trimmed.read_section sound ComponentDecl.reads left ⟨_, _⟩ (.tail _ (.head _))
  · exact trimmed.read_section sound EventDecl.reads (present holder member) ⟨_, _⟩ (.tail _ (.tail _ (.head _)))
  · exact trimmed.read_blocks MethodDecl.reads tops

omit sound in
theorem collect (regular : g.Regular) : Declarations.collect h = Declarations.collect g :=
  trimmed.collect_of_argued regular.sound regular.argued

end Trimmed

/-- Turns trim a graph. -/
theorem Settled.trims (settled : Settled own scope done g h) (tree : g.Tree) : g.Trimmed h := by
  refine ⟨settled.sound, fun {id after} found => ?_, fun {id} present => ?_, fun {id} present left => ?_⟩
  · have kept := settled.kept_of_contains (contains_iff_block.mpr ⟨after, found⟩)
    rw [settled.block kept] at found
    split at found
    · obtain ⟨before, there, rfl⟩ := Option.map_eq_some_iff.mp found
      exact ⟨before, there, scope.settle_resembles own before⟩
    · exact ⟨after, found, .refl after⟩
  · have kept := settled.kept_of_contains present
    rw [settled.link kept]
    cases linked : g.parentLink? id with
    | none => exact .inl rfl
    | some link =>
      rw [Option.bind_some]
      split
      · next member =>
        unfold relinked
        split
        · next argument =>
          obtain ⟨i, hung⟩ := tree.link_of_given argument
          obtain ⟨j, seated⟩ := tree.seated_of_kept kept member argument
          exact .inr ⟨link.1, i, j, linked ▸ hung, by rw [seated]; rfl⟩
        · exact .inl rfl
      · exact .inl rfl
  · obtain ⟨r, member, value, unused, climbs⟩ := settled.dropped_of_missing present left
    obtain ⟨i, hung⟩ := tree.link_of_given (mem_given_of_unused unused)
    refine ⟨r, i, value, hung, ?_, climbs⟩
    have missing := settled.gone ⟨r, member, value, unused, .refl⟩
    rw [← Bool.not_eq_true, contains_iff_block, missing]
    exact fun ⟨_, found⟩ => nomatch found

theorem Settled.trimmed (settled : Settled own scope done g h) (regular : g.Regular) : g.Trimmed h :=
  settled.trims regular.sound.tree

/-- A mirror image is trimmed of nothing. -/
theorem Mirrors.trimmed (mirrors : g.Mirrors h) (sound : h.Sound) : g.Trimmed h := by
  refine ⟨sound, fun {id after} found => ?_, fun {id} _ => .inl (mirrors.links id),
    fun {id} present left => ?_⟩
  · obtain ⟨before, there, alike⟩ := mirrors.stored_block found
    simp only [Block.cleared, Block.mk.injEq] at alike
    obtain ⟨same, kind, fields, -, extra, -⟩ := alike
    exact ⟨before, there, same, kind, .inl ⟨fields, extra⟩⟩
  · rw [← Bool.not_eq_true, contains_iff_mem, mirrors.ids, ← contains_iff_mem] at left
    exact absurd present left

/-- A regular graph that is stored and loaded is as regular, and declares the same. -/
theorem Regular.reload (regular : g.Regular)
    (early : ∀ id, g.contains id = true → id.number < BlockId.last.number) :
    ∃ stored, Graph.ofForest g.toForest = .ok stored ∧ g.Mirrors stored ∧ stored.Regular ∧
      Declarations.collect stored = .collect g := by
  obtain ⟨stored, loaded, copy⟩ := regular.sound.copy_of_toForest regular.single early
  have mirrors := copy.mirrors regular.sound
  have trimmed := mirrors.trimmed copy.sound
  exact ⟨stored, loaded, mirrors, trimmed.regular_after regular, trimmed.collect regular⟩

end Graph
end RobotBlocks
