import RobotBlocks.Proofs.Graph.Normal
import RobotBlocks.Proofs.Graph.Refusal
import RobotBlocks.Proofs.Graph.Values

/-! Values apart from statements. The operations that link blocks refuse to put a value into a chain of
statements, so no history of them ever does. Loading links blocks on a way of its own, which checks the sockets
and not the blocks in them, and the main result says by the forest alone when a loaded graph keeps values
apart. -/
namespace RobotBlocks

/-- No value is in front of another tree, behind one, or in a socket for statements. -/
structure Spot.ValuesApart (spot : Spot) : Prop where
  chained : ∀ lower ∈ spot.below.head?, spot.tree.kind.isValue = false ∧ lower.kind.isValue = false
  inside : ∀ socket ∈ Socket.declared spot.tree.kind spot.tree.extra, socket.kind = .statement →
    ∀ head ∈ (spot.hanging (.socket socket.name)).head?, head.kind.isValue = false

instance (spot : Spot) : Decidable spot.ValuesApart :=
  decidable_of_iff (_ ∧ _) ⟨fun h => ⟨h.1, h.2⟩, fun h => ⟨h.chained, h.inside⟩⟩

def Forest.ValuesApart (forest : Forest) : Prop := ∀ spot ∈ forest.spots, spot.ValuesApart

instance (forest : Forest) : Decidable forest.ValuesApart :=
  inferInstanceAs (Decidable (∀ spot ∈ forest.spots, spot.ValuesApart))

namespace Graph

variable {g g' : Graph} {id child parent : BlockId} {place : BlockId × Link} {left : Option (BlockId × Link)}

/-- No value has a block below it, is below one, or sits in a socket for statements. -/
structure ValuesApart (g : Graph) : Prop where
  above : ∀ {child parent}, g.parentLink? child = some (parent, .next) → ¬ g.IsValue parent
  below : ∀ {child parent}, g.parentLink? child = some (parent, .next) → ¬ g.IsValue child
  inside : ∀ {child parent socket}, g.parentLink? child = some (parent, .socket socket) →
    g.socketKind? parent socket = some .statement → ¬ g.IsValue child

/-- Whether a block may hang from a link. -/
structure Bears (g : Graph) (place : BlockId × Link) (id : BlockId) : Prop where
  value : g.IsValue id → g.TakesValue place
  statement : place.2 = .next → ¬ g.IsValue place.1

/-- A socket takes values or statements, so a value may hang wherever it is apart from statements. -/
theorem Tree.valuesApart_iff (tree : g.Tree) :
    g.ValuesApart ↔ ∀ child place, g.parentLink? child = some place → g.Bears place child := by
  constructor
  · rintro apart child ⟨parent, hook⟩ linked
    cases hook with
    | next => exact ⟨fun value => absurd value (apart.below linked), fun _ => apart.above linked⟩
    | socket socket =>
      refine ⟨fun value => takesValue_socket.mpr ?_, nofun⟩
      obtain ⟨owner, found, offered⟩ := (Option.any_eq_true _ _).mp (tree.declared linked)
      obtain ⟨⟨name, kind⟩, own⟩ := Option.isSome_iff_exists.mp offered
      obtain rfl : name = socket := by simpa using List.find?_some own
      have shape := socketKind?_eq_some.mpr ⟨owner, found, own⟩
      cases kind with
      | value => exact shape
      | statement => exact absurd value (apart.inside linked shape)
  · intro bears
    refine ⟨fun linked => (bears _ _ linked).statement rfl, fun {_ parent} linked value => ?_,
      fun linked shape value => ?_⟩
    · exact not_takesValue_next parent ((bears _ _ linked).value value)
    · cases shape.symm.trans (takesValue_socket.mp ((bears _ _ linked).value value))

/-- What a link in use takes is told by the link. -/
theorem Sound.takesValue_iff (sound : g.Sound) (linked : g.parentLink? child = some place) :
    g.TakesValue place ↔ ∃ i, place.2 = .socket (Socket.arg i) := by
  constructor
  · rintro ⟨parent, socket, rfl, value⟩
    obtain ⟨owner, found, offered⟩ := socketKind?_eq_some.mp value
    have member := List.mem_of_find?_eq_some offered
    rw [(sound.fitted found).sockets] at member
    obtain ⟨i, rfl⟩ := Socket.arg_of_value member
    exact ⟨i, rfl⟩
  · obtain ⟨parent, hook⟩ := place
    rintro ⟨i, rfl⟩
    obtain ⟨owner, found, -, offered⟩ := sound.owner_of_arg linked
    exact takesValue_socket.mpr (socketKind?_eq_some.mpr ⟨owner, found, offered⟩)

/-! One operation. -/

theorem ValuesApart.push (apart : g.ValuesApart) (event : Event) : (g.push event).ValuesApart :=
  ⟨apart.above, apart.below, apart.inside⟩

/-- Where links only go, and no block in use becomes a value, values stay apart. -/
theorem ValuesApart.of_links (apart : g.ValuesApart) (sound : g.Sound) (sound' : g'.Sound)
    (links : ∀ {child place}, g'.parentLink? child = some place → g.parentLink? child = some place)
    (kinds : ∀ {id}, g.contains id = true → g'.IsValue id → g.IsValue id) : g'.ValuesApart := by
  refine sound'.tree.valuesApart_iff.mpr fun child place linked => ?_
  have before := links linked
  have bears := sound.tree.valuesApart_iff.mp apart child place before
  refine ⟨fun value => ?_, fun next value => ?_⟩
  · have taken := bears.value (kinds (contains_of_parentLink before) value)
    exact (sound'.takesValue_iff linked).mpr ((sound.takesValue_iff before).mp taken)
  · exact bears.statement next (kinds (sound.tree.contains_parent (up_of_parentLink before)) value)

theorem Moves.isValue (moves : g.Moves g') : g'.IsValue id ↔ g.IsValue id := by
  simp only [IsValue, moves.blocks]

theorem Moves.bears (moves : g.Moves g') (bears : g.Bears place id) : g'.Bears place id :=
  ⟨fun own => moves.takesValue.mpr (bears.value (moves.isValue.mp own)),
    fun next own => bears.statement next (moves.isValue.mp own)⟩

/-- What closes up behind a block was below it, so it is no value. -/
theorem Tree.valuesApart_detach (tree : g.Tree) (apart : g.ValuesApart) (id : BlockId) (heal : Bool) :
    (g.detach id heal).ValuesApart := by
  have moves := Moves.detach g id heal
  refine (tree.detach id heal).valuesApart_iff.mpr fun child place linked => moves.bears ?_
  have bears := tree.valuesApart_iff.mp apart
  cases heal with
  | false =>
    rw [parentLink?_detach] at linked
    split at linked
    · cases linked
    · exact bears _ _ linked
  | true =>
    cases own : g.parentLink? id with
    | none =>
      rw [Graph.detach, own] at linked
      exact bears _ _ linked
    | some hung =>
      rw [tree.parentLink?_heal own] at linked
      split at linked
      · cases linked
      · split at linked
        · next follows =>
          cases linked
          exact ⟨fun value => absurd value (apart.below follows), (bears _ _ own).statement⟩
        · exact bears _ _ linked

/-- The end of a stack is the block itself or below another one. -/
theorem Tree.not_isValue_last (tree : g.Tree) (apart : g.ValuesApart) (present : g.contains id = true)
    (own : ¬ g.IsValue id) : ¬ g.IsValue (g.lastInStack id) := by
  rcases (tree.mem_stack present).mp (tree.lastInStack_mem present) with same | ⟨above, -, follows⟩
  · rwa [same]
  · exact apart.below follows

/-- A block with its stack comes to a link that bears it. -/
theorem Takes.valuesApart (takes : Takes g g' id place left) (tree : g.Tree) (tree' : g'.Tree)
    (present : g.contains id = true) (apart : g.ValuesApart) (borne : g.Bears place id)
    (free : left = some (g.lastInStack id, .next) ∧ ¬ g.TakesValue place ∨ left = none) : g'.ValuesApart := by
  refine tree'.valuesApart_iff.mpr fun child hook linked => takes.moves.bears ?_
  have bears := tree.valuesApart_iff.mp apart
  rw [takes.links] at linked
  split at linked
  · next here =>
    cases linked
    exact here ▸ borne
  · split at linked
    · next taken =>
      -- What made room stands at the end of the stack that took its place.
      rcases free with ⟨rfl, statements⟩ | rfl
      · cases linked
        exact ⟨fun value => absurd ((bears _ _ taken).value value) statements,
          fun _ => tree.not_isValue_last apart present (mt borne.value statements)⟩
      · cases linked
    · exact bears _ _ linked

/-- A change to what a block shows leaves its kind alone. -/
theorem ValuesApart.of_blocks {change : Block → Block} (apart : g.ValuesApart) (sound : g.Sound)
    (sound' : g'.Sound) (links : ∀ other, g'.parentLink? other = g.parentLink? other)
    (blocks : ∀ other, g'.block? other = if other = id then (g.block? other).map change else g.block? other)
    (kinds : ∀ block, (change block).kind = block.kind) : g'.ValuesApart := by
  refine apart.of_links sound sound' (fun linked => (links _).symm.trans linked) ?_
  rintro other - ⟨block, found, value⟩
  rw [blocks] at found
  split at found
  · obtain ⟨own, there, rfl⟩ := Option.map_eq_some_iff.mp found
    exact ⟨own, there, kinds own ▸ value⟩
  · exact ⟨block, found, value⟩

/-- A block that comes in holds nothing and hangs from nothing. -/
theorem Sound.valuesApart_place {block : Block} (sound : g.Sound) (sound' : (g.place block).Sound)
    (apart : g.ValuesApart) (fresh : g.contains block.id = false) : (g.place block).ValuesApart := by
  refine apart.of_links sound sound' (fun linked => (parentLink?_place fresh _).symm.trans linked) ?_
  rintro other present ⟨own, found, value⟩
  rw [block?_place fresh, if_neg (by rintro rfl; simp [fresh] at present)] at found
  exact ⟨own, found, value⟩

theorem Sound.valuesApart_removeNode (sound : g.Sound) (apart : g.ValuesApart) (id : BlockId) :
    (g.removeNode id).ValuesApart := by
  cases present : g.contains id with
  | false => rwa [removeNode_of_missing present]
  | true =>
    refine apart.of_links sound (sound.removeNode id)
      (fun linked => ((parentLink?_removeNode present).mp linked).2.2) ?_
    rintro other - ⟨block, found, value⟩
    rw [block?_removeNode] at found
    split at found
    · cases found
    · exact ⟨block, found, value⟩

theorem Sound.valuesApart_foldl_removeNode (sound : g.Sound) (apart : g.ValuesApart) (doomed : List BlockId) :
    (doomed.foldl Graph.removeNode g).ValuesApart := by
  induction doomed generalizing g with
  | nil => exact apart
  | cons id doomed ih => exact ih (sound.removeNode id) (sound.valuesApart_removeNode apart id)

theorem Sound.valuesApart_run (sound : g.Sound) (apart : g.ValuesApart) {edit : Mutation}
    (h : edit.run g = .ok g') : g'.ValuesApart := by
  have sound' := sound.run h
  have tree := sound.tree
  cases edit with
  | add kind extra =>
    cases h
    exact sound.valuesApart_place sound' apart (by simpa using freshId_fresh g)
  | insert id kind extra =>
    obtain ⟨fresh, -, rfl⟩ := insertBlock_eq_ok.mp h
    exact sound.valuesApart_place sound' apart fresh
  | delete id heal =>
    obtain ⟨⟨doomed, rest⟩, deleted, rfl⟩ := map_eq_ok.mp h
    obtain ⟨-, -, rfl⟩ := deleteBlock_eq_ok.mp deleted
    exact (sound.detach id heal).valuesApart_foldl_removeNode (tree.valuesApart_detach apart id heal) _
  | unplug id heal =>
    rcases unplug_cases h with ⟨-, rfl⟩ | ⟨_, _, -, rfl⟩
    · exact apart
    · exact (tree.valuesApart_detach apart id heal).push _
  | connectNext previous id =>
    obtain ⟨_, present, -, own, statement⟩ := tree.ok_connectNext_iff.mp ⟨_, h⟩
    refine (tree.takes_next h).valuesApart tree sound'.tree present apart ?_
      (.inl ⟨rfl, not_takesValue_next previous⟩)
    exact ⟨fun value => absurd value own, fun _ => statement⟩
  | connectSocket parent socket child =>
    obtain ⟨_, present, -, offers, fits⟩ := tree.ok_connectSocket_iff.mp ⟨_, h⟩
    obtain ⟨kind, same, takes⟩ := tree.takes_socket h
    refine takes.valuesApart tree sound'.tree present apart ⟨fun value => ?_, nofun⟩ ?_
    · cases kind with
      | value => exact takesValue_socket.mpr same
      | statement => exact absurd ⟨same, value⟩ fits
    · cases kind with
      | value => exact .inr rfl
      | statement => exact .inl ⟨rfl, by simp [same]⟩
  | setField id name value =>
    obtain ⟨⟨old, edited⟩, set, rfl⟩ := map_eq_ok.mp h
    exact apart.of_blocks sound sound' (parentLink?_setField set) (block?_setField set) fun _ => rfl
  | setExtra id extra =>
    exact apart.of_blocks sound sound' (parentLink?_setExtra h) (block?_setExtra h) fun block => by
      simp [Block.withExtra]
  | setSignature id changes =>
    exact apart.of_blocks sound sound' (parentLink?_setSignature h) (block?_setSignature h) fun block => by simp
  | setWarning id warning =>
    exact apart.of_blocks sound sound' (parentLink?_setWarning h) (block?_setWarning h) fun _ => rfl

/-- Edits never put a value among statements. -/
theorem Sound.valuesApart_foldl_mutate (sound : g.Sound) (apart : g.ValuesApart) (edits : List Mutation) :
    (edits.foldl Graph.mutate g).ValuesApart := by
  induction edits generalizing g with
  | nil => exact apart
  | cons edit edits ih =>
    refine ih (sound.mutate edit) ?_
    unfold Graph.mutate
    split
    · next edited ran => exact sound.valuesApart_run apart ran
    · exact apart

/-! Loading. -/

section Loaded

variable {forest : Forest} {spot : Spot} (loaded : ofForest forest = .ok g)
include loaded

theorem block?_spot (member : spot ∈ forest.spots) : g.block? spot.id = some spot.tree.block := by
  rw [block?, node?_spot loaded member]
  rfl

theorem isValue_spot (member : spot ∈ forest.spots) : g.IsValue spot.id ↔ spot.tree.kind.isValue = true := by
  rw [isValue_iff (block?_spot loaded member), BlockTree.kind_block]

theorem socketKind?_spot {socket : String} {kind : SocketKind} (member : spot ∈ forest.spots) :
    g.socketKind? spot.id socket = some kind ↔
      ⟨socket, kind⟩ ∈ Socket.declared spot.tree.kind spot.tree.extra := by
  rw [← BlockTree.sockets_block]
  constructor
  · intro shape
    obtain ⟨owner, found, offered⟩ := socketKind?_eq_some.mp shape
    cases found.symm.trans (block?_spot loaded member)
    exact List.mem_of_find?_eq_some offered
  · intro declared
    have offered := (BlockTree.block_derived spot.tree).socket?_of_mem declared
    exact socketKind?_eq_some.mpr ⟨_, block?_spot loaded member, offered⟩

theorem isValue_hanging {hook : Link} {head : BlockTree} (member : spot ∈ forest.spots)
    (shown : head ∈ (spot.hanging hook).head?) : g.IsValue head.id ↔ head.kind.isValue = true := by
  obtain ⟨rest, chain⟩ := List.head?_eq_some_iff.mp shown
  exact isValue_spot loaded (Forest.mem_spots_of_hanging member chain)

variable (distinct : forest.Distinct)
include distinct

theorem parentLink?_hanging {hook : Link} (member : spot ∈ forest.spots) :
    g.parentLink? child = some (spot.id, hook) ↔ ∃ head ∈ (spot.hanging hook).head?, head.id = child := by
  rw [← (Sound.ofForest loaded).tree.child?_eq_some, child?_spot loaded distinct member, Option.map_eq_some_iff]
  rfl

/-- Loading keeps values apart from statements exactly if the forest does. -/
theorem valuesApart_ofForest_iff : g.ValuesApart ↔ forest.ValuesApart := by
  have tree := (Sound.ofForest loaded).tree
  constructor
  · intro apart spot member
    have linked : ∀ hook, ∀ head ∈ (spot.hanging hook).head?, g.parentLink? head.id = some (spot.id, hook) :=
      fun hook head shown => (parentLink?_hanging loaded distinct member).mpr ⟨head, shown, rfl⟩
    refine ⟨fun lower shown => ?_, fun ⟨name, kind⟩ declared statement head shown => ?_⟩
    · have shown : lower ∈ (spot.hanging .next).head? := shown
      have follows := linked .next lower shown
      rw [← Bool.not_eq_true, ← Bool.not_eq_true, ← isValue_spot loaded member,
        ← isValue_hanging loaded member shown]
      exact ⟨apart.above follows, apart.below follows⟩
    · cases statement
      have shape := (socketKind?_spot loaded member).mpr declared
      rw [← Bool.not_eq_true, ← isValue_hanging loaded member shown]
      exact apart.inside (linked (.socket name) head shown) shape
  · intro apart
    -- Every link is that of a spot to what it shows.
    have shown : ∀ {child parent hook}, g.parentLink? child = some (parent, hook) →
        ∃ up ∈ forest.spots, up.id = parent ∧ ∃ head ∈ (up.hanging hook).head?, head.id = child := by
      intro child parent hook linked
      obtain ⟨up, member, rfl⟩ := spot_of_contains loaded (tree.contains_parent (up_of_parentLink linked))
      exact ⟨up, member, rfl, (parentLink?_hanging loaded distinct member).mp linked⟩
    refine ⟨fun linked => ?_, fun linked => ?_, fun linked shape => ?_⟩
    · obtain ⟨up, member, rfl, head, first, -⟩ := shown linked
      rw [isValue_spot loaded member, Bool.not_eq_true]
      exact ((apart up member).chained head first).1
    · obtain ⟨up, member, rfl, head, first, rfl⟩ := shown linked
      rw [isValue_hanging loaded member first, Bool.not_eq_true]
      exact ((apart up member).chained head first).2
    · obtain ⟨up, member, rfl, head, first, rfl⟩ := shown linked
      rw [isValue_hanging loaded member first, Bool.not_eq_true]
      exact (apart up member).inside _ ((socketKind?_spot loaded member).mp shape) rfl head first

end Loaded

/-- Numbers are loaded into the body of a method, one below the other. -/
theorem valuesApart_ofForest_iff_numbers_in_body :
    let number (id : Nat) : BlockTree := .node ⟨id⟩ .number [] .none []
    let forest : Forest :=
      ⟨[[.node ⟨0⟩ .methodDef [] (.default .methodDef) [(Socket.stack, [number 1, number 2])]]]⟩
    ∃ g, ofForest forest = .ok g ∧ ¬ g.ValuesApart := by
  intro number forest
  obtain ⟨g, loaded⟩ : ∃ g, ofForest forest = .ok g := ⟨_, rfl⟩
  have distinct : forest.Distinct := by
    simp [forest, number, Forest.Distinct, BlockTree.DistinctChain, BlockTree.Distinct, BlockTree.DistinctInputs,
      Labelled.labels]
  refine ⟨g, loaded, ?_⟩
  rw [valuesApart_ofForest_iff loaded distinct]
  decide

end Graph
end RobotBlocks
