import RobotBlocks.Proofs.Graph.History
import RobotBlocks.Proofs.Graph.RoundTrip
import RobotBlocks.Proofs.Graph.Sections

/-! Values with statements below them. A stored graph can be loaded only if no block in a value socket has a
statement below it. Operations break this in three ways, and the main result is that whole histories break it
in no other: a block goes below a value, a block with statements below it becomes a value, or a new state turns
the socket of such a block into one for values. The last one never happens to blocks that are as their kind and
state ask for. -/
namespace RobotBlocks.Graph

variable {g g' : Graph} {id other parent child : BlockId} {place : BlockId × Link}
  {left : Option (BlockId × Link)} {socket : String}

/-- Whether a link leads into a socket for values. -/
def TakesValue (g : Graph) (place : BlockId × Link) : Prop :=
  ∃ parent socket, place = (parent, .socket socket) ∧ g.socketKind? parent socket = some .value

/-- Whether a block sits in a socket for values. -/
def InValue (g : Graph) (id : BlockId) : Prop := ∃ place, g.parentLink? id = some place ∧ g.TakesValue place

/-- Values have nothing below them. -/
def ValuesEnd (g : Graph) : Prop := ∀ id, g.InValue id → g.next? id = none

theorem not_takesValue_next (parent : BlockId) : ¬ g.TakesValue (parent, .next) := nofun

@[simp] theorem takesValue_socket :
    g.TakesValue (parent, .socket socket) ↔ g.socketKind? parent socket = some .value := by
  constructor
  · rintro ⟨_, _, same, value⟩
    cases same
    exact value
  · exact fun value => ⟨_, _, rfl, value⟩

theorem Moves.takesValue (moves : g.Moves g') : g'.TakesValue place ↔ g.TakesValue place := by
  simp only [TakesValue, socketKind?, moves.blocks]

theorem singleValues_iff : g.SingleValues ↔ g.ValuesEnd := by
  constructor
  · rintro single id ⟨_, linked, parent, socket, rfl, value⟩
    obtain ⟨owner, found, offered⟩ := socketKind?_eq_some.mp value
    exact single linked found offered
  · intro ends parent id socket owner linked found offered
    exact ends id ⟨_, linked, takesValue_socket.mpr (socketKind?_eq_some.mpr ⟨owner, found, offered⟩)⟩

/-! Links that go. -/

/-- Where links only go, and sockets in use take what they took, values still end. -/
theorem Tree.valuesEnd_of_links (tree : g.Tree) (tree' : g'.Tree) (ends : g.ValuesEnd)
    (links : ∀ {child place}, g'.parentLink? child = some place → g.parentLink? child = some place)
    (values : ∀ {child place}, g.parentLink? child = some place → g'.TakesValue place → g.TakesValue place) :
    g'.ValuesEnd := by
  rintro id ⟨place, linked, value⟩
  have before := ends id ⟨place, links linked, values (links linked) value⟩
  exact tree'.child?_eq_none.mpr fun other follows => tree.child?_eq_none.mp before other (links follows)

/-- What moves up when a block is taken out was below it, so it comes into no value socket. -/
theorem Tree.inValue_of_heal (tree : g.Tree) (ends : g.ValuesEnd) (linked : g.parentLink? id = some place)
    (inside : (g.detach id true).InValue other) : g.InValue other := by
  obtain ⟨hook, hangs, value⟩ := inside
  have value := (Moves.detach g id true).takesValue.mp value
  rw [tree.parentLink?_heal linked] at hangs
  split at hangs
  · cases hangs
  · split at hangs
    · next follows =>
      cases hangs
      have alone := ends id ⟨place, linked, value⟩
      exact absurd follows (tree.child?_eq_none.mp alone other)
    · exact ⟨hook, hangs, value⟩

/-- What is taken out of a value socket leaves it empty, since nothing is below it. -/
theorem Tree.valuesEnd_detach (tree : g.Tree) (ends : g.ValuesEnd) (id : BlockId) (heal : Bool) :
    (g.detach id heal).ValuesEnd := by
  cases heal with
  | false =>
    refine tree.valuesEnd_of_links (tree.detach id false) ends (fun {other place} linked => ?_) fun _ =>
      (Moves.detach g id false).takesValue.mp
    rw [parentLink?_detach] at linked
    split at linked
    · cases linked
    · exact linked
  | true =>
    cases linked : g.parentLink? id with
    | none => rwa [Graph.detach, linked]
    | some place =>
      intro other inside
      have alone := tree.child?_eq_none.mp (ends other (tree.inValue_of_heal ends linked inside))
      refine (tree.detach id true).child?_eq_none.mpr fun lower => ?_
      rw [tree.parentLink?_heal linked]
      split
      · rintro ⟨⟩
      · split
        · exact fun same => alone id (linked.trans same)
        · exact alone lower

theorem Tree.valuesEnd_removeNode (tree : g.Tree) (ends : g.ValuesEnd) (id : BlockId) :
    (g.removeNode id).ValuesEnd := by
  cases present : g.contains id with
  | false => rwa [removeNode_of_missing present]
  | true =>
    refine tree.valuesEnd_of_links (tree.removeNode id) ends
      (fun linked => ((parentLink?_removeNode present).mp linked).2.2) fun _ value => ?_
    obtain ⟨parent, socket, rfl, value⟩ := value
    obtain ⟨owner, found, offered⟩ := socketKind?_eq_some.mp value
    rw [block?_removeNode] at found
    split at found
    · cases found
    · exact takesValue_socket.mpr (socketKind?_eq_some.mpr ⟨owner, found, offered⟩)

theorem Tree.valuesEnd_foldl_removeNode (tree : g.Tree) (ends : g.ValuesEnd) (doomed : List BlockId) :
    (doomed.foldl Graph.removeNode g).ValuesEnd := by
  induction doomed generalizing g with
  | nil => exact ends
  | cons id doomed ih => exact ih (tree.removeNode id) (tree.valuesEnd_removeNode ends id)

/-! Links that stay. -/

/-- A block that comes in holds nothing and hangs from nothing. -/
theorem Tree.valuesEnd_place {block : Block} (tree : g.Tree) (ends : g.ValuesEnd)
    (fresh : g.contains block.id = false) : (g.place block).ValuesEnd := by
  refine tree.valuesEnd_of_links (tree.place fresh) ends (fun linked => (parentLink?_place fresh _).symm.trans linked)
    fun {child place} linked value => ?_
  obtain ⟨parent, socket, rfl, value⟩ := value
  have apart : parent ≠ block.id := by
    rintro rfl
    simp [tree.contains_parent (up_of_parentLink linked)] at fresh
  rw [socketKind?, block?_place fresh, if_neg apart] at value
  exact takesValue_socket.mpr value

/-- Changes to what a block shows leave its sockets alone. -/
theorem Tree.valuesEnd_of_sockets (tree : g.Tree) (tree' : g'.Tree) (ends : g.ValuesEnd)
    (links : ∀ other, g'.parentLink? other = g.parentLink? other) {id : BlockId} {change : Block → Block}
    (blocks : ∀ other, g'.block? other = if other = id then (g.block? other).map change else g.block? other)
    (sockets : ∀ block, (change block).sockets = block.sockets) : g'.ValuesEnd := by
  refine tree.valuesEnd_of_links tree' ends (fun linked => (links _).symm.trans linked) fun _ value => ?_
  obtain ⟨parent, socket, rfl, value⟩ := value
  have same : ∀ block, (change block).socket? socket = block.socket? socket := fun block => by
    rw [Block.socket?, sockets, Block.socket?]
  rw [socketKind?, blocks] at value
  split at value
  · simpa [socketKind?, Option.bind_map, Function.comp_def, same] using value
  · exact takesValue_socket.mpr value

/-! Blocks that move. -/

section Takes

variable (takes : Takes g g' id place left) (tree : g.Tree) (tree' : g'.Tree)
  (free : left = some (g.lastInStack id, .next) ∧ ¬ g.TakesValue place ∨ left = none)
include takes free

/-- Only the moved block comes into a value socket, and what made room leaves one. -/
theorem Takes.inValue (other : BlockId) : g'.InValue other ↔
    if other = id then g.TakesValue place else g.InValue other ∧ g.parentLink? other ≠ some place := by
  have values : ∀ {hook}, g'.TakesValue hook ↔ g.TakesValue hook := takes.moves.takesValue
  simp only [InValue, takes.links, values]
  split
  · simp
  · split
    · next taken => rcases free with ⟨rfl, -⟩ | rfl <;> simp [taken, not_takesValue_next]
    · next apart => simp [apart]

include tree tree'

/-- Values end after a move if and only if they ended before, the block goes below no value, and nothing is below
it where it becomes one. -/
theorem Takes.valuesEnd_iff (present : g.contains id = true) (ends : g.ValuesEnd) : g'.ValuesEnd ↔
    (∀ above, place = (above, .next) → ¬ g.InValue above) ∧ (g.TakesValue place → g.next? id = none) := by
  have inside := takes.inValue free
  have head := tree.head_mem_stack present
  have within : ∀ above, left = some (above, .next) → above ∈ g.stack id := by
    rintro above rfl
    rcases free with ⟨same, -⟩ | none
    · cases same
      exact tree.lastInStack_mem present
    · cases none
  constructor
  · refine fun ends' => ⟨?_, fun value => ?_⟩
    · rintro above rfl value
      have linked : g'.parentLink? id = some (above, .next) := (takes.links id).trans (if_pos rfl)
      have differs : above ≠ id := fun same => takes.outside (same ▸ head)
      have stays : g'.InValue above := by
        refine (inside above).mpr ?_
        rw [if_neg differs]
        exact ⟨value, fun own => tree.not_climbs_child (up_of_parentLink own) .refl⟩
      exact tree'.child?_eq_none.mp (ends' above stays) id linked
    · have alone := ends' id ((inside id).mpr (by rwa [if_pos rfl]))
      refine Option.eq_none_iff_forall_ne_some.mpr fun lower below => ?_
      have stays := (takes.next?_of_mem tree tree' present head).mpr (.inl below)
      rw [alone] at stays
      cases stays
  · rintro ⟨apart, alone⟩ other value
    refine Option.eq_none_iff_forall_ne_some.mpr fun lower below => ?_
    rw [inside] at value
    split at value
    · next here =>
      subst here
      rcases (takes.next?_of_mem tree tree' present head).mp below with before | ⟨taken, -⟩
      · rw [alone value] at before
        cases before
      · rcases free with ⟨-, other⟩ | none
        · exact other value
        · cases taken.symm.trans none
    · next differs =>
      have outside : other ∉ g.stack id := by
        rw [tree.mem_stack present]
        rintro (same | ⟨above, -, follows⟩)
        · exact differs same
        · obtain ⟨⟨hook, linked, takesValue⟩, -⟩ := value
          cases follows.symm.trans linked
          exact not_takesValue_next above takesValue
      have own : place ≠ (other, .next) := fun same => apart other same value.1
      have before := ((takes.next?_of_not_mem tree tree' within outside own).mp below).1
      rw [ends other value.1] at before
      cases before

end Takes

/-! Operations. -/

/-- What an operation has to heed so that values end. -/
def Operation.Ends (g : Graph) : Operation → Prop
  | mutate (.connectNext previous _) => ¬ g.InValue previous
  | mutate (.connectSocket parent socket child) =>
    g.socketKind? parent socket = some .value → g.next? child = none
  | mutate (.setExtra id extra) => ∀ block socket child, g.block? id = some block →
    (block.withExtra extra).socket? socket = some ⟨socket, .value⟩ → g.plugged? id socket = some child →
      g.next? child = none
  | _ => True

theorem Tree.valuesEnd_setExtra {extra : ExtraState} (tree : g.Tree) (ends : g.ValuesEnd)
    (h : g.setExtra id extra = .ok g') :
    g'.ValuesEnd ↔ (Operation.mutate (.setExtra id extra)).Ends g := by
  have tree' := tree.setExtra h
  have links := parentLink?_setExtra h
  have next : ∀ other, g'.next? other = g.next? other := fun other =>
    Option.ext fun lower => by rw [next?, next?, tree'.child?_eq_some, tree.child?_eq_some, links]
  have blocks := block?_setExtra h
  constructor
  · intro ends' block socket child found offered held
    rw [← next]
    refine ends' child ⟨_, (links child).trans (tree.child?_eq_some.mp held), takesValue_socket.mpr ?_⟩
    exact socketKind?_eq_some.mpr ⟨_, by rw [blocks, if_pos rfl, found]; rfl, offered⟩
  · rintro heeds other ⟨_, linked, parent, socket, rfl, value⟩
    rw [next]
    rw [links] at linked
    obtain ⟨owner, found, offered⟩ := socketKind?_eq_some.mp value
    rw [blocks] at found
    split at found
    · next here =>
      obtain ⟨block, there, rfl⟩ := Option.map_eq_some_iff.mp found
      exact heeds block socket other (here ▸ there) offered (tree.child?_eq_some.mpr (here ▸ linked))
    · exact ends other ⟨_, linked, takesValue_socket.mpr (socketKind?_eq_some.mpr ⟨owner, found, offered⟩)⟩

theorem Tree.valuesEnd_operation {operation : Operation} (tree : g.Tree) (ends : g.ValuesEnd)
    (h : operation.run g = .ok g') : g'.ValuesEnd ↔ operation.Ends g := by
  have tree' := tree.operation h
  cases operation with
  | insert block =>
    obtain ⟨fresh, -, rfl⟩ := insertBlock_eq_ok.mp h
    exact iff_true_intro (tree.valuesEnd_place ends fresh)
  | mutate edit =>
    cases edit with
    | add kind extra =>
      cases h
      refine iff_true_intro (tree.valuesEnd_place ends ?_)
      simpa using freshId_fresh g
    | insert id kind extra =>
      obtain ⟨fresh, -, rfl⟩ := insertBlock_eq_ok.mp h
      exact iff_true_intro (tree.valuesEnd_place ends fresh)
    | delete id heal =>
      obtain ⟨⟨doomed, rest⟩, deleted, rfl⟩ := map_eq_ok.mp h
      obtain ⟨-, -, rfl⟩ := deleteBlock_eq_ok.mp deleted
      exact iff_true_intro ((tree.detach id heal).valuesEnd_foldl_removeNode (tree.valuesEnd_detach ends id heal) _)
    | unplug id heal =>
      refine iff_true_intro ?_
      rcases unplug_cases h with ⟨-, rfl⟩ | ⟨_, _, -, rfl⟩
      · exact ends
      · exact tree.valuesEnd_detach ends id heal
    | connectNext previous id =>
      obtain ⟨_, _, checked, -⟩ := connectNext_cases h
      obtain ⟨-, present⟩ := contains_of_checkLink checked
      rw [(tree.takes_next h).valuesEnd_iff tree tree' (.inl ⟨rfl, not_takesValue_next previous⟩)
        present ends]
      constructor
      · exact fun heeds => heeds.1 previous rfl
      · refine fun outside => ⟨?_, fun value => absurd value (not_takesValue_next previous)⟩
        rintro above same
        cases same
        exact outside
    | connectSocket parent socket child =>
      obtain ⟨_, _, _, _, checked, -⟩ := connectSocket_cases h
      obtain ⟨-, present⟩ := contains_of_checkLink checked
      obtain ⟨kind, same, takes⟩ := tree.takes_socket h
      rw [takes.valuesEnd_iff tree tree' ?_ present ends, takesValue_socket]
      · exact ⟨fun heeds => heeds.2, fun heeds => ⟨nofun, heeds⟩⟩
      · cases kind with
        | value => exact .inr rfl
        | statement => exact .inl ⟨rfl, by simp [same]⟩
    | setField id name value =>
      obtain ⟨⟨old, edited⟩, set, rfl⟩ := map_eq_ok.mp h
      exact iff_true_intro (tree.valuesEnd_of_sockets tree' ends (parentLink?_setField set) (block?_setField set)
        fun _ => rfl)
    | setExtra id extra => exact tree.valuesEnd_setExtra ends h
    | setSignature id changes =>
      exact iff_true_intro (tree.valuesEnd_of_sockets tree' ends (parentLink?_setSignature h) (block?_setSignature h)
        fun block => by simp)
    | setWarning id warning =>
      exact iff_true_intro (tree.valuesEnd_of_sockets tree' ends (parentLink?_setWarning h) (block?_setWarning h)
        fun _ => rfl)

theorem Sound.owner_of_arg {i : Nat} (sound : g.Sound)
    (linked : g.parentLink? child = some (parent, .socket (Socket.arg i))) :
    ∃ owner, g.block? parent = some owner ∧ owner.kind = .methodCall ∧
      owner.socket? (Socket.arg i) = some ⟨Socket.arg i, .value⟩ := by
  have declared := sound.tree.declared linked
  obtain ⟨owner, found, offered⟩ := (Option.any_eq_true _ _).mp declared
  obtain ⟨socket, own⟩ := Option.isSome_iff_exists.mp offered
  have member := List.mem_of_find?_eq_some own
  rw [(sound.fitted found).sockets] at member
  obtain ⟨kind, same⟩ := Socket.of_arg member (by simpa using List.find?_some own)
  exact ⟨owner, found, kind, by rw [own, same]⟩

/-! Histories. -/

theorem Tree.valuesEnd_operate (tree : g.Tree) (ends : g.ValuesEnd) (operation : Operation) :
    (g.operate operation).ValuesEnd ↔ ((operation.run g).toBool = true → operation.Ends g) := by
  unfold Graph.operate
  cases ran : operation.run g with
  | error fault => simpa [Except.toBool] using ends
  | ok changed => simpa [Except.toBool] using tree.valuesEnd_operation ends ran

/-- In a history from the empty graph on no block in a value socket ever has a statement below it, exactly if
no operation that is carried out puts a block below a value, plugs a block with statements below it into a value
socket, or makes the socket of such a block one for values. -/
theorem singleValues_iff_ends (operations : List Operation) :
    (∀ before, before <+: operations → (before.foldl Graph.operate Graph.empty).SingleValues) ↔
      ∀ before operation, before ++ [operation] <+: operations →
        (operation.run (before.foldl Graph.operate Graph.empty)).toBool = true →
          operation.Ends (before.foldl Graph.operate Graph.empty) := by
  simp only [singleValues_iff]
  refine foldl_prefixes_iff (P := ValuesEnd)
    (Q := fun g operation => (operation.run g).toBool = true → operation.Ends g) ?_ (fun before operation ends => ?_)
    operations
  · rintro id ⟨_, linked, -⟩
    simp [parentLink?, node?, Graph.empty] at linked
  · exact (Assembled.empty.foldl_operate before).tree.valuesEnd_operate ends operation

/-- A call may be put below another one that is an argument. -/
theorem singleValues_iff_ends_below_argument :
    let operations : List Operation :=
      [.mutate (.add .methodCall (.call { args := [{ name := "x" }] })), .mutate (.add .methodCall (.call {})),
        .mutate (.add .methodCall (.call {})), .mutate (.connectSocket ⟨0⟩ (Socket.arg 0) ⟨1⟩),
        .mutate (.connectNext ⟨1⟩ ⟨2⟩)]
    (operations.foldl Graph.operate Graph.empty).statementStack ⟨0⟩ (Socket.arg 0) = [⟨1⟩, ⟨2⟩] ∧
      ¬ ∀ before, before <+: operations → (before.foldl Graph.operate Graph.empty).SingleValues := by
  intro operations
  refine ⟨by decide +kernel, fun kept => ?_⟩
  have heeds := (singleValues_iff_ends operations).mp kept (operations.take 4) _ (List.prefix_refl _)
    (by decide +kernel)
  exact heeds ⟨(⟨0⟩, .socket (Socket.arg 0)), by decide +kernel, takesValue_socket.mpr (by decide +kernel)⟩

end RobotBlocks.Graph
