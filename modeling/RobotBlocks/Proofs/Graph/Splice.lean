import RobotBlocks.Proofs.Graph.Moves

/-! What connecting does to links and stacks. A block takes a place with the statements below it; what hung
there follows after them or stands alone, and every other link is as it was. -/
namespace RobotBlocks.Graph

variable {g g' : Graph} {id other parent child displaced first : BlockId} {place : BlockId × Link}
  {left : Option (BlockId × Link)}

/-! Stacks that are taken out. -/

/-- A stack that is taken out keeps its statements. -/
theorem Tree.stack_detach (tree : g.Tree) (present : g.contains id = true) :
    (g.detach id false).stack id = g.stack id := by
  have loose := tree.detach id false
  refine tree.stack_congr loose present (by rwa [(Moves.detach g id false).contains]) fun above member => ?_
  have climbs := tree.climbs_of_mem_stack present member
  ext lower
  rw [next?, next?, loose.child?_eq_some, tree.child?_eq_some, parentLink?_detach]
  split
  · next here =>
    subst here
    exact ⟨nofun, fun linked => absurd climbs (tree.not_climbs_child (up_of_parentLink linked))⟩
  · rfl

theorem Tree.lastInStack_detach (tree : g.Tree) (present : g.contains id = true) :
    (g.detach id false).lastInStack id = g.lastInStack id := by
  rw [lastInStack, tree.stack_detach present, lastInStack]

/-! Taking a place. -/

/-- A block hangs from a place now, what hung there has the link that is left to it, and nothing else is
different. -/
structure Takes (g g' : Graph) (id : BlockId) (place : BlockId × Link) (left : Option (BlockId × Link)) :
    Prop where
  moves : g.Moves g'
  links : ∀ other, g'.parentLink? other = if other = id then some place
    else if g.parentLink? other = some place then left else g.parentLink? other
  outside : place.1 ∉ g.stack id

theorem Takes.emit (takes : Takes g g' id place left) (moved : BlockId) (kind : Kind) (payload : Payload) :
    Takes g (g'.emit moved kind payload) id place left :=
  ⟨⟨takes.moves.ids, takes.moves.blocks⟩, takes.links, takes.outside⟩

section Connected

variable (tree : g.Tree) {kind : Kind} (place : BlockId × Link) (checked : g.checkLink place.1 id = .ok kind)
include tree checked

theorem Tree.outside_stack : place.1 ∉ g.stack id := by
  obtain ⟨-, present⟩ := contains_of_checkLink checked
  exact fun member => tree.not_climbs_of_checkLink checked (tree.climbs_of_mem_stack present member)

/-- A free place is taken from nobody. -/
theorem Tree.takes_free (free : (g.detach id false).child? place.1 place.2 = none) :
    Takes g ((g.detach id false).link place.1 place.2 id) id place left := by
  have moves := Moves.detach g id false
  have present : (g.detach id false).contains id = true :=
    (moves.contains id).trans (contains_of_checkLink checked).2
  refine ⟨moves.trans (.link ..), fun other => ?_, tree.outside_stack place checked⟩
  rw [parentLink?_link present, parentLink?_detach]
  by_cases here : other = id
  · rw [if_pos here, if_pos here]
  · have apart := (tree.detach id false).child?_eq_none.mp free other
    rw [parentLink?_detach, if_neg here] at apart
    rw [if_neg here, if_neg here, if_neg here, if_neg apart]

/-- A chain in the place follows after the statements that come with the block. -/
theorem Tree.takes_splice (taken : (g.detach id false).child? place.1 place.2 = some displaced) :
    Takes g (((g.detach id false).appendChain id displaced).link place.1 place.2 id) id place
      (some (g.lastInStack id, .next)) := by
  obtain ⟨-, here⟩ := contains_of_checkLink checked
  have moves := (Moves.detach g id false).trans (.appendChain _ id displaced)
  have linked := (tree.detach id false).child?_eq_some.mp taken
  have present : ((g.detach id false).appendChain id displaced).contains id = true := by rwa [moves.contains]
  refine ⟨moves.trans (.link ..), fun other => ?_, tree.outside_stack place checked⟩
  rw [parentLink?_link present, parentLink?_appendChain id (contains_of_parentLink linked),
    tree.lastInStack_detach here, parentLink?_detach]
  rw [parentLink?_detach] at linked
  split at linked
  · cases linked
  · next differs =>
    by_cases own : other = id
    · rw [if_pos own, if_pos own]
    · rw [if_neg own, if_neg own, if_neg own]
      by_cases chain : other = displaced
      · rw [if_pos chain, chain, if_pos linked]
      · rw [if_neg chain, if_neg fun same => chain (tree.unshared same linked)]

end Connected

/-- A block is connected below another one with its stack, and what was below that one follows. -/
theorem Tree.takes_next (tree : g.Tree) (h : g.connectNext parent id = .ok g') :
    Takes g g' id (parent, .next) (some (g.lastInStack id, .next)) := by
  obtain ⟨kind, above, checked, -, -, rfl⟩ := connectNext_cases h
  cases taken : (g.detach id false).next? parent with
  | none => exact (tree.takes_free (parent, .next) checked taken).emit ..
  | some displaced => exact (tree.takes_splice (parent, .next) checked taken).emit ..

/-- The kind of a socket, if the block is there and has it. -/
def socketKind? (g : Graph) (id : BlockId) (socket : String) : Option SocketKind :=
  ((g.block? id).bind fun block => block.socket? socket).map (·.kind)

theorem socketKind?_eq_some {socket : String} {kind : SocketKind} : g.socketKind? id socket = some kind ↔
    ∃ block, g.block? id = some block ∧ block.socket? socket = some ⟨socket, kind⟩ := by
  simp only [socketKind?, Option.map_eq_some_iff, Option.bind_eq_some_iff]
  constructor
  · rintro ⟨own, ⟨block, found, offered⟩, rfl⟩
    have named : own.name = socket := by simpa using List.find?_some offered
    exact ⟨block, found, named ▸ offered⟩
  · rintro ⟨block, found, offered⟩
    exact ⟨_, ⟨block, found, offered⟩, rfl⟩

/-- A block is plugged into a socket with its stack. A value that was there stands alone, and statements that
were there follow. -/
theorem Tree.takes_socket {socket : String} (tree : g.Tree) (h : g.connectSocket parent socket id = .ok g') :
    ∃ kind, g.socketKind? parent socket = some kind ∧ Takes g g' id (parent, .socket socket)
      (match kind with
        | .value => none
        | .statement => some (g.lastInStack id, .next)) := by
  obtain ⟨kind, owner, socketKind, vacated, checked, found, offered, -, rfl, made⟩ := connectSocket_cases h
  refine ⟨socketKind, socketKind?_eq_some.mpr ⟨owner, found, offered⟩, Takes.emit ?_ ..⟩
  cases taken : (g.detach id false).plugged? parent socket with
  | none =>
    simp only [taken] at made
    exact made ▸ tree.takes_free (parent, .socket socket) checked taken
  | some occupant =>
    simp only [taken] at made
    cases socketKind with
    | statement =>
      simp only at made
      exact made ▸ tree.takes_splice (parent, .socket socket) checked taken
    | value =>
      simp only at made
      have moves := (Moves.detach g id false).trans (.unplug made)
      have present : vacated.contains id = true := (moves.contains id).trans (contains_of_checkLink checked).2
      have linked := (tree.detach id false).child?_eq_some.mp taken
      refine ⟨moves.trans (.link ..), fun other => ?_, tree.outside_stack (parent, .socket socket) checked⟩
      rw [parentLink?_link present, parentLink?_unplug made, parentLink?_detach]
      rw [parentLink?_detach] at linked
      split at linked
      · cases linked
      · next differs =>
        by_cases own : other = id
        · rw [if_pos own, if_pos own]
        · rw [if_neg own, if_neg own, if_neg own]
          by_cases inside : other = occupant
          · rw [if_pos inside, inside, if_pos linked]
          · rw [if_neg inside, if_neg fun same => inside (tree.unshared same linked)]

/-! Stacks afterwards. -/

namespace Takes

section Stacks

variable (takes : Takes g g' id place left) (tree : g.Tree) (tree' : g'.Tree)
include takes tree tree'

/-- A statement elsewhere loses the moved block, if that was below it, and gets nothing instead. -/
theorem next?_of_not_mem (apart : ∀ above, left = some (above, .next) → above ∈ g.stack id)
    (outside : first ∉ g.stack id) (own : place ≠ (first, .next)) :
    g'.next? first = some other ↔ g.next? first = some other ∧ other ≠ id := by
  rw [next?, next?, tree'.child?_eq_some, tree.child?_eq_some, takes.links]
  by_cases here : other = id
  · simp [here, own]
  · rw [if_neg here]
    by_cases taken : g.parentLink? other = some place
    · have other : left ≠ some (first, .next) := fun same => outside (apart first same)
      simp [taken, own, other]
    · simp [taken, here]

variable (present : g.contains id = true)
include present

/-- Only the last statement of the moved stack gets another one below it. -/
theorem next?_of_mem (member : first ∈ g.stack id) : g'.next? first = some other ↔
    g.next? first = some other ∨
      left = some (first, .next) ∧ other ≠ id ∧ g.parentLink? other = some place := by
  have own : place ≠ (first, .next) := by
    rintro rfl
    exact takes.outside member
  rw [next?, next?, tree'.child?_eq_some, tree.child?_eq_some, takes.links]
  by_cases here : other = id
  · have apart : g.parentLink? id ≠ some (first, .next) := fun linked =>
      tree.not_climbs_child (up_of_parentLink linked) (tree.climbs_of_mem_stack present member)
    simp [here, own, apart]
  · rw [if_neg here]
    by_cases taken : g.parentLink? other = some place
    · simp [taken, here, own]
    · simp [taken]

/-- A stack elsewhere keeps its statements up to the moved block. -/
theorem stack_of_not_mem (apart : ∀ above, left = some (above, .next) → above ∈ g.stack id)
    (there : g.contains first = true) (outside : first ∉ g.stack id)
    (own : ∀ other ∈ g.stack first, place ≠ (other, .next)) :
    g'.stack first = (g.stack first).filter fun other => other ∉ g.stack id := by
  induction first using tree.descends.induction with
  | h first ih =>
    have next : ∀ other, g'.next? first = some other ↔ g.next? first = some other ∧ other ≠ id := fun other =>
      takes.next?_of_not_mem tree tree' apart outside (own first (tree.head_mem_stack there))
    rw [tree'.stack_eq ((takes.moves.contains first).trans there), tree.stack_eq there,
      List.filter_cons_of_pos (by simpa using outside)]
    congr 1
    cases below : g.next? first with
    | none =>
      have last : g'.next? first = none :=
        Option.eq_none_iff_forall_ne_some.mpr fun other => by simp [next, below]
      rw [last]
      rfl
    | some follower =>
      have follows := tree.child?_eq_some.mp below
      have step := up_of_parentLink follows
      rw [Option.elim_some]
      by_cases here : follower = id
      · -- The moved block took all statements below it along.
        have last : g'.next? first = none :=
          Option.eq_none_iff_forall_ne_some.mpr fun other => by simp [next, below, here, eq_comm]
        rw [last, here, Option.elim_none, eq_comm, List.filter_eq_nil_iff]
        simp
      · rw [(next follower).mpr ⟨below, here⟩, Option.elim_some]
        refine ih follower step (Tree.contains_child step) (fun member => ?_) fun other member => own other ?_
        · rcases (tree.mem_stack present).mp member with same | ⟨above, member, linked⟩
          · exact here same
          · cases linked.symm.trans follows
            exact outside member
        · rw [tree.stack_eq there, below]
          exact List.mem_cons_of_mem _ member

/-- What hung in the place keeps its own statements, as far as they did not move. -/
theorem stack_displaced (apart : ∀ above, left = some (above, .next) → above ∈ g.stack id)
    (linked : g.parentLink? displaced = some place) (differs : displaced ≠ id) :
    g'.stack displaced = (g.stack displaced).filter fun other => other ∉ g.stack id := by
  have there := contains_of_parentLink linked
  refine takes.stack_of_not_mem tree tree' present apart there (fun member => ?_) fun other member same => ?_
  · rcases (tree.mem_stack present).mp member with same | ⟨above, member, follows⟩
    · exact differs same
    · obtain rfl : place = (above, .next) := Option.some.inj (linked.symm.trans follows)
      exact takes.outside member
  · subst same
    exact tree.not_climbs_child (up_of_parentLink linked) (tree.climbs_of_mem_stack there member)

end Stacks

section Moved

variable (tree : g.Tree) (tree' : g'.Tree) (present : g.contains id = true)
include tree tree' present

/-- Where nothing follows after it, the moved stack keeps its statements. -/
theorem stack_of_none (takes : Takes g g' id place none) : g'.stack id = g.stack id := by
  refine tree.stack_congr tree' present ((takes.moves.contains id).trans present) fun above member => ?_
  ext lower
  simp [takes.next?_of_mem tree tree' present member]

/-- Below the last of the moved statements comes what hung in the place, as far as it did not move. -/
theorem below_last (takes : Takes g g' id place (some (g.lastInStack id, .next))) :
    (g'.next? (g.lastInStack id)).elim [] g'.stack
      = ((g.child? place.1 place.2).elim [] g.stack).filter fun other => other ∉ g.stack id := by
  have member := tree.lastInStack_mem present
  have next : ∀ other, g'.next? (g.lastInStack id) = some other ↔
      other ≠ id ∧ g.parentLink? other = some place := fun other => by
    simp [takes.next?_of_mem tree tree' present member, tree.next?_lastInStack present]
  cases held : g.child? place.1 place.2 with
  | none =>
    have free := tree.child?_eq_none.mp held
    have last : g'.next? (g.lastInStack id) = none :=
      Option.eq_none_iff_forall_ne_some.mpr fun other => by simp [next, free]
    rw [last]
    rfl
  | some displaced =>
    have linked := tree.child?_eq_some.mp held
    rw [Option.elim_some]
    by_cases here : displaced = id
    · -- The block was in the place already.
      have last : g'.next? (g.lastInStack id) = none :=
        Option.eq_none_iff_forall_ne_some.mpr fun other follows => by
          obtain ⟨differs, taken⟩ := (next other).mp follows
          exact differs (here ▸ tree.unshared taken linked)
      rw [last, here, Option.elim_none, eq_comm, List.filter_eq_nil_iff]
      simp
    · rw [(next displaced).mpr ⟨here, linked⟩, Option.elim_some]
      refine takes.stack_displaced tree tree' present (fun above same => ?_) linked here
      cases same
      exact member

/-- The moved stack goes on with what hung in the place that it took. -/
theorem stack_of_splice (takes : Takes g g' id place (some (g.lastInStack id, .next))) :
    g'.stack id = g.stack id
      ++ ((g.child? place.1 place.2).elim [] g.stack).filter fun other => other ∉ g.stack id := by
  rw [← takes.below_last tree tree' present]
  have onward : ∀ first ∈ g.stack id,
      g'.stack first = g.stack first ++ (g'.next? (g.lastInStack id)).elim [] g'.stack := by
    intro first
    induction first using tree.descends.induction with
    | h first ih =>
      intro member
      have there := tree.contains_of_mem_stack member
      rw [tree'.stack_eq ((takes.moves.contains first).trans there), tree.stack_eq there]
      cases below : g.next? first with
      | none =>
        rw [tree.eq_lastInStack present member below]
        rfl
      | some follower =>
        have follows := tree.child?_eq_some.mp below
        have later : follower ∈ g.stack id := (tree.mem_stack present).mpr (.inr ⟨first, member, follows⟩)
        rw [(takes.next?_of_mem tree tree' present member).mpr (.inl below), Option.elim_some, Option.elim_some,
          List.cons_append, ih follower (up_of_parentLink follows) later]
  exact onward id (tree.head_mem_stack present)

end Moved

end Takes

end RobotBlocks.Graph
