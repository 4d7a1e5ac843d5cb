import RobotBlocks.Proofs.Graph.History
import RobotBlocks.Proofs.Graph.Sections

/-! The order of statements after a move. Whatever layout a move starts from, also where the moved block hangs
below the place that it goes to, each statement stands afterwards where the move says, in the order in which it
stood before, and no link of a block that has nothing to do with the move changes. -/
namespace RobotBlocks.Graph

variable {g g' : Graph} {id previous parent child : BlockId} {socket : String} {place : BlockId × Link}
  {left : Option (BlockId × Link)}

/-- All blocks are as they were, and so are all links but those of the blocks named. -/
structure Relinks (g g' : Graph) (moved : BlockId → Prop) : Prop where
  moves : g.Moves g'
  link : ∀ {other}, ¬ moved other → g'.parentLink? other = g.parentLink? other

theorem Takes.relinks (takes : Takes g g' id place left) (tree : g.Tree) :
    Relinks g g' fun other => other = id ∨ g.child? place.1 place.2 = some other := by
  refine ⟨takes.moves, fun {other} apart => ?_⟩
  rw [tree.child?_eq_some, not_or] at apart
  rw [takes.links, if_neg apart.1, if_neg apart.2]

namespace Tree

variable (tree : g.Tree)
include tree

/-- The moved stack comes next, then what followed before. -/
theorem stack_connectNext (h : g.connectNext previous id = .ok g') :
    g'.stack previous
      = previous :: (g.stack id ++ (g.stack previous).tail.filter fun other => other ∉ g.stack id) := by
  have tree' := tree.connectNext h
  have takes := tree.takes_next h
  obtain ⟨_, _, checked, -⟩ := connectNext_cases h
  obtain ⟨there, present⟩ := contains_of_checkLink checked
  have below : g'.next? previous = some id := tree'.child?_eq_some.mpr ((takes.links id).trans (if_pos rfl))
  rw [tree'.stack_eq ((takes.moves.contains previous).trans there), below, Option.elim_some,
    takes.stack_of_splice tree tree' present, tree.stack_eq there, List.tail_cons]
  rfl

/-- What a socket holds after something was plugged into it, and what became of a value that it held. -/
theorem connectSocket_order (h : g.connectSocket parent socket child = .ok g') :
    (g.socketKind? parent socket = some .statement → g'.statementStack parent socket = g.stack child
      ++ (g.statementStack parent socket).filter fun other => other ∉ g.stack child) ∧
    (g.socketKind? parent socket = some .value → g'.statementStack parent socket = g.stack child ∧
      ∀ occupant, g.plugged? parent socket = some occupant → occupant ≠ child →
        g'.parentLink? occupant = none ∧
        g'.stack occupant = (g.stack occupant).filter fun other => other ∉ g.stack child) ∧
    Relinks g g' fun other => other = child ∨ g.plugged? parent socket = some other := by
  have tree' := tree.connectSocket h
  obtain ⟨_, _, _, _, checked, -⟩ := connectSocket_cases h
  obtain ⟨-, present⟩ := contains_of_checkLink checked
  obtain ⟨kind, same, takes⟩ := tree.takes_socket h
  have inside : g'.plugged? parent socket = some child :=
    tree'.child?_eq_some.mpr ((takes.links child).trans (if_pos rfl))
  have whole : g'.statementStack parent socket = g'.stack child := by rw [statementStack, inside, Option.elim_some]
  refine ⟨fun statement => ?_, fun value => ⟨?_, fun occupant held differs => ?_⟩, takes.relinks tree⟩
  · obtain rfl : kind = .statement := Option.some.inj (same.symm.trans statement)
    rw [whole, takes.stack_of_splice tree tree' present]
    rfl
  · obtain rfl : kind = .value := Option.some.inj (same.symm.trans value)
    rw [whole, takes.stack_of_none tree tree' present]
  · obtain rfl : kind = .value := Option.some.inj (same.symm.trans value)
    have linked := tree.child?_eq_some.mp held
    refine ⟨?_, takes.stack_displaced tree tree' present (by rintro _ ⟨⟩) linked differs⟩
    rw [takes.links, if_neg differs, if_pos linked]

end Tree

/-! Unplugging. -/

/-- A block that is taken out stands alone at the top, and what was below it has its place; or it stands there
with all that was below it. -/
theorem Tree.unplug_order (tree : g.Tree) (heal : Bool) (hangs : g.parent? id ≠ none) :
    ∃ g', g.unplug id heal = .ok g' ∧ g'.parentLink? id = none ∧
      (heal = true → g'.next? id = none ∧
        ∀ follower, g.next? id = some follower → g'.parentLink? follower = g.parentLink? id) ∧
      (heal = false → g'.stack id = g.stack id) ∧
      Relinks g g' fun other => other = id ∨ heal = true ∧ g.next? id = some other := by
  obtain ⟨parent, up⟩ := Option.ne_none_iff_exists'.mp hangs
  obtain ⟨hook, linked⟩ := parent?_eq_some.mp up
  obtain ⟨kind, unplugs⟩ := unplug_of_linked linked heal
  have tree' := tree.unplug unplugs
  refine ⟨_, unplugs, ?_⟩
  cases heal with
  | false =>
    have links := parentLink?_detach g id
    have present := contains_of_parentLink linked
    have there : (g.detach id false).contains id = true := by rwa [(Moves.detach g id false).contains]
    refine ⟨(links id).trans (if_pos rfl), nofun, fun _ => ?_, .unplug unplugs, fun {other} apart => ?_⟩
    · exact ((tree.detach id false).stack_congr tree' there there fun _ _ => rfl).trans (tree.stack_detach present)
    · exact (links other).trans (if_neg fun same => apart (.inl same))
  | true =>
    have links : ∀ other, ((g.detach id true).emit id kind (.moved (some parent) none)).parentLink? other = _ :=
      tree.parentLink?_heal linked
    have differs : ∀ {other}, g.parentLink? other = some (id, .next) → other ≠ id := by
      rintro _ follows rfl
      exact tree.not_climbs_child (up_of_parentLink follows) .refl
    refine ⟨(links id).trans (if_pos rfl), fun _ => ⟨?_, fun follower below => ?_⟩, nofun, .unplug unplugs,
      fun {other} apart => ?_⟩
    · refine tree'.child?_eq_none.mpr fun other => ?_
      rw [links]
      split
      · nofun
      · split
        · intro same
          cases same
          exact tree.not_climbs_child (up_of_parentLink linked) .refl
        · next apart => exact apart
    · have follows := tree.child?_eq_some.mp below
      rw [links, if_neg (differs follows), if_pos follows, linked]
    · obtain ⟨other, apart⟩ := not_or.mp apart
      rw [links, if_neg other, if_neg fun follows => apart ⟨rfl, tree.child?_eq_some.mpr follows⟩]

/-! Every move. -/

/-- Moves lose, double and reorder nothing. A connected block comes with its stack, and what hung in its new
place follows after it; a value that sat there stands alone with what followed it and did not move. A block that
is unplugged stands alone, and either what followed it has its place or it keeps what followed. -/
theorem Assembled.moves_in_order (reached : g.Assembled) :
    (∀ previous id g', g.connectNext previous id = .ok g' →
      g'.stack previous
        = previous :: (g.stack id ++ (g.stack previous).tail.filter fun other => other ∉ g.stack id) ∧
      Relinks g g' fun other => other = id ∨ g.next? previous = some other) ∧
    (∀ parent socket child g', g.connectSocket parent socket child = .ok g' →
      (g.socketKind? parent socket = some .statement → g'.statementStack parent socket = g.stack child
        ++ (g.statementStack parent socket).filter fun other => other ∉ g.stack child) ∧
      (g.socketKind? parent socket = some .value → g'.statementStack parent socket = g.stack child ∧
        ∀ occupant, g.plugged? parent socket = some occupant → occupant ≠ child →
          g'.parentLink? occupant = none ∧
          g'.stack occupant = (g.stack occupant).filter fun other => other ∉ g.stack child) ∧
      Relinks g g' fun other => other = child ∨ g.plugged? parent socket = some other) ∧
    (∀ id heal, g.parent? id ≠ none →
      ∃ g', g.unplug id heal = .ok g' ∧ g'.parentLink? id = none ∧
        (heal = true → g'.next? id = none ∧
          ∀ follower, g.next? id = some follower → g'.parentLink? follower = g.parentLink? id) ∧
        (heal = false → g'.stack id = g.stack id) ∧
        Relinks g g' fun other => other = id ∨ heal = true ∧ g.next? id = some other) := by
  have tree := reached.tree
  refine ⟨fun previous id g' connects => ?_, fun parent socket child g' connects => ?_,
    fun id heal hangs => tree.unplug_order heal hangs⟩
  · exact ⟨tree.stack_connectNext connects, (tree.takes_next connects).relinks tree⟩
  · exact tree.connectSocket_order connects

/-- The last of three statements moves up below the first, then to the head of the section; the second is taken
out; and the follower of an argument becomes the argument. -/
theorem moves_in_order_overlapping :
    let call : ExtraState := .call { args := [{ name := "x" }] }
    let edits : List Mutation :=
      [.add .methodDef (.method {}), .add .methodCall call, .add .methodCall (.call {}), .add .methodCall (.call {}),
        .connectSocket ⟨0⟩ Socket.stack ⟨1⟩, .connectNext ⟨1⟩ ⟨2⟩, .connectNext ⟨2⟩ ⟨3⟩]
    let g := edits.foldl Graph.mutate Graph.empty
    let called := ((g.mutate (.connectSocket ⟨1⟩ (Socket.arg 0) ⟨2⟩)))
    (∃ g', g.connectNext ⟨1⟩ ⟨3⟩ = .ok g' ∧ g'.stack ⟨1⟩ = [⟨1⟩, ⟨3⟩, ⟨2⟩]) ∧
    (∃ g', g.connectSocket ⟨0⟩ Socket.stack ⟨3⟩ = .ok g' ∧
      g'.statementStack ⟨0⟩ Socket.stack = [⟨3⟩, ⟨1⟩, ⟨2⟩]) ∧
    (∃ g', called.connectSocket ⟨1⟩ (Socket.arg 0) ⟨3⟩ = .ok g' ∧
      g'.statementStack ⟨1⟩ (Socket.arg 0) = [⟨3⟩] ∧ g'.stack ⟨2⟩ = [⟨2⟩]) ∧
    ∃ g', g.unplug ⟨2⟩ true = .ok g' ∧ g'.parentLink? ⟨3⟩ = some (⟨1⟩, .next) := by
  intro call edits g called
  have reached : g.Assembled := Assembled.empty.foldl_mutate edits
  have reached' : called.Assembled := reached.mutate _
  obtain ⟨next, socket, unplugs⟩ := reached.moves_in_order
  obtain ⟨first, connectsFirst⟩ : ∃ g', g.connectNext ⟨1⟩ ⟨3⟩ = .ok g' :=
    toBool_iff.mp (by decide +kernel)
  obtain ⟨second, connectsSecond⟩ : ∃ g', g.connectSocket ⟨0⟩ Socket.stack ⟨3⟩ = .ok g' :=
    toBool_iff.mp (by decide +kernel)
  obtain ⟨third, connectsThird⟩ : ∃ g', called.connectSocket ⟨1⟩ (Socket.arg 0) ⟨3⟩ = .ok g' :=
    toBool_iff.mp (by decide +kernel)
  refine ⟨⟨first, connectsFirst, ?_⟩, ⟨second, connectsSecond, ?_⟩, ⟨third, connectsThird, ?_⟩, ?_⟩
  · exact (next _ _ _ connectsFirst).1.trans (by decide +kernel)
  · exact ((socket _ _ _ _ connectsSecond).1 (by decide +kernel)).trans (by decide +kernel)
  · obtain ⟨whole, alone⟩ := (reached'.moves_in_order.2.1 _ _ _ _ connectsThird).2.1 (by decide +kernel)
    exact ⟨whole.trans (by decide +kernel), (alone ⟨2⟩ (by decide +kernel) (by decide)).2.trans (by decide +kernel)⟩
  · obtain ⟨g', unplugged, -, heals, -⟩ := unplugs ⟨2⟩ true (by decide +kernel)
    exact ⟨g', unplugged, ((heals rfl).2 ⟨3⟩ (by decide +kernel)).trans (by decide +kernel)⟩

/-- A value that makes room does not keep all its followers: the one that takes its place goes. -/
theorem occupant_loses_follower :
    ¬ ∀ (g g' : Graph) (parent child occupant : BlockId) (socket : String), g.Reachable →
      g.socketKind? parent socket = some .value → g.connectSocket parent socket child = .ok g' →
      g.plugged? parent socket = some occupant → occupant ≠ child → g'.stack occupant = g.stack occupant := by
  intro keeps
  let edits : List Mutation :=
    [.add .methodCall (.call { args := [{ name := "x" }] }), .add .methodCall (.call {}), .add .methodCall (.call {}),
      .connectSocket ⟨0⟩ (Socket.arg 0) ⟨1⟩, .connectNext ⟨1⟩ ⟨2⟩]
  have reached : (edits.foldl Graph.mutate Graph.empty).Reachable := Reachable.empty.foldl_mutate edits
  have value : (edits.foldl Graph.mutate Graph.empty).socketKind? ⟨0⟩ (Socket.arg 0) = some .value := by
    decide +kernel
  have held : (edits.foldl Graph.mutate Graph.empty).plugged? ⟨0⟩ (Socket.arg 0) = some ⟨1⟩ := by decide +kernel
  obtain ⟨g', connects⟩ : ∃ g', (edits.foldl Graph.mutate Graph.empty).connectSocket ⟨0⟩ (Socket.arg 0) ⟨2⟩ = .ok g' :=
    toBool_iff.mp (by decide +kernel)
  have same := keeps _ _ _ _ _ _ reached value connects held (by decide)
  obtain ⟨-, shortened⟩ := ((reached.sound.tree.connectSocket_order connects).2.1 value).2 ⟨1⟩ held (by decide)
  exact absurd (same.symm.trans shortened) (by decide +kernel)

end RobotBlocks.Graph
