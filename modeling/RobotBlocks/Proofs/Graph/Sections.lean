import RobotBlocks.Proofs.Graph.Loop
import RobotBlocks.Proofs.Graph.Splice

/-! The socket from which a block hangs, itself or with the stack that it stands in. A block that is
connected elsewhere takes the statements below it along; a block that is taken out of a stack that closes
up goes alone. -/
namespace RobotBlocks.Graph

variable {g g' : Graph} {id other parent : BlockId}
  {place : BlockId × Link}

/-- The socket from which a stack hangs that starts at a link. -/
def socketAbove (g : Graph) : BlockId × Link → Option (BlockId × String)
  | (parent, .next) => g.enclosingSocket parent
  | (parent, .socket name) => some (parent, name)

theorem Tree.enclosingSocket_eq (tree : g.Tree) (id : BlockId) :
    g.enclosingSocket id = (g.parentLink? id).bind g.socketAbove := by
  obtain ⟨head, ends, same⟩ := tree.enclosingSocket_ends id
  rw [same]
  cases ends with
  | stop done =>
    cases linked : g.parentLink? id with
    | none => simp [holder?, linked]
    | some link =>
      obtain ⟨parent, hook⟩ := link
      cases hook with
      | next => simp [previous?, linked] at done
      | socket name => simp [holder?, linked, socketAbove]
  | again more rest =>
    obtain ⟨head', ends', same'⟩ := tree.enclosingSocket_ends _
    cases rest.unique ends'
    unfold previous? at more
    split at more
    · next above linked =>
      cases more
      rw [linked, Option.bind_some, socketAbove, same']
    · cases more

theorem Tree.enclosingSocket_top (tree : g.Tree) (top : g.parentLink? id = none) :
    g.enclosingSocket id = none := by
  rw [tree.enclosingSocket_eq, top, Option.bind_none]

theorem Tree.enclosingSocket_of_link (tree : g.Tree) (linked : g.parentLink? id = some place) :
    g.enclosingSocket id = g.socketAbove place := by
  rw [tree.enclosingSocket_eq, linked, Option.bind_some]

/-- The links alone determine the socket. -/
theorem Tree.enclosingSocket_congr (tree : g.Tree) (tree' : g'.Tree)
    (links : ∀ other, g'.parentLink? other = g.parentLink? other) (id : BlockId) :
    g'.enclosingSocket id = g.enclosingSocket id := by
  induction id using tree.grounded.induction with
  | h id ih =>
    rw [tree'.enclosingSocket_eq, tree.enclosingSocket_eq, links]
    cases linked : g.parentLink? id with
    | none => rfl
    | some link =>
      obtain ⟨parent, hook⟩ := link
      cases hook with
      | next => exact ih parent (up_of_parentLink linked)
      | socket name => rfl

theorem contains_of_enclosingSocket {name : String} (tree : g.Tree)
    (hangs : g.enclosingSocket id = some (parent, name)) : g.contains parent = true := by
  induction id using tree.grounded.induction with
  | h id ih =>
    rw [tree.enclosingSocket_eq] at hangs
    obtain ⟨⟨above, hook⟩, linked, hangs⟩ := Option.bind_eq_some_iff.mp hangs
    have up := up_of_parentLink linked
    cases hook with
    | next => exact ih above up hangs
    | socket other =>
      cases hangs
      exact tree.contains_parent up

/-! Moving a stack. -/

/-- A block hangs from another place, and so does what followed there: it comes after the stack of the
block, or stands alone if the place is a socket. Other links are as they were. -/
structure Rehung (g g' : Graph) (id : BlockId) (place : BlockId × Link) : Prop where
  own : g'.parentLink? id = some place
  other : ∀ {other}, other ≠ id → g'.parentLink? other = g.parentLink? other ∨
    g.parentLink? other = some place ∧ ((∃ last ∈ g.stack id, g'.parentLink? other = some (last, .next)) ∨
      place.2 ≠ .next ∧ g'.parentLink? other = none)
  outside : place.1 ∉ g.stack id

namespace Rehung

variable (rehung : Rehung g g' id place) (tree : g.Tree) (tree' : g'.Tree)
  (present : g.contains id = true)
include rehung tree tree' present

/-- The stack of the block hangs from the new place, any other block from where it hung or from
nowhere. -/
theorem enclosingSocket (other : BlockId) :
    (other ∈ g.stack id → g'.enclosingSocket other = g.socketAbove place) ∧
      (other ∉ g.stack id → g'.enclosingSocket other = g.enclosingSocket other ∨
        place.2 ≠ .next ∧ g'.enclosingSocket other = none) := by
  have above : (∀ parent, place = (parent, .next) → g'.enclosingSocket parent = g.enclosingSocket parent) →
      g'.socketAbove place = g.socketAbove place := by
    intro same
    obtain ⟨parent, hook⟩ := place
    cases hook with
    | next => exact same parent rfl
    | socket name => rfl
  induction other using tree'.grounded.induction with
  | h other ih =>
    have reached : ∀ {parent}, g'.parentLink? other = some (parent, .next) →
        g'.enclosingSocket other = g'.enclosingSocket parent := fun linked =>
      tree'.enclosingSocket_of_link linked
    by_cases here : other = id
    · subst here
      refine ⟨fun _ => ?_, fun outside => absurd (tree.head_mem_stack present) outside⟩
      rw [tree'.enclosingSocket_of_link rehung.own]
      refine above fun parent same => ?_
      subst same
      exact ((ih parent (up_of_parentLink rehung.own)).2 rehung.outside).resolve_right
        fun apart => apart.1 rfl
    · rcases rehung.other here with same | ⟨taken, free⟩
      · cases linked : g.parentLink? other with
        | none =>
          have top : g'.enclosingSocket other = none := tree'.enclosingSocket_top (same.trans linked)
          rw [top, tree.enclosingSocket_top linked, tree.mem_stack present]
          simp [here, linked]
        | some link =>
          obtain ⟨parent, hook⟩ := link
          have linked' := same.trans linked
          cases hook with
          | next =>
            have onward : other ∈ g.stack id ↔ parent ∈ g.stack id := by
              rw [tree.mem_stack present]
              simp [here, linked]
            rw [onward, reached linked', tree.enclosingSocket_of_link linked]
            exact ih parent (up_of_parentLink linked')
          | socket name =>
            rw [tree'.enclosingSocket_of_link linked', tree.enclosingSocket_of_link linked,
              tree.mem_stack present]
            simp [here, linked, socketAbove]
      · have apart : other ∉ g.stack id := by
          rw [tree.mem_stack present, taken]
          rintro (same | ⟨above, member, same⟩)
          · exact here same
          · exact rehung.outside (Option.some.inj same ▸ member)
        refine ⟨fun member => absurd member apart, fun _ => ?_⟩
        rcases free with ⟨last, member, follows⟩ | ⟨socket, loose⟩
        · refine .inl ?_
          rw [reached follows, (ih last (up_of_parentLink follows)).1 member,
            tree.enclosingSocket_of_link taken]
        · exact .inr ⟨socket, tree'.enclosingSocket_top loose⟩

end Rehung

/-- What a block with its stack took a place from follows after it or stands alone. -/
theorem Takes.rehung {left : Option (BlockId × Link)} (takes : Takes g g' id place left) (tree : g.Tree)
    (present : g.contains id = true)
    (free : left = some (g.lastInStack id, .next) ∨ place.2 ≠ .next ∧ left = none) : Rehung g g' id place := by
  refine ⟨(takes.links id).trans (if_pos rfl), fun {other} differs => ?_, takes.outside⟩
  rw [takes.links, if_neg differs]
  by_cases taken : g.parentLink? other = some place
  · rw [if_pos taken]
    rcases free with rfl | ⟨socket, rfl⟩
    · exact .inr ⟨taken, .inl ⟨_, tree.lastInStack_mem present, rfl⟩⟩
    · exact .inr ⟨taken, .inr ⟨socket, rfl⟩⟩
  · exact .inl (if_neg taken)

/-- A block that is connected below another one moves with its stack. -/
theorem Tree.rehung_next (tree : g.Tree) (h : g.connectNext parent id = .ok g') :
    Rehung g g' id (parent, .next) := by
  obtain ⟨kind, above, checked, -⟩ := connectNext_cases h
  obtain ⟨-, present⟩ := contains_of_checkLink checked
  exact (tree.takes_next h).rehung tree present (.inl rfl)

/-- A block that is plugged into a socket moves with its stack. -/
theorem Tree.rehung_socket {socket : String} (tree : g.Tree)
    (h : g.connectSocket parent socket id = .ok g') : Rehung g g' id (parent, .socket socket) := by
  obtain ⟨kind, owner, socketKind, vacated, checked, -⟩ := connectSocket_cases h
  obtain ⟨-, present⟩ := contains_of_checkLink checked
  obtain ⟨shape, -, takes⟩ := tree.takes_socket h
  refine takes.rehung tree present ?_
  cases shape with
  | value => exact .inr ⟨nofun, rfl⟩
  | statement => exact .inl rfl

/-! Taking out. -/

/-- The statement below a block that is taken out gets its link. -/
theorem Tree.parentLink?_heal (tree : g.Tree) (linked : g.parentLink? id = some place) (other : BlockId) :
    (g.detach id true).parentLink? other = if other = id then none
      else if g.parentLink? other = some (id, .next) then some place else g.parentLink? other := by
  have loose := tree.loosen id
  rw [Graph.detach, linked]
  cases below : (g.setParent id none).next? id with
  | none =>
    simp only [if_true, below, parentLink?_loosen]
    split
    · rfl
    · next differs =>
      have free := loose.child?_eq_none.mp below other
      rw [parentLink?_loosen, if_neg differs] at free
      rw [if_neg free]
  | some follower =>
    have follows := loose.child?_eq_some.mp below
    have present := contains_of_parentLink follows
    rw [parentLink?_loosen] at follows
    split at follows
    · cases follows
    · next differs =>
      simp only [if_true, below, parentLink?_link present, parentLink?_loosen]
      by_cases here : other = follower
      · rw [if_pos here, here, if_neg differs, if_pos follows]
      · rw [if_neg here, if_neg (c := _ = some (id, Link.next)) fun same => here (tree.unshared same follows)]

/-- Only the block that is taken out leaves its socket. -/
theorem Tree.enclosingSocket_heal (tree : g.Tree) (id other : BlockId) :
    (g.detach id true).enclosingSocket other = if other = id then none else g.enclosingSocket other := by
  cases linked : g.parentLink? id with
  | none =>
    have same : g.detach id true = g := by rw [Graph.detach, linked]
    rw [same]
    split
    · next here => rw [here, tree.enclosingSocket_top linked]
    · rfl
  | some place =>
    have healed := tree.detach id true
    have links := tree.parentLink?_heal linked
    induction other using healed.grounded.induction with
    | h other ih =>
      have reached : ∀ {link}, (g.detach id true).parentLink? other = some link → link ≠ (id, .next) →
          (g.detach id true).enclosingSocket other = g.socketAbove link := by
        rintro ⟨parent, hook⟩ linked' apart
        rw [healed.enclosingSocket_of_link linked']
        cases hook with
        | next =>
          have differs : parent ≠ id := by
            rintro rfl
            exact apart rfl
          exact (ih parent (up_of_parentLink linked')).trans (if_neg differs)
        | socket name => rfl
      by_cases here : other = id
      · rw [if_pos here, healed.enclosingSocket_top ((links other).trans (if_pos here))]
      · rw [if_neg here]
        have link := (links other).trans (if_neg here)
        by_cases follows : g.parentLink? other = some (id, .next)
        · rw [if_pos follows] at link
          have apart : place ≠ (id, .next) := by
            rintro rfl
            exact tree.not_climbs_child (up_of_parentLink linked) .refl
          rw [reached link apart, tree.enclosingSocket_of_link follows, socketAbove,
            tree.enclosingSocket_of_link linked]
        · rw [if_neg follows] at link
          cases own : g.parentLink? other with
          | none => rw [healed.enclosingSocket_top (link.trans own), tree.enclosingSocket_top own]
          | some link' =>
            have apart : link' ≠ (id, .next) := by
              rintro rfl
              exact follows own
            rw [reached (link.trans own) apart, tree.enclosingSocket_of_link own]

end RobotBlocks.Graph
