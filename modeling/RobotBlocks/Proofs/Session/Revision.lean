import RobotBlocks.Proofs.Graph.RoundTrip
import RobotBlocks.Proofs.Session.Rearrangement

/-! References that are revised one after the other. A revision reads nothing but the block of the reference
and its sockets, so a reference that waits for its turn still has what it had at the start, and one that an
earlier turn deleted loses nothing more. What the turns lead to is told of the graph at the start and of the
set of references that had their turn; the order of the turns does not matter. -/
namespace RobotBlocks.Graph

variable {g h h' : Graph} {id r parent value : BlockId} {block : Block} {done : List BlockId}

/-- What the turn of a reference makes of its block, the arguments that it gives away, the sockets that these
get and those that get none. -/
structure Revision where
  renew : Block → Block
  given : Graph → BlockId → List (String × Option BlockId)
  seating : Graph → BlockId → List (Nat × BlockId) × List (String × Option BlockId)
  /-- What is given away hung from an argument socket of the reference. -/
  hung : ∀ {g r value}, g.Tree → value ∈ argumentBlocks (given g r) →
    ∃ i, g.parentLink? value = some (r, .socket (Socket.arg i))
  mem_given : ∀ {g r value}, value ∈ argumentBlocks (seating g r).2 → value ∈ argumentBlocks (given g r)
  /-- Each argument gets a socket or is left over. -/
  mem_unused : ∀ {g r value}, g.Tree → value ∈ argumentBlocks (given g r) →
    seatOf? (seating g r).1 value = none → value ∈ argumentBlocks (seating g r).2
  /-- A turn depends on the block of the reference and on what its sockets hold. -/
  reads : ∀ {g h r}, h.block? r = g.block? r → (∀ hook, h.child? r hook = g.child? r hook) →
    given h r = given g r ∧ seating h r = seating g r

namespace Revision

section Told

variable (rev : Revision)

/-- What becomes of the link of a block at the turn of its parent. -/
def relinked (g : Graph) (id : BlockId) (link : BlockId × Link) : Option (BlockId × Link) :=
  if id ∈ argumentBlocks (rev.given g link.1) then
    (seatOf? (rev.seating g link.1).1 id).map fun i => (link.1, .socket (Socket.arg i))
  else some link

/-- The block hangs from an argument that got no socket. -/
def Dropped (g : Graph) (done : List BlockId) (id : BlockId) : Prop :=
  ∃ r ∈ done, ∃ value ∈ argumentBlocks (rev.seating g r).2, g.Climbs id value

/-- The graph after the turns of some references. -/
structure Revised (done : List BlockId) (g h : Graph) : Prop where
  sound : h.Sound
  gone : ∀ {id}, rev.Dropped g done id → h.block? id = none
  block : ∀ {id}, ¬ rev.Dropped g done id →
    h.block? id = if id ∈ done then (g.block? id).map rev.renew else g.block? id
  link : ∀ {id}, ¬ rev.Dropped g done id →
    h.parentLink? id = (g.parentLink? id).bind fun link =>
      if link.1 ∈ done then rev.relinked g id link else some link

/-- A turn for each reference of a sort; one that is gone has none. -/
structure Turns (fits : Block → Prop) (step : Graph → BlockId → Graph) : Prop where
  revised : ∀ {g r block}, g.Sound → g.block? r = some block → fits block → rev.Revised [r] g (step g r)
  gone : ∀ {g r}, g.block? r = none → step g r = g

end Told

variable {rev : Revision}

/-! Who goes. -/

theorem Dropped.below {child : BlockId} (dropped : rev.Dropped g done id) (climbs : g.Climbs child id) :
    rev.Dropped g done child := by
  obtain ⟨r, member, value, unused, onward⟩ := dropped
  exact ⟨r, member, value, unused, climbs.trans onward⟩

theorem dropped_cons : rev.Dropped g (r :: done) id ↔ rev.Dropped g done id ∨ rev.Dropped g [r] id := by
  simp only [Dropped, List.mem_cons, List.not_mem_nil, or_false, exists_eq_left, or_and_right, exists_or]
  exact or_comm

/-- What is dropped is dropped by a reference that is left. -/
theorem Dropped.outermost (dropped : rev.Dropped g done id) (tree : g.Tree) :
    ∃ r ∈ done, ¬ rev.Dropped g done r ∧ ∃ value ∈ argumentBlocks (rev.seating g r).2, g.Climbs id value := by
  obtain ⟨r, member, value, unused, climbs⟩ := dropped
  induction r using tree.grounded.transGen.induction generalizing value with
  | h r ih =>
    by_cases left : rev.Dropped g done r
    · obtain ⟨outer, listed, own, spare, above⟩ := left
      obtain ⟨i, hung⟩ := rev.hung tree (rev.mem_given unused)
      obtain ⟨j, up⟩ := rev.hung tree (rev.mem_given spare)
      have higher : Relation.TransGen (fun parent child => g.Up child parent) outer r :=
        Relation.transGen_swap.mp (Relation.TransGen.tail' above (up_of_parentLink up))
      exact ih outer higher listed own spare ((climbs.tail (up_of_parentLink hung)).trans above)
    · exact ⟨r, member, left, value, unused, climbs⟩

/-- A turn leaves a block below its parent. -/
theorem parent_relinked {link place : BlockId × Link} (placed : rev.relinked g id link = some place) :
    place.1 = link.1 := by
  unfold relinked at placed
  split at placed
  · obtain ⟨i, -, rfl⟩ := Option.map_eq_some_iff.mp placed
    rfl
  · cases placed
    rfl

/-- A child of a reference that waits for its turn is dropped with the reference alone. -/
theorem kept_child (tree : g.Tree) (todo : r ∉ done) (kept : ¬ rev.Dropped g done r) {child : BlockId} {hook : Link}
    (linked : g.parentLink? child = some (r, hook)) : ¬ rev.Dropped g done child := by
  rintro ⟨other, member, value, unused, climbs⟩
  rcases Relation.ReflTransGen.cases_head climbs with same | ⟨above, step, onward⟩
  · subst same
    obtain ⟨i, hung⟩ := rev.hung tree (rev.mem_given unused)
    cases linked.symm.trans hung
    exact todo member
  · cases Up.unique step (up_of_parentLink linked)
    exact kept ⟨other, member, value, unused, onward⟩

/-- An argument that is not dropped got a socket. -/
theorem seated_of_kept (tree : g.Tree) (kept : ¬ rev.Dropped g done id) (member : r ∈ done)
    (argument : id ∈ argumentBlocks (rev.given g r)) : ∃ i, seatOf? (rev.seating g r).1 id = some i := by
  rw [← Option.isSome_iff_exists, Option.isSome_iff_ne_none]
  exact fun unseated => kept ⟨r, member, id, rev.mem_unused tree argument unseated, .refl⟩

namespace Revised

theorem refl (sound : g.Sound) : rev.Revised [] g g where
  sound := sound
  gone := by rintro id ⟨r, member, -⟩; cases member
  block _ := rfl
  link {id} _ := by cases g.parentLink? id <;> rfl

theorem congr {others : List BlockId} (same : ∀ r, r ∈ done ↔ r ∈ others) (revised : rev.Revised done g h) :
    rev.Revised others g h := by
  have dropped : ∀ {id}, rev.Dropped g others id ↔ rev.Dropped g done id := by
    intro id
    simp only [Dropped, same]
  refine ⟨revised.sound, fun held => revised.gone (dropped.mp held), fun apart => ?_, fun apart => ?_⟩
  · rw [revised.block fun held => apart (dropped.mpr held)]
    simp only [same]
  · rw [revised.link fun held => apart (dropped.mpr held)]
    simp only [same]

/-- The arguments of a reference were rearranged and its block was renewed. -/
theorem of_rearranged {renewed : Block} {changes : List ParamChange} {params : List Parameter} (tree : g.Tree)
    (found : g.block? r = some block) (given : rev.given g r = g.held r 0 params)
    (seating : rev.seating g r = seat 0 changes (g.held r 0 params)) (renews : rev.renew block = renewed)
    (sound : h.Sound) (rearranged : Rearranged g r renewed changes (g.held r 0 params) h) :
    rev.Revised [r] g h := by
  have stays : ∀ {id}, ¬ rev.Dropped g [r] id →
      ∀ value ∈ argumentBlocks (seat 0 changes (g.held r 0 params)).2, ¬ g.Climbs id value :=
    fun apart value member climbs =>
      apart ⟨r, List.mem_singleton_self r, value, by rw [seating]; exact member, climbs⟩
  refine ⟨sound, ?_, fun {id} apart => ?_, fun {id} apart => ?_⟩
  · rintro id ⟨other, member, value, unused, climbs⟩
    cases List.mem_singleton.mp member
    rw [seating] at unused
    exact rearranged.gone unused climbs
  · rw [rearranged.block (stays apart)]
    by_cases here : id = r <;> simp [here, found, renews]
  · rw [rearranged.link (stays apart)]
    by_cases argument : id ∈ argumentBlocks (g.held r 0 params)
    · obtain ⟨i, -, -, hung⟩ := tree.mem_held.mp argument
      simp [hung, relinked, given, seating, argument]
    · rw [if_neg argument]
      cases linked : g.parentLink? id with
      | none => rfl
      | some link =>
        by_cases here : link.1 = r <;> simp [here, relinked, given, argument]

variable (revised : rev.Revised done g h)
include revised

theorem kept_of_contains (present : h.contains id = true) : ¬ rev.Dropped g done id := by
  intro dropped
  obtain ⟨block, found⟩ := contains_iff_block.mp present
  cases (revised.gone dropped).symm.trans found

/-- What is left was there before, and the references that had their turns are renewed. -/
theorem before {after : Block} (there : h.block? id = some after) :
    ∃ before, g.block? id = some before ∧ after = if id ∈ done then rev.renew before else before := by
  rw [revised.block (revised.kept_of_contains (contains_iff_block.mpr ⟨after, there⟩))] at there
  split at there
  · next turned =>
    obtain ⟨before, found, rfl⟩ := Option.map_eq_some_iff.mp there
    exact ⟨before, found, (if_pos turned).symm⟩
  · next waits => exact ⟨after, there, (if_neg waits).symm⟩

/-- What is gone was dropped. -/
theorem block?_eq_none_iff (found : g.block? id = some block) : h.block? id = none ↔ rev.Dropped g done id := by
  refine ⟨fun missing => ?_, revised.gone⟩
  by_contra apart
  rw [revised.block apart, found] at missing
  split at missing <;> cases missing

theorem contains_eq_false_iff (present : g.contains id = true) :
    h.contains id = false ↔ rev.Dropped g done id := by
  obtain ⟨block, found⟩ := contains_iff_block.mp present
  rw [← revised.block?_eq_none_iff found]
  simp [contains, block?]

/-- What the turns of some references make of a graph is determined by the references. -/
theorem nodes_eq (other : rev.Revised done g h') : h.nodes = h'.nodes := by
  refine other.sound.tree.nodes_eq revised.sound.tree (fun id => ?_) fun id => ?_
  · by_cases dropped : rev.Dropped g done id
    · rw [revised.gone dropped, other.gone dropped]
    · rw [revised.block dropped, other.block dropped]
  · by_cases dropped : rev.Dropped g done id
    · have missing : ∀ {g : Graph}, g.block? id = none → g.parentLink? id = none := by
        intro g none
        apply parentLink?_of_missing
        rw [← Bool.not_eq_true, contains_iff_block, none]
        simp
      rw [missing (revised.gone dropped), missing (other.gone dropped)]
    · rw [revised.link dropped, other.link dropped]

variable (tree : g.Tree)
include tree

/-- Blocks that are left have the parents that they had. -/
theorem parent? (kept : ¬ rev.Dropped g done id) : h.parent? id = g.parent? id := by
  rw [Graph.parent?, Graph.parent?, revised.link kept]
  cases linked : g.parentLink? id with
  | none => rfl
  | some link =>
    rw [Option.bind_some]
    split
    · next member =>
      unfold relinked
      split
      · next argument =>
        obtain ⟨i, seated⟩ := seated_of_kept tree kept member argument
        rw [seated]
        rfl
      · rfl
    · rfl

theorem climbs_iff (kept : ¬ rev.Dropped g done id) : h.Climbs id parent ↔ g.Climbs id parent :=
  climbs_congr fun _ climbs => revised.parent? tree fun held => kept (held.below climbs)

/-- A reference that is gone loses nothing more. -/
theorem skip (present : g.contains r = true) (absent : h.contains r = false) : rev.Revised (r :: done) g h := by
  have dropped := (revised.contains_eq_false_iff present).mp absent
  have inside : ∀ {id}, rev.Dropped g (r :: done) id ↔ rev.Dropped g done id := by
    intro id
    rw [dropped_cons]
    refine ⟨fun held => held.elim (fun before => before) ?_, .inl⟩
    rintro ⟨other, member, value, unused, climbs⟩
    cases List.mem_singleton.mp member
    obtain ⟨i, hung⟩ := rev.hung tree (rev.mem_given unused)
    exact dropped.below (climbs.tail (up_of_parentLink hung))
  refine ⟨revised.sound, fun held => revised.gone (inside.mp held), fun {id} apart => ?_,
    fun {id} apart => ?_⟩
  · have left := fun held => apart (inside.mpr held)
    have other : id ≠ r := fun same => left (same ▸ dropped)
    rw [revised.block left]
    simp [other]
  · have left := fun held => apart (inside.mpr held)
    rw [revised.link left]
    cases linked : g.parentLink? id with
    | none => rfl
    | some link =>
      obtain ⟨parent, hook⟩ := link
      have other : parent ≠ r := fun same =>
        left ((same ▸ dropped).below (.single (up_of_parentLink linked)))
      simp [other]

variable (todo : r ∉ done)
include todo

/-- A reference that waits for its turn has what it had at the start. -/
theorem child? (kept : ¬ rev.Dropped g done r) (hook : Link) : h.child? r hook = g.child? r hook := by
  ext child
  rw [revised.sound.tree.child?_eq_some, tree.child?_eq_some]
  constructor
  · intro linked
    have left := revised.kept_of_contains (contains_of_parentLink linked)
    have up : g.parent? child = some r := revised.parent? tree left ▸ up_of_parentLink linked
    obtain ⟨hook', hung⟩ := parent?_eq_some.mp up
    rw [revised.link left, hung, Option.bind_some, if_neg todo] at linked
    rw [hung, linked]
  · intro linked
    rw [revised.link (kept_child tree todo kept linked), linked, Option.bind_some, if_neg todo]

/-- The turn of one more reference. -/
theorem cons (kept : ¬ rev.Dropped g done r) (after : rev.Revised [r] h h') : rev.Revised (r :: done) g h' := by
  have own_block : h.block? r = g.block? r := by rw [revised.block kept, if_neg todo]
  obtain ⟨given, seating⟩ := rev.reads own_block (revised.child? tree todo kept)
  have dropped : ∀ {id}, ¬ rev.Dropped g done id → (rev.Dropped h [r] id ↔ rev.Dropped g [r] id) := by
    intro id left
    simp only [Dropped, List.mem_singleton, exists_eq_left, seating, revised.climbs_iff tree left]
  have split : ∀ {id}, ¬ rev.Dropped g (r :: done) id →
      ¬ rev.Dropped g done id ∧ ¬ rev.Dropped h [r] id := by
    intro id apart
    rw [dropped_cons, not_or] at apart
    exact ⟨apart.1, fun held => apart.2 ((dropped apart.1).mp held)⟩
  refine ⟨after.sound, fun {id} held => ?_, fun {id} apart => ?_, fun {id} apart => ?_⟩
  · by_cases before : rev.Dropped g done id
    · have absent := revised.gone before
      by_cases again : rev.Dropped h [r] id
      · exact after.gone again
      · rw [after.block again, absent]
        split <;> rfl
    · exact after.gone ((dropped before).mpr ((dropped_cons.mp held).resolve_left before))
  · obtain ⟨left, stays⟩ := split apart
    rw [after.block stays, revised.block left]
    by_cases here : id = r
    · simp [here, todo]
    · simp [here]
  · obtain ⟨left, stays⟩ := split apart
    rw [after.link stays, revised.link left]
    cases linked : g.parentLink? id with
    | none => rfl
    | some link =>
      by_cases member : link.1 ∈ done
      · have other : link.1 ≠ r := fun same => todo (same ▸ member)
        cases placed : rev.relinked g id link with
        | none => simp [member, placed]
        | some place =>
          have parent : place.1 ≠ r := parent_relinked placed ▸ other
          simp [member, placed, parent]
      · obtain ⟨owner, hook⟩ := link
        by_cases here : owner = r
        · subst here
          simp [member, relinked, given, seating]
        · simp [here, member]

end Revised

/-! Turn after turn. -/

section Run

variable {fits : Block → Prop} {step : Graph → BlockId → Graph} (turns : rev.Turns fits step) (sound : g.Sound)
include turns sound

/-- The turn of a reference, be it there or gone. -/
theorem Revised.turn (revised : rev.Revised done g h) (found : g.block? r = some block) (fit : fits block)
    (todo : r ∉ done) : rev.Revised (r :: done) g (step h r) := by
  have present := contains_iff_block.mpr ⟨block, found⟩
  cases there : h.block? r with
  | none =>
    rw [turns.gone there]
    exact revised.skip sound.tree present (by simp [contains, Option.map_eq_none_iff.mp there])
  | some after =>
    have kept := revised.kept_of_contains (contains_iff_block.mpr ⟨after, there⟩)
    have same : h.block? r = some block := by rw [revised.block kept, if_neg todo, found]
    exact revised.cons sound.tree todo kept (turns.revised revised.sound same fit)

/-- The turns of some references in any order. -/
theorem Revised.foldl_turn {todo : List BlockId} (revised : rev.Revised done g h)
    (reference : ∀ r ∈ todo, ∃ block, g.block? r = some block ∧ fits block) (distinct : (todo ++ done).Nodup) :
    rev.Revised (todo ++ done) g (todo.foldl step h) := by
  induction todo generalizing done h with
  | nil => exact revised
  | cons r todo ih =>
    obtain ⟨outside, distinct⟩ := List.nodup_cons.mp distinct
    obtain ⟨block, found, fit⟩ := reference r (List.mem_cons_self ..)
    have first := revised.turn turns sound found fit fun member => outside (List.mem_append_right _ member)
    have rest := ih first (fun other member => reference other (List.mem_cons_of_mem _ member))
      (List.nodup_middle.mpr (List.nodup_cons.mpr ⟨outside, distinct⟩))
    exact rest.congr fun other => List.perm_middle.mem_iff

theorem Turns.run {todo : List BlockId} (reference : ∀ r ∈ todo, ∃ block, g.block? r = some block ∧ fits block)
    (distinct : todo.Nodup) : rev.Revised todo g (todo.foldl step g) := by
  have run := (Revised.refl sound).foldl_turn turns sound reference (by rwa [List.append_nil])
  rwa [List.append_nil] at run

end Run

end Revision
end RobotBlocks.Graph
