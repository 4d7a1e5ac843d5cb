import RobotBlocks.Proofs.Graph.Walk

/-! The unbounded loops behind the bounded walks. A loop repeats its step until there is none left;
on a forest each of them ends, and with the answer of the bounded walk. -/
namespace RobotBlocks

/-- Repeating a step from the first state ends in the second one. -/
inductive Ends {State : Type} (step : State → Option State) : State → State → Prop where
  | stop {s : State} (done : step s = none) : Ends step s s
  | again {s next last : State} (more : step s = some next) (rest : Ends step next last) :
      Ends step s last

/-- A loop ends in one way at most. -/
theorem Ends.unique {State : Type} {step : State → Option State} {s a b : State}
    (ha : Ends step s a) (hb : Ends step s b) : a = b := by
  induction ha with
  | stop done =>
    cases hb with
    | stop _ => rfl
    | again more _ => rw [done] at more; cases more
  | again more _ ih =>
    cases hb with
    | stop done => rw [done] at more; cases more
    | again other rest =>
      cases more.symm.trans other
      exact ih rest

namespace Graph

variable {g : Graph} {id : BlockId}

/-- Climbing from parent to parent ends at a top block. -/
theorem Tree.climb_ends (tree : g.Tree) (present : g.contains id = true) :
    ∃ top, g.contains top = true ∧ Ends g.parent? id top := by
  induction id using tree.grounded.induction with
  | h id ih =>
    cases up : g.parent? id with
    | none => exact ⟨id, present, .stop up⟩
    | some parent =>
      obtain ⟨top, there, ends⟩ := ih parent up (tree.contains_parent up)
      exact ⟨top, there, .again up ends⟩

/-! Down a stack. -/

theorem Tree.lastInStack_ends (tree : g.Tree) (id : BlockId) :
    Ends g.next? id (g.lastInStack id) := by
  cases present : g.contains id with
  | false =>
    have last : g.lastInStack id = id := by simp [lastInStack, stack_of_missing present]
    rw [last]
    exact .stop (tree.child?_of_missing present)
  | true =>
    induction id using tree.descends.induction with
    | h id ih =>
      rw [tree.lastInStack_eq present]
      cases below : g.next? id with
      | none => exact .stop below
      | some follower =>
        have step := tree.up_of_child? below
        exact .again below (ih follower step (contains_child step))

/-- The loop of a stack: the blocks found so far, and the one to look at. -/
def stackStep (g : Graph) : List BlockId × Option BlockId → Option (List BlockId × Option BlockId)
  | (_, none) => none
  | (found, some id) => some (found ++ [id], g.next? id)

theorem Tree.stack_ends (tree : g.Tree) (first : BlockId) :
    Ends g.stackStep ([], if g.contains first then some first else none) (g.stack first, none) := by
  have onward : ∀ found, g.contains first = true →
      Ends g.stackStep (found, some first) (found ++ g.stack first, none) := by
    induction first using tree.descends.induction with
    | h id ih =>
      intro found present
      refine .again rfl ?_
      rw [tree.stack_eq present]
      cases below : g.next? id with
      | none => exact .stop rfl
      | some follower =>
        have step := tree.up_of_child? below
        have rest := ih follower step (found ++ [id]) (contains_child step)
        simpa using rest
  cases present : g.contains first with
  | true => simpa using onward [] present
  | false =>
    rw [stack_of_missing present]
    exact .stop rfl

/-! Through a tree. -/

/-- The loop of a walk: the blocks found so far, and those still to walk. The sockets of a block
come before the statement below it. -/
def walkStep (g : Graph) : List BlockId × List BlockId → Option (List BlockId × List BlockId)
  | (_, []) => none
  | (found, id :: todo) => some (found ++ [id], g.children id ++ todo)

theorem Tree.walk_ends (tree : g.Tree) (root : BlockId) :
    Ends g.walkStep ([], if g.contains root then [root] else []) (g.walk root, []) := by
  have onward : g.contains root = true → ∀ (found) {todo last},
      Ends g.walkStep (found ++ g.walk root, todo) last →
      Ends g.walkStep (found, root :: todo) last := by
    induction root using tree.descends.induction with
    | h id ih =>
      intro present found todo last rest
      refine .again rfl ?_
      rw [tree.walk_eq present] at rest
      have all : ∀ {ids : List BlockId} (found), (∀ child ∈ ids, g.Up child id) →
          Ends g.walkStep (found ++ ids.flatMap g.walk, todo) last →
          Ends g.walkStep (found, ids ++ todo) last := by
        intro ids
        induction ids with
        | nil => intro found _ rest; simpa using rest
        | cons child ids below =>
          intro found ups rest
          have up := ups child (List.mem_cons_self ..)
          refine ih child up (contains_child up) found (below (found ++ g.walk child) ?_ ?_)
          · exact fun other member => ups other (List.mem_cons_of_mem _ member)
          · simpa using rest
      exact all (found ++ [id]) (fun child member => tree.up_of_mem_children member) (by simpa using rest)
  cases present : g.contains root with
  | true => simpa using onward present [] (.stop rfl)
  | false =>
    have none : g.walk root = [] := by simp [walk, present]
    rw [none]
    exact .stop rfl

/-! Up a tree. -/

/-- The loop that looks for an ancestor: the ancestor to test, while the test fails. -/
def ancestorStep (g : Graph) (test : Block → Bool) : Option BlockId → Option (Option BlockId)
  | none => none
  | some id => if (g.block? id).any test then none else some (g.parent? id)

theorem Tree.nearestAncestor_ends (tree : g.Tree) (id : BlockId) (test : Block → Bool) :
    Ends (g.ancestorStep test) (g.parent? id) (g.nearestAncestor id test) := by
  induction id using tree.grounded.induction with
  | h id ih =>
    cases up : g.parent? id with
    | none =>
      rw [nearestAncestor, ancestors_top up]
      exact .stop rfl
    | some parent =>
      rw [nearestAncestor, tree.ancestors_cons up, List.find?_cons]
      by_cases found : (g.block? parent).any test
      · simp only [found]
        exact .stop (by simp [ancestorStep, found])
      · simp only [Bool.not_eq_true] at found
        simp only [found]
        exact .again (by simp [ancestorStep, found]) (ih parent up)

/-- The socket that a block is plugged into. -/
def holder? (g : Graph) (id : BlockId) : Option (BlockId × String) :=
  match g.parentLink? id with
  | some (parent, .socket name) => some (parent, name)
  | _ => none

theorem enclosingWithin_eq_holder {fuel : Nat} (ended : g.previous? id = none) :
    g.enclosingWithin (fuel + 1) id = g.holder? id := by
  unfold previous? at ended
  unfold enclosingWithin holder?
  split at ended
  · simp at ended
  · next apart =>
    cases linked : g.parentLink? id with
    | none => rfl
    | some link =>
      obtain ⟨parent, link⟩ := link
      cases link with
      | next => exact (apart _ linked).elim
      | socket name => rfl

/-- The climb to the head of a stack ends, and the socket reported is that of the head. -/
theorem Tree.enclosingSocket_ends (tree : g.Tree) (id : BlockId) :
    ∃ head, Ends g.previous? id head ∧ g.enclosingSocket id = g.holder? head := by
  have onward : g.contains id = true → ∀ fuel, g.depth id < fuel →
      ∃ head, Ends g.previous? id head ∧ g.enclosingWithin fuel id = g.holder? head := by
    induction id using tree.grounded.induction with
    | h id ih =>
      intro present fuel enough
      obtain ⟨fuel, rfl⟩ := Nat.exists_eq_add_one_of_ne_zero (Nat.ne_of_gt (Nat.zero_lt_of_lt enough))
      cases above : g.previous? id with
      | none => exact ⟨id, .stop above, enclosingWithin_eq_holder above⟩
      | some parent =>
        have linked : g.parentLink? id = some (parent, .next) := by
          unfold previous? at above
          split at above <;> simp_all
        have up := up_of_parentLink linked
        have deeper := tree.depth_child up
        obtain ⟨head, ends, same⟩ := ih parent up (tree.contains_parent up) fuel (by omega)
        refine ⟨head, .again above ends, ?_⟩
        simpa only [enclosingWithin, linked] using same
  cases present : g.contains id with
  | true => exact onward present g.size (tree.depth_lt_size present)
  | false =>
    have unlinked := parentLink?_of_missing present
    refine ⟨id, .stop (by simp [previous?, unlinked]), ?_⟩
    cases fuel : g.size <;> simp [enclosingSocket, enclosingWithin, holder?, fuel, unlinked]

end Graph
end RobotBlocks
