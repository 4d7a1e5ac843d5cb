import RobotBlocks.Proofs.Session.Agreement
import RobotBlocks.Proofs.Session.Reshaping

/-! New parameters for all references to a declaration. References may hang from arguments of one another, and
an argument that is dropped takes the references inside it along, be it before or after their turn. What is
left is the same in every order. -/
namespace RobotBlocks.Graph

variable {g h : Graph} {d id r value : BlockId} {block : Block} {call : CallState} {changes : List ParamChange}

/-- The arguments of the call that a block carries. -/
def heldByCall (g : Graph) (r : BlockId) : List (String × Option BlockId) :=
  ((g.block? r).bind (·.extra.call?)).elim [] fun call => g.held r 0 call.args

theorem heldByCall_eq (found : g.block? r = some block) (carried : block.extra = .call call) :
    g.heldByCall r = g.held r 0 call.args := by
  simp [heldByCall, found, carried, ExtraState.call?]

theorem heldByCall_cases (g : Graph) (r : BlockId) :
    g.heldByCall r = [] ∨ ∃ params, g.heldByCall r = g.held r 0 params := by
  unfold heldByCall
  cases (g.block? r).bind (·.extra.call?) with
  | none => exact .inl rfl
  | some call => exact .inr ⟨call.args, rfl⟩

theorem Tree.heldByCall_nodup (tree : g.Tree) : (argumentBlocks (g.heldByCall r)).Nodup := by
  rcases g.heldByCall_cases r with none | ⟨params, same⟩
  · simp [none, argumentBlocks]
  · exact same ▸ tree.held_nodup

/-- New parameters for a reference, as a revision. -/
def Revision.regenerating (changes : List ParamChange) : Revision where
  renew block := block.extra.call?.elim block fun call =>
    callBlock block { call with args := changes.map (·.param) }
  given := heldByCall
  seating g r := seat 0 changes (g.heldByCall r)
  hung {g r value} tree member := by
    rcases g.heldByCall_cases r with none | ⟨params, same⟩
    · simp [none, argumentBlocks] at member
    · obtain ⟨i, -, -, hung⟩ := tree.mem_held.mp (same ▸ member)
      exact ⟨i, hung⟩
  mem_given unused := (seat_perm ..).mem_iff.mpr (List.mem_append_right _ unused)
  mem_unused tree member unseated := (seatOf?_eq_none_iff tree.heldByCall_nodup member).mp unseated
  reads {g h r} same children := by
    have held : ∀ params, h.held r 0 params = g.held r 0 params :=
      fun params => held_congr fun i _ => children _
    have all : h.heldByCall r = g.heldByCall r := by simp only [heldByCall, same, held]
    exact ⟨all, congrArg (seat 0 changes) all⟩

theorem extra_regenerating (changes : List ParamChange) (carried : block.extra = .call call) :
    ((Revision.regenerating changes).renew block).extra = .call { call with args := changes.map (·.param) } := by
  simp [Revision.regenerating, carried, ExtraState.call?, callBlock]

/-- The reference carries a call. -/
def CarriesCall (block : Block) : Prop := block.kind.isReference = true ∧ ∃ call, block.extra = .call call

/-- A reference with its new parameters, or the graph as it is when they are refused. -/
def regenerateOrKeep (changes : List ParamChange) (g : Graph) (r : BlockId) : Graph :=
  match g.regenerateArguments r changes with
  | .ok edited => edited
  | .error (_, left) => left

theorem mutateEach_eq (g : Graph) (changes : List ParamChange) (todo : List BlockId) :
    (g.mutateEach changes todo).2 = todo.foldl (regenerateOrKeep changes) g := by
  unfold mutateEach
  induction todo generalizing g with
  | nil => rfl
  | cons r todo ih =>
    unfold updateEach
    rw [List.foldl_cons, regenerateOrKeep]
    cases g.regenerateArguments r changes <;> exact ih _

theorem regenerating_turns (changes : List ParamChange) :
    (Revision.regenerating changes).Turns CarriesCall (regenerateOrKeep changes) where
  revised {g r block} sound found carries := by
    obtain ⟨-, call, carried⟩ := carries
    obtain ⟨g', ran, soundAfter, rearranged⟩ := regenerateArguments_ok sound found carried changes
    have given := heldByCall_eq found carried
    rw [regenerateOrKeep, ran]
    refine .of_rearranged sound.tree found given (congrArg (seat 0 changes) given) ?_ soundAfter rearranged
    simp [Revision.regenerating, carried, ExtraState.call?]
  gone {g r} missing := by
    have refused : g.regenerateArguments r changes = .error (.blockNotFound r, g) := by
      simp only [Graph.regenerateArguments, getCall, get, missing]
      rfl
    rw [regenerateOrKeep, refused]

theorem Sound.carries_of_caller (sound : g.Sound) (member : r ∈ g.callersOf d) :
    ∃ block, g.block? r = some block ∧ CarriesCall block := by
  obtain ⟨block, call, found, reference, carried, -⟩ := (mem_callersOf sound).mp member
  exact ⟨block, found, reference, call, carried⟩

/-- The references to a declaration have their turns, in any order. -/
theorem Sound.mutateEach_revised (sound : g.Sound) (d : BlockId) (changes : List ParamChange) {order : List BlockId}
    (perm : order.Perm (g.callersOf d)) :
    (Revision.regenerating changes).Revised (g.callersOf d) g (g.mutateEach changes order).2 := by
  rw [mutateEach_eq]
  refine ((regenerating_turns changes).run sound (fun r member => ?_)
    (perm.nodup_iff.mpr (callersOf_nodup sound d))).congr fun r => perm.mem_iff
  exact sound.carries_of_caller (perm.mem_iff.mp member)

/-- The references that a reference loses are those inside the arguments that it leaves untaken on its own. -/
theorem Sound.mem_unused_iff (sound : g.Sound) (found : g.block? r = some block) (carries : CarriesCall block) :
    value ∈ argumentBlocks ((Revision.regenerating changes).seating g r).2 ↔
      ∃ alone, g.regenerateArguments r changes = .ok alone ∧ Untaken g alone r value := by
  obtain ⟨reference, call, carried⟩ := carries
  obtain ⟨alone, ran, -, rearranged⟩ := regenerateArguments_ok sound found carried changes
  have untaken : Untaken g alone r value ↔ _ := rearranged.untaken_iff sound found reference carried
  have given := heldByCall_eq found carried
  constructor
  · intro unused
    refine ⟨alone, ran, untaken.mpr ?_⟩
    rw [← given]
    exact unused
  · rintro ⟨other, same, lost⟩
    cases ran.symm.trans same
    have unused := untaken.mp lost
    rw [← given] at unused
    exact unused

/-- New parameters for the references to a declaration leave the same blocks and links in every order. Each
reference that is left has the parameters, and a block goes away exactly if it hangs from an argument that a
reference drops which is left itself. -/
theorem Reachable.mutateCallers_any_order (reached : g.Reachable) (d : BlockId) (changes : List ParamChange) :
    let h := (g.mutateCallers d changes).2
    (∀ order, order.Perm (g.callersOf d) → (g.mutateEach changes order).2.nodes = h.nodes) ∧
    (∀ r ∈ g.callersOf d, ∀ after, h.block? r = some after →
      ∃ call, after.extra = .call call ∧ call.args = changes.map (·.param)) ∧
    ∀ id, g.contains id = true → (h.contains id = false ↔
      ∃ outer ∈ g.callersOf d, h.contains outer = true ∧
        ∃ alone value, g.regenerateArguments outer changes = .ok alone ∧ Untaken g alone outer value ∧
          g.Climbs id value) := by
  intro h
  have sound := reached.sound
  have revised : (Revision.regenerating changes).Revised (g.callersOf d) g h :=
    sound.mutateEach_revised d changes (.refl _)
  refine ⟨fun order perm => (sound.mutateEach_revised d changes perm).nodes_eq revised, fun r member after there => ?_,
    fun id present => ?_⟩
  · obtain ⟨before, found, same⟩ := revised.before there
    obtain ⟨_, here, -, call, carried⟩ := sound.carries_of_caller member
    cases found.symm.trans here
    rw [if_pos member] at same
    exact ⟨_, same ▸ extra_regenerating changes carried, rfl⟩
  · rw [revised.contains_eq_false_iff present]
    constructor
    · intro dropped
      obtain ⟨outer, member, kept, value, unused, climbs⟩ := dropped.outermost sound.tree
      obtain ⟨block, found, carries⟩ := sound.carries_of_caller member
      have outer_present := contains_iff_block.mpr ⟨block, found⟩
      obtain ⟨alone, ran, lost⟩ := (sound.mem_unused_iff found carries).mp unused
      refine ⟨outer, member, ?_, alone, value, ran, lost, climbs⟩
      rw [← Bool.not_eq_false, revised.contains_eq_false_iff outer_present]
      exact kept
    · rintro ⟨outer, member, -, alone, value, ran, lost, climbs⟩
      obtain ⟨block, found, carries⟩ := sound.carries_of_caller member
      exact ⟨outer, member, value, (sound.mem_unused_iff found carries).mpr ⟨alone, ran, lost⟩, climbs⟩

/-- A call inside an argument of another one goes with the argument, whichever of them is first. -/
theorem mutateCallers_any_order_nested :
    let call : CallState := { name := "f", args := [⟨"x", none⟩], declaration := some ⟨9⟩ }
    let edits : List Mutation :=
      [.add .methodCall (.call call), .add .methodCall (.call call), .add .number .none,
        .connectSocket ⟨0⟩ (Socket.arg 0) ⟨1⟩, .connectSocket ⟨1⟩ (Socket.arg 0) ⟨2⟩]
    let g := edits.foldl Graph.mutate Graph.empty
    (g.mutateEach [] [⟨1⟩, ⟨0⟩]).2.nodes = (g.mutateCallers ⟨9⟩ []).2.nodes ∧
      (g.mutateEach [] [⟨1⟩, ⟨0⟩]).2.ids = [⟨0⟩] := by
  intro call edits g
  have reached : g.Reachable := Reachable.empty.foldl_mutate edits
  have callers : g.callersOf ⟨9⟩ = [⟨0⟩, ⟨1⟩] := by decide +kernel
  obtain ⟨same, -, -⟩ := reached.mutateCallers_any_order ⟨9⟩ []
  have nodes := same [⟨1⟩, ⟨0⟩] (by rw [callers]; exact .swap ..)
  exact ⟨nodes, by decide +kernel⟩

end RobotBlocks.Graph
