import RobotBlocks.Proofs.Session.Seating

/-! New parameters for one reference. The changes take the arguments in their order, each the first one that
is left under its former name; an argument that no change takes goes away with all that hangs from it, and
nothing else is touched. -/
namespace RobotBlocks.Graph

variable {g g' : Graph} {r value : BlockId} {block renewed : Block} {call : CallState} {name : String}
  {changes : List ParamChange} {params : List Parameter} {index i : Nat} {lifted rest : List (String × Option BlockId)}

/-! Who takes what. -/

theorem le_of_mem_seat (seated : (i, value) ∈ (seat index changes lifted).1) : index ≤ i := by
  induction changes generalizing index lifted with
  | nil => cases seated
  | cons change changes ih =>
    unfold seat at seated
    cases taken : change.previous.bind fun name => takeArgument name lifted with
    | none =>
      rw [taken] at seated
      exact Nat.le_of_succ_le (ih seated)
    | some both =>
      rw [taken] at seated
      rcases List.mem_cons.mp seated with same | later
      · exact (Prod.mk.inj same).1.ge
      · exact Nat.le_of_succ_le (ih later)

theorem blocksUnder_of_none (taken : takeArgument name lifted = none) : blocksUnder name lifted = [] := by
  rcases takeArgument_cases name lifted with ⟨-, empty⟩ | ⟨_, _, takes, -⟩
  · exact empty
  · cases taken.symm.trans takes

theorem blocksUnder_of_some (taken : takeArgument name lifted = some (value, rest)) :
    blocksUnder name lifted = value :: blocksUnder name rest := by
  rcases takeArgument_cases name lifted with ⟨nothing, -⟩ | ⟨_, _, takes, first, -⟩
  · cases taken.symm.trans nothing
  · cases taken.symm.trans takes
    exact first

/-- Taking an argument takes its block from under every name. -/
theorem blocksUnder_rest (distinct : (argumentBlocks lifted).Nodup)
    (taken : takeArgument name lifted = some (value, rest)) (other : String) :
    blocksUnder other rest = (blocksUnder other lifted).filter (· ≠ value) := by
  rcases takeArgument_cases name lifted with ⟨nothing, -⟩ | ⟨_, _, takes, first, others⟩
  · cases taken.symm.trans nothing
  · cases taken.symm.trans takes
    by_cases here : other = name
    · subst here
      have once := blocksUnder_nodup distinct other
      rw [first] at once ⊢
      rw [List.filter_cons_of_neg (by simp), eq_comm, List.filter_eq_self]
      rintro block member
      simpa using fun same : block = value => (List.nodup_cons.mp once).1 (same ▸ member)
    · rw [others other here, eq_comm, List.filter_eq_self]
      intro block member
      have own : value ∈ blocksUnder name lifted := first ▸ List.mem_cons_self ..
      simpa using fun same : block = value => here (name_unique distinct (same ▸ member) own)

/-- Before the next position come the first one and those that follow it. -/
theorem forall_before_succ {P : Nat → Prop} :
    (∀ j < i + 1, P (index + j)) ↔ P index ∧ ∀ j < i, P (index + 1 + j) := by
  rw [Nat.forall_lt_succ_left]
  exact and_congr_right fun _ => forall₂_congr fun j _ => by rw [Nat.add_right_comm, Nat.add_assoc]

section Seated

variable {seated : List (Nat × BlockId)} {first : BlockId} (later : ∀ block, (index, block) ∉ seated)
include later

theorem unseated_succ : (∀ j < i + 1, (index + j, value) ∉ seated) ↔ ∀ j < i, (index + 1 + j, value) ∉ seated :=
  (forall_before_succ (P := fun j => (j, value) ∉ seated)).trans (and_iff_right (later value))

theorem unseated_cons_succ : (∀ j < i + 1, (index + j, value) ∉ (index, first) :: seated) ↔
    value ≠ first ∧ ∀ j < i, (index + 1 + j, value) ∉ seated := by
  have apart : ∀ j, index + 1 + j ≠ index := fun j => by omega
  rw [forall_before_succ (P := fun j => (j, value) ∉ (index, first) :: seated)]
  simp [apart, later]

end Seated

/-- A change takes the first block under its former name that no change before it has taken. -/
theorem mem_seat_iff (distinct : (argumentBlocks lifted).Nodup) :
    (index + i, value) ∈ (seat index changes lifted).1 ↔
      ∃ name, changes[i]?.bind (·.previous) = some name ∧
        (blocksUnder name lifted).find? (fun block => ∀ j < i, (index + j, block) ∉ (seat index changes lifted).1)
          = some value := by
  induction changes generalizing index i lifted with
  | nil => simp [seat]
  | cons change changes ih =>
    have next : ∀ j, index + (j + 1) = index + 1 + j := fun j => by omega
    have later : ∀ {lifted} (block : BlockId), (index, block) ∉ (seat (index + 1) changes lifted).1 :=
      fun _ seated => Nat.not_succ_le_self index (le_of_mem_seat seated)
    unfold seat
    cases taken : change.previous.bind fun name => takeArgument name lifted with
    | none =>
      dsimp only
      cases i with
      | zero =>
        refine iff_of_false (later value) ?_
        rintro ⟨name, asks, found⟩
        have previous : change.previous = some name := by simpa using asks
        rw [previous, Option.bind_some] at taken
        simp [blocksUnder_of_none taken] at found
      | succ i =>
        rw [next i, ih distinct]
        simp only [unseated_succ later, List.getElem?_cons_succ]
    | some both =>
      obtain ⟨first, rest⟩ := both
      obtain ⟨former, asks, takes⟩ := Option.bind_eq_some_iff.mp taken
      dsimp only
      cases i with
      | zero => simp [asks, blocksUnder_of_some takes, later, eq_comm]
      | succ i =>
        have left : (argumentBlocks rest).Nodup :=
          (List.nodup_cons.mp ((takeArgument_some takes).nodup_iff.mp distinct)).2
        have sits : (index + 1 + i, value) ∈ (index, first) :: (seat (index + 1) changes rest).1 ↔
            (index + 1 + i, value) ∈ (seat (index + 1) changes rest).1 := by
          have apart : index + 1 + i ≠ index := by omega
          simp [apart]
        rw [next i, sits, ih left]
        simp only [unseated_cons_succ later, List.getElem?_cons_succ, blocksUnder_rest distinct takes,
          List.find?_filter, decide_eq_true_eq]

/-! What becomes of the graph. -/

theorem seatOf?_eq_some {seated : List (Nat × BlockId)} (distinct : (seated.map (·.2)).Nodup) :
    seatOf? seated value = some i ↔ (i, value) ∈ seated := by
  refine ⟨mem_of_seatOf?, fun member => ?_⟩
  obtain ⟨j, sits⟩ := Option.isSome_iff_exists.mp (seatOf?_isSome.mpr (List.mem_map_of_mem member))
  have same : (j, value) = (i, value) := List.inj_on_of_nodup_map distinct (mem_of_seatOf? sits) member rfl
  rw [sits, (Prod.mk.inj same).1]

/-- The arguments of a reference are all that its sockets for arguments hold. -/
theorem Sound.mem_held_iff (sound : g.Sound) (found : g.block? r = some block)
    (reference : block.kind.isReference = true) (carried : block.extra = .call call) :
    value ∈ argumentBlocks (g.held r 0 call.args) ↔ ∃ i, g.plugged? r (Socket.arg i) = some value := by
  rw [sound.tree.mem_held]
  constructor
  · rintro ⟨i, -, -, hung⟩
    exact ⟨i, sound.tree.child?_eq_some.mpr hung⟩
  · rintro ⟨i, plugged⟩
    have hung := sound.tree.child?_eq_some.mp plugged
    refine ⟨i, Nat.zero_le i, ?_, hung⟩
    have declared := sound.arg_of_link found hung
    rw [carried] at declared
    cases kind : block.kind with
    | methodCall =>
      rw [kind] at declared
      simpa using declared_arg.mp declared
    | eventHandler =>
      rw [kind] at declared
      simp only [Socket.declared, List.mem_singleton, exists_eq_left] at declared
      exact absurd declared.symm (arg_ne_stack i)
    | _ => simp [kind, Kind.isReference] at reference

/-- An argument of a reference that none of its sockets for arguments holds any more. -/
def Untaken (g g' : Graph) (r value : BlockId) : Prop :=
  (∃ i, g.plugged? r (Socket.arg i) = some value) ∧ ∀ i, g'.plugged? r (Socket.arg i) ≠ some value

/-- A reference has the parameters of the changes. The sockets of the changes hold the first arguments that are
left under the former names, other arguments went away with all that hung from them, and the rest is as it
was. -/
structure Regenerated (g : Graph) (r : BlockId) (block : Block) (call : CallState) (changes : List ParamChange)
    (g' : Graph) : Prop where
  own : g'.block? r = some { block with
    extra := .call { call with args := changes.map (·.param) }
    sockets := Socket.declared block.kind (.call { call with args := changes.map (·.param) })
    fields := block.fields.put Field.name call.name }
  argument : ∀ i, g'.plugged? r (Socket.arg i) = (changes[i]?.bind (·.previous)).bind fun name =>
    (g.argumentsOf r name call.args).find? fun value => ∀ j < i, g'.plugged? r (Socket.arg j) ≠ some value
  once : ∀ {i j value}, g'.plugged? r (Socket.arg i) = some value → g'.plugged? r (Socket.arg j) = some value → i = j
  gone : ∀ {id value}, Untaken g g' r value → g.Climbs id value → g'.block? id = none
  block : ∀ {id}, id ≠ r → (∀ value, Untaken g g' r value → ¬ g.Climbs id value) → g'.block? id = g.block? id
  link : ∀ {id}, (∀ i, g.plugged? r (Socket.arg i) ≠ some id) →
    (∀ value, Untaken g g' r value → ¬ g.Climbs id value) → g'.parentLink? id = g.parentLink? id

section Rearranged

variable (rearranged : Rearranged g r renewed changes (g.held r 0 call.args) g') (sound : g.Sound)
  (found : g.block? r = some block) (reference : block.kind.isReference = true) (carried : block.extra = .call call)
include rearranged sound found reference carried

/-- The sockets hold what was seated in them. -/
theorem Rearranged.plugged_iff : g'.plugged? r (Socket.arg i) = some value ↔
    (i, value) ∈ (seat 0 changes (g.held r 0 call.args)).1 := by
  have perm := seat_perm 0 changes (g.held r 0 call.args)
  obtain ⟨seats, -, apart⟩ := List.nodup_append'.mp (perm.nodup_iff.mp sound.tree.held_nodup)
  rw [plugged?, rearranged.tree.child?_eq_some]
  constructor
  · intro hung
    obtain ⟨own, there⟩ := contains_iff_block.mp (contains_of_parentLink hung)
    have kept : ∀ unused ∈ argumentBlocks (seat 0 changes (g.held r 0 call.args)).2, ¬ g.Climbs value unused := by
      intro unused member climbs
      cases (rearranged.gone member climbs).symm.trans there
    rw [rearranged.link kept] at hung
    split at hung
    · obtain ⟨j, sits, same⟩ := Option.map_eq_some_iff.mp hung
      have here : j = i := Socket.arg_injective (by simpa using same)
      exact here ▸ mem_of_seatOf? sits
    · next outside =>
      exact absurd ((sound.mem_held_iff found reference carried).mpr ⟨i, sound.tree.child?_eq_some.mpr hung⟩) outside
  · intro member
    have taken : value ∈ (seat 0 changes (g.held r 0 call.args)).1.map (·.2) := List.mem_map_of_mem member
    have listed := perm.mem_iff.mpr (List.mem_append_left _ taken)
    obtain ⟨_, -, -, hung⟩ := sound.tree.mem_held.mp listed
    have kept : ∀ unused ∈ argumentBlocks (seat 0 changes (g.held r 0 call.args)).2, ¬ g.Climbs value unused := by
      intro unused left climbs
      obtain ⟨_, -, -, beside⟩ := sound.tree.mem_held.mp (perm.mem_iff.mpr (List.mem_append_right _ left))
      have same := sound.tree.siblings_apart (up_of_parentLink hung) (up_of_parentLink beside) .refl climbs
      exact apart taken (same ▸ left)
    rw [rearranged.link kept, if_pos listed, (seatOf?_eq_some seats).mpr member]
    rfl

theorem Rearranged.untaken_iff : Untaken g g' r value ↔
    value ∈ argumentBlocks (seat 0 changes (g.held r 0 call.args)).2 := by
  have perm := seat_perm 0 changes (g.held r 0 call.args)
  have apart := (List.nodup_append'.mp (perm.nodup_iff.mp sound.tree.held_nodup)).2.2
  have seated : (∀ i, g'.plugged? r (Socket.arg i) ≠ some value) ↔
      value ∉ (seat 0 changes (g.held r 0 call.args)).1.map (·.2) := by
    simp [rearranged.plugged_iff sound found reference carried]
  rw [Untaken, ← sound.mem_held_iff found reference carried, seated]
  constructor
  · rintro ⟨member, unseated⟩
    exact (List.mem_append.mp (perm.mem_iff.mp member)).resolve_left unseated
  · intro unused
    exact ⟨perm.mem_iff.mpr (List.mem_append_right _ unused), fun taken => apart taken unused⟩

theorem Rearranged.regenerated
    (shows : renewed = callBlock block { call with args := changes.map (·.param) }) :
    Regenerated g r block call changes g' := by
  have plugged : ∀ {i value}, g'.plugged? r (Socket.arg i) = some value ↔
      (i, value) ∈ (seat 0 changes (g.held r 0 call.args)).1 :=
    rearranged.plugged_iff sound found reference carried
  have untaken : ∀ {value}, Untaken g g' r value ↔ value ∈ argumentBlocks (seat 0 changes (g.held r 0 call.args)).2 :=
    rearranged.untaken_iff sound found reference carried
  refine ⟨(rearranged.own sound.tree).trans (congrArg some shows), fun i => ?_,
    fun {i j value} one two => ?_, fun unplaced below => ?_,
    fun {id} differs apart => ?_, fun {id} outside apart => ?_⟩
  · ext value
    have distinct : (argumentBlocks (g.held r 0 call.args)).Nodup := sound.tree.held_nodup
    have takes : (0 + i, value) ∈ (seat 0 changes (g.held r 0 call.args)).1 ↔ _ := mem_seat_iff distinct
    simp only [Nat.zero_add] at takes
    simp only [plugged, takes, Option.bind_eq_some_iff, argumentsOf_eq, ne_eq]
  · have here := rearranged.tree.child?_eq_some.mp one
    have there := rearranged.tree.child?_eq_some.mp two
    exact Socket.arg_injective (by simpa using here.symm.trans there)
  · exact rearranged.gone (untaken.mp unplaced) below
  · rw [rearranged.block fun value unused => apart value (untaken.mpr unused), if_neg differs]
  · rw [rearranged.link fun value unused => apart value (untaken.mpr unused), if_neg]
    intro listed
    obtain ⟨i, holds⟩ := (sound.mem_held_iff found reference carried).mp listed
    exact outside i holds

end Rearranged

/-- New parameters are never refused: the changes take the arguments by their former names, and what they leave
is deleted. -/
theorem Reachable.regenerateArguments_regenerates (reached : g.Reachable) (found : g.block? r = some block)
    (reference : block.kind = .methodCall ∨ block.kind = .eventHandler) (carried : block.extra = .call call)
    (changes : List ParamChange) :
    ∃ g', g.regenerateArguments r changes = .ok g' ∧ Regenerated g r block call changes g' := by
  have refers : block.kind.isReference = true := by rcases reference with kind | kind <;> rw [kind] <;> rfl
  obtain ⟨g', ran, -, rearranged⟩ := regenerateArguments_ok reached.sound found carried changes
  exact ⟨g', ran, rearranged.regenerated reached.sound found refers carried rfl⟩

/-- Of two arguments of one name the first one follows its parameter to another place, and the second one goes
away. -/
theorem regenerateArguments_regenerates_twins :
    let edits : List Mutation :=
      [.add .methodCall (.call { args := [⟨"x", none⟩, ⟨"x", none⟩, ⟨"y", none⟩] }),
        .add .number .none, .add .number .none, .add .number .none,
        .connectSocket ⟨0⟩ (Socket.arg 0) ⟨1⟩, .connectSocket ⟨0⟩ (Socket.arg 1) ⟨2⟩,
        .connectSocket ⟨0⟩ (Socket.arg 2) ⟨3⟩]
    let g := edits.foldl Graph.mutate Graph.empty
    ∃ g', g.regenerateArguments ⟨0⟩ [⟨⟨"y", none⟩, some "y"⟩, ⟨⟨"z", none⟩, some "x"⟩] = .ok g' ∧
      g'.plugged? ⟨0⟩ (Socket.arg 0) = some ⟨3⟩ ∧ g'.plugged? ⟨0⟩ (Socket.arg 1) = some ⟨1⟩ ∧
      g'.block? ⟨2⟩ = none := by
  intro edits g
  have reached : g.Reachable := Reachable.empty.foldl_mutate edits
  obtain ⟨block, found⟩ : ∃ block, g.block? ⟨0⟩ = some block := contains_iff_block.mp (by decide +kernel)
  have carries : (g.block? ⟨0⟩).map (fun block => (block.kind, block.extra)) =
      some (.methodCall, .call { args := [⟨"x", none⟩, ⟨"x", none⟩, ⟨"y", none⟩] }) := by decide +kernel
  rw [found] at carries
  obtain ⟨kind, carried⟩ := Prod.mk.inj (Option.some.inj carries)
  have named_y : g.argumentsOf ⟨0⟩ "y" [⟨"x", none⟩, ⟨"x", none⟩, ⟨"y", none⟩] = [⟨3⟩] := by decide +kernel
  have named_x : g.argumentsOf ⟨0⟩ "x" [⟨"x", none⟩, ⟨"x", none⟩, ⟨"y", none⟩] = [⟨1⟩, ⟨2⟩] := by decide +kernel
  obtain ⟨g', ran, regenerated⟩ := reached.regenerateArguments_regenerates found (.inl kind) carried
    [⟨⟨"y", none⟩, some "y"⟩, ⟨⟨"z", none⟩, some "x"⟩]
  have first : g'.plugged? ⟨0⟩ (Socket.arg 0) = some ⟨3⟩ := by
    simpa [named_y] using regenerated.argument 0
  have second : g'.plugged? ⟨0⟩ (Socket.arg 1) = some ⟨1⟩ := by
    simpa [named_x, first] using regenerated.argument 1
  refine ⟨g', ran, first, second, regenerated.gone ⟨⟨1, by decide +kernel⟩, fun i holds => ?_⟩ .refl⟩
  match i with
  | 0 => cases first.symm.trans holds
  | 1 => cases second.symm.trans holds
  | i + 2 => simpa using (regenerated.argument (i + 2)).symm.trans holds

end RobotBlocks.Graph
