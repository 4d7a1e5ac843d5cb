import RobotBlocks.Proofs.Session.InLine

/-! Where arguments go. A reference that gets other parameters finds its arguments by the names of their
parameters: of the arguments that share a name, the first one goes where the name stands first, the second
one where it stands next, and one for which no place is left goes away with all that hangs from it. Nothing
else hangs elsewhere once all references have been brought in line, and then they are in line for good. -/
namespace RobotBlocks

variable {name other : String} {param : Parameter} {params asked shown : List Parameter}

/-- The positions at which parameters have a name, in ascending order. -/
def positionsOf (name : String) (params : List Parameter) : List Nat :=
  (List.range params.length).filter fun i => params[i]?.any fun param => param.name = name

@[simp] theorem positionsOf_nil (name : String) : positionsOf name [] = [] := rfl

theorem positionsOf_cons (name : String) (param : Parameter) (params : List Parameter) :
    positionsOf name (param :: params)
      = (if param.name = name then [0] else []) ++ (positionsOf name params).map (· + 1) := by
  simp only [positionsOf, List.length_cons, List.range_succ_eq_map, List.filter_cons, List.filter_map]
  by_cases here : param.name = name <;> simp [here, Function.comp_def]

/-- What the turn of a reference makes of its block. -/
theorem Scope.settle_spec (scope : Scope) (own : Declarations) {block : Block} {call : CallState}
    (carried : block.extra = .call call) :
    match scope.lookup own block.kind call with
    | .found signature => (scope.settle own block).warning = none ∧ (scope.settle own block).extra = .call
        ⟨call.target, signature.name, signature.args, signature.returnType, some signature.block⟩
    | .missing => scope.settle own block = { block with warning := some (missingWarning call.name) }
    | .unresolvable => scope.settle own block = block := by
  have called := Graph.call?_eq_some.mpr carried
  cases resolved : scope.lookup own block.kind call with
  | found signature =>
    have settles := settle_of_found carried resolved
    by_cases shows : call = signature.call call.target
    · rw [if_pos shows] at settles
      rw [settles]
      exact ⟨rfl, carried.trans (congrArg ExtraState.call shows)⟩
    · rw [if_neg shows] at settles
      rw [settles]
      exact ⟨rfl, rfl⟩
  | missing => simp [settle, called, resolved]
  | unresolvable => simp [settle, called, resolved]

namespace Graph

variable {g h : Graph} {id r value : BlockId} {index i k l : Nat} {lifted rest : List (String × Option BlockId)}
  {own : Declarations} {scope : Scope} {done : List BlockId}

/-- The blocks in the arguments of a name, in the order of the arguments. -/
def argumentsOf (g : Graph) (r : BlockId) (name : String) (shown : List Parameter) : List BlockId :=
  (positionsOf name shown).filterMap fun i => g.plugged? r (Socket.arg i)

/-! Arguments that were taken out. -/

/-- The blocks among arguments of a name. -/
def blocksUnder (name : String) (arguments : List (String × Option BlockId)) : List BlockId :=
  argumentBlocks (arguments.filter fun (other, _) => other = name)

theorem blocksUnder_cons (name other : String) (value : Option BlockId) (rest : List (String × Option BlockId)) :
    blocksUnder name ((other, value) :: rest)
      = (if other = name then value.toList else []) ++ blocksUnder name rest := by
  by_cases here : other = name <;> simp [blocksUnder, here]

theorem blocksUnder_held (g : Graph) (r : BlockId) (name : String) (index : Nat) (params : List Parameter) :
    blocksUnder name (g.held r index params)
      = (positionsOf name params).filterMap fun i => g.plugged? r (Socket.arg (index + i)) := by
  induction params generalizing index with
  | nil => rfl
  | cons param params ih =>
    have shift : ∀ i, index + 1 + i = index + (i + 1) := fun i => by omega
    rw [held, blocksUnder_cons, ih, positionsOf_cons, List.filterMap_append, List.filterMap_map]
    simp only [Function.comp_def, shift]
    congr 1
    by_cases here : param.name = name
    · cases held : g.plugged? r (Socket.arg index) <;> simp [here, held]
    · simp [here]

theorem argumentsOf_eq (g : Graph) (r : BlockId) (name : String) (shown : List Parameter) :
    g.argumentsOf r name shown = blocksUnder name (g.held r 0 shown) := by
  simp only [argumentsOf, blocksUnder_held, Nat.zero_add]

theorem mem_argumentBlocks : value ∈ argumentBlocks lifted ↔ ∃ name, value ∈ blocksUnder name lifted := by
  simp only [blocksUnder, argumentBlocks, List.mem_filterMap, List.mem_filter, decide_eq_true_eq]
  constructor
  · rintro ⟨argument, listed, holds⟩
    exact ⟨argument.1, argument, ⟨listed, rfl⟩, holds⟩
  · rintro ⟨name, argument, ⟨listed, -⟩, holds⟩
    exact ⟨argument, listed, holds⟩

theorem blocksUnder_nodup (distinct : (argumentBlocks lifted).Nodup) (name : String) :
    (blocksUnder name lifted).Nodup :=
  distinct.sublist (List.filter_sublist.filterMap _)

/-- A block is among the arguments of one name. -/
theorem name_unique (distinct : (argumentBlocks lifted).Nodup) (one : value ∈ blocksUnder name lifted)
    (two : value ∈ blocksUnder other lifted) : name = other := by
  induction lifted with
  | nil => cases one
  | cons argument rest ih =>
    obtain ⟨own, held⟩ := argument
    rw [argumentBlocks_cons] at distinct
    obtain ⟨-, later, apart⟩ := List.nodup_append'.mp distinct
    have first : ∀ {name}, value ∈ blocksUnder name ((own, held) :: rest) →
        (own = name ∧ value ∈ held.toList) ∨ value ∈ blocksUnder name rest := by
      intro name member
      rw [blocksUnder_cons, List.mem_append] at member
      refine member.imp (fun here => ?_) fun later => later
      split at here
      · next same => exact ⟨same, here⟩
      · cases here
    rcases first one with ⟨same, here⟩ | below <;> rcases first two with ⟨same', here'⟩ | below'
    · exact same.symm.trans same'
    · exact absurd (mem_argumentBlocks.mpr ⟨other, below'⟩) (apart here)
    · exact absurd (mem_argumentBlocks.mpr ⟨name, below⟩) (apart here')
    · exact ih later below below'

theorem place_unique (distinct : (argumentBlocks lifted).Nodup) (one : (blocksUnder name lifted)[k]? = some value)
    (two : (blocksUnder other lifted)[l]? = some value) : name = other ∧ k = l := by
  obtain rfl := name_unique distinct (List.mem_of_getElem? one) (List.mem_of_getElem? two)
  have within := (List.getElem?_eq_some_iff.mp one).1
  exact ⟨rfl, (List.getElem?_inj within (blocksUnder_nodup distinct name)).mp (one.trans two.symm)⟩

/-- The first block of a name is taken, and what is there under other names stays. -/
theorem takeArgument_cases (name : String) (lifted : List (String × Option BlockId)) :
    (takeArgument name lifted = none ∧ blocksUnder name lifted = []) ∨
      ∃ value rest, takeArgument name lifted = some (value, rest) ∧
        blocksUnder name lifted = value :: blocksUnder name rest ∧
        ∀ other, other ≠ name → blocksUnder other rest = blocksUnder other lifted := by
  induction lifted with
  | nil => exact .inl ⟨rfl, rfl⟩
  | cons argument lifted ih =>
    obtain ⟨own, held⟩ := argument
    by_cases here : ∃ block, held = some block ∧ own = name
    · obtain ⟨block, rfl, rfl⟩ := here
      refine .inr ⟨block, (own, none) :: lifted, by simp [takeArgument], ?_, fun other differs => ?_⟩
      · simp [blocksUnder_cons]
      · simp [blocksUnder_cons, Ne.symm differs]
    · have skips : takeArgument name ((own, held) :: lifted)
          = (takeArgument name lifted).map fun taken => (taken.1, (own, held) :: taken.2) := by
        cases held with
        | none => rfl
        | some block =>
          have differs : own ≠ name := fun same => here ⟨block, rfl, same⟩
          simp [takeArgument, differs]
      have nothing : (if own = name then held.toList else []) = [] := by
        split
        · next same =>
          cases held with
          | none => rfl
          | some block => exact absurd ⟨block, rfl, same⟩ here
        · rfl
      rw [skips, blocksUnder_cons, nothing, List.nil_append]
      rcases ih with ⟨none, empty⟩ | ⟨value, rest, takes, first, others⟩
      · exact .inl ⟨by rw [none]; rfl, empty⟩
      · refine .inr ⟨value, (own, held) :: rest, by rw [takes]; rfl, ?_, fun other differs => ?_⟩
        · rw [first, blocksUnder_cons, nothing, List.nil_append]
        · rw [blocksUnder_cons, blocksUnder_cons, others other differs]

/-- Of the blocks of a name, each one gets the position that the name has in its turn. -/
theorem mem_seat : (i, value) ∈ (seat index (asked.map .kept) lifted).1 ↔
    ∃ (name : String) (k j : Nat), (positionsOf name asked)[k]? = some j ∧
      (blocksUnder name lifted)[k]? = some value ∧ i = index + j := by
  induction asked generalizing index lifted with
  | nil => simp [seat]
  | cons param asked ih =>
    have previous : (ParamChange.kept param).previous = some param.name := rfl
    have others : ∀ {name}, name ≠ param.name →
        positionsOf name (param :: asked) = (positionsOf name asked).map (· + 1) := fun {name} differs => by
      rw [positionsOf_cons, if_neg (Ne.symm differs), List.nil_append]
    have own : positionsOf param.name (param :: asked) = 0 :: (positionsOf param.name asked).map (· + 1) := by
      rw [positionsOf_cons, if_pos rfl, List.singleton_append]
    rw [List.map_cons, seat, previous, Option.bind_some]
    rcases takeArgument_cases param.name lifted with ⟨none, empty⟩ | ⟨taken, rest, takes, first, kept⟩
    · rw [none]
      dsimp only
      rw [ih]
      refine exists_congr fun name => ?_
      by_cases here : name = param.name
      · simp [here, empty]
      · simp only [others here, List.getElem?_map, Option.map_eq_some_iff]
        constructor
        · rintro ⟨k, j, place, held, rfl⟩
          exact ⟨k, j + 1, ⟨j, place, rfl⟩, held, by omega⟩
        · rintro ⟨k, _, ⟨j, place, rfl⟩, held, rfl⟩
          exact ⟨k, j, place, held, by omega⟩
    · rw [takes]
      dsimp only
      rw [List.mem_cons, ih]
      constructor
      · rintro (same | ⟨name, k, j, place, held, rfl⟩)
        · obtain ⟨rfl, rfl⟩ := Prod.mk.inj same
          exact ⟨param.name, 0, 0, by rw [own]; rfl, by rw [first]; rfl, rfl⟩
        · by_cases here : name = param.name
          · subst here
            exact ⟨param.name, k + 1, j + 1, by simp [own, place], by simp [first, held], by omega⟩
          · exact ⟨name, k, j + 1, by simp [others here, place], kept name here ▸ held, by omega⟩
      · rintro ⟨name, k, j, place, held, rfl⟩
        by_cases here : name = param.name
        · subst here
          rw [own] at place
          rw [first] at held
          cases k with
          | zero =>
            cases place
            cases held
            exact .inl rfl
          | succ k =>
            simp only [List.getElem?_cons_succ, List.getElem?_map, Option.map_eq_some_iff] at place held
            obtain ⟨j, place, rfl⟩ := place
            exact .inr ⟨param.name, k, j, place, held, by omega⟩
        · rw [others here] at place
          simp only [List.getElem?_map, Option.map_eq_some_iff] at place
          obtain ⟨j, place, rfl⟩ := place
          exact .inr ⟨name, k, j, place, (kept name here).symm ▸ held, by omega⟩

/-- The seat of a block is where its name stands in its turn, if it does. -/
theorem seatOf?_seat (distinct : (argumentBlocks lifted).Nodup) (held : (blocksUnder name lifted)[k]? = some value) :
    seatOf? (seat 0 (asked.map .kept) lifted).1 value = (positionsOf name asked)[k]? := by
  have seats : ∀ {i}, seatOf? (seat 0 (asked.map .kept) lifted).1 value = some i →
      (positionsOf name asked)[k]? = some i := by
    intro i sits
    obtain ⟨other, l, j, place, holds, rfl⟩ := mem_seat.mp (mem_of_seatOf? sits)
    obtain ⟨rfl, rfl⟩ := place_unique distinct held holds
    rw [Nat.zero_add, place]
  cases place : (positionsOf name asked)[k]? with
  | none => exact Option.eq_none_iff_forall_ne_some.mpr fun i sits => nomatch place.symm.trans (seats sits)
  | some i =>
    have seated : (i, value) ∈ (seat 0 (asked.map .kept) lifted).1 :=
      mem_seat.mpr ⟨name, k, i, place, held, (Nat.zero_add i).symm⟩
    obtain ⟨j, sits⟩ := Option.isSome_iff_exists.mp (seatOf?_isSome.mpr (List.mem_map_of_mem seated))
    exact sits.trans ((seats sits).symm.trans place)

/-! Arguments of references. -/

/-- The block is an argument of a reference that gets other parameters, and where it goes: to the position that
the name of its parameter has in its turn, if there is one. -/
def Reseats (own : Declarations) (scope : Scope) (g : Graph) (r value : BlockId) (seat : Option Nat) : Prop :=
  ∃ (shown asked : List Parameter) (name : String) (k : Nat),
    (g.block? r).bind (scope.reshape? own) = some (shown, asked) ∧
      (g.argumentsOf r name shown)[k]? = some value ∧ seat = (positionsOf name asked)[k]?

theorem Tree.reseats_iff (tree : g.Tree) {seat : Option Nat} : g.Reseats own scope r value seat ↔
    value ∈ argumentBlocks (g.given own scope r) ∧ seat = seatOf? (g.seating own scope r).1 value := by
  cases turned : (g.block? r).bind (scope.reshape? own) with
  | none => simp [Reseats, turned, (seating_of_steady turned).1, argumentBlocks]
  | some both =>
    obtain ⟨shown, asked⟩ := both
    have given : g.given own scope r = g.held r 0 shown := by simp [Graph.given, turned]
    have seating : g.seating own scope r = Graph.seat 0 (asked.map .kept) (g.held r 0 shown) := by
      simp [Graph.seating, turned]
    have distinct : (argumentBlocks (g.held r 0 shown)).Nodup := tree.held_nodup
    rw [given, seating]
    constructor
    · rintro ⟨shown', asked', name, k, same, held, rfl⟩
      cases turned.symm.trans same
      rw [argumentsOf_eq] at held
      exact ⟨mem_argumentBlocks.mpr ⟨name, List.mem_of_getElem? held⟩, (seatOf?_seat distinct held).symm⟩
    · rintro ⟨member, rfl⟩
      obtain ⟨name, under⟩ := mem_argumentBlocks.mp member
      obtain ⟨k, held⟩ := List.mem_iff_getElem?.mp under
      exact ⟨shown, asked, name, k, turned, by rw [argumentsOf_eq, held], seatOf?_seat distinct held⟩

theorem Tree.mem_unused (tree : g.Tree) :
    value ∈ argumentBlocks (g.seating own scope r).2 ↔ g.Reseats own scope r value none := by
  rw [tree.reseats_iff]
  constructor
  · intro unused
    have member := mem_given_of_unused unused
    refine ⟨member, ?_⟩
    cases turned : (g.block? r).bind (scope.reshape? own) with
    | none => simp [(seating_of_steady turned).2, argumentBlocks] at unused
    | some both =>
      simp only [seating, given, turned, Option.elim_some] at unused member ⊢
      exact ((seatOf?_eq_none_iff tree.held_nodup member).mpr unused).symm
  · rintro ⟨member, unseated⟩
    exact tree.unused_of_unseated member unseated.symm

/-- A usual reference carries a call, and no other usual block does. -/
theorem Usual.call_iff {block : Block} (usual : g.Usual) (found : g.block? r = some block) :
    (∃ call, block.extra = .call call) ↔ block.kind.isReference = true := by
  have like := usual.like found
  cases kind : block.kind <;> cases extra : block.extra <;> rw [kind, extra] at like <;>
    first | exact False.elim like | simp [Kind.isReference]

/-- A reference that is to get other parameters carries a call. -/
theorem reference_of_reshape {shown asked : List Parameter} (usual : g.Usual)
    (reshapes : (g.block? r).bind (scope.reshape? own) = some (shown, asked)) (sound : g.Sound) : r ∈ g.references := by
  obtain ⟨block, found, reshapes⟩ := Option.bind_eq_some_iff.mp reshapes
  cases carried : block.extra.call? with
  | none => simp [Scope.reshape?, carried] at reshapes
  | some call =>
    have reference := (usual.call_iff found).mp ⟨call, call?_eq_some.mp carried⟩
    exact sound.mem_references.mpr ⟨block, found, reference⟩

/-- A block that hangs from an argument without a seat is gone, and no other one. -/
theorem Settled.gone_iff (settled : Settled own scope g.references g h) (sound : g.Sound) (usual : g.Usual)
    (present : g.contains id = true) :
    h.contains id = false ↔ ∃ r value, g.Reseats own scope r value none ∧ g.Climbs id value := by
  have tree := sound.tree
  constructor
  · intro missing
    obtain ⟨r, -, value, unused, climbs⟩ := settled.dropped_of_missing present missing
    exact ⟨r, value, tree.mem_unused.mp unused, climbs⟩
  · rintro ⟨r, value, reseats, climbs⟩
    have member : r ∈ g.references := by
      obtain ⟨shown, asked, name, k, reshapes, -⟩ := reseats
      exact reference_of_reshape usual reshapes sound
    have absent := settled.gone ⟨r, member, value, tree.mem_unused.mpr reseats, climbs⟩
    simpa [contains, block?] using absent

/-- An argument of a reference that gets other parameters sits where the name of its parameter is. -/
theorem Settled.link_of_reseats {seat : Option Nat} (settled : Settled own scope g.references g h) (sound : g.Sound)
    (usual : g.Usual) (present : h.contains id = true) (reseats : g.Reseats own scope r id seat) :
    ∃ i, seat = some i ∧ h.parentLink? id = some (r, .socket (Socket.arg i)) := by
  have tree := sound.tree
  have kept := settled.kept_of_contains present
  obtain ⟨given, rfl⟩ := tree.reseats_iff.mp reseats
  have member : r ∈ g.references := by
    obtain ⟨shown, asked, name, k, reshapes, -⟩ := reseats
    exact reference_of_reshape usual reshapes sound
  obtain ⟨i, seated⟩ := tree.seated_of_kept kept member given
  obtain ⟨j, hung⟩ := tree.link_of_given given
  refine ⟨i, seated, ?_⟩
  rw [settled.link kept, hung, Option.bind_some, if_pos member, relinked, if_pos given, seated]
  rfl

/-- Every other block hangs where it hung. -/
theorem Settled.link_of_unmoved (settled : Settled own scope done g h) (tree : g.Tree)
    (present : h.contains id = true) (unmoved : ∀ r seat, ¬ g.Reseats own scope r id seat) :
    h.parentLink? id = g.parentLink? id := by
  rw [settled.link (settled.kept_of_contains present)]
  cases linked : g.parentLink? id with
  | none => rfl
  | some link =>
    rw [Option.bind_some]
    split
    · rw [relinked, if_neg fun given => unmoved link.1 _ (tree.reseats_iff.mpr ⟨given, rfl⟩)]
    · rfl

/-- A block that is no reference is what it was. -/
theorem Settled.block_of_other {block : Block} (settled : Settled own scope g.references g h) (sound : g.Sound)
    (found : h.block? id = some block) (other : block.kind.isReference = false) : g.block? id = some block := by
  rw [settled.block (settled.kept_of_contains (contains_iff_block.mpr ⟨block, found⟩))] at found
  split at found
  · next member =>
    obtain ⟨before, there, rfl⟩ := Option.map_eq_some_iff.mp found
    obtain ⟨own, here, reference⟩ := sound.mem_references.mp member
    cases there.symm.trans here
    rw [(scope.settle_resembles _ before).kind, reference] at other
    cases other
  · exact found

/-- One round brings all references in line. A reference that resolves shows its declaration and has no warning;
one that does not is warned and shows what it showed, and one whose owner is not at hand is left alone. Other
blocks are what they were. An argument goes with its parameter, or goes away with all that hangs from it when the
parameter is gone, and nothing else hangs elsewhere or goes away. A second round finds nothing to do. -/
theorem Reachable.reconcileAll_once (reached : g.Reachable) (usual : g.Usual) (argued : g.Argued)
    (distinct : scope.Distinct) :
    let own := Declarations.collect g
    let h := (g.reconcileAll scope).2
    (∀ r after, h.block? r = some after → after.kind.isReference = true →
      ∃ before call, g.block? r = some before ∧ after.kind = before.kind ∧ before.extra = .call call ∧
        match scope.lookup own before.kind call with
        | .found signature => after.warning = none ∧ after.extra = .call
            ⟨call.target, signature.name, signature.args, signature.returnType, some signature.block⟩
        | .missing => after = { before with warning := some (missingWarning call.name) }
        | .unresolvable => after = before) ∧
    (∀ id after, h.block? id = some after → after.kind.isReference = false → g.block? id = some after) ∧
    (∀ id, g.contains id = true →
      (h.contains id = false ↔ ∃ r value, g.Reseats own scope r value none ∧ g.Climbs id value)) ∧
    (∀ id, h.contains id = true →
      (∀ r seat, g.Reseats own scope r id seat →
        ∃ i, seat = some i ∧ h.parentLink? id = some (r, .socket (Socket.arg i))) ∧
      ((∀ r seat, ¬ g.Reseats own scope r id seat) → h.parentLink? id = g.parentLink? id)) ∧
    (h.reconcileAll scope).1.updated = 0 ∧ (h.reconcileAll scope).2 = h := by
  intro own h
  have sound := reached.sound
  have settled : Settled own scope g.references g h :=
    sound.reconcileAll_settled (fun _ => sound.mem_references.mp) scope
  refine ⟨fun r after found reference => ?_, fun id after found other => settled.block_of_other sound found other,
    fun id present => settled.gone_iff sound usual present, fun id present => ⟨fun r seat reseats => ?_, ?_⟩, ?_⟩
  · obtain ⟨before, there, rfl⟩ := settled.turned sound found reference
    have kind := (scope.settle_resembles own before).kind
    obtain ⟨call, carried⟩ := (usual.call_iff there).mpr (kind ▸ reference)
    exact ⟨before, call, there, kind, carried, scope.settle_spec own carried⟩
  · exact settled.link_of_reseats sound usual present reseats
  · exact settled.link_of_unmoved sound.tree present
  · have declared : Declarations.collect h = own := (settled.trims sound.tree).collect_of_argued sound argued
    obtain ⟨same, count⟩ := settled.sound.reconcileEach_inLine {} fun r member block found => by
      obtain ⟨own', here, reference⟩ := settled.sound.mem_references.mp member
      cases found.symm.trans here
      obtain ⟨before, -, rfl⟩ := settled.turned sound found reference
      exact scope.inLine_settle distinct.clear (Declarations.unambiguous_collect g) before
    rw [reconcileAll, declared]
    exact ⟨count, same⟩

/-- A call follows another one that is the first argument of a third one, whose method lost its first parameter:
both go away, and the second argument becomes the first one. -/
theorem reconcileAll_once_follower :
    let edits : List Mutation :=
      [.add .methodCall (.call
          { target := .robot, name := "run", args := [⟨"a", none⟩, ⟨"x", none⟩], declaration := some ⟨7⟩ }),
        .add .methodCall (.call {}), .add .methodCall (.call {}), .add .number .none,
        .connectSocket ⟨0⟩ (Socket.arg 0) ⟨1⟩, .connectNext ⟨1⟩ ⟨2⟩, .connectSocket ⟨0⟩ (Socket.arg 1) ⟨3⟩]
    let g := edits.foldl Graph.mutate Graph.empty
    let scope : Scope := { robot := some { methods := [⟨⟨7⟩, "go", "go", .outside, none, [⟨"x", none⟩]⟩] } }
    let h := (g.reconcileAll scope).2
    h.contains ⟨2⟩ = false ∧ h.parentLink? ⟨3⟩ = some (⟨0⟩, .socket (Socket.arg 0)) ∧
      (h.reconcileAll scope).2 = h := by
  intro edits g scope h
  have reached : g.Reachable := Reachable.empty.foldl_mutate edits
  have usual : g.Usual := by decide +kernel
  have arguments : ∀ block ∈ g.blocks, block.kind.isArgument = true := by decide +kernel
  have distinct : scope.Distinct := by
    refine ⟨fun known robot => ?_, by simp [scope]⟩
    cases robot
    exact ⟨by decide, by decide⟩
  have argued : g.Argued := by
    intro id owner i inside
    rw [reached.sound.tree.enclosingSocket_eq] at inside
    obtain ⟨link, linked, -⟩ := Option.bind_eq_some_iff.mp inside
    obtain ⟨block, found⟩ := contains_iff_block.mp (contains_of_parentLink linked)
    exact ⟨block, found, arguments block (mem_blocks found)⟩
  obtain ⟨-, -, gone, links, -, still⟩ := reached.reconcileAll_once usual argued distinct
  have first : g.Reseats (.collect g) scope ⟨0⟩ ⟨1⟩ none :=
    ⟨[⟨"a", none⟩, ⟨"x", none⟩], [⟨"x", none⟩], "a", 0, by decide +kernel, by decide +kernel, by decide⟩
  have second : g.Reseats (.collect g) scope ⟨0⟩ ⟨3⟩ (some 0) :=
    ⟨[⟨"a", none⟩, ⟨"x", none⟩], [⟨"x", none⟩], "x", 0, by decide +kernel, by decide +kernel, by decide⟩
  have up : g.parent? ⟨2⟩ = some ⟨1⟩ := by decide +kernel
  have follows : g.Climbs ⟨2⟩ ⟨1⟩ := .single up
  have present : g.contains ⟨2⟩ = true := by decide +kernel
  have left : h.contains ⟨3⟩ = true := by decide +kernel
  have missing : h.contains ⟨2⟩ = false := (gone ⟨2⟩ present).mpr ⟨⟨0⟩, ⟨1⟩, first, follows⟩
  obtain ⟨i, same, linked⟩ := (links ⟨3⟩ left).1 ⟨0⟩ (some 0) second
  rw [← Option.some.inj same] at linked
  exact ⟨missing, linked, still⟩

end Graph
end RobotBlocks
