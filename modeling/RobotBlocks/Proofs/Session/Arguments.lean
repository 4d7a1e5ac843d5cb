import RobotBlocks.Proofs.Graph.Deletion
import RobotBlocks.Proofs.Session.Reports

/-! Arguments of a reference that gets other parameters. The blocks of the arguments are taken out of
their sockets, and each of them is put back by the former name of its parameter or deleted. On a
well-formed graph no step of this is refused, and each step tells what becomes of every block. -/
namespace RobotBlocks.Graph

variable {g g' g'' : Graph} {id r parent child value : BlockId} {block : Block} {values : List BlockId}
  {index : Nat} {params : List Parameter} {lifted : List (String × Option BlockId)}

/-- Blocks may lose their parents, and none gets another one. -/
structure Narrows (g g' : Graph) : Prop where
  up : ∀ {child parent}, g'.Up child parent → g.Up child parent

theorem Narrows.trans (h : g.Narrows g') (k : g'.Narrows g'') : g.Narrows g'' :=
  ⟨fun step => h.up (k.up step)⟩

theorem Narrows.climbs (h : g.Narrows g') (climbs : g'.Climbs child parent) :
    g.Climbs child parent :=
  Relation.ReflTransGen.mono (fun _ _ step => h.up step) _ _ climbs

theorem Narrows.top (h : g.Narrows g') (top : g.parent? id = none) : g'.parent? id = none := by
  rw [Option.eq_none_iff_forall_ne_some]
  intro parent up
  cases top.symm.trans (h.up up)

theorem Evolves.tree (evolves : g.Evolves g') (tree : g.Tree) : g'.Tree :=
  evolves.preserves tree (fun _ _ tree ran => tree.edit ran) fun _ tree => tree.congr rfl (fun _ => rfl) fun _ => rfl

theorem Evolves.sound (evolves : g.Evolves g') (sound : g.Sound) : g'.Sound :=
  evolves.preserves sound (fun _ _ sound ran => sound.run ran) fun pending sound =>
    sound.queue pending

/-! Taking out. -/

/-- The blocks among the arguments. -/
def argumentBlocks (arguments : List (String × Option BlockId)) : List BlockId :=
  arguments.filterMap (·.2)

@[simp] theorem argumentBlocks_cons (name : String) (value : Option BlockId)
    (arguments : List (String × Option BlockId)) :
    argumentBlocks ((name, value) :: arguments) = value.toList ++ argumentBlocks arguments := by
  cases value <;> rfl

/-- The arguments of a reference from an index on. -/
def held (g : Graph) (r : BlockId) : Nat → List Parameter → List (String × Option BlockId)
  | _, [] => []
  | index, param :: params =>
    (param.name, g.plugged? r (Socket.arg index)) :: g.held r (index + 1) params

theorem held_congr (same : ∀ i, index ≤ i → g'.plugged? r (Socket.arg i) = g.plugged? r (Socket.arg i)) :
    g'.held r index params = g.held r index params := by
  induction params generalizing index with
  | nil => rfl
  | cons param params ih =>
    rw [held, held, same index (Nat.le_refl index), ih fun i later => same i (Nat.le_of_succ_le later)]

theorem Tree.mem_held (tree : g.Tree) : value ∈ argumentBlocks (g.held r index params) ↔
    ∃ i, index ≤ i ∧ i < index + params.length ∧
      g.parentLink? value = some (r, .socket (Socket.arg i)) := by
  induction params generalizing index with
  | nil =>
    constructor
    · nofun
    · rintro ⟨i, from_index, within, -⟩
      simp at within
      omega
  | cons param params ih =>
    rw [held, argumentBlocks_cons, List.mem_append, Option.mem_toList, plugged?, tree.child?_eq_some, ih]
    constructor
    · rintro (here | ⟨i, from_next, within, there⟩)
      · exact ⟨index, Nat.le_refl index, by simp, here⟩
      · exact ⟨i, by omega, by simp; omega, there⟩
    · rintro ⟨i, from_index, within, linked⟩
      rcases Nat.eq_or_lt_of_le from_index with rfl | later
      · exact .inl linked
      · exact .inr ⟨i, later, by simp at within; omega, linked⟩

theorem Tree.held_nodup (tree : g.Tree) : (argumentBlocks (g.held r index params)).Nodup := by
  induction params generalizing index with
  | nil => exact List.nodup_nil
  | cons param params ih =>
    rw [held, argumentBlocks_cons]
    refine List.Nodup.append (by cases g.plugged? r (Socket.arg index) <;> simp) ih ?_
    intro value first later
    have here := tree.child?_eq_some.mp (Option.mem_toList.mp first)
    obtain ⟨i, from_next, -, there⟩ := tree.mem_held.mp later
    have same : Socket.arg index = Socket.arg i := by simpa using here.symm.trans there
    have := Socket.arg_injective same
    omega

/-- Blocks were taken out of their sockets. -/
structure Lifts (g : Graph) (values : List BlockId) (loose : Graph) : Prop where
  tree : loose.Tree
  moves : g.Moves loose
  links : ∀ id, loose.parentLink? id = if id ∈ values then none else g.parentLink? id
  reports : Reports (· ∈ values) g loose

theorem Lifts.narrows {loose : Graph} (lifts : Lifts g values loose) : g.Narrows loose := by
  refine ⟨fun {child parent} step => ?_⟩
  obtain ⟨hook, linked⟩ := step.exists_link
  rw [lifts.links] at linked
  split at linked
  · cases linked
  · exact up_of_parentLink linked

theorem liftArguments_ok (tree : g.Tree) (r : BlockId) (index : Nat) (params : List Parameter) :
    ∃ loose, g.liftArguments r index params = .ok (g.held r index params, loose) ∧
      Lifts g (argumentBlocks (g.held r index params)) loose := by
  induction params generalizing g index with
  | nil => exact ⟨g, rfl, tree, .refl g, fun id => rfl, .refl g⟩
  | cons param params ih =>
    cases inside : g.plugged? r (Socket.arg index) with
    | none =>
      obtain ⟨loose, lifted, lifts⟩ := ih tree (index + 1)
      refine ⟨loose, ?_, by simpa [held, inside] using lifts⟩
      simp [liftArguments, held, inside, lifted, bind, Except.bind, pure, Except.pure]
    | some value =>
      have linked := tree.child?_eq_some.mp inside
      obtain ⟨freed, unplugged⟩ := unplug_ok false (contains_of_parentLink linked)
      have links := parentLink?_unplug unplugged
      have treeFreed := tree.unplug unplugged
      -- The sockets further on hold what they held.
      have later : freed.held r (index + 1) params = g.held r (index + 1) params := by
        refine held_congr fun i from_next => ?_
        ext child
        rw [plugged?, plugged?, treeFreed.child?_eq_some, tree.child?_eq_some, links]
        split
        · next here =>
          subst here
          have differs : Socket.arg index ≠ Socket.arg i := fun same => by
            have := Socket.arg_injective same
            omega
          simp [linked, differs]
        · rfl
      obtain ⟨loose, lifted, lifts⟩ := ih treeFreed (index + 1)
      rw [later] at lifted lifts
      refine ⟨loose, ?_, lifts.tree, (Moves.unplug unplugged).trans lifts.moves, fun id => ?_, ?_⟩
      · simp [liftArguments, held, inside, unplugged, mapError_ok, lifted, bind, Except.bind, pure, Except.pure]
      · rw [lifts.links, links, held, argumentBlocks_cons, inside]
        by_cases here : id = value <;> simp [here]
      · rw [held, argumentBlocks_cons, inside]
        have first : Reports (· ∈ (some value).toList ++ argumentBlocks (g.held r (index + 1) params))
            g freed := .unplug unplugged (by simp)
        exact first.trans (lifts.reports.weaken fun id member => List.mem_append_right _ member)

/-! Putting back. -/

theorem takeArgument_some {name : String} {arguments rest : List (String × Option BlockId)}
    {value : BlockId} (h : takeArgument name arguments = some (value, rest)) :
    (argumentBlocks arguments).Perm (value :: argumentBlocks rest) := by
  induction arguments generalizing value rest with
  | nil => simp [takeArgument] at h
  | cons argument arguments ih =>
    obtain ⟨other, held⟩ := argument
    cases held with
    | none =>
      simp only [takeArgument, Option.map_eq_some_iff, Prod.mk.injEq] at h
      obtain ⟨⟨taken, left⟩, found, rfl, rfl⟩ := h
      simpa [argumentBlocks] using ih found
    | some first =>
      by_cases here : other = name
      · simp only [takeArgument, here, if_true, Option.some.injEq, Prod.mk.injEq] at h
        obtain ⟨rfl, rfl⟩ := h
        simp [argumentBlocks]
      · simp only [takeArgument, here, if_false, Option.map_eq_some_iff, Prod.mk.injEq] at h
        obtain ⟨⟨taken, left⟩, found, rfl, rfl⟩ := h
        have rest := (ih found).cons first
        exact rest.trans (.swap taken first (argumentBlocks left))

/-- Where no block is left none is taken. -/
theorem untaken_of_empty (change : ParamChange) (empty : argumentBlocks lifted = []) :
    (change.previous.bind fun name => takeArgument name lifted) = none := by
  rw [Option.eq_none_iff_forall_ne_some]
  rintro ⟨value, rest⟩ taken
  obtain ⟨name, -, took⟩ := Option.bind_eq_some_iff.mp taken
  have perm := takeArgument_some took
  rw [empty] at perm
  exact absurd perm.symm.eq_nil (by simp)

/-- Blocks that stand alone and that are not above a reference. -/
structure Loose (g : Graph) (r : BlockId) (values : List BlockId) : Prop where
  distinct : values.Nodup
  top : ∀ value ∈ values, g.contains value = true ∧ g.parent? value = none
  apart : ∀ value ∈ values, ¬ g.Climbs r value

theorem Loose.perm {others : List BlockId} (loose : Loose g r values) (perm : values.Perm others) :
    Loose g r others :=
  ⟨perm.nodup_iff.mp loose.distinct, fun value member => loose.top value (perm.mem_iff.mpr member),
    fun value member => loose.apart value (perm.mem_iff.mpr member)⟩

/-- The sockets that the arguments get, and the arguments that get none. -/
def seat : Nat → List ParamChange → List (String × Option BlockId) →
    List (Nat × BlockId) × List (String × Option BlockId)
  | _, [], lifted => ([], lifted)
  | index, change :: changes, lifted =>
    match change.previous.bind fun name => takeArgument name lifted with
    | none => seat (index + 1) changes lifted
    | some (value, rest) =>
      let (seated, unused) := seat (index + 1) changes rest
      ((index, value) :: seated, unused)

/-- The socket that a block gets. -/
def seatOf? (seated : List (Nat × BlockId)) (id : BlockId) : Option Nat :=
  (seated.find? fun (_, value) => value = id).map (·.1)

theorem seatOf?_cons (index : Nat) (value : BlockId) (seated : List (Nat × BlockId)) (id : BlockId) :
    seatOf? ((index, value) :: seated) id = if value = id then some index else seatOf? seated id := by
  by_cases here : value = id <;> simp [seatOf?, here]

theorem seatOf?_append (seated more : List (Nat × BlockId)) (id : BlockId) :
    seatOf? (seated ++ more) id = (seatOf? seated id).or (seatOf? more id) := by
  simp [seatOf?, List.find?_append, Option.map_or]

theorem mem_of_seatOf? {seated : List (Nat × BlockId)} {i : Nat} (sits : seatOf? seated id = some i) :
    (i, id) ∈ seated := by
  obtain ⟨⟨j, value⟩, first, rfl⟩ := Option.map_eq_some_iff.mp sits
  have same : value = id := by simpa using List.find?_some first
  exact same ▸ List.mem_of_find?_eq_some first

theorem seatOf?_isSome {seated : List (Nat × BlockId)} :
    (seatOf? seated id).isSome ↔ id ∈ seated.map (·.2) := by
  simp [seatOf?, List.find?_isSome]

theorem seat_perm (index : Nat) (changes : List ParamChange) (lifted : List (String × Option BlockId)) :
    (argumentBlocks lifted).Perm
      ((seat index changes lifted).1.map (·.2) ++ argumentBlocks (seat index changes lifted).2) := by
  induction changes generalizing index lifted with
  | nil => exact .refl _
  | cons change changes ih =>
    unfold seat
    cases taken : change.previous.bind fun name => takeArgument name lifted with
    | none => exact ih (index + 1) lifted
    | some both =>
      obtain ⟨name, -, took⟩ := Option.bind_eq_some_iff.mp taken
      exact (takeArgument_some took).trans ((ih (index + 1) both.2).cons both.1)

/-- Each block gets a socket or none. -/
theorem seatOf?_eq_none_iff {changes : List ParamChange} (distinct : (argumentBlocks lifted).Nodup)
    (member : id ∈ argumentBlocks lifted) : seatOf? (seat index changes lifted).1 id = none ↔
      id ∈ argumentBlocks (seat index changes lifted).2 := by
  have perm := seat_perm index changes lifted
  have apart := (List.nodup_append'.mp (perm.nodup_iff.mp distinct)).2.2
  rw [← Option.not_isSome_iff_eq_none, seatOf?_isSome]
  constructor
  · intro outside
    exact (List.mem_append.mp (perm.mem_iff.mp member)).resolve_left outside
  · exact fun unused seated => apart seated unused

/-- A lone block goes into an empty value socket of a block that it is not above. -/
theorem connectSocket_ok {socket : String} (found : g.block? parent = some block)
    (offered : block.socket? socket = some ⟨socket, .value⟩)
    (free : g.plugged? parent socket = none) {value : Block} (here : g.block? child = some value)
    (top : g.parent? child = none) (tree : g.Tree) (apart : ¬ g.Climbs parent child) :
    g.connectSocket parent socket child
      = .ok ((g.link parent (.socket socket) child).emit child value.kind (.moved none (some parent))) := by
  have unlinked : g.parentLink? child = none := by simpa [parent?] using top
  have same : g.detach child false = g := by simp [detach, unlinked]
  have checked : g.checkLink parent child = .ok value.kind := by
    refine checkLink_eq_ok.mpr ⟨contains_iff_block.mpr ⟨block, found⟩, ⟨value, here, rfl⟩, ?_⟩
    rw [← Bool.not_eq_true, tree.isAncestorOrSelf_iff]
    exact apart
  simp [connectSocket, checked, get_eq_ok.mpr found, offered, same, free, top, bind, Except.bind,
    pure, Except.pure]

theorem seat_of_empty (changes : List ParamChange) (index : Nat) (empty : argumentBlocks lifted = []) :
    seat index changes lifted = ([], lifted) := by
  induction changes generalizing index with
  | nil => rfl
  | cons change changes ih =>
    unfold seat
    rw [untaken_of_empty change empty]
    exact ih (index + 1)

theorem plugArguments_of_empty (changes : List ParamChange) (index : Nat) (empty : argumentBlocks lifted = []) :
    g.plugArguments r index changes lifted = .ok (lifted, g) := by
  induction changes generalizing index with
  | nil => rfl
  | cons change changes ih =>
    unfold plugArguments
    rw [untaken_of_empty change empty]
    exact ih (index + 1)

/-- Blocks went into sockets of a reference. -/
structure Seats (g : Graph) (r : BlockId) (seated : List (Nat × BlockId)) (g' : Graph) : Prop where
  tree : g'.Tree
  moves : g.Moves g'
  links : ∀ id, g'.parentLink? id
    = ((seatOf? seated id).map fun i => (r, Link.socket (Socket.arg i))).or (g.parentLink? id)
  reports : Reports (· ∈ seated.map (·.2)) g g'

namespace Seats

variable {seated more : List (Nat × BlockId)}

/-- A socket that nothing went into holds what it held. -/
theorem vacant {i : Nat} (seats : Seats g r seated g') (tree : g.Tree) (other : ∀ value, (i, value) ∉ seated)
    (free : g.plugged? r (Socket.arg i) = none) : g'.plugged? r (Socket.arg i) = none := by
  refine seats.tree.child?_eq_none.mpr fun child linked => ?_
  rw [seats.links] at linked
  rcases Option.or_eq_some_iff.mp linked with placed | ⟨-, before⟩
  · obtain ⟨j, sits, same⟩ := Option.map_eq_some_iff.mp placed
    have here : j = i := Socket.arg_injective (by simpa using same)
    exact other child (here ▸ mem_of_seatOf? sits)
  · exact tree.child?_eq_none.mp free child before

theorem append (first : Seats g r seated g') (second : Seats g' r more g'')
    (apart : ∀ id ∈ seated.map (·.2), id ∉ more.map (·.2)) : Seats g r (seated ++ more) g'' := by
  refine ⟨second.tree, first.moves.trans second.moves, fun id => ?_, ?_⟩
  · rw [second.links, first.links, seatOf?_append]
    cases early : seatOf? seated id with
    | none => rfl
    | some i =>
      have unseated : seatOf? more id = none := by
        rw [← Option.not_isSome_iff_eq_none, seatOf?_isSome]
        exact apart id (List.mem_map_of_mem (mem_of_seatOf? early))
      simp [unseated]
  · rw [List.map_append]
    refine (first.reports.weaken fun id member => List.mem_append_left _ member).trans ?_
    exact second.reports.weaken fun id member => List.mem_append_right _ member

end Seats

/-- One loose block goes into an empty socket, and the others stay loose. -/
theorem seat_ok {i : Nat} (tree : g.Tree) (found : g.block? r = some block)
    (offered : block.socket? (Socket.arg i) = some ⟨Socket.arg i, .value⟩)
    (free : g.plugged? r (Socket.arg i) = none) (loose : Loose g r (value :: values)) :
    ∃ g', g.connectSocket r (Socket.arg i) value = .ok g' ∧ Seats g r [(i, value)] g' ∧
      Loose g' r values := by
  obtain ⟨alone, others⟩ := List.nodup_cons.mp loose.distinct
  obtain ⟨present, top⟩ := loose.top value (List.mem_cons_self ..)
  have away := loose.apart value (List.mem_cons_self ..)
  obtain ⟨own, here⟩ := contains_iff_block.mp present
  have connected := connectSocket_ok found offered free here top tree away
  have moves := Moves.connectSocket connected
  have links : ∀ asked, (g.link r (.socket (Socket.arg i)) value).parentLink? asked
      = if asked = value then some (r, .socket (Socket.arg i)) else g.parentLink? asked :=
    parentLink?_link present
  refine ⟨_, connected, ⟨tree.connectSocket connected, moves, fun asked => ?_, ?_⟩, others, ?_, ?_⟩
  · rw [emit, parentLink?_push, links, seatOf?_cons]
    by_cases same : asked = value
    · simp [same]
    · simp [same, Ne.symm same, seatOf?]
  · have linked : Reports (· ∈ [(i, value)].map (·.2)) g (g.link r (.socket (Socket.arg i)) value) :=
      .moves (.link ..) rfl
    have there : (g.link r (.socket (Socket.arg i)) value).block? value = some own :=
      ((Moves.link ..).blocks value).trans here
    exact linked.trans (.emit there (List.mem_singleton_self value) (by simp [Payload.kind]))
  · intro other held
    obtain ⟨known, free⟩ := loose.top other (List.mem_cons_of_mem _ held)
    have differs : other ≠ value := fun same => alone (same ▸ held)
    refine ⟨(moves.contains other).trans known, ?_⟩
    change ((g.link r (.socket (Socket.arg i)) value).parentLink? other).map (·.1) = none
    rw [links, if_neg differs]
    exact free
  · intro other held climbs
    exact loose.apart other (List.mem_cons_of_mem _ held)
      ((climbs_link_of_not_climbs present away).mp climbs)

theorem plugArguments_ok (changes : List ParamChange) (index : Nat)
    (lifted : List (String × Option BlockId)) (tree : g.Tree) (found : g.block? r = some block)
    (sockets : ∀ i, index ≤ i → i < index + changes.length →
      block.socket? (Socket.arg i) = some ⟨Socket.arg i, .value⟩ ∧
      g.plugged? r (Socket.arg i) = none)
    (loose : Loose g r (argumentBlocks lifted)) :
    ∃ g', g.plugArguments r index changes lifted = .ok ((seat index changes lifted).2, g') ∧
      Seats g r (seat index changes lifted).1 g' ∧
      Loose g' r (argumentBlocks (seat index changes lifted).2) := by
  induction changes generalizing g index lifted with
  | nil => exact ⟨g, rfl, ⟨tree, .refl g, fun _ => rfl, .refl g⟩, loose⟩
  | cons change changes ih =>
    have later : ∀ {i}, index + 1 ≤ i → i < index + 1 + changes.length →
        index ≤ i ∧ i < index + (change :: changes).length := by
      intro i from_next within
      rw [List.length_cons]
      omega
    unfold plugArguments seat
    cases taken : change.previous.bind fun name => takeArgument name lifted with
    | none =>
      refine ih (index + 1) lifted tree found (fun i from_next within => ?_) loose
      exact sockets i (later from_next within).1 (later from_next within).2
    | some both =>
      obtain ⟨value, rest⟩ := both
      obtain ⟨name, -, took⟩ := Option.bind_eq_some_iff.mp taken
      have apart : Loose g r (value :: argumentBlocks rest) := loose.perm (takeArgument_some took)
      obtain ⟨offered, free⟩ := sockets index (Nat.le_refl _) (by rw [List.length_cons]; omega)
      obtain ⟨next, connected, first, still⟩ := seat_ok tree found offered free apart
      have declared : block.hasSocket (Socket.arg index) = true := by
        simp [Block.hasSocket, offered]
      obtain ⟨g', plugged, seats, left⟩ := ih (index + 1) rest first.tree
        ((first.moves.blocks r).trans found)
        (fun i from_next within => by
          obtain ⟨below, above⟩ := later from_next within
          obtain ⟨shown, empty⟩ := sockets i below above
          refine ⟨shown, first.vacant tree (fun other member => ?_) empty⟩
          simp only [List.mem_singleton, Prod.mk.injEq] at member
          omega) still
      refine ⟨g', ?_, first.append seats ?_, left⟩
      · simpa [get_eq_ok.mpr found, declared, connected, mapError_ok, bind, Except.bind] using plugged
      · intro id member again
        cases List.mem_singleton.mp member
        exact (List.nodup_cons.mp apart.distinct).1
          ((seat_perm ..).mem_iff.mpr (List.mem_append_left _ again))

/-! Dropping. -/

/-- Blocks were deleted with all that hangs from them. -/
structure Drops (g : Graph) (values : List BlockId) (g' : Graph) : Prop where
  tree : g'.Tree
  gone : ∀ {id value}, value ∈ values → g.Climbs id value → g'.block? id = none
  block : ∀ {id}, (∀ value ∈ values, ¬ g.Climbs id value) → g'.block? id = g.block? id
  link : ∀ {id}, (∀ value ∈ values, ¬ g.Climbs id value) → g'.parentLink? id = g.parentLink? id
  reports : Reports (fun id => ∃ value ∈ values, g.Climbs id value) g g'

namespace Drops

theorem refl (tree : g.Tree) : Drops g [] g :=
  ⟨tree, (nomatch ·), fun _ => rfl, fun _ => rfl, .refl g⟩

theorem of_delete (tree : g.Tree) (present : g.contains value = true)
    (top : g.parent? value = none) :
    ∃ doomed g', g.deleteBlock value false = .ok (doomed, g') ∧ Drops g [value] g' := by
  have unlinked : g.parentLink? value = none := by simpa [parent?] using top
  have same : g.detach value false = g := by simp [detach, unlinked]
  obtain ⟨g', deleted, gone, block, link⟩ := tree.deleteBlock_ok present false
  rw [same] at deleted
  simp only [same] at gone block link
  obtain ⟨-, -, ends⟩ := deleteBlock_eq_ok.mp deleted
  refine ⟨_, g', deleted, tree.deleteBlock deleted, ?_, ?_, ?_, ?_⟩
  · intro id other member climbs
    cases List.mem_singleton.mp member
    exact gone climbs
  · exact fun apart => block (apart value (List.mem_singleton_self _))
  · exact fun apart => link (apart value (List.mem_singleton_self _))
  · rw [ends, same]
    refine .foldl_removeNode g fun id member => ?_
    exact ⟨value, List.mem_singleton_self _, (tree.mem_walk present).mp member⟩

theorem narrows (drops : Drops g values g') : g.Narrows g' := by
  refine ⟨fun {child parent} step => ?_⟩
  obtain ⟨hook, linked⟩ := step.exists_link
  by_cases apart : ∀ value ∈ values, ¬ g.Climbs child value
  · exact up_of_parentLink (drops.link apart ▸ linked)
  · simp only [not_forall, not_not] at apart
    obtain ⟨value, member, climbs⟩ := apart
    obtain ⟨block, found⟩ := contains_iff_block.mp (contains_of_parentLink linked)
    cases (drops.gone member climbs).symm.trans found

variable {more : List BlockId}

theorem append (drops : Drops g values g') (further : Drops g' more g'') :
    Drops g (values ++ more) g'' := by
  have split : ∀ {id}, (∀ value ∈ values ++ more, ¬ g.Climbs id value) →
      (∀ value ∈ values, ¬ g.Climbs id value) ∧ ∀ value ∈ more, ¬ g'.Climbs id value :=
    fun apart => ⟨fun value member => apart value (List.mem_append_left _ member),
      fun value member climbs =>
        apart value (List.mem_append_right _ member) (drops.narrows.climbs climbs)⟩
  refine ⟨further.tree, ?_, ?_, ?_, ?_⟩
  · intro id value member climbs
    rw [Option.eq_none_iff_forall_ne_some]
    intro last found
    obtain ⟨middle, there, -⟩ := further.reports.kinds found
    by_cases first : ∀ value ∈ values, ¬ g.Climbs id value
    · rcases List.mem_append.mp member with held | held
      · exact first value held climbs
      · have same : g'.Climbs id value := (climbs_congr fun passed above => by
          rw [parent?, parent?, drops.link fun value member onward =>
            first value member (above.trans onward)]).mpr climbs
        cases (further.gone held same).symm.trans found
    · simp only [not_forall, not_not] at first
      obtain ⟨other, held, above⟩ := first
      cases (drops.gone held above).symm.trans there
  · intro id apart
    obtain ⟨first, later⟩ := split apart
    exact (further.block later).trans (drops.block first)
  · intro id apart
    obtain ⟨first, later⟩ := split apart
    exact (further.link later).trans (drops.link first)
  · refine (drops.reports.weaken ?_).trans (further.reports.weaken ?_)
    · rintro id ⟨value, member, climbs⟩
      exact ⟨value, List.mem_append_left _ member, climbs⟩
    · rintro id ⟨value, member, climbs⟩
      exact ⟨value, List.mem_append_right _ member, drops.narrows.climbs climbs⟩

end Drops

theorem dropArguments_ok {unused : List (String × Option BlockId)} (tree : g.Tree)
    (loose : Loose g r (argumentBlocks unused)) :
    ∃ g', g.dropArguments unused = .ok g' ∧ Drops g (argumentBlocks unused) g' := by
  induction unused generalizing g with
  | nil => exact ⟨g, rfl, .refl tree⟩
  | cons argument unused ih =>
    obtain ⟨name, value⟩ := argument
    cases value with
    | none => exact ih tree loose
    | some value =>
      obtain ⟨alone, others⟩ := List.nodup_cons.mp loose.distinct
      obtain ⟨present, top⟩ := loose.top value (List.mem_cons_self ..)
      obtain ⟨doomed, less, deleted, drops⟩ := Drops.of_delete tree present top
      have still : Loose less r (argumentBlocks unused) := by
        refine ⟨others, fun other held => ?_, fun other held climbs => ?_⟩
        · obtain ⟨there, free⟩ := loose.top other (List.mem_cons_of_mem _ held)
          refine ⟨?_, drops.narrows.top free⟩
          obtain ⟨own, here⟩ := contains_iff_block.mp there
          refine contains_iff_block.mpr ⟨own, (drops.block fun first listed climbs => ?_).trans here⟩
          cases List.mem_singleton.mp listed
          exact alone (top_climbs free climbs ▸ held)
        · exact loose.apart other (List.mem_cons_of_mem _ held) (drops.narrows.climbs climbs)
      obtain ⟨g', dropped, further⟩ := ih drops.tree still
      refine ⟨g', ?_, by simpa using drops.append further⟩
      simpa [dropArguments, deleted, mapError_ok, bind, Except.bind] using dropped

end RobotBlocks.Graph
