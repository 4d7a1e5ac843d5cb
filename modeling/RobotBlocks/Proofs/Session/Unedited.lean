import RobotBlocks.Proofs.ParameterEditor.Decomposition
import RobotBlocks.Proofs.Session.Loading
import RobotBlocks.Proofs.Session.Propagation

/-! A parameter editor that is opened and applied as it is. The declaration gets the parameters that it had, and
each reference has its arguments taken out and put back. As the names of the parameters differ, every argument
finds its own socket again, so none is deleted; and what is told of it is about references and arguments alone,
which no reaction answers. -/
namespace RobotBlocks

variable {name : String} {param : Parameter} {params : List Parameter} {i : Nat}

theorem positionsOf_eq_nil : positionsOf name params = [] ↔ name ∉ params.map (·.name) := by
  induction params with
  | nil => simp
  | cons param params ih =>
    rw [positionsOf_cons, List.append_eq_nil_iff, List.map_eq_nil_iff, ih, List.map_cons, List.mem_cons, not_or]
    refine and_congr_left fun _ => ?_
    by_cases here : param.name = name
    · simp [here]
    · simp [here, Ne.symm here]

/-- Where names differ, each one stands at one position. -/
theorem positionsOf_of_distinct (distinct : (params.map (·.name)).Nodup) (there : params[i]? = some param) :
    positionsOf param.name params = [i] := by
  induction params generalizing i with
  | nil => cases there
  | cons first params ih =>
    obtain ⟨once, distinct⟩ := List.nodup_cons.mp distinct
    rw [positionsOf_cons]
    cases i with
    | zero =>
      cases there
      rw [if_pos rfl, positionsOf_eq_nil.mpr once]
      rfl
    | succ i =>
      rw [List.getElem?_cons_succ] at there
      have other : first.name ≠ param.name := fun same =>
        once (List.mem_map.mpr ⟨param, List.mem_of_getElem? there, same.symm⟩)
      rw [if_neg other, ih distinct there]
      rfl

@[simp] theorem ParamChange.map_param_kept (params : List Parameter) :
    (params.map ParamChange.kept).map (·.param) = params := by
  rw [List.map_map]
  exact List.map_id params

/-- The block of a reference, with what its call asks for. -/
def Block.restated (block : Block) : Block := block.extra.call?.elim block (Graph.callBlock block)

theorem Block.restated_of_call {block : Block} {call : CallState} (carried : block.extra = .call call) :
    block.restated = Graph.callBlock block call := by
  rw [restated, carried, ExtraState.call?, Option.elim_some]

namespace Graph

variable {g g' g'' : Graph} {r value : BlockId} {block : Block} {todo : List BlockId}

/-! One reference. -/

/-- An argument finds its socket again. -/
theorem Tree.seatOf?_same (tree : g.Tree) (distinct : (params.map (·.name)).Nodup) (within : i < params.length)
    (linked : g.parentLink? value = some (r, .socket (Socket.arg i))) :
    seatOf? (seat 0 (params.map .kept) (g.held r 0 params)).1 value = some i := by
  have place := positionsOf_of_distinct distinct (List.getElem?_eq_getElem within)
  have plugged : g.plugged? r (Socket.arg i) = some value := tree.child?_eq_some.mpr linked
  have under : (blocksUnder params[i].name (g.held r 0 params))[0]? = some value := by
    rw [blocksUnder_held, place, List.filterMap_cons_some (by rwa [Nat.zero_add])]
    rfl
  rw [seatOf?_seat tree.held_nodup under, place]
  rfl

/-- No argument is left over. -/
theorem Tree.unused_same (tree : g.Tree) (distinct : (params.map (·.name)).Nodup) :
    argumentBlocks (seat 0 (params.map .kept) (g.held r 0 params)).2 = [] := by
  refine List.eq_nil_iff_forall_not_mem.mpr fun value unused => ?_
  have member := (seat_perm ..).mem_iff.mpr (List.mem_append_right _ unused)
  obtain ⟨i, -, within, linked⟩ := tree.mem_held.mp member
  rw [Nat.zero_add] at within
  cases (tree.seatOf?_same distinct within linked).symm.trans
    ((seatOf?_eq_none_iff tree.held_nodup member).mpr unused)

/-- References have what their calls ask for, nothing else has changed, and what was told is about the references
and their arguments. -/
structure Restates (todo : List BlockId) (g g' : Graph) : Prop where
  block : ∀ id, g'.block? id = if id ∈ todo then (g.block? id).map Block.restated else g.block? id
  link : ∀ id, g'.parentLink? id = g.parentLink? id
  reports : Reports (fun id => ∃ r ∈ todo, id = r ∨ ∃ i, g.parentLink? id = some (r, .socket (Socket.arg i))) g g'

/-- A call has the parameters. -/
def CallsWith (params : List Parameter) (block : Block) : Prop := ∃ call, block.extra = .call call ∧ call.args = params

/-- Where nothing is plugged nothing is taken out. -/
theorem liftArguments_none {index : Nat} (empty : ∀ i, index ≤ i → i < index + params.length →
    g.plugged? r (Socket.arg i) = none) : ∃ lifted, g.liftArguments r index params = .ok (lifted, g) := by
  induction params generalizing index with
  | nil => exact ⟨[], rfl⟩
  | cons param params ih =>
    obtain ⟨lifted, rest⟩ : ∃ lifted, g.liftArguments r (index + 1) params = .ok (lifted, g) :=
      ih fun i later within => empty i (by omega) (by rw [List.length_cons]; omega)
    have vacant := empty index (Nat.le_refl _) (by rw [List.length_cons]; omega)
    refine ⟨(param.name, none) :: lifted, ?_⟩
    simp [liftArguments, vacant, rest, bind, Except.bind, pure, Except.pure]

/-- A reference without arguments in which a block strays is skipped. -/
theorem regenerateArguments_skips (found : g.block? r = some block) (calls : CallsWith params block)
    (strays : g.strays r = true) (empty : ∀ i < params.length, g.plugged? r (Socket.arg i) = none) :
    ∃ error, g.regenerateArguments r (params.map .kept) = .error (error, g) := by
  obtain ⟨call, carried, rfl⟩ := calls
  obtain ⟨lifted, lifts⟩ := liftArguments_none fun i _ within => empty i (by rwa [Nat.zero_add] at within)
  obtain ⟨error, refused⟩ := updateCall_of_strays
    (fun own => { own with args := (call.args.map ParamChange.kept).map (·.param) }) found carried
    (by rw [ParamChange.map_param_kept]) strays
  refine ⟨error, ?_⟩
  simp only [Graph.regenerateArguments, getCall_eq_ok.mpr ⟨block, found, carried⟩, mapError_ok, ok_bind, lifts, refused]
  rfl

namespace Restates

theorem refl (g : Graph) : Restates [] g g :=
  ⟨fun _ => (if_neg List.not_mem_nil).symm, fun _ => rfl, .refl g⟩

theorem cons (first : Restates [r] g g') (rest : Restates todo g' g'') (once : r ∉ todo) :
    Restates (r :: todo) g g'' := by
  refine ⟨fun id => ?_, fun id => (rest.link id).trans (first.link id), ?_⟩
  · rw [rest.block, first.block]
    by_cases here : id = r
    · simp [here, once]
    · simp [here]
  · refine (first.reports.weaken fun id => ?_).trans (rest.reports.weaken fun id => ?_)
    · rintro ⟨own, member, about⟩
      exact ⟨own, List.mem_cons.mpr (.inl (List.mem_singleton.mp member)), about⟩
    · rintro ⟨own, member, about⟩
      simp only [first.link] at about
      exact ⟨own, List.mem_cons_of_mem _ member, about⟩

/-- The parameters that a reference has do nothing to it. -/
theorem regenerateArguments (tree : g.Tree) (distinct : (params.map (·.name)).Nodup)
    (found : g.block? r = some block) (calls : CallsWith params block) (fits : g.strays r = false) :
    ∃ g', g.regenerateArguments r (params.map .kept) = .ok g' ∧ g'.Tree ∧ Restates [r] g g' := by
  obtain ⟨call, carried, rfl⟩ := calls
  obtain ⟨g', ran, rearranged⟩ := tree.regenerateArguments_ok found fits carried (call.args.map .kept)
  have reports := regenerateArguments_reports tree found fits carried ran
  have unused : argumentBlocks (seat 0 (call.args.map .kept) (g.held r 0 call.args)).2 = [] :=
    tree.unused_same distinct
  have stays : ∀ {id}, ∀ value ∈ argumentBlocks (seat 0 (call.args.map .kept) (g.held r 0 call.args)).2,
      ¬ g.Climbs id value := fun value member => by simp [unused] at member
  have same : callBlock block { call with args := (call.args.map ParamChange.kept).map (·.param) } =
      block.restated := by
    rw [Block.restated_of_call carried, ParamChange.map_param_kept]
  refine ⟨g', ran, rearranged.tree, fun id => ?_, fun id => ?_, reports.weaken ?_⟩
  · rw [rearranged.block stays, same]
    by_cases here : id = r
    · simp [here, found]
    · simp [here]
  · rw [rearranged.link stays]
    split
    · next member =>
      obtain ⟨i, -, within, linked⟩ := tree.mem_held.mp member
      rw [tree.seatOf?_same distinct (by rwa [Nat.zero_add] at within) linked, linked]
      rfl
    · rfl
  · rintro id (same | argument | ⟨value, member, -⟩)
    · exact ⟨r, List.mem_singleton_self r, .inl same⟩
    · obtain ⟨i, -, -, linked⟩ := tree.mem_held.mp argument
      exact ⟨r, List.mem_singleton_self r, .inr ⟨i, linked⟩⟩
    · simp [unused] at member

/-! All references. -/

/-- References in which a block strays are skipped. -/
theorem mutateEach (tree : g.Tree) (distinct : (params.map (·.name)).Nodup) (once : todo.Nodup)
    (calls : ∀ r ∈ todo, ∃ block, g.block? r = some block ∧ CallsWith params block)
    (empty : ∀ r ∈ todo, g.strays r = true → ∀ i < params.length, g.plugged? r (Socket.arg i) = none) :
    Restates (todo.filter fun r => !g.strays r) g (g.mutateEach (params.map .kept) todo).2 := by
  unfold Graph.mutateEach
  induction todo generalizing g with
  | nil => exact refl g
  | cons r todo ih =>
    obtain ⟨outside, once⟩ := List.nodup_cons.mp once
    obtain ⟨⟨block, found, own⟩, others⟩ := List.forall_mem_cons.mp calls
    obtain ⟨bare, empty⟩ := List.forall_mem_cons.mp empty
    unfold updateEach
    cases fits : g.strays r with
    | true =>
      obtain ⟨error, skipped⟩ := regenerateArguments_skips found own fits (bare fits)
      rw [List.filter_cons_of_neg (by simp [fits]), skipped]
      exact ih tree once others empty
    | false =>
      obtain ⟨g', ran, tree', first⟩ := regenerateArguments tree distinct found own fits
      have kept : ∀ other ∈ todo, g'.block? other = g.block? other := fun other member => by
        refine (first.block other).trans (if_neg fun own => outside ?_)
        rwa [← List.mem_singleton.mp own]
      have fitting : ∀ other ∈ todo, g'.strays other = g.strays other := fun other member =>
        strays_congr tree tree' (kept other member) first.link
      have plugged : ∀ other socket, g'.plugged? other socket = g.plugged? other socket := fun other socket =>
        tree.child?_congr tree' first.link other (.socket socket)
      have rest := ih tree' once (fun other member => kept other member ▸ others other member)
        fun other member strays i within => by
          rw [plugged]
          exact empty other member (fitting other member ▸ strays) i within
      rw [List.filter_congr fun other member => by rw [fitting other member]] at rest
      rw [List.filter_cons_of_pos (by simp [fits]), ran]
      exact first.cons rest fun member => outside (List.mem_of_mem_filter member)

end Restates

/-- A declaration has and shows the parameters, its references have what their calls ask for, and all else is as it
was. -/
structure Reshown (g : Graph) (d : BlockId) (params : List Parameter) (g' : Graph) : Prop where
  own : ∀ {declared}, g.block? d = some declared → g'.block? d = some (declared.declaring params)
  other : ∀ {id}, id ≠ d → g'.block? id =
    if id ∈ g.callersOf d ∧ g.strays id = false then (g.block? id).map Block.restated else g.block? id
  link : ∀ id, g'.parentLink? id = g.parentLink? id

namespace Reshown

variable {d : BlockId} {declared : Block}

/-- The parameters were set, and then the references stated what they state. -/
theorem of_set {set : Graph} (tree : g.Tree) (found : g.block? d = some declared)
    (kind : declared.kind.isDeclaration = true) (declares : declared.extra.params?.isSome = true)
    (signs : g.setSignature d (params.map .kept) = .ok set)
    (blocks : ∀ id, g'.block? id = if id ∈ g.callersOf d ∧ g.strays id = false
      then (set.block? id).map Block.restated else set.block? id)
    (links : ∀ id, g'.parentLink? id = set.parentLink? id) : g.Reshown d params g' := by
  have apart : d ∉ g.callersOf d := fun member => tree.ne_of_caller found kind member rfl
  refine ⟨fun {own} here => ?_, fun {id} differs => ?_, fun id => ?_⟩
  · cases found.symm.trans here
    obtain ⟨set', signs', signed⟩ := ParameterEditor.setSignature_ok found declares (params.map .kept)
    cases signs.symm.trans signs'
    rw [blocks, if_neg fun both => apart both.1, signed, ParamChange.map_param_kept]
  · rw [blocks, block?_setSignature signs, if_neg differs]
  · rw [links, parentLink?_setSignature signs]

variable (shown : g.Reshown d params g')
include shown

theorem contains (found : g.block? d = some declared) (id : BlockId) : g'.contains id = g.contains id := by
  rw [Bool.eq_iff_iff, contains_iff_block, contains_iff_block]
  by_cases here : id = d
  · exact here ▸ ⟨fun _ => ⟨_, found⟩, fun _ => ⟨_, shown.own found⟩⟩
  · rw [shown.other here]
    split
    · simp only [← Option.isSome_iff_exists, Option.isSome_map]
    · rfl

theorem reference (tree : g.Tree) (found : g.block? d = some declared) (kind : declared.kind.isDeclaration = true)
    (member : r ∈ g.callersOf d) : ∃ block call, g.block? r = some block ∧ block.extra = .call call ∧
      g'.block? r = some (if g.strays r then block else callBlock block call) := by
  obtain ⟨block, call, there, -, carried, -⟩ := (mem_callersOf tree).mp member
  refine ⟨block, call, there, carried, ?_⟩
  rw [shown.other (tree.ne_of_caller found kind member)]
  cases fits : g.strays r with
  | true => simpa using there
  | false => simp [member, there, Block.restated_of_call carried]

end Reshown

end Graph

namespace Session

variable {s : Session} {g : Graph} {d : BlockId} {declared : Block}

/-- The parameters that the references to a declaration have do nothing to them. -/
theorem Open.restated (opened : s.Open) (tree : s.graph.Tree) (idle : s.graph.pending.toList = [])
    (found : s.graph.block? d = some declared) (kind : declared.kind.isDeclaration = true)
    (declares : declared.extra.params?.isSome = true) (distinct : (params.map (·.name)).Nodup)
    (calls : ∀ r ∈ s.graph.callersOf d, ∀ block call, s.graph.block? r = some block → block.extra = .call call →
      call.args = params)
    (arguments : ∀ r ∈ s.graph.callersOf d, ∀ i < params.length, ∀ value,
      s.graph.plugged? r (Socket.arg i) = some value →
        s.graph.strays r = false ∧ ∃ block, s.graph.block? value = some block ∧ block.kind.isArgument = true)
    (set : s.graph.setSignature d (params.map .kept) = .ok g) :
    s.graph.Reshown d params (s.withGraph g).graph := by
  have waiting := Graph.waiting_setSignature idle found set
  have treeSet := tree.setSignature set
  have treeIdle : Graph.Tree { g with pending := {} } := treeSet.congr rfl (fun _ => rfl) fun _ => rfl
  have blocks := Graph.block?_setSignature set
  have links := Graph.parentLink?_setSignature set
  have callers : ∀ id, id ∈ g.callersOf d ↔ id ∈ s.graph.callersOf d := fun _ =>
    Graph.mem_callersOf_setSignature tree found kind set
  have before : ∀ r ∈ s.graph.callersOf d, g.block? r = s.graph.block? r := fun r caller =>
    (blocks r).trans (if_neg (tree.ne_of_caller found kind caller))
  have fitting : ∀ r ∈ s.graph.callersOf d, g.strays r = s.graph.strays r := fun r caller =>
    Graph.strays_congr tree treeSet (before r caller) links
  have plugged : ∀ r socket, g.plugged? r socket = s.graph.plugged? r socket := fun r socket =>
    tree.child?_congr treeSet links r (.socket socket)
  have restates : Graph.Restates ((g.callersOf d).filter fun r => !g.strays r) { g with pending := {} }
      (Graph.mutateCallers { g with pending := {} } d (params.map .kept)).2 := by
    refine .mutateEach treeIdle distinct (Graph.callersOf_nodup treeIdle d) (fun r member => ?_)
      fun r member strays i within => ?_
    · obtain ⟨block, call, there, -, carried, -⟩ := (Graph.mem_callersOf treeIdle).mp member
      have caller := (callers r).mp member
      exact ⟨block, there, call, carried, calls r caller block call ((before r caller).symm.trans there) carried⟩
    · refine Option.eq_none_iff_forall_ne_some.mpr fun value holds => ?_
      have caller := (callers r).mp member
      have fits := (arguments r caller i within value ((plugged r _).symm.trans holds)).1
      cases strays.symm.trans ((fitting r caller).trans fits)
  -- What is told is about references and their arguments, so no reaction answers it.
  obtain ⟨pending, ends⟩ := opened.withGraph_idle waiting (Registry.dispatch_reshaped kind) <| by
    obtain ⟨told, appended, tells⟩ := restates.reports.events
    intro event member
    rw [appended] at member
    obtain ⟨id, block, payload, ⟨r, listed, about⟩, there, ⟨other, -⟩, rfl⟩ := tells event member
    obtain ⟨caller, fits⟩ := List.mem_filter.mp listed
    refine ⟨id, block.kind, payload, rfl, other, ?_⟩
    rcases about with rfl | ⟨i, linked⟩
    · exact .inl (treeIdle.refersAt_caller caller block there)
    · have caller := (callers r).mp caller
      have linked : s.graph.parentLink? id = some (r, .socket (Socket.arg i)) := (links id).symm.trans linked
      obtain ⟨own, call, here, -, carried, -⟩ := (Graph.mem_callersOf tree).mp caller
      rw [Bool.not_eq_true', fitting r caller] at fits
      obtain ⟨socket, asked, named⟩ := tree.declared_of_link here fits linked
      obtain ⟨method, -⟩ := Socket.of_arg asked named
      rw [method, carried] at asked
      have within : i < params.length := calls r caller own call here carried ▸
        Graph.declared_arg.mp ⟨socket, asked, named⟩
      obtain ⟨-, before, here, argument⟩ := arguments r caller i within id (tree.child?_eq_some.mpr linked)
      have reports : Graph.Reports (fun _ => True) s.graph g := .setSignature set trivial
      obtain ⟨before', here', same⟩ := reports.kinds there
      cases here.symm.trans here'
      exact .inr (same ▸ argument)
  rw [ends]
  refine .of_set tree found kind declares set (fun id => (restates.block id).trans ?_) restates.link
  have listed : id ∈ (g.callersOf d).filter (fun r => !g.strays r) ↔
      id ∈ s.graph.callersOf d ∧ s.graph.strays id = false := by
    rw [List.mem_filter, callers, Bool.not_eq_true']
    exact and_congr_right fun caller => by rw [fitting id caller]
  rw [← if_congr listed rfl rfl]
  rfl

end Session
end RobotBlocks
