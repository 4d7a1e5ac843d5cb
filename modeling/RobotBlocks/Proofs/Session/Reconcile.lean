import RobotBlocks.Proofs.Session.Agreement
import RobotBlocks.Proofs.Session.Settlement

/-! Reconciling makes a reference agree with the declaration that it resolves to. The declarations
may have been collected some edits ago: edits of references never change what is declared. -/
namespace RobotBlocks

theorem EventDecl.ofBlock?_eq_some {block : Block} {event : EventDecl} :
    ofBlock? block = some event ↔
      ∃ params, block.extra = .event params ∧ event = ⟨block.id, block.name, params⟩ := by
  unfold ofBlock?
  cases block.extra <;> simp [eq_comm]

theorem MethodDecl.ofBlock?_eq_some {block : Block} {method : MethodDecl} :
    ofBlock? block = some method ↔
      ∃ state, block.extra = .method state ∧ method = ⟨block.id, block.name, Text.identifier block.name,
        state.visibility, state.returnType, state.params⟩ := by
  unfold ofBlock?
  cases block.extra <;> simp [eq_comm]

namespace Declarations

variable {own : Declarations} {id : Option BlockId} {name : String} {g : Graph}

/-- The block of an event of a graph declares it. -/
theorem event_of_collect {event : EventDecl} (member : event ∈ (collect g).events) :
    ∃ block, g.block? event.block = some block ∧ EventDecl.ofBlock? block = some event := by
  simp only [collect, List.mem_flatMap, List.mem_filterMap, sectionBlocks] at member
  obtain ⟨-, -, block, ⟨id, -, found⟩, declares⟩ := member
  obtain ⟨params, -, rfl⟩ := EventDecl.ofBlock?_eq_some.mp declares
  exact ⟨block, Graph.block?_id found ▸ found, declares⟩

/-- A method of a graph is declared by a top block. -/
theorem top_of_collect {method : MethodDecl} (member : method ∈ (collect g).methods) :
    method.block ∈ g.topBlocks ∧
      ∃ block, g.block? method.block = some block ∧ MethodDecl.ofBlock? block = some method := by
  simp only [collect, List.mem_filterMap] at member
  obtain ⟨block, ⟨id, top, found⟩, declares⟩ := member
  obtain ⟨state, -, rfl⟩ := MethodDecl.ofBlock?_eq_some.mp declares
  cases Graph.block?_id found
  exact ⟨top, block, found, declares⟩

/-- The block of a method of a graph declares it. -/
theorem method_of_collect {method : MethodDecl} (member : method ∈ (collect g).methods) :
    ∃ block, g.block? method.block = some block ∧ MethodDecl.ofBlock? block = some method :=
  (top_of_collect member).2

theorem findEvent?_mem {event : EventDecl} (h : own.findEvent? id name = some event) :
    event ∈ own.events := by
  rcases Option.or_eq_some_iff.mp h with h | ⟨-, h⟩
  · obtain ⟨_, _, h⟩ := Option.bind_eq_some_iff.mp h
    exact List.mem_of_find?_eq_some h
  · exact List.mem_of_find?_eq_some h

theorem findMethod?_mem {method : MethodDecl} (h : own.findMethod? id name = some method) :
    method ∈ own.methods := by
  rcases Option.or_eq_some_iff.mp h with h | ⟨-, h⟩
  · obtain ⟨_, _, h⟩ := Option.bind_eq_some_iff.mp h
    exact List.mem_of_find?_eq_some h
  · exact List.mem_of_find?_eq_some h

end Declarations

theorem Scope.lookup_eq_found {scope : Scope} {own : Declarations} {kind : Kind} {call : CallState}
    {signature : Signature} : scope.lookup own kind call = .found signature ↔
      ∃ owner, scope.owner? own call.target = some owner ∧
        if wantsEvent kind call then
          ∃ event, owner.findEvent? call.declaration call.name = some event ∧ event.signature = signature
        else
          ∃ method, owner.findMethod? call.declaration call.name = some method ∧
            method.signature = signature := by
  unfold lookup
  cases scope.owner? own call.target with
  | none => simp
  | some owner =>
    simp only [Option.some.injEq, exists_eq_left']
    split
    · cases owner.findEvent? call.declaration call.name <;> simp
    · cases owner.findMethod? call.declaration call.name <;> simp

namespace Graph

variable {g g' : Graph} {r id : BlockId} {block : Block} {except : BlockId → Prop}
  {own : Declarations} {scope : Scope}

/-- A signature of the graph's own: the declaring block, if it is still there, declares it. -/
structure Matches (g : Graph) (signature : Signature) : Prop where
  known : signature.block.number < g.nextNumber
  declares : ∀ declared, g.block? signature.block = some declared →
    signature.name = declared.name ∧ some signature.args = declared.extra.params? ∧
      signature.returnType = declared.returnType

structure Faithful (g : Graph) (own : Declarations) : Prop where
  events : ∀ event ∈ own.events, Matches g event.signature
  methods : ∀ method ∈ own.methods, Matches g method.signature

theorem Matches.calm {signature : Signature} (matching : Matches g signature)
    (calm : Calm except g g') (mute : Mute except g) : Matches g' signature := by
  refine ⟨calm.counter ▸ matching.known, fun declared there => ?_⟩
  have before : ∀ before, g.block? signature.block = some before → Shows
      ⟨.selfModule, signature.name, signature.args, signature.returnType, none⟩ before := by
    intro before here
    obtain ⟨named, args, returns⟩ := matching.declares before here
    exact ⟨named, args, returns⟩
  have shows := calm.keeps.declared mute there before
  exact ⟨shows.name, shows.args, shows.returnType⟩

theorem Faithful.calm (faithful : Faithful g own) (calm : Calm except g g')
    (mute : Mute except g) : Faithful g' own :=
  ⟨fun event member => (faithful.events event member).calm calm mute,
    fun method member => (faithful.methods method member).calm calm mute⟩

theorem faithful_collect (steady : g.Steady) : Faithful g (.collect g) := by
  constructor
  · intro event member
    obtain ⟨block, here, declares⟩ := Declarations.event_of_collect member
    refine ⟨steady.early (contains_iff_block.mpr ⟨block, here⟩), fun declared there => ?_⟩
    cases here.symm.trans there
    obtain ⟨params, shape, rfl⟩ := EventDecl.ofBlock?_eq_some.mp declares
    exact ⟨rfl, by simp [EventDecl.signature, shape, ExtraState.params?],
      by simp [EventDecl.signature, Block.returnType, shape]⟩
  · intro method member
    obtain ⟨block, here, declares⟩ := Declarations.method_of_collect member
    refine ⟨steady.early (contains_iff_block.mpr ⟨block, here⟩), fun declared there => ?_⟩
    cases here.symm.trans there
    obtain ⟨state, shape, rfl⟩ := MethodDecl.ofBlock?_eq_some.mp declares
    exact ⟨rfl, by simp [MethodDecl.signature, shape, ExtraState.params?],
      by simp [MethodDecl.signature, Block.returnType, shape]⟩

/-- What a local reference resolves to is one of the graph's own declarations. -/
theorem Faithful.lookup {kind : Kind} {call : CallState} {signature : Signature}
    (faithful : Faithful g own) (isLocal : call.target.isLocal = true)
    (found : scope.lookup own kind call = .found signature) : Matches g signature := by
  have owner : scope.owner? own call.target = some own := by
    cases target : call.target with
    | selfModule => rfl
    | fireEvent => rfl
    | _ => simp [target, CallTarget.isLocal] at isLocal
  obtain ⟨owner', owned, declares⟩ := Scope.lookup_eq_found.mp found
  cases owner.symm.trans owned
  split at declares
  · obtain ⟨event, listed, rfl⟩ := declares
    exact faithful.events _ (Declarations.findEvent?_mem listed)
  · obtain ⟨method, listed, rfl⟩ := declares
    exact faithful.methods _ (Declarations.findMethod?_mem listed)

/-! One reference. -/

/-- A reference that is brought in line has the call that the signature asks for. -/
theorem reconcile_recalled {call : CallState} {signature : Signature}
    {named shaped : Graph} (steady : g.Steady) (found : g.block? r = some block)
    (carried : block.extra = .call call)
    (renames : if isStale call signature then
        g.updateCall r (fun call =>
          { call with
            declaration := some signature.block
            name := signature.name
            returnType := signature.returnType }) = .ok named
      else named = g)
    (reshapes : if call.args ≠ signature.args then
        named.regenerateArguments r (signature.args.map .kept) = .ok shaped
      else shaped = named)
    (clears : shaped.setWarning r none = .ok g')
    (known : call.target.isLocal = true → signature.block.number < g.nextNumber) :
    Recalled r block ⟨call.target, signature.name, signature.args, signature.returnType,
      some signature.block⟩ g g' := by
  have first : Recalled r block
      { call with
        declaration := some signature.block
        name := signature.name
        returnType := signature.returnType } g named := by
    split at renames
    · exact .updateCall found (steady.isReference found carried) carried renames
    · next current =>
      simp only [isStale, Bool.or_eq_true, decide_eq_true_iff, not_or, not_not] at current
      obtain ⟨⟨declaration, name⟩, returns⟩ := current
      subst renames
      refine ⟨.refl named, .refl, block, found, rfl, ?_⟩
      rw [carried, ← declaration, ← name, ← returns]
  obtain ⟨middle, there, kind, extra⟩ := first.found
  have steady₁ : named.Steady := by
    apply steady.recalled found carried first
    intro isLocal d names
    cases names
    exact known isLocal
  have second : Recalled r middle ⟨call.target, signature.name, signature.args,
      signature.returnType, some signature.block⟩ named shaped := by
    split at reshapes
    · have shown := Recalled.regenerateArguments steady₁.sound there (steady₁.isReference there extra)
        extra reshapes
      have params : (signature.args.map ParamChange.kept).map (·.param) = signature.args := by
        rw [List.map_map]
        exact List.map_id _
      rwa [params] at shown
    · next current =>
      subst reshapes
      refine ⟨.refl shaped, .refl, middle, there, rfl, ?_⟩
      rw [extra, ← not_not.mp current]
  exact (first.trans second there).setWarning clears

/-- Reconciling one reference leaves all references in agreement. -/
theorem Attuned.reconcile {outcome : Reconciled} (attuned : g.Attuned) (faithful : Faithful g own)
    (h : g.reconcile own scope r = .ok (outcome, g')) : g'.Attuned ∧ Faithful g' own := by
  rcases reconcile_cases h with ⟨-, rfl⟩ | ⟨-, name, warns⟩ | resolved
  · exact ⟨attuned, faithful⟩
  · have calm := Calm.setWarning warns
    exact ⟨attuned.calmAll calm (Evolves.allows.setWarning warns), faithful.calm calm (mute_all g)⟩
  · obtain ⟨call, signature, named, shaped, got, ⟨block, found, lookup⟩, renames, reshapes, clears⟩ :=
      resolved
    obtain ⟨same, here, carried⟩ := getCall_eq_ok.mp got
    cases found.symm.trans here
    have matching : call.target.isLocal = true → Matches g signature := fun isLocal =>
      faithful.lookup isLocal lookup
    have recalled := reconcile_recalled attuned.toSteady found carried renames reshapes clears
      fun isLocal => (matching isLocal).known
    refine ⟨⟨?_, fun other => ?_⟩, faithful.calm recalled.calm (mute_of_call found carried)⟩
    · apply attuned.recalled found carried recalled
      intro isLocal d names
      cases names
      exact (matching isLocal).known
    · by_cases self : other = r
      · subst self
        apply recalled.agrees found carried
        intro isLocal d declared names there
        cases names
        -- What waits tells of the declaration as it is, which the reference shows by now.
        obtain ⟨name, args, returns⟩ := (matching isLocal).declares declared there
        exact Shows.hear ⟨name, args, returns⟩ (attuned.holds there)
      · exact (attuned.agrees other).recalled found carried recalled self

theorem Attuned.reconcileEach (attuned : g.Attuned) (faithful : Faithful g own) (ids : List BlockId)
    (report : ReconcileReport) : (reconcileEach own scope g ids report).2.Attuned := by
  induction ids generalizing g report with
  | nil => exact attuned
  | cons id ids ih =>
    unfold Graph.reconcileEach
    split
    · next outcome after ran =>
      obtain ⟨attuned, faithful⟩ := attuned.reconcile faithful ran
      exact ih attuned faithful (report.count outcome)
    · next stop left ran =>
      cases attuned.sound.reconcile_error ran
      exact ih attuned faithful report

theorem Attuned.reconcileAll (attuned : g.Attuned) (scope : Scope) : (g.reconcileAll scope).2.Attuned :=
  attuned.reconcileEach (faithful_collect attuned.toSteady) g.references {}

/-- The reaction to a fresh reference. -/
theorem Attuned.react (attuned : g.Attuned) (scope : Scope) (event : Event) :
    (Reaction.reconcile scope r event g).graph.Attuned := by
  unfold Reaction.reconcile
  cases ran : g.reconcile (.collect g) scope r with
  | error stop =>
    obtain ⟨error, left⟩ := stop
    cases attuned.sound.reconcile_error ran
    exact attuned
  | ok result => exact (attuned.reconcile (faithful_collect attuned.toSteady) ran).1

end Graph
end RobotBlocks
