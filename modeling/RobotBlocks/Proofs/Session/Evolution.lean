import RobotBlocks.Proofs.Graph.Assembly
import RobotBlocks.Session

/-! Reactions edit a graph step by step. Each of them is a run of edits that create no block, so
whatever such edits keep is kept by the handling of any number of events. -/
namespace RobotBlocks
namespace Graph

variable {g g' g'' : Graph} {id declaration : BlockId}

/-- What bringing a reference in line does: nothing, a warning, or first the name and then the
parameters of the declaration that was found. -/
theorem reconcile_cases {own : Declarations} {scope : Scope} {outcome : Reconciled}
    (h : g.reconcile own scope id = .ok (outcome, g')) :
    ((outcome = .unchanged ∨ outcome = .skipped) ∧ g' = g) ∨
    (outcome = .dangling ∧ ∃ name, g.setWarning id (some (missingWarning name)) = .ok g') ∨
    ∃ call signature named shaped, g.getCall id = .ok call ∧
      (∃ block, g.block? id = some block ∧ scope.lookup own block.kind call = .found signature) ∧
      (if isStale call signature then
        g.updateCall id (fun call =>
          { call with
            declaration := some signature.block
            name := signature.name
            returnType := signature.returnType }) = .ok named
      else named = g) ∧
      (if call.args ≠ signature.args then
        named.regenerateArguments id (signature.args.map .kept) = .ok shaped
      else shaped = named) ∧
      shaped.setWarning id none = .ok g' := by
  simp only [Graph.reconcile, bind_eq_ok, mapError_eq_ok, get_eq_ok] at h
  obtain ⟨block, found, h⟩ := h
  cases carried : block.extra.call? with
  | none =>
    simp only [carried, pure_eq_ok, Prod.mk.injEq] at h
    exact .inl ⟨.inl h.1.symm, h.2.symm⟩
  | some call =>
    have got : g.getCall id = .ok call := by
      simp only [getCall, bind_eq_ok, get_eq_ok]
      exact ⟨block, found, by simp only [carried, pure_eq_ok]⟩
    cases resolved : scope.lookup own block.kind call with
    | missing =>
      simp only [carried, resolved, bind_eq_ok, mapError_eq_ok, pure_eq_ok, Prod.mk.injEq] at h
      obtain ⟨warned, warns, rfl, rfl⟩ := h
      exact .inr (.inl ⟨rfl, call.name, warns⟩)
    | unresolvable =>
      simp only [carried, resolved, pure_eq_ok, Prod.mk.injEq] at h
      exact .inl ⟨.inr h.1.symm, h.2.symm⟩
    | found signature =>
      refine .inr (.inr ⟨call, signature, ?_⟩)
      simp only [carried, resolved] at h
      have finish : ∀ {named : Graph} {result : Reconciled},
          (if call.args ≠ signature.args then do
            let shaped ← named.regenerateArguments id (signature.args.map .kept)
            let cleared ← (shaped.setWarning id none).mapError (·, shaped)
            return (result, cleared)
          else do
            let shaped ← pure named
            let cleared ← (shaped.setWarning id none).mapError (·, shaped)
            return (result, cleared)) = .ok (outcome, g') →
          ∃ shaped, (if call.args ≠ signature.args then
              named.regenerateArguments id (signature.args.map .kept) = .ok shaped
            else shaped = named) ∧ shaped.setWarning id none = .ok g' := by
        intro named result ran
        split at ran
        · next reshaped =>
          simp only [bind_eq_ok, mapError_eq_ok, pure_eq_ok, Prod.mk.injEq] at ran
          obtain ⟨shaped, reshapes, _, clears, -, rfl⟩ := ran
          exact ⟨shaped, by rwa [if_pos reshaped], clears⟩
        · next shown =>
          simp only [bind_eq_ok, mapError_eq_ok, pure_eq_ok, Prod.mk.injEq] at ran
          obtain ⟨_, rfl, _, clears, -, rfl⟩ := ran
          exact ⟨named, by rw [if_neg shown], clears⟩
      by_cases stale : isStale call signature = true
      · simp only [stale, if_true, bind_eq_ok, mapError_eq_ok] at h ⊢
        obtain ⟨named, renames, h⟩ := h
        obtain ⟨shaped, reshapes, clears⟩ := finish h
        exact ⟨named, shaped, got, ⟨block, found, resolved⟩, renames, reshapes, clears⟩
      · simp only [stale, Bool.false_eq_true, if_false] at h ⊢
        obtain ⟨named, same, h⟩ := bind_eq_ok.mp h
        obtain ⟨shaped, reshapes, clears⟩ := finish h
        exact ⟨g, shaped, got, ⟨block, found, resolved⟩, rfl, pure_eq_ok.mp same ▸ reshapes, clears⟩

/-- What some edits lead to: done, their result has one property, and stopped half-way, the graph that they leave
has another one. -/
def Leads {α : Type} (done : α → Prop) (stopped : Graph → Prop) : Except (GraphError × Graph) α → Prop
  | .ok result => done result
  | .error (_, left) => stopped left

namespace Leads

variable {α β : Type} {done weaker : α → Prop} {after : β → Prop} {stopped laxer : Graph → Prop}
  {x : Except (GraphError × Graph) α} {f : α → Except (GraphError × Graph) β}

theorem ok {result : α} (leads : Leads done stopped x) (h : x = .ok result) : done result := by
  subst h
  exact leads

theorem error {error : GraphError} {left : Graph} (leads : Leads done stopped x) (h : x = .error (error, left)) :
    stopped left := by
  subst h
  exact leads

theorem of_cases (ran : ∀ result, x = .ok result → done result)
    (stops : ∀ error left, x = .error (error, left) → stopped left) : Leads done stopped x := by
  cases x with
  | ok result => exact ran result rfl
  | error stop => exact stops stop.1 stop.2 rfl

theorem mono (leads : Leads done stopped x) (weaken : ∀ result, done result → weaker result)
    (relax : ∀ left, stopped left → laxer left) : Leads weaker laxer x := by
  cases x with
  | ok result => exact weaken result leads
  | error stop => exact relax stop.2 leads

theorem bind (first : Leads done stopped x) (next : ∀ result, done result → Leads after stopped (f result)) :
    Leads after stopped (x >>= f) := by
  cases x with
  | ok result => exact next result first
  | error stop => exact first

/-- One edit that is refused as a whole. -/
theorem whole {edit : Except GraphError α} (ran : ∀ result, edit = .ok result → done result) (kept : stopped g) :
    Leads done stopped (edit.mapError (·, g)) := by
  cases edit with
  | ok result => exact ran result rfl
  | error error => exact kept

theorem map {f : α → β} (leads : Leads (fun result => after (f result)) stopped x) : Leads after stopped (f <$> x) := by
  cases x with
  | ok result => exact leads
  | error stop => exact leads

theorem response {P : Graph → Prop} {edits : Except (GraphError × Graph) Graph} (leads : Leads P P edits) :
    P (Response.ofEdits edits).graph := by
  cases edits with
  | ok edited => exact leads
  | error stop => exact leads

/-- Something read that may not be there. -/
theorem attempt {read : Except GraphError α} (kept : stopped g) :
    Leads (fun _ => True) stopped (read.mapError (·, g)) :=
  whole (fun _ _ => trivial) kept

end Leads

/-- What each edit of a block obeys, the edits of one block after the other obey. A block that may be edited still
may after the edits of others. -/
theorem updateEach_obeys {P : Graph → BlockId → Prop} {R : Graph → Graph → Prop}
    {edit : Graph → BlockId → Except (GraphError × Graph) Graph} {ids : List BlockId} (refl : ∀ g, R g g)
    (trans : ∀ {g g' g''}, R g g' → R g' g'' → R g g'') (stays : ∀ {g g' id}, R g g' → P g id → P g' id)
    (each : ∀ {g id}, P g id → Leads (R g) (R g) (edit g id)) (may : ∀ id ∈ ids, P g id) :
    R g (updateEach edit g ids).2 := by
  induction ids generalizing g with
  | nil => exact refl g
  | cons id ids ih =>
    obtain ⟨own, others⟩ := List.forall_mem_cons.mp may
    have rest : ∀ {next}, R g next → R g (updateEach edit next ids).2 := fun first =>
      trans first (ih fun other member => stays first (others other member))
    unfold updateEach
    split
    · next edited ran => exact rest ((each own).ok ran)
    · next stop left ran => exact rest ((each own).error ran)

/-- A relation between graphs that moves and deletions obey, one or many. -/
structure Rearranges (R : Graph → Graph → Prop) : Prop where
  refl : ∀ g, R g g
  trans : ∀ {g g' g''}, R g g' → R g' g'' → R g g''
  unplug : ∀ {g id heal g'}, g.unplug id heal = .ok g' → R g g'
  connectSocket : ∀ {g parent socket child g'}, g.connectSocket parent socket child = .ok g' → R g g'
  deleteBlock : ∀ {g id heal doomed g'}, g.deleteBlock id heal = .ok (doomed, g') → R g g'

/-- A relation between graphs that warnings obey, too. -/
structure Allows (R : Graph → Graph → Prop) : Prop extends Rearranges R where
  setWarning : ∀ {g id warning g'}, g.setWarning id warning = .ok g' → R g g'

namespace Rearranges

variable {R : Graph → Graph → Prop} (allows : Rearranges R)
include allows

theorem liftArguments (g : Graph) (id : BlockId) (index : Nat) (params : List Parameter) :
    Leads (fun result => R g result.2) (R g) (g.liftArguments id index params) := by
  induction params generalizing g index with
  | nil => exact allows.refl g
  | cons param params ih =>
    have rest : ∀ loose, R g loose →
        Leads (fun result => R g result.2) (R g) (loose.liftArguments id (index + 1) params) :=
      fun loose first => (ih loose (index + 1)).mono (fun _ => allows.trans first) fun _ => allows.trans first
    unfold Graph.liftArguments
    cases g.plugged? id (Socket.arg index) with
    | none => exact (rest g (allows.refl g)).bind fun _ lifted => lifted
    | some value =>
      exact (Leads.whole (fun _ freed => allows.unplug freed) (allows.refl g)).bind fun loose first =>
        (rest loose first).bind fun _ lifted => lifted

theorem plugArguments (g : Graph) (id : BlockId) (index : Nat) (changes : List ParamChange)
    (lifted : List (String × Option BlockId)) :
    Leads (fun result => R g result.2) (R g) (g.plugArguments id index changes lifted) := by
  induction changes generalizing g index lifted with
  | nil => exact allows.refl g
  | cons change changes ih =>
    unfold Graph.plugArguments
    split
    · exact ih g (index + 1) lifted
    · next value rest _ =>
      have further : ∀ placed, R g placed → Leads (fun result => R g result.2) (R g)
          (placed.plugArguments id (index + 1) changes rest) := fun placed first =>
        (ih placed (index + 1) rest).mono (fun _ => allows.trans first) fun _ => allows.trans first
      refine (Leads.attempt (allows.refl g)).bind fun block _ => ?_
      dsimp only
      split
      · exact (Leads.whole (fun _ moved => allows.connectSocket moved) (allows.refl g)).bind further
      · refine (Leads.whole (fun _ moved => ?_) (allows.refl g)).bind further
        obtain ⟨⟨doomed, last⟩, deleted, rfl⟩ := map_eq_ok.mp moved
        exact allows.deleteBlock deleted

theorem dropArguments (g : Graph) (unused : List (String × Option BlockId)) :
    Leads (R g) (R g) (g.dropArguments unused) := by
  induction unused generalizing g with
  | nil => exact allows.refl g
  | cons argument unused ih =>
    obtain ⟨name, value⟩ := argument
    cases value with
    | none => exact ih g
    | some value =>
      have less : Leads (fun result => R g result.2) (R g) ((g.deleteBlock value false).mapError (·, g)) :=
        .whole (fun _ deleted => allows.deleteBlock deleted) (allows.refl g)
      exact less.bind fun (_, less) first =>
        (ih less).mono (fun _ => allows.trans first) fun _ => allows.trans first

end Rearranges

namespace Allows

variable {R : Graph → Graph → Prop} (allows : Allows R)
include allows

theorem flagOrphans (g : Graph) (declaration : BlockId) : R g (g.flagOrphans declaration).2 :=
  updateEach_obeys (P := fun _ _ => True) allows.refl allows.trans (fun _ _ => trivial)
    (fun {g _} _ => .whole (fun _ warned => allows.setWarning warned) (allows.refl g)) fun _ _ => trivial

theorem checkPlacement {placement : Placement} (h : g.checkPlacement id = .ok (placement, g')) :
    R g g' := by
  simp only [Graph.checkPlacement, bind_eq_ok] at h
  obtain ⟨block, -, h⟩ := h
  split at h
  · simp only [pure_eq_ok, Prod.mk.injEq] at h
    exact h.2 ▸ allows.refl g
  · split at h
    · simp only [bind_eq_ok, pure_eq_ok, Prod.mk.injEq] at h
      obtain ⟨cleared, clears, -, rfl⟩ := h
      exact allows.setWarning clears
    · simp only [bind_eq_ok, pure_eq_ok, Prod.mk.injEq] at h
      obtain ⟨loose, freed, warned, warns, -, rfl⟩ := h
      exact allows.trans (allows.unplug freed) (allows.setWarning warns)

end Allows

/-- A relation between graphs that warnings on certain blocks obey as well, and other calls for them with the same
target. The answers to events consist of nothing else. -/
structure Answers (P : Graph → BlockId → Prop) (R : Graph → Graph → Prop) : Prop extends Rearranges R where
  stays : ∀ {g g' id}, R g g' → P g id → P g' id
  setWarning : ∀ {g id warning g'}, P g id → g.setWarning id warning = .ok g' → R g g'
  updateCall : ∀ {g id edit g'}, P g id → g.updateCall id edit = .ok g' →
    (∀ call, (edit call).target = call.target) → R g g'

/-- Where every block may be edited. -/
theorem Allows.answers {R : Graph → Graph → Prop} (allows : Allows R)
    (updateCall : ∀ {g id edit g'}, g.updateCall id edit = .ok g' → R g g') : Answers (fun _ _ => True) R where
  toRearranges := allows.toRearranges
  stays _ _ := trivial
  setWarning _ := allows.setWarning
  updateCall _ h _ := updateCall h

namespace Answers

variable {P : Graph → BlockId → Prop} {R : Graph → Graph → Prop} (answers : Answers P R)
include answers

theorem regenerateArguments (changes : List ParamChange) (may : P g id) :
    Leads (R g) (R g) (g.regenerateArguments id changes) := by
  unfold Graph.regenerateArguments
  refine (Leads.attempt (answers.refl g)).bind fun call _ => ?_
  refine (answers.liftArguments g id 0 call.args).bind fun (lifted, loose) first => ?_
  have shaped : Leads (R g) (R g)
      ((loose.updateCall id fun call => { call with args := changes.map (·.param) }).mapError (·, loose)) :=
    .whole (fun _ updated => answers.trans first (answers.updateCall (answers.stays first may) updated fun _ => rfl))
      first
  refine shaped.bind fun shaped second => ?_
  have placed := (answers.plugArguments shaped id 0 changes lifted).mono (fun _ => answers.trans second)
    fun _ => answers.trans second
  refine placed.bind fun (unused, placed) third => ?_
  exact (answers.dropArguments placed unused).mono (fun _ => answers.trans third) fun _ => answers.trans third

theorem renameCallers (name : String) (may : ∀ caller ∈ g.callersOf declaration, P g caller) :
    R g (g.renameCallers declaration name).2 :=
  updateEach_obeys (P := P) answers.refl answers.trans answers.stays
    (fun {g _} may => .whole (fun _ ran => answers.updateCall may ran fun _ => rfl) (answers.refl g)) may

theorem mutateCallers (changes : List ParamChange) (may : ∀ caller ∈ g.callersOf declaration, P g caller) :
    R g (g.mutateCallers declaration changes).2 :=
  updateEach_obeys (P := P) answers.refl answers.trans answers.stays (answers.regenerateArguments changes) may

theorem flagOrphans (may : ∀ caller ∈ g.callersOf declaration, P g caller) : R g (g.flagOrphans declaration).2 :=
  updateEach_obeys (P := P) answers.refl answers.trans answers.stays
    (fun {g _} may => .whole (fun _ ran => answers.setWarning may ran) (answers.refl g)) may

theorem reconcile (own : Declarations) (scope : Scope) (may : P g id) :
    Leads (fun result => R g result.2) (R g) (g.reconcile own scope id) := by
  have warn : ∀ {next : Graph} (warning : Option String), R g next →
      Leads (R g) (R g) ((next.setWarning id warning).mapError (·, next)) := fun warning first =>
    .whole (fun _ ran => answers.trans first (answers.setWarning (answers.stays first may) ran)) first
  unfold Graph.reconcile
  refine (Leads.attempt (answers.refl g)).bind fun block _ => ?_
  split
  · exact answers.refl g
  · next call _ =>
    split
    · next signature _ =>
      have finish : ∀ {outcome : Reconciled} {shaped : Graph}, R g shaped → Leads (fun result => R g result.2) (R g) do
          let cleared ← (shaped.setWarning id none).mapError (·, shaped)
          return (outcome, cleared) := fun second => (warn none second).bind fun _ cleared => cleared
      have reshape : ∀ {outcome : Reconciled} (named : Graph), R g named → Leads (fun result => R g result.2) (R g)
          (if call.args ≠ signature.args then do
            let shaped ← named.regenerateArguments id (signature.args.map .kept)
            let cleared ← (shaped.setWarning id none).mapError (·, shaped)
            return (outcome, cleared)
          else do
            let shaped ← pure named
            let cleared ← (shaped.setWarning id none).mapError (·, shaped)
            return (outcome, cleared)) := by
        intro outcome named first
        split
        · have shaped := (answers.regenerateArguments (signature.args.map .kept) (answers.stays first may)).mono
            (fun _ => answers.trans first) fun _ => answers.trans first
          exact shaped.bind fun _ second => finish second
        · exact finish first
      dsimp only
      split
      · have renamed : Leads (R g) (R g) ((g.updateCall id fun call =>
            { call with
              declaration := some signature.block
              name := signature.name
              returnType := signature.returnType }).mapError (·, g)) :=
          .whole (fun _ ran => answers.updateCall may ran fun _ => rfl) (answers.refl g)
        exact renamed.bind reshape
      · exact reshape g (answers.refl g)
    · exact (warn _ (answers.refl g)).bind fun _ warned => warned
    · exact answers.refl g

theorem reconcileEach {own : Declarations} {scope : Scope} {ids : List BlockId} (may : ∀ id ∈ ids, P g id)
    (report : ReconcileReport) : R g (Graph.reconcileEach own scope g ids report).2 := by
  induction ids generalizing g report with
  | nil => exact answers.refl _
  | cons id ids ih =>
    obtain ⟨here, others⟩ := List.forall_mem_cons.mp may
    have leads := answers.reconcile own scope here
    have rest : ∀ {next}, R g next → ∀ report, R g (Graph.reconcileEach own scope next ids report).2 :=
      fun first report =>
        answers.trans first (ih (fun other member => answers.stays first (others other member)) report)
    unfold Graph.reconcileEach
    split
    · next outcome after ran => exact rest (leads.ok ran) _
    · next stop left ran => exact rest (leads.error ran) report

end Answers

/-- Edits that create no block, one after the other; events come and go. -/
inductive Evolves (g : Graph) : Graph → Prop where
  | refl : Evolves g g
  | edit {before after : Graph} (earlier : Evolves g before) (edit : Mutation)
      (kept : edit.creates = false) (ran : edit.run before = .ok after) : Evolves g after
  | queue {before : Graph} (earlier : Evolves g before) (pending : EventQueue) :
      Evolves g { before with pending }

namespace Evolves

theorem trans (first : g.Evolves g') (second : g'.Evolves g'') : g.Evolves g'' := by
  induction second with
  | refl => exact first
  | edit _ edit kept ran ih => exact ih.edit edit kept ran
  | queue _ pending ih => exact ih.queue pending

theorem of_run (edit : Mutation) (kept : edit.creates = false) (ran : edit.run g = .ok g') :
    g.Evolves g' :=
  Evolves.refl.edit edit kept ran

/-- What every edit keeps is kept by all of them. -/
theorem preserves {P : Graph → Prop} (evolves : g.Evolves g') (holds : P g)
    (edits : ∀ {before after} (edit : Mutation), edit.creates = false → P before →
      edit.run before = .ok after → P after)
    (queues : ∀ {before} pending, P before → P { before with pending }) : P g' := by
  induction evolves with
  | refl => exact holds
  | edit _ edit kept ran ih => exact edits edit kept ih ran
  | queue _ pending ih => exact queues pending ih

theorem setField {name value : String} {old : Option String}
    (h : g.setField id name value = .ok (old, g')) : g.Evolves g' :=
  of_run (.setField id name value) rfl (map_eq_ok.mpr ⟨_, h, rfl⟩)

theorem setExtra {extra : ExtraState} (h : g.setExtra id extra = .ok g') : g.Evolves g' :=
  of_run (.setExtra id extra) rfl h

theorem allows : Allows Evolves where
  refl _ := refl
  trans := trans
  unplug h := of_run (.unplug _ _) rfl h
  connectSocket h := of_run (.connectSocket _ _ _) rfl h
  deleteBlock h := of_run (.delete _ _) rfl (map_eq_ok.mpr ⟨_, h, rfl⟩)
  setWarning h := of_run (.setWarning _ _) rfl h

/-! References. -/

theorem updateCall {edit : CallState → CallState} (h : g.updateCall id edit = .ok g') :
    g.Evolves g' := by
  simp only [Graph.updateCall, bind_eq_ok, pure_eq_ok] at h
  obtain ⟨call, -, reshaped, first, named, second, rfl⟩ := h
  exact (setExtra first).trans (setField second)

theorem answers : Answers (fun _ _ => True) Evolves := allows.answers updateCall

theorem regenerateArguments {changes : List ParamChange}
    (h : g.regenerateArguments id changes = .ok g') : g.Evolves g' :=
  (answers.regenerateArguments changes trivial).ok h

theorem renameCallers (g : Graph) (declaration : BlockId) (name : String) :
    g.Evolves (g.renameCallers declaration name).2 :=
  answers.renameCallers name fun _ _ => trivial

theorem mutateCallers (g : Graph) (declaration : BlockId) (changes : List ParamChange) :
    g.Evolves (g.mutateCallers declaration changes).2 :=
  answers.mutateCallers changes fun _ _ => trivial

theorem reconcile (own : Declarations) (scope : Scope) (g : Graph) (id : BlockId) :
    Leads (fun result => g.Evolves result.2) g.Evolves (g.reconcile own scope id) :=
  answers.reconcile own scope trivial

theorem reconcileEach (own : Declarations) (scope : Scope) (g : Graph) (ids : List BlockId)
    (report : ReconcileReport) : g.Evolves (reconcileEach own scope g ids report).2 :=
  answers.reconcileEach (fun _ _ => trivial) report

end Evolves

theorem takeEvents_of_idle (idle : g.pending.toList = []) : g.takeEvents.2 = g := by
  simp only [takeEvents, ← EventQueue.eq_empty idle]

end Graph

/-! Reactions. -/

namespace Reply

/-- An answer that edits without creating. -/
def Edits (reply : Reply) : Prop :=
  ∀ (scope : Scope) (id : BlockId) (event : Event) (g : Graph), g.Evolves (reply scope id event g).graph

/-- An answer that is one edit leaves the graph alone when the edit is refused. -/
theorem Edits.ofEdit {α : Type} {run : Scope → BlockId → Graph → Except GraphError (α × Graph)}
    (edits : ∀ {scope id g result g'}, run scope id g = .ok (result, g') → g.Evolves g') :
    Edits fun scope id _ g => .ofEdit g (Prod.snd <$> run scope id g) := by
  intro scope id event g
  change g.Evolves (Response.ofEdit g (Prod.snd <$> run scope id g)).graph
  cases ran : run scope id g with
  | error error => exact .refl
  | ok result => exact edits ran

end Reply

namespace Reaction

theorem place_edits : place.Edits :=
  .ofEdit Graph.Evolves.allows.checkPlacement

theorem reconcile_edits : reconcile.Edits := fun scope id _ g =>
  (Graph.Evolves.reconcile (.collect g) scope g id).map.response

theorem propagate_edits : propagate.Edits := by
  intro scope id event g
  unfold propagate
  split
  · split
    · exact .renameCallers ..
    · exact .refl
  · exact .mutateCallers ..
  · exact .refl

theorem orphan_edits : orphan.Edits := fun _ _ _ _ =>
  Graph.Evolves.allows.flagOrphans _ _

end Reaction

namespace Registry

/-- The four reactions of the standard registry; none of them reads the journal. -/
theorem standard_reaction {registration : Registration} (member : registration ∈ standard.registrations)
    (journal : List String) :
    registration.reaction journal = Reaction.place ∨ registration.reaction journal = Reaction.propagate ∨
      registration.reaction journal = Reaction.orphan ∨ registration.reaction journal = Reaction.reconcile := by
  simp only [standard, PlacementRule.kinds, List.map_cons, List.map_nil, List.flatMap_cons,
    List.flatMap_nil, List.cons_append, List.nil_append, List.append_nil, List.mem_cons,
    List.not_mem_nil, or_false] at member
  rcases member with rfl | rfl | rfl | rfl | rfl | rfl | rfl | rfl | rfl
  · exact .inl rfl
  · exact .inl rfl
  · exact .inl rfl
  · exact .inr (.inl rfl)
  · exact .inr (.inr (.inl rfl))
  · exact .inr (.inl rfl)
  · exact .inr (.inr (.inl rfl))
  · exact .inr (.inr (.inr rfl))
  · exact .inr (.inr (.inr rfl))

theorem standard_edits {registration : Registration} (member : registration ∈ standard.registrations)
    (journal : List String) : (registration.reaction journal).Edits := by
  rcases standard_reaction member journal with same | same | same | same <;> rw [same]
  · exact Reaction.place_edits
  · exact Reaction.propagate_edits
  · exact Reaction.orphan_edits
  · exact Reaction.reconcile_edits

theorem run_evolves {scope : Scope} {id : BlockId} {event : Event} {registrations : List Registration}
    (journal : List String) (g : Graph)
    (edits : ∀ registration ∈ registrations, ∀ journal, (registration.reaction journal).Edits) :
    g.Evolves (run scope id event registrations journal g).1 := by
  induction registrations generalizing journal g with
  | nil => exact .refl
  | cons registration rest ih =>
    have first := edits registration (List.mem_cons_self ..) journal scope id event g
    exact first.trans (ih _ _ fun other member => edits other (List.mem_cons_of_mem _ member))

theorem dispatch_evolves (journal : List String) (scope : Scope) (event : Event) (g : Graph) :
    g.Evolves (standard.dispatch journal scope event g).1 := by
  unfold dispatch
  split
  · exact .refl
  · apply run_evolves journal g
    intro registration member
    exact standard_edits (List.mem_of_mem_filter member)

end Registry

/-! Sessions. -/

namespace Session

variable {s : Session}

theorem handleLoading_evolves (s : Session) (own : Option Declarations) (event : Event) :
    s.graph.Evolves (s.handleLoading own event).1.graph := by
  unfold handleLoading
  split
  · exact .refl
  · split
    · dsimp only
      split
      · next outcome graph ran => exact (Graph.Evolves.reconcile ..).ok ran
      · next stop graph ran => exact (Graph.Evolves.reconcile ..).error ran
    · exact .refl
  · exact .refl

theorem handle_evolves (s : Session) (standard : s.registry = .standard) (own : Option Declarations)
    (event : Event) : s.graph.Evolves (s.handle own event).1.graph := by
  unfold handle
  split
  · exact handleLoading_evolves s own event
  · rw [standard]
    exact Registry.dispatch_evolves s.journal s.scope event s.graph

theorem handle_registry (s : Session) (own : Option Declarations) (event : Event) :
    (s.handle own event).1.registry = s.registry := by
  unfold handle
  split
  · unfold handleLoading
    split
    · rfl
    · split
      · dsimp only
        split <;> rfl
      · rfl
    · rfl
  · rfl

theorem handle_scope (s : Session) (own : Option Declarations) (event : Event) :
    (s.handle own event).1.scope = s.scope := by
  unfold handle
  split
  · unfold handleLoading
    split
    · rfl
    · split
      · dsimp only
        split <;> rfl
      · rfl
    · rfl
  · rfl

theorem handleWithin_pop {event : Event} {pending : EventQueue}
    (popped : s.graph.pending.pop? = some (event, pending)) (own : Option Declarations) (budget : Nat) :
    let t : Session := { s with graph := { s.graph with pending } }
    s.handleWithin own (budget + 1) = (t.handle own event).1.handleWithin (t.handle own event).2 budget := by
  rw [handleWithin, popped]

theorem settled_pop {event : Event} {pending : EventQueue}
    (popped : s.graph.pending.pop? = some (event, pending)) :
    let t : Session := { s with graph := { s.graph with pending } }
    s.settled = ((t.handle none event).1.handleWithin (t.handle none event).2 (eventLimit - 1)).1 :=
  congrArg (·.1) (handleWithin_pop popped none (eventLimit - 1))

/-- What is kept when the oldest event is handled, and when events are dropped, is kept by the handling of all
of them. -/
theorem handleWithin_keeps {P : Session → Prop} (holds : P s)
    (drop : ∀ {t : Session}, P t → P { t with graph := { t.graph with pending := {} } })
    (answer : ∀ {t : Session} {event : Event} {pending : EventQueue}, P t →
      t.graph.pending.toList = event :: pending.toList →
      ∀ own, P ({ t with graph := { t.graph with pending } }.handle own event).1)
    (own : Option Declarations) (budget : Nat) : P (s.handleWithin own budget).1 := by
  induction budget generalizing s own with
  | zero => exact drop holds
  | succ budget ih =>
    unfold handleWithin
    split
    · exact holds
    · next event pending popped => exact ih (answer holds (EventQueue.pop?_some popped) own) _

theorem pending_handleWithin (s : Session) (own : Option Declarations) (budget : Nat) :
    (s.handleWithin own budget).1.graph.pending.toList = [] := by
  induction budget generalizing s own with
  | zero => rfl
  | succ budget ih =>
    unfold handleWithin
    split
    · next empty => exact EventQueue.pop?_none empty
    · exact ih ..

theorem pending_settled (s : Session) : s.settled.graph.pending.toList = [] :=
  pending_handleWithin s none eventLimit

theorem handleWithin_registry (s : Session) (own : Option Declarations) (budget : Nat) :
    (s.handleWithin own budget).1.registry = s.registry :=
  handleWithin_keeps (P := fun t => t.registry = s.registry) rfl id
    (fun same _ _ => (handle_registry ..).trans same) own budget

theorem handleWithin_scope (s : Session) (own : Option Declarations) (budget : Nat) :
    (s.handleWithin own budget).1.scope = s.scope :=
  handleWithin_keeps (P := fun t => t.scope = s.scope) rfl id
    (fun same _ _ => (handle_scope ..).trans same) own budget

@[simp] theorem settled_registry (s : Session) : s.settled.registry = s.registry :=
  handleWithin_registry s none eventLimit

@[simp] theorem settled_scope (s : Session) : s.settled.scope = s.scope :=
  handleWithin_scope s none eventLimit

theorem handleWithin_evolves (standard : s.registry = .standard) (own : Option Declarations)
    (budget : Nat) : s.graph.Evolves (s.handleWithin own budget).1.graph := by
  refine (handleWithin_keeps (P := fun t => t.registry = .standard ∧ s.graph.Evolves t.graph) ⟨standard, .refl⟩
    (fun ⟨standard, evolves⟩ => ⟨standard, .queue evolves _⟩)
    (fun {t event pending} ⟨standard, evolves⟩ _ own => ?_) own budget).2
  have handled := handle_evolves { t with graph := { t.graph with pending } } standard own event
  exact ⟨(handle_registry ..).trans standard, (Graph.Evolves.queue evolves pending).trans handled⟩

theorem settled_evolves (standard : s.registry = .standard) :
    s.graph.Evolves s.settled.graph :=
  handleWithin_evolves standard none eventLimit

/-- Loading handles what rebuilding a stored graph queues, and behind it the end of loading. -/
theorem load_eq_ok {forest : Forest} {scope : Scope} {registry : Registry} :
    Session.load forest scope registry = .ok s ↔ ∃ g, Graph.ofForest forest = .ok g ∧
      s = settled { graph := g.push .finishedLoading, registry, scope, phase := .whileLoading } := by
  simp only [Session.load, Graph.rebuild_eq, bind_eq_ok, pure_eq_ok]
  exact exists_congr fun g => and_congr_right fun _ => eq_comm

theorem load_scope {forest : Forest} {scope : Scope} {registry : Registry}
    (loaded : Session.load forest scope registry = .ok s) : s.scope = scope := by
  obtain ⟨g, -, rfl⟩ := load_eq_ok.mp loaded
  exact settled_scope _

end Session
end RobotBlocks
