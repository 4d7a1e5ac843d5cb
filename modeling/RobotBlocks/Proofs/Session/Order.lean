import Mathlib.Data.ENat.Lattice
import Mathlib.Order.CompletePartialOrder
import RobotBlocks.Proofs.Session.Handling

/-! The order of events. Whatever reactions are registered, also such as go by what they wrote down before, as long as
they change the graph by its operations only, events are handled in the order in which they were queued: what a reaction
tells comes behind all that waits. So the handled events are the first of all that were ever queued, as many as the
limit allows. -/
namespace RobotBlocks

namespace Graph

variable {g g' g'' : Graph} {id : BlockId}

/-- Operations one after the other, also refused ones, and events pushed by hand. -/
inductive Operates (g : Graph) : Graph → Prop where
  | refl : Operates g g
  | operate {before : Graph} (earlier : Operates g before) (operation : Operation) :
      Operates g (before.operate operation)
  | push {before : Graph} (earlier : Operates g before) (event : Event) : Operates g (before.push event)

/-- An operation queues behind what waits. -/
theorem run_appends {operation : Operation} (ran : operation.run g = .ok g') :
    ∃ told, g'.pending.toList = g.pending.toList ++ told := by
  have reported : Reports (fun _ => True) g g' → ∃ told, g'.pending.toList = g.pending.toList ++ told := by
    intro reports
    obtain ⟨told, appended, -⟩ := reports.events
    exact ⟨told, appended⟩
  have placed : ∀ {block : Block}, g.insertBlock block = .ok g' →
      ∃ told, g'.pending.toList = g.pending.toList ++ told := by
    intro block inserted
    obtain ⟨-, -, rfl⟩ := insertBlock_eq_ok.mp inserted
    exact ⟨_, EventQueue.toList_push ..⟩
  cases operation with
  | insert block => exact placed ran
  | mutate edit =>
    cases edit with
    | add kind extra =>
      cases ran
      exact ⟨_, EventQueue.toList_push ..⟩
    | insert id kind extra => exact placed ran
    | delete id heal =>
      obtain ⟨⟨doomed, rest⟩, deleted, rfl⟩ := map_eq_ok.mp ran
      exact reported (.deleteBlock deleted)
    | unplug id heal => exact reported (.unplug ran trivial)
    | connectNext previous id => exact reported (.connectNext ran)
    | connectSocket parent socket child => exact reported (.connectSocket ran)
    | setField id name value =>
      obtain ⟨⟨old, edited⟩, set, rfl⟩ := map_eq_ok.mp ran
      exact reported (.setField set trivial)
    | setExtra id extra => exact reported (.setExtra ran trivial)
    | setSignature id changes => exact reported (.setSignature ran trivial)
    | setWarning id warning => exact reported (.setWarning ran)

namespace Operates

theorem trans (first : g.Operates g') (second : g'.Operates g'') : g.Operates g'' := by
  induction second with
  | refl => exact first
  | operate _ operation ih => exact ih.operate operation
  | push _ event ih => exact ih.push event

theorem of_run (operation : Operation) (ran : operation.run g = .ok g') : g.Operates g' := by
  have same : g.operate operation = g' := by rw [Graph.operate, ran]
  exact same ▸ refl.operate operation

/-- However many operations, the events that waited before still wait in front. -/
theorem appends (operates : g.Operates g') : ∃ told, g'.pending.toList = g.pending.toList ++ told := by
  induction operates with
  | refl => exact ⟨[], (List.append_nil _).symm⟩
  | @operate before _ operation ih =>
    obtain ⟨told, appended⟩ := ih
    unfold Graph.operate
    split
    · next changed ran =>
      obtain ⟨more, behind⟩ := run_appends ran
      exact ⟨told ++ more, by rw [behind, appended, List.append_assoc]⟩
    · exact ⟨told, appended⟩
  | @push before _ event ih =>
    obtain ⟨told, appended⟩ := ih
    exact ⟨told ++ [event], by rw [Graph.push, EventQueue.toList_push, appended, List.append_assoc]⟩

theorem allows : Allows Operates where
  refl _ := refl
  trans := trans
  unplug h := of_run (.mutate (.unplug _ _)) h
  connectSocket h := of_run (.mutate (.connectSocket _ _ _)) h
  deleteBlock h := of_run (.mutate (.delete _ _)) (map_eq_ok.mpr ⟨_, h, rfl⟩)
  setWarning h := of_run (.mutate (.setWarning _ _)) h

theorem updateCall {edit : CallState → CallState} (h : g.updateCall id edit = .ok g') : g.Operates g' := by
  simp only [Graph.updateCall, bind_eq_ok, pure_eq_ok] at h
  obtain ⟨call, -, reshaped, first, ⟨old, named⟩, second, rfl⟩ := h
  have shaped : g.Operates reshaped := of_run (.mutate (.setExtra _ _)) first
  exact shaped.trans (of_run (.mutate (.setField _ _ _)) (map_eq_ok.mpr ⟨_, second, rfl⟩))

theorem answers : Answers (fun _ _ => True) Operates := allows.answers updateCall

end Operates
end Graph

/-- A reaction that changes the graph by operations only, whatever it remembers and whether it fails or not. -/
def Reaction.Mutates (reaction : Reaction) : Prop :=
  ∀ (journal : List String) (scope : Scope) (id : BlockId) (event : Event) (g : Graph),
    g.Operates (reaction journal scope id event g).graph

/-- An event on a block asks for what is registered for the kind of the block and for events of its kind. -/
def Event.Asks (event : Event) (registration : Registration) : Prop :=
  event.block.isSome ∧ event.blockKind = some registration.kind ∧ event.kind ∈ registration.events

instance (event : Event) (registration : Registration) : Decidable (event.Asks registration) :=
  inferInstanceAs (Decidable (_ ∧ _ ∧ _))

namespace Registry

variable {scope : Scope} {event : Event} {id : BlockId} {g g' h : Graph} {journal : List String}

/-- Whatever is registered changes the graph by operations only. -/
def Mutates (registry : Registry) : Prop :=
  ∀ registration ∈ registry.registrations, registration.reaction.Mutates

theorem Mutates.standard : standard.Mutates := by
  intro registration member journal
  have operates := Graph.Operates.answers
  rcases standard_reaction member journal with same | same | same | same <;> rw [same] <;> intro scope id event g
  · exact place_allowed Graph.Operates.allows ..
  · exact propagate_answers operates (fun _ _ => trivial) ..
  · exact operates.flagOrphans fun _ _ => trivial
  · exact reconcile_answers operates trivial ..

theorem Mutates.register {registry : Registry} {reaction : Reaction} (mutates : registry.Mutates) (kind : Kind)
    (events : List EventKind) (more : reaction.Mutates) : (registry.register kind events reaction).Mutates := by
  intro registration member
  rcases List.mem_append.mp member with before | last
  · exact mutates registration before
  · exact List.mem_singleton.mp last ▸ more

/-- A reaction that was run: what it left, and the events that it queued. -/
structure Answer where
  registration : Registration
  response : Response
  told : List Event

/-- Reactions answer an event on a block one after the other. Each gets the graph that the one before left, failed or
not, and the journal with what that one wrote, and queues behind all that waits. -/
inductive Answered (scope : Scope) (event : Event) : List String → Graph → List Answer → Graph → Prop where
  | none (journal : List String) (g : Graph) : Answered scope event journal g [] g
  | next {journal : List String} {g g' : Graph} {id : BlockId} {registration : Registration} {response : Response}
      {told : List Event} {answers : List Answer} (block : event.block = some id)
      (answer : registration.reaction journal scope id event g = response)
      (appended : response.graph.pending.toList = g.pending.toList ++ told)
      (later : Answered scope event (response.journal.reverse ++ journal) response.graph answers g') :
      Answered scope event journal g (⟨registration, response, told⟩ :: answers) g'

namespace Answered

variable {answers others : List Answer}

theorem pending (answered : Answered scope event journal g answers g') :
    g'.pending.toList = g.pending.toList ++ answers.flatMap Answer.told := by
  induction answered with
  | none journal g => exact (List.append_nil _).symm
  | next block answer appended later ih => rw [ih, appended, List.flatMap_cons, List.append_assoc]

/-- The registrations determine the answers. -/
theorem unique (answered : Answered scope event journal g answers g') (also : Answered scope event journal g others h)
    (same : answers.map Answer.registration = others.map Answer.registration) : answers = others ∧ g' = h := by
  induction answered generalizing others with
  | none journal g =>
    cases List.map_eq_nil_iff.mp same.symm
    cases also
    exact ⟨rfl, rfl⟩
  | next block answer appended later ih =>
    cases also with
    | none => cases same
    | next block' answer' appended' later' =>
      obtain ⟨rfl, rest⟩ := List.cons.inj same
      cases block.symm.trans block'
      cases answer.symm.trans answer'
      cases List.append_cancel_left (appended.symm.trans appended')
      obtain ⟨rfl, rfl⟩ := ih later' rest
      exact ⟨rfl, rfl⟩

end Answered

theorem run_answered (scope : Scope) (block : event.block = some id) (journal : List String) (g : Graph)
    {registrations : List Registration} (mutates : ∀ registration ∈ registrations, registration.reaction.Mutates) :
    ∃ answers, answers.map Answer.registration = registrations ∧
      Answered scope event journal g answers (run scope id event registrations journal g).1 ∧
      (run scope id event registrations journal g).2 = (answers.flatMap (·.response.journal)).reverse ++ journal := by
  induction registrations generalizing journal g with
  | nil => exact ⟨[], rfl, .none journal g, rfl⟩
  | cons registration rest ih =>
    obtain ⟨here, others⟩ := List.forall_mem_cons.mp mutates
    obtain ⟨told, appended⟩ := (here journal scope id event g).appends
    let response := registration.reaction journal scope id event g
    obtain ⟨answers, ran, answered, written⟩ := ih (response.journal.reverse ++ journal) response.graph others
    refine ⟨⟨registration, response, told⟩ :: answers, ?_, ?_, ?_⟩
    · rw [List.map_cons, ran]
    · exact .next block rfl appended answered
    · rw [run, written, List.flatMap_cons, List.reverse_append, List.append_assoc]

/-- What an event asks for is run, each once, in the order of registration. -/
theorem Mutates.dispatch_answered {registry : Registry} (mutates : registry.Mutates) (journal : List String)
    (scope : Scope) (event : Event) (g : Graph) :
    ∃ answers, answers.map Answer.registration = registry.registrations.filter (event.Asks ·) ∧
      Answered scope event journal g answers (registry.dispatch journal scope event g).1 ∧
      (registry.dispatch journal scope event g).2 = (answers.flatMap (·.response.journal)).reverse ++ journal := by
  unfold dispatch
  cases block : event.block with
  | none =>
    refine ⟨[], ?_, .none journal g, rfl⟩
    rw [List.map_nil, eq_comm, List.filter_eq_nil_iff]
    intro registration _ asked
    have present := (of_decide_eq_true asked).1
    rw [block] at present
    cases present
  | some id =>
    have asked : registry.matching event = registry.registrations.filter (event.Asks ·) := by
      refine List.filter_congr fun registration _ => ?_
      simp [Event.Asks, block]
    have operate : ∀ registration ∈ registry.matching event, registration.reaction.Mutates :=
      fun registration member => mutates registration (List.mem_of_mem_filter member)
    exact asked ▸ run_answered scope block journal g operate

end Registry

namespace Session

/-- An event that was handled, and the reactions that it ran. -/
structure Turn where
  event : Event
  answers : List Registry.Answer

namespace Turn

/-- The events that the reactions queued. -/
def told (turn : Turn) : List Event := turn.answers.flatMap Registry.Answer.told

/-- The lines that the reactions wrote. -/
def journal (turn : Turn) : List String := turn.answers.flatMap (·.response.journal)

end Turn

/-- The oldest waiting event has its turn: the reactions that it asks for answer it. -/
structure Steps (s : Session) (turn : Turn) (t : Session) : Prop where
  asked : turn.answers.map Registry.Answer.registration = s.registry.registrations.filter (turn.event.Asks ·)
  answered : ∃ pending, s.graph.pending.pop? = some (turn.event, pending) ∧
    Registry.Answered s.scope turn.event s.journal { s.graph with pending } turn.answers t.graph
  left : t = { s with graph := t.graph, journal := turn.journal.reverse ++ s.journal }

/-- Waiting events have their turns one after the other. No limit stops them. -/
inductive Handles : Session → List Turn → Session → Prop where
  | stop (s : Session) : Handles s [] s
  | next {s t last : Session} {turn : Turn} {turns : List Turn} (first : s.Steps turn t)
      (later : Handles t turns last) : Handles s (turn :: turns) last

/-- The events that wait and those that turns tell, in the order in which they are queued. -/
def queued (s : Session) (turns : List Turn) : List Event := s.graph.pending.toList ++ turns.flatMap Turn.told

/-- How many events are queued in all when no limit stops their handling; without end if they never run out. -/
noncomputable def total (s : Session) : ℕ∞ :=
  ⨆ (turns : List Turn) (_ : ∃ t, s.Handles turns t), ((s.queued turns).length : ℕ∞)

variable {s t u : Session} {turn other : Turn} {turns others : List Turn}

namespace Steps

theorem unique (first : s.Steps turn t) (second : s.Steps other u) : turn = other ∧ t = u := by
  obtain ⟨pending, popped, answered⟩ := first.answered
  obtain ⟨pending', popped', answered'⟩ := second.answered
  obtain ⟨event, rfl⟩ := Prod.mk.inj (Option.some.inj (popped.symm.trans popped'))
  have asked := first.asked
  rw [event, ← second.asked] at asked
  rw [← event] at answered'
  obtain ⟨same, graph⟩ := answered.unique answered' asked
  obtain ⟨_, _⟩ := turn
  obtain ⟨_, _⟩ := other
  cases event
  cases same
  exact ⟨rfl, by rw [first.left, second.left, graph]⟩

/-- What is told queues behind all that waits. -/
theorem queued (first : s.Steps turn t) (turns : List Turn) :
    s.queued (turn :: turns) = turn.event :: t.queued turns := by
  obtain ⟨pending, popped, answered⟩ := first.answered
  have behind : t.graph.pending.toList = pending.toList ++ turn.told := answered.pending
  rw [Session.queued, EventQueue.pop?_some popped, List.flatMap_cons, Session.queued, behind, List.cons_append,
    List.append_assoc]

theorem registry (first : s.Steps turn t) : t.registry = s.registry := by rw [first.left]

theorem phase (first : s.Steps turn t) : t.phase = s.phase := by rw [first.left]

end Steps

namespace Handles

/-- First in, first out: the handled events, and behind them those that wait, are the queued ones. -/
theorem queued (handles : s.Handles turns t) :
    s.queued turns = turns.map Turn.event ++ t.graph.pending.toList := by
  induction handles with
  | stop s => exact List.append_nil _
  | next first _ ih => rw [first.queued, ih, List.map_cons, List.cons_append]

theorem asked (handles : s.Handles turns t) : ∀ turn ∈ turns,
    turn.answers.map Registry.Answer.registration = s.registry.registrations.filter (turn.event.Asks ·) := by
  induction handles with
  | stop s => exact List.forall_mem_nil _
  | next first _ ih => exact List.forall_mem_cons.mpr ⟨first.asked, first.registry ▸ ih⟩

/-- Nothing but the limit is a choice: when no event waits any more, all other handlings were on the way to it. -/
theorem prefix_of_idle (handles : s.Handles turns t) (idle : t.graph.pending.toList = [])
    (also : s.Handles others u) : others <+: turns := by
  -- The finished handling tells how far there is to go; the other one takes the same steps, as long as it takes any.
  induction handles generalizing others with
  | stop s =>
    cases also with
    | stop => exact List.prefix_rfl
    | next first _ =>
      obtain ⟨pending, popped, -⟩ := first.answered
      cases idle.symm.trans (EventQueue.pop?_some popped)
  | next first _ ih =>
    cases also with
    | stop => exact List.nil_prefix
    | next first' later' =>
      obtain ⟨rfl, rfl⟩ := first.unique first'
      exact (List.prefix_cons_inj _).mpr (ih idle later')

theorem le_total (handles : s.Handles turns t) : ((s.queued turns).length : ℕ∞) ≤ s.total :=
  le_iSup₂_of_le turns ⟨t, handles⟩ le_rfl

/-- When no event waits any more, all were told. -/
theorem total_of_idle (handles : s.Handles turns t) (idle : t.graph.pending.toList = []) :
    s.total = (s.queued turns).length := by
  refine le_antisymm (iSup₂_le fun others ⟨u, also⟩ => ?_) handles.le_total
  obtain ⟨rest, rfl⟩ := handles.prefix_of_idle idle also
  simp only [Session.queued, List.flatMap_append, List.length_append, Nat.cast_le]
  omega

/-- Up to a limit, or until no event waits, the first of the queued events are handled. -/
theorem take_queued {limit : Nat} (handles : s.Handles turns t) (within : turns.length ≤ limit)
    (ends : turns.length = limit ∨ t.graph.pending.toList = []) :
    turns.map Turn.event = (s.queued turns).take limit := by
  rw [handles.queued]
  rcases ends with full | idle
  · rw [← full, List.take_left' (List.length_map _)]
  · rw [idle, List.append_nil, List.take_of_length_le (by rwa [List.length_map])]

theorem min_total {limit : Nat} (handles : s.Handles turns t) (within : turns.length ≤ limit)
    (ends : turns.length = limit ∨ t.graph.pending.toList = []) : min s.total limit = turns.length := by
  have count : (s.queued turns).length = turns.length + t.graph.pending.toList.length := by
    rw [handles.queued, List.length_append, List.length_map]
  rcases ends with rfl | idle
  · have many : (turns.length : ℕ∞) ≤ s.total := by
      refine le_trans (Nat.cast_le.mpr ?_) handles.le_total
      omega
    exact min_eq_right many
  · have all : s.total = turns.length := by
      rw [handles.total_of_idle idle, count, idle, List.length_nil, Nat.add_zero]
    rw [all, min_eq_left (Nat.cast_le.mpr within)]

end Handles

/-- Handling one event is a step. -/
theorem steps_handle {event : Event} {pending : EventQueue} (opened : s.phase = .afterLoading)
    (mutates : s.registry.Mutates) (popped : s.graph.pending.pop? = some (event, pending)) (own : Option Declarations) :
    ∃ turn next, s.Steps turn next ∧
      { s with graph := { s.graph with pending } }.handle own event = (next, own) := by
  obtain ⟨answers, asked, answered, journal⟩ :=
    mutates.dispatch_answered s.journal s.scope event { s.graph with pending }
  let turn : Turn := ⟨event, answers⟩
  let graph := (s.registry.dispatch s.journal s.scope event { s.graph with pending }).1
  let next : Session := { s with graph, journal := turn.journal.reverse ++ s.journal }
  refine ⟨turn, next, ⟨asked, ⟨pending, popped, answered⟩, rfl⟩, ?_⟩
  simp only [Session.handle, opened, journal, next, graph, turn, Turn.journal]

/-- What handling within a budget does: turns, until the budget is spent or no event waits. -/
theorem handleWithin_handles (opened : s.phase = .afterLoading) (mutates : s.registry.Mutates)
    (own : Option Declarations) (budget : Nat) :
    ∃ turns t, s.Handles turns t ∧ turns.length ≤ budget ∧
      (turns.length = budget ∨ t.graph.pending.toList = []) ∧
      s.handleWithin own budget = ({ t with graph := t.graph.takeEvents.2 }, budget - turns.length) := by
  induction budget generalizing s own with
  | zero => exact ⟨[], s, .stop s, le_rfl, .inl rfl, rfl⟩
  | succ budget ih =>
    cases popped : s.graph.pending.pop? with
    | none =>
      have idle := EventQueue.pop?_none popped
      refine ⟨[], s, .stop s, Nat.zero_le _, .inr idle, ?_⟩
      rw [handleWithin, popped, Graph.takeEvents_of_idle idle, List.length_nil, Nat.sub_zero]
    | some both =>
      obtain ⟨event, pending⟩ := both
      obtain ⟨turn, next, first, handled⟩ := steps_handle opened mutates popped own
      obtain ⟨turns, t, later, within, ends, rest⟩ :=
        ih (first.phase.trans opened) (first.registry ▸ mutates) own
      refine ⟨turn :: turns, t, .next first later, Nat.succ_le_succ within, ?_, ?_⟩
      · exact ends.imp_left (congrArg (· + 1))
      · rw [handleWithin_pop popped, handled, rest, List.length_cons, Nat.add_sub_add_right]

/-- Events are handled in the order in which they were queued, each by the reactions that it asks for, until the
limit is reached: then the queue is emptied. No event is lost when there are no more than the limit allows. A reaction
may go by all that reactions wrote before, so it may count its runs and stop after some of them. -/
theorem flush_in_order (s : Session) (opened : s.phase = .afterLoading) (mutates : s.registry.Mutates) :
    (∃ turns t, s.Handles turns t ∧
      s.flush = (turns.length, { t with graph := t.graph.takeEvents.2 }) ∧
      turns.map Turn.event = (s.queued turns).take eventLimit ∧
      (∀ turn ∈ turns, turn.answers.map Registry.Answer.registration
        = s.registry.registrations.filter (turn.event.Asks ·)) ∧
      (s.total ≤ eventLimit → turns.map Turn.event = s.queued turns)) ∧
    (s.flush.1 : ℕ∞) = min s.total eventLimit ∧
    s.flush.2.graph.pending.toList = [] := by
  obtain ⟨turns, t, handles, within, ends, result⟩ := handleWithin_handles opened mutates none eventLimit
  have flushed : s.flush = (turns.length, { t with graph := t.graph.takeEvents.2 }) := by
    simp only [flush, result, Nat.sub_sub_self within]
  have taken := handles.take_queued within ends
  refine ⟨⟨turns, t, handles, flushed, taken, handles.asked, fun few => ?_⟩, ?_, pending_settled s⟩
  · have fits : (s.queued turns).length ≤ eventLimit := Nat.cast_le.mp (handles.le_total.trans few)
    rw [taken, List.take_of_length_le fits]
  · rw [flushed, handles.min_total within ends]

/-- A created block is warned by a reaction that then fails. Still the next one runs, which switches the block on, and
at each change back, until it finds four notes of its own in the journal. So it answers the second change but not the
fourth, which is the same event on the same graph. -/
theorem flush_in_order_remembering :
    let warn : Reaction := fun _ _ id _ g =>
      { graph := g.operate (.mutate (.setWarning id (some "seen"))), failure := some (.blockNotFound id) }
    let switch : Reaction := fun journal _ id _ g =>
      let text := if (g.block? id).any (·.field? Field.text = some "on") then "off" else "on"
      { graph := if journal.length < 4 then g.operate (.mutate (.setField id Field.text text)) else g
        journal := if journal.length < 4 then [text] else [] }
    let s : Session :=
      { graph := Graph.empty.operate (.mutate (.add .text .none))
        registry := (Registry.standard.register .text [.create] warn).register .text [.create, .change] switch }
    s.phase = .afterLoading ∧ s.registry.Mutates ∧ s.total = 5 ∧
      (∃ turns t, s.Handles turns t ∧ turns.length = 5 ∧ turns.map Turn.event = s.queued turns) ∧
      s.flush.2.warnings = [(⟨0⟩, "seen")] ∧ s.flush.2.journal = ["off", "on", "off", "on"] := by
  intro warn switch s
  have warns : warn.Mutates := fun _ _ _ _ _ => .operate .refl _
  have switches : switch.Mutates := by
    intro journal scope id event g
    dsimp only [switch]
    split
    · exact .operate .refl _
    · exact .refl
  have mutates : s.registry.Mutates := (Registry.Mutates.standard.register _ _ warns).register _ _ switches
  obtain ⟨⟨turns, t, handles, flushed, -, -, complete⟩, count, -⟩ := s.flush_in_order rfl mutates
  have five : s.flush.1 = 5 := by decide +kernel
  have total : s.total = 5 := by
    rw [five] at count
    rcases min_choice s.total eventLimit with few | many
    · exact few ▸ count.symm
    · rw [many] at count
      cases Nat.cast_injective count
  refine ⟨rfl, mutates, total, ⟨turns, t, handles, ?_, complete ?_⟩, by decide +kernel, by decide +kernel⟩
  · rw [← five, flushed]
  · rw [total]
    exact Nat.cast_le.mpr (by decide)

end Session
end RobotBlocks
