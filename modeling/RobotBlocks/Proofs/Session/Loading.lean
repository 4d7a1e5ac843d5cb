import RobotBlocks.Proofs.Graph.Mirrored
import RobotBlocks.Proofs.Session.Handling
import RobotBlocks.Proofs.Session.Stable

/-! Loading a session. Every created reference gets its turn in the order of the document; what the
turns queue tells of references and of arguments, and no standard reaction answers to that. So loading
does what bringing all references in line does, and doing it twice is doing it once. -/
namespace RobotBlocks

/-- An event to which no standard reaction answers. -/
def Event.Idle (event : Event) : Prop :=
  ∃ id kind payload, event = .onBlock id kind payload ∧ payload.kind ≠ .create ∧
    (kind.isReference = true ∨ kind.isArgument = true)

theorem Registry.dispatch_idle {event : Event} (g : Graph) (journal : List String) (scope : Scope) (idle : event.Idle) :
    (standard.dispatch journal scope event g).1 = g := by
  obtain ⟨id, kind, payload, rfl, other, tame⟩ := idle
  rw [dispatch_standard]
  split
  · exact absurd tame (by decide)
  · exact absurd tame (by decide)
  · exact absurd tame (by decide)
  · exact absurd tame (by decide)
  · exact absurd tame (by decide)
  · exact absurd tame (by decide)
  · exact absurd tame (by decide)
  · next created => exact absurd created other
  · next created => exact absurd created other
  · rfl

namespace Graph

variable {g h : Graph} {id r : BlockId} {own : Declarations} {scope : Scope} {done : List BlockId}

theorem Settled.queue (settled : Settled own scope done g h) (pending : EventQueue) :
    Settled own scope done g { h with pending } :=
  ⟨settled.sound.queue pending, settled.gone, settled.block, settled.link⟩

/-- Before the first turn nothing has changed. -/
theorem Settled.collect_start {known : Declarations} (settled : Settled known scope [] g h)
    (sound : g.Sound) : Declarations.collect h = .collect g := by
  have same : h.nodes = g.nodes := settled.nodes_eq (.refl sound)
  have mirrors : g.Mirrors h :=
    ⟨congrArg (List.map Node.id) same, fun id => by rw [block?, block?, node?, node?, same],
      fun id => by rw [parentLink?, parentLink?, node?, node?, same]⟩
  exact mirrors.collect sound.tree settled.sound.tree

/-- What the turns of references tell, one after the other, satisfies a condition. -/
def Tells (heard : Event → Prop) (scope : Scope) (g : Graph) : Prop :=
  ∀ {done h r block told}, Settled (.collect g) scope done g h → g.block? r = some block →
    block.kind.isReference = true → r ∉ done →
    (h.turn (.collect g) scope r).pending.toList = h.pending.toList ++ told → ∀ event ∈ told, heard event

/-- What a turn tells of needs no answer. -/
theorem Regular.idle {block : Block} {payload : Payload} (regular : h.Regular)
    (reference : ∀ block, h.block? r = some block → block.kind.isReference = true)
    (about : h.About r id) (found : h.block? id = some block) (other : payload.kind ≠ .create) :
    (Event.onBlock id block.kind payload).Idle := by
  refine ⟨id, block.kind, payload, rfl, other, ?_⟩
  rcases about with rfl | ⟨value, i, hung, climbs⟩
  · exact .inl (reference block found)
  · obtain ⟨parent, j, linked⟩ := regular.below_argument hung climbs
    obtain ⟨same, here, kind⟩ := regular.arguments linked
    cases found.symm.trans here
    exact .inr kind

theorem Regular.tells (regular : g.Regular) (scope : Scope) : g.Tells Event.Idle scope := by
  intro done h r block told settled present reference fresh appended event member
  obtain ⟨-, reports⟩ := settled.turn regular.sound ⟨_, present, reference⟩ fresh
  obtain ⟨told', appended', tells⟩ := reports.events
  cases List.append_cancel_left (appended.symm.trans appended')
  obtain ⟨id, block, payload, about, found, ⟨other, -⟩, rfl⟩ := tells event member
  have trimmed := settled.trimmed regular
  refine (trimmed.regular_after regular).idle (fun own here => ?_) about found other
  obtain ⟨before, there, resembles⟩ := trimmed.blocks here
  cases present.symm.trans there
  rw [resembles.kind, reference]

/-- What the turns of references tell is quiet, whatever the graph holds. -/
theorem tells_quiet (g : Graph) (scope : Scope) : g.Tells Event.Quiet scope := by
  intro done h r block told settled present reference fresh appended event member
  have refers : h.RefersAt r := by
    by_cases dropped : g.Dropped (.collect g) scope done r
    · intro after found
      rw [settled.gone dropped] at found
      cases found
    · exact refersAt_of_block? ((settled.block dropped).trans ((if_neg fresh).trans present)) reference
  have calm : Calm (· = r) h (h.turn (.collect g) scope r) := by
    unfold turn
    split
    · next ran => exact (Calm.reconcile _ scope refers).ok ran
    · next ran => exact (Calm.reconcile _ scope refers).error ran
  obtain ⟨told', appended', quiet⟩ := calm.told
  cases List.append_cancel_left (appended.symm.trans appended')
  exact quiet event member

end Graph

namespace Session

variable {s : Session} {g : Graph} {scope : Scope} {known : Option Declarations} {spot : Spot}
  {todo : List Spot} {done : List BlockId} {budget : Nat}

theorem handle_loading (phase : s.phase = .whileLoading) (known : Option Declarations) (event : Event) :
    s.handle known event = s.handleLoading known event := by
  unfold handle
  rw [phase]

/-- In the loading phase the creation of a reference is answered by its turn. -/
theorem handleLoading_created (s : Session) (known : Option Declarations) (id : BlockId) (kind : Kind) :
    s.handleLoading known (.onBlock id kind .created) =
      if kind.isReference then
        ({ s with graph := s.graph.turn (known.getD (.collect s.graph)) s.scope id },
          some (known.getD (.collect s.graph)))
      else (s, known) := by
  simp only [handleLoading, Event.onBlock, Event.kind, Payload.kind, Graph.turn]
  split
  · cases s.graph.reconcile (known.getD (.collect s.graph)) s.scope id <;> rfl
  · rfl

/-- Idle events leave the graph as it is, however many of them are handled. -/
theorem handleWithin_idle (opened : s.Open) (idle : ∀ event ∈ s.graph.pending.toList, event.Idle)
    (known : Option Declarations) (budget : Nat) :
    ∃ pending, (s.handleWithin known budget).1.graph = { s.graph with pending } := by
  refine (handleWithin_keeps (P := fun t => t.Open ∧ (∀ event ∈ t.graph.pending.toList, event.Idle) ∧
      ∃ pending, t.graph = { s.graph with pending }) ⟨opened, idle, s.graph.pending, rfl⟩ ?_ ?_ known budget).2.2
  · rintro t ⟨opened, -, pending, same⟩
    exact ⟨⟨opened.registry, opened.phase⟩, List.forall_mem_nil _, {}, by rw [same]⟩
  · rintro t event pending ⟨opened, idle, before, same⟩ view known
    rw [view, List.forall_mem_cons] at idle
    obtain ⟨still, answer⟩ := handle_open { t with graph := { t.graph with pending } }
      ⟨opened.registry, opened.phase⟩ known event
    rw [Registry.dispatch_idle _ _ _ idle.1] at answer
    exact ⟨still, answer ▸ idle.2, pending, by rw [answer, same]⟩

/-- The references among the blocks of some spots. -/
def references (todo : List Spot) : List BlockId :=
  (todo.filter fun spot => spot.node.block.kind.isReference).map Spot.id

theorem mem_references {r : BlockId} : r ∈ references todo ↔
    ∃ spot ∈ todo, spot.node.block.kind.isReference = true ∧ spot.id = r := by
  simp only [references, List.mem_map, List.mem_filter, and_assoc]

/-- The blocks whose creations wait: they are in the graph, and none of them had its turn. -/
structure Ahead (g : Graph) (todo : List Spot) (done : List BlockId) : Prop where
  present : ∀ spot ∈ todo, g.block? spot.id = some spot.node.block
  distinct : (todo.map Spot.id).Nodup
  fresh : ∀ spot ∈ todo, spot.id ∉ done

theorem Ahead.next (ahead : Ahead g (spot :: todo) done) : Ahead g todo (references [spot] ++ done) := by
  obtain ⟨apart, others⟩ := List.nodup_cons.mp ahead.distinct
  refine ⟨fun other member => ahead.present other (List.mem_cons_of_mem _ member), others, ?_⟩
  intro other member held
  rcases List.mem_append.mp held with own | before
  · obtain ⟨same, is, -, here⟩ := mem_references.mp own
    cases List.mem_singleton.mp is
    exact apart (here ▸ List.mem_map_of_mem member)
  · exact ahead.fresh other (List.mem_cons_of_mem _ member) before

/-- A session that loads a graph: the creations of some blocks wait, and the references among the
others had their turns. What the turns told waits behind the end of loading. -/
structure Loading (heard : Event → Prop) (g : Graph) (scope : Scope) (todo : List Spot)
    (done : List BlockId) (known : Option Declarations) (s : Session) : Prop where
  registry : s.registry = .standard
  phase : s.phase = .whileLoading
  sees : s.scope = scope
  unknown : known = none → done = []
  known : ∀ own ∈ known, own = .collect g
  waiting : ∃ told, s.graph.pending.toList = todo.map Spot.creation ++ Event.finishedLoading :: told ∧
    ∀ event ∈ told, heard event
  settled : Graph.Settled (.collect g) scope done g s.graph

/-- A session that has loaded a graph in which some references had their turns; what the turns told
waits. -/
structure Loaded (heard : Event → Prop) (g : Graph) (scope : Scope) (done : List BlockId)
    (s : Session) : Prop where
  opened : s.Open
  sees : s.scope = scope
  waiting : ∀ event ∈ s.graph.pending.toList, heard event
  settled : Graph.Settled (.collect g) scope done g s.graph

variable {heard : Event → Prop}

/-- Before the first turn the graph declares what it declared at the start. -/
theorem Loading.own (loading : Loading heard g scope todo done known s) (sound : g.Sound)
    (pending : EventQueue) : known.getD (.collect { s.graph with pending }) = .collect g := by
  cases is : known with
  | none =>
    have settled := loading.settled
    rw [loading.unknown is] at settled
    exact (settled.queue pending).collect_start sound
  | some own => exact loading.known own is

/-- One creation of the loading phase. -/
theorem Loading.step {pending : EventQueue} (loading : Loading heard g scope (spot :: todo) done known s)
    (tells : g.Tells heard scope) (sound : g.Sound) (present : g.block? spot.id = some spot.node.block)
    (fresh : spot.id ∉ done) (popped : s.graph.pending.toList = spot.creation :: pending.toList) :
    Loading heard g scope todo (references [spot] ++ done)
      ({ s with graph := { s.graph with pending } }.handle known spot.creation).2
      ({ s with graph := { s.graph with pending } }.handle known spot.creation).1 := by
  have own := loading.own sound pending
  obtain ⟨registry, phase, rfl, unknown, known_eq, ⟨told, waiting, hears⟩, settled⟩ := loading
  have settled := settled.queue pending
  have answer : { s with graph := { s.graph with pending } }.handle known spot.creation =
      if spot.node.block.kind.isReference then
        ({ s with graph := Graph.turn (.collect g) s.scope { s.graph with pending } spot.id },
          some (.collect g))
      else ({ s with graph := { s.graph with pending } }, known) := by
    have created := handleLoading_created { s with graph := { s.graph with pending } } known
      spot.node.id spot.node.block.kind
    rw [own, spot.id_node] at created
    rw [handle_loading (s := { s with graph := { s.graph with pending } }) phase, Spot.creation]
    exact spot.id_node ▸ created
  rw [popped, List.map_cons, List.cons_append] at waiting
  have rest := (List.cons.inj waiting).2
  rw [answer]
  by_cases reference : spot.node.block.kind.isReference = true
  · have done' : references [spot] ++ done = spot.id :: done := by simp [references, reference]
    rw [if_pos reference, done']
    obtain ⟨turned, reports⟩ := settled.turn sound ⟨_, present, reference⟩ fresh
    obtain ⟨more, appended, -⟩ := reports.events
    have hears' := tells settled present reference fresh appended
    refine ⟨registry, phase, rfl, fun same => absurd same (Option.some_ne_none _),
      fun own is => (Option.some.inj is).symm, ?_, turned⟩
    refine ⟨told ++ more, ?_, fun event member => ?_⟩
    · rw [appended, rest]
      simp
    · exact (List.mem_append.mp member).elim (hears event) (hears' event)
  · have done' : references [spot] ++ done = done := by simp [references, reference]
    rw [if_neg reference, done']
    exact ⟨registry, phase, rfl, unknown, known_eq, ⟨told, rest, hears⟩, settled⟩

/-- The oldest event is the creation of the first block that waits. -/
theorem Loading.next (loading : Loading heard g scope (spot :: todo) done known s)
    (tells : g.Tells heard scope) (sound : g.Sound) (ahead : Ahead g (spot :: todo) done) (budget : Nat) :
    ∃ s' known', Loading heard g scope todo (references [spot] ++ done) known' s' ∧
      s.handleWithin known (budget + 1) = s'.handleWithin known' budget := by
  obtain ⟨told, waiting, -⟩ := loading.waiting
  cases popped : s.graph.pending.pop? with
  | none =>
    rw [EventQueue.pop?_none popped] at waiting
    cases waiting
  | some both =>
    obtain ⟨event, pending⟩ := both
    have view := EventQueue.pop?_some popped
    obtain ⟨rfl, -⟩ := List.cons.inj (view.symm.trans waiting)
    exact ⟨_, _, loading.step tells sound (ahead.present spot (List.mem_cons_self ..))
      (ahead.fresh spot (List.mem_cons_self ..)) view, handleWithin_pop popped known budget⟩

/-- The end of the loading phase opens the session for what the turns told. -/
theorem Loading.finish (loading : Loading heard g scope [] done known s) (budget : Nat) :
    ∃ t, Loaded heard g scope done t ∧ s.handleWithin known (budget + 1) = t.handleWithin known budget := by
  obtain ⟨told, waiting, hears⟩ := loading.waiting
  cases popped : s.graph.pending.pop? with
  | none =>
    rw [EventQueue.pop?_none popped] at waiting
    cases waiting
  | some both =>
    obtain ⟨event, pending⟩ := both
    obtain ⟨rfl, rest⟩ := List.cons.inj ((EventQueue.pop?_some popped).symm.trans waiting)
    let t : Session := { s with graph := { s.graph with pending }, phase := .afterLoading }
    have ended : { s with graph := { s.graph with pending } }.handle known .finishedLoading = (t, known) :=
      handle_loading (s := { s with graph := { s.graph with pending } }) loading.phase known _
    have opened : t.Open := ⟨loading.registry, rfl⟩
    have hears : ∀ event ∈ t.graph.pending.toList, heard event := fun event member =>
      hears event (rest ▸ member)
    exact ⟨t, ⟨opened, loading.sees, hears, loading.settled.queue pending⟩,
      (handleWithin_pop popped known budget).trans
        (congrArg (fun both => both.1.handleWithin both.2 budget) ended)⟩

/-- The turns of the references among some blocks, in whatever order they are listed. -/
theorem settled_references_cons {h : Graph}
    (settled : Graph.Settled (.collect g) scope (references todo ++ (references [spot] ++ done)) g h) :
    Graph.Settled (.collect g) scope (references (spot :: todo) ++ done) g h := by
  refine settled.congr fun other => ?_
  simp only [List.mem_append, mem_references, List.mem_cons, List.not_mem_nil, or_false,
    exists_eq_or_imp, exists_eq_left]
  rw [or_left_comm, or_assoc]

/-- With budget enough for all creations and the end of loading, the session opens. -/
theorem Loading.finishes (loading : Loading heard g scope todo done known s)
    (tells : g.Tells heard scope) (sound : g.Sound) (ahead : Ahead g todo done) {budget : Nat}
    (enough : todo.length < budget) : ∃ t own left, Loaded heard g scope (references todo ++ done) t ∧
      s.handleWithin known budget = t.handleWithin own left := by
  obtain ⟨budget, rfl⟩ := Nat.exists_eq_add_one_of_ne_zero (Nat.ne_zero_of_lt enough)
  induction todo generalizing s known done budget with
  | nil =>
    obtain ⟨t, loaded, same⟩ := loading.finish budget
    exact ⟨t, _, _, loaded, same⟩
  | cons spot todo ih =>
    obtain ⟨s', known', later, first⟩ := loading.next tells sound ahead budget
    have enough : todo.length < budget := Nat.lt_of_succ_lt_succ enough
    obtain ⟨budget, rfl⟩ := Nat.exists_eq_add_one_of_ne_zero (Nat.ne_zero_of_lt enough)
    obtain ⟨t, own, left, ⟨opened, sees, waiting, settled⟩, rest⟩ := ih later ahead.next budget enough
    exact ⟨t, own, left, ⟨opened, sees, waiting, settled_references_cons settled⟩, first.trans rest⟩

/-- With less, the session stays in the loading phase, and only the first blocks had their turns. -/
theorem Loading.stops (loading : Loading heard g scope todo done known s)
    (tells : g.Tells heard scope) (sound : g.Sound) (ahead : Ahead g todo done) {budget : Nat}
    (short : budget ≤ todo.length) : (s.handleWithin known budget).1.phase = .whileLoading ∧
      Graph.Settled (.collect g) scope (references (todo.take budget) ++ done) g
        (s.handleWithin known budget).1.graph := by
  induction budget generalizing s known done todo with
  | zero => exact ⟨loading.phase, loading.settled.queue {}⟩
  | succ budget ih =>
    cases todo with
    | nil => exact absurd short (Nat.not_succ_le_zero budget)
    | cons spot todo =>
      obtain ⟨s', known', later, first⟩ := loading.next tells sound ahead budget
      obtain ⟨phase, settled⟩ := ih later ahead.next (Nat.le_of_succ_le_succ short)
      rw [first]
      exact ⟨phase, settled_references_cons settled⟩

/-- A stored graph, as its loading begins: all blocks are still to come. -/
theorem ahead_ofForest {forest : Forest} (loaded : Graph.ofForest forest = .ok g) :
    Ahead g forest.spots [] where
  present spot member := by
    rw [Graph.block?, Graph.node?_spot loaded member]
    rfl
  distinct := by
    rw [forest.ids_spots]
    exact (Graph.ids_ofForest loaded).nodup_iff.mp (Graph.Sound.ofForest loaded).tree.distinct
  fresh _ _ := List.not_mem_nil

theorem loading_ofForest {forest : Forest} (heard : Event → Prop) (scope : Scope)
    (loaded : Graph.ofForest forest = .ok g) :
    Loading heard g scope forest.spots [] none
      { graph := g.push .finishedLoading, scope, phase := .whileLoading } := by
  have sound := Graph.Sound.ofForest loaded
  refine ⟨rfl, rfl, rfl, fun _ => rfl, by simp, ⟨[], ?_, List.forall_mem_nil _⟩, (Graph.Settled.refl sound).queue _⟩
  have told := (Graph.ofForest_grows loaded).1.events
  rw [Graph.empty, EventQueue.toList_empty, List.nil_append] at told
  exact (EventQueue.toList_push ..).trans (congrArg (· ++ _) told)

/-- Loading a document gives all references their turns. -/
theorem load_settled {forest : Forest} (scope : Scope) (loaded : Graph.ofForest forest = .ok g)
    (regular : g.Regular) (few : forest.size < eventLimit) :
    ∃ s, Session.load forest scope .standard = .ok s ∧
      Graph.Settled (.collect g) scope g.references g s.graph := by
  have sound := regular.sound
  have ahead := ahead_ofForest loaded
  have loading := loading_ofForest Event.Idle scope loaded
  obtain ⟨t, own, left, ⟨opened, -, idle, settled⟩, run⟩ :=
    loading.finishes (regular.tells scope) sound ahead (forest.length_spots ▸ few)
  let s : Session := { graph := g.push .finishedLoading, scope, phase := .whileLoading }
  have ends : s.settled.graph = (t.handleWithin own left).1.graph := congrArg (·.1.graph) run
  obtain ⟨pending, same⟩ := handleWithin_idle opened idle own left
  refine ⟨s.settled, load_eq_ok.mpr ⟨g, loaded, rfl⟩, ?_⟩
  rw [ends, same]
  refine (settled.queue pending).congr fun r => ?_
  rw [List.append_nil, mem_references, sound.mem_references]
  constructor
  · rintro ⟨spot, member, reference, rfl⟩
    exact ⟨_, ahead.present spot member, reference⟩
  · rintro ⟨block, found, reference⟩
    obtain ⟨spot, member, rfl⟩ := Graph.spot_of_contains loaded (Graph.contains_iff_block.mpr ⟨block, found⟩)
    cases (ahead.present spot member).symm.trans found
    exact ⟨spot, member, reference, rfl⟩

/-- Loading brings every reference in line with its declaration, whatever the order, and what is then
stored is loaded and stored as it is. -/
theorem load_settles {forest : Forest} (distinct : forest.Distinct) (loaded : Graph.ofForest forest = .ok g)
    (few : forest.size < 100000) (regular : forest.Regular) (apart : scope.Distinct) :
    ∃ s, Session.load forest scope .standard = .ok s ∧
      s.graph.nodes = (g.reconcileAll scope).2.nodes ∧
      ∃ again, Session.load s.toForest scope .standard = .ok again ∧ again.toForest = s.toForest := by
  have regular : g.Regular := .ofForest loaded distinct regular
  obtain ⟨s, opened, settled⟩ := load_settled scope loaded regular few
  refine ⟨s, opened, settled.nodes_eq (regular.sound.reconcileAll_settled regular.reference scope), ?_⟩
  have trimmed := settled.trimmed regular
  have early : ∀ id, s.graph.contains id = true → id.number < BlockId.last.number := fun id present =>
    Graph.early_ofForest loaded id (Graph.contains_iff_mem.mp (trimmed.contains present))
  obtain ⟨stored, reloaded, mirrors, steady, own⟩ := (trimmed.regular_after regular).reload early
  have own : Declarations.collect stored = .collect g := own.trans (trimmed.collect regular)
  have fewer : s.graph.toForest.size < eventLimit := by
    rw [← Graph.size_ofForest reloaded, mirrors.size]
    exact (trimmed.size_le.trans_eq (Graph.size_ofForest loaded)).trans_lt few
  obtain ⟨again, reopened, settled'⟩ := load_settled scope reloaded steady fewer
  -- The references come back as the first turns left them, so the second turns find them in line.
  have current : ∀ r ∈ stored.references, ∀ block, stored.block? r = some block →
      scope.Current (.collect stored) block := by
    intro r member block found
    obtain ⟨shown, there, reference⟩ := steady.sound.mem_references.mp member
    cases found.symm.trans there
    obtain ⟨before, here, alike⟩ := mirrors.stored_block found
    have kind : block.kind = before.kind := (congrArg Block.kind alike :)
    have current := settled.current regular.sound apart (Declarations.unambiguous_collect g) here
      (kind ▸ reference)
    rw [own]
    exact current.congr kind (congrArg Block.extra alike :)
  have unmoved := settled'.mirrors steady.sound.tree current
  refine ⟨again, reopened, ?_⟩
  calc
    again.toForest = stored.toForest := unmoved.toForest steady.sound.tree settled'.sound.tree
    _ = s.toForest := mirrors.toForest settled.sound.tree steady.sound.tree

/-- A call inside an argument of another call. The robot's method has a new name and one parameter
less; the argument goes with the call in it, which has its turn after the outer call here and before
it in the order of ids. -/
theorem load_settles_nested :
    let inner : ExtraState := .call { name := "f", args := [⟨"p", none⟩] }
    let outer : ExtraState := .call
      { target := .robot, name := "run", args := [⟨"a", none⟩, ⟨"x", none⟩], declaration := some ⟨7⟩ }
    let forest : Forest := ⟨[[.node ⟨5⟩ .methodCall [] outer
        [("ARG0", [.node ⟨2⟩ .methodCall [] inner [("ARG0", [.node ⟨3⟩ .number [] .none []])]]),
          ("ARG1", [.node ⟨4⟩ .number [] .none []])]]]⟩
    let scope : Scope := { robot := some { methods := [⟨⟨7⟩, "go", "go", .outside, none, [⟨"x", none⟩]⟩] } }
    ∃ g, Graph.ofForest forest = .ok g ∧ ∃ s, Session.load forest scope .standard = .ok s ∧
      s.graph.nodes = (g.reconcileAll scope).2.nodes ∧
      s.graph.nodes.map (fun node => (node.id, node.parent)) =
        [(⟨4⟩, some (⟨5⟩, .socket "ARG0")), (⟨5⟩, none)] ∧
      ∃ again, Session.load s.toForest scope .standard = .ok again ∧ again.toForest = s.toForest := by
  intro inner outer forest scope
  have distinct : forest.Distinct := by
    simp [forest, Forest.Distinct, BlockTree.DistinctChain, BlockTree.Distinct,
      BlockTree.DistinctInputs, Labelled.labels]
  have regular : forest.Regular := by
    intro spot member
    simp [forest, Forest.spots, BlockTree.chainSpots, BlockTree.spots, BlockTree.inputSpots] at member
    rcases member with rfl | rfl | rfl | rfl
    · refine ⟨trivial, fun _ name chain listed => ?_⟩
      simp [BlockTree.inputs] at listed
      rcases listed with ⟨-, rfl⟩ | ⟨-, rfl⟩ <;> decide
    · refine ⟨trivial, fun _ name chain listed => ?_⟩
      simp [BlockTree.inputs] at listed
      obtain ⟨-, rfl⟩ := listed
      decide
    · exact ⟨trivial, by simp [BlockTree.kind]⟩
    · exact ⟨trivial, by simp [BlockTree.kind]⟩
  have apart : scope.Distinct := by
    refine ⟨fun known robot => ?_, by simp [scope]⟩
    cases robot
    exact ⟨by decide, by decide⟩
  obtain ⟨g, loaded, nodes⟩ : ∃ g, Graph.ofForest forest = .ok g ∧
      (g.reconcileAll scope).2.nodes.map (fun node => (node.id, node.parent)) =
        [(⟨4⟩, some (⟨5⟩, .socket "ARG0")), (⟨5⟩, none)] := ⟨_, rfl, by decide +kernel⟩
  obtain ⟨s, opened, same, again⟩ := load_settles distinct loaded (by decide) regular apart
  exact ⟨g, loaded, s, opened, same, same ▸ nodes, again⟩

end Session
end RobotBlocks
