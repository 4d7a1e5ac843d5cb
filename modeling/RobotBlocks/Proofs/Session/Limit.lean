import RobotBlocks.Proofs.Session.Propagation

/-! Where the limit on events stops loading. One round answers no more than a limited number of events and
drops the others. Loading queues the creation of every block and behind them all its own end, so a document
with as many blocks as the limit never sees that end: the session stays in the loading phase, in which the
creation of a reference is the only event that is answered. -/
namespace RobotBlocks
namespace Graph

variable {g g' : Graph}

/-- No event waits that would end the loading phase. -/
def Unending (g : Graph) : Prop := ∀ event ∈ g.pending.toList, event.kind ≠ .finishedLoading

theorem Unending.reports {about : BlockId → Prop} (unending : g.Unending) (reports : Reports about g g') :
    g'.Unending := by
  obtain ⟨told, appended, tells⟩ := reports.events
  intro event member
  rw [appended] at member
  rcases List.mem_append.mp member with old | new
  · exact unending event old
  · obtain ⟨id, block, payload, -, -, ⟨-, other⟩, rfl⟩ := tells event new
    exact other

theorem Unending.addBlock (unending : g.Unending) (kind : Kind) (extra : ExtraState) :
    (g.addBlock kind extra).2.Unending := by
  intro event member
  simp only [Graph.addBlock, Graph.place, Graph.emit, Graph.push, EventQueue.toList_push] at member
  rcases List.mem_append.mp member with old | new
  · exact unending event old
  · cases List.mem_singleton.mp new
    intro same
    cases same

end Graph

namespace Session

variable {s s' : Session} {g : Graph} {scope : Scope} {event : Event}

/-! The loading phase. -/

/-- A session whose loading has not come to its end although no event waits. -/
structure Halted (s : Session) : Prop where
  phase : s.phase = .whileLoading
  idle : s.graph.pending.toList = []

theorem Halted.unending (halted : s.Halted) : s.graph.Unending := by
  rw [Graph.Unending, halted.idle]
  exact List.forall_mem_nil _

theorem reports_handleLoading (s : Session) (own : Option Declarations) (event : Event) :
    Graph.Reports (fun _ => True) s.graph (s.handleLoading own event).1.graph := by
  unfold handleLoading
  split
  · exact .refl _
  · split
    · dsimp only
      split
      · next ran => exact (Graph.Reports.reconcile ..).ok ran
      · next ran => exact (Graph.Reports.reconcile ..).error ran
    · exact .refl _
  · exact .refl _

/-- Only its own event ends the loading phase. -/
theorem handleLoading_phase (s : Session) (own : Option Declarations) (other : event.kind ≠ .finishedLoading) :
    (s.handleLoading own event).1.phase = s.phase := by
  unfold handleLoading
  split
  · next ended => exact absurd ended other
  · split
    · dsimp only
      split
      · rfl
      · rfl
    · rfl
  · rfl

theorem handleWithin_phase (phase : s.phase = .whileLoading) (unending : s.graph.Unending)
    (own : Option Declarations) (budget : Nat) : (s.handleWithin own budget).1.phase = .whileLoading := by
  refine (handleWithin_keeps (P := fun t => t.phase = .whileLoading ∧ t.graph.Unending) ⟨phase, unending⟩
    (fun ⟨phase, _⟩ => ⟨phase, List.forall_mem_nil _⟩)
    (fun {t event pending} ⟨phase, unending⟩ waiting own => ?_) own budget).1
  rw [Graph.Unending, waiting, List.forall_mem_cons] at unending
  let u : Session := { t with graph := { t.graph with pending } }
  have rest : u.graph.Unending := unending.2
  have still : u.handle own event = u.handleLoading own event := handle_loading (s := u) phase own event
  rw [still]
  exact ⟨(handleLoading_phase u own unending.1).trans phase, rest.reports (reports_handleLoading ..)⟩

theorem settled_halted (phase : s.phase = .whileLoading) (unending : s.graph.Unending) : s.settled.Halted :=
  ⟨handleWithin_phase phase unending none eventLimit, pending_settled s⟩

/-- A change is not answered in the loading phase. -/
theorem Halted.unheard (halted : s.Halted) (waiting : g.pending.toList = [event])
    (change : event.kind = .change) : (s.withGraph g).graph = { g with pending := {} } := by
  obtain ⟨pending, popped, empty⟩ := EventQueue.pop?_cons waiting
  cases EventQueue.eq_empty empty
  let t : Session := { s with graph := { g with pending := {} } }
  have still : t.handle none event = (t, none) := by
    rw [handle_loading (s := t) halted.phase, handleLoading, change]
  calc (s.withGraph g).graph
    _ = ((t.handle none event).1.handleWithin (t.handle none event).2 (eventLimit - 1)).1.graph :=
      congrArg graph (settled_pop (s := { s with graph := g }) popped)
    _ = (t.handleWithin none (eventLimit - 1)).1.graph := by rw [still]
    _ = { g with pending := {} } := rfl

/-! Runs. -/

theorem Halted.withGraph (halted : s.Halted) (unending : g.Unending) : (s.withGraph g).Halted :=
  settled_halted (s := { s with graph := g }) halted.phase unending

/-- No operation opens the session. -/
theorem Halted.run {edit : SessionEdit} (halted : s.Halted) (ran : edit.run s = .ok s') : s'.Halted := by
  have settles : ∀ {g : Graph}, Graph.Reports (fun _ => True) s.graph g → (s.withGraph g).Halted :=
    fun reports => halted.withGraph (halted.unending.reports reports)
  cases SessionEdit.performs ran with
  | create kind extra => exact halted.withGraph (halted.unending.addBlock kind extra)
  | @createCallTo _ call _ g asked named =>
    have reports : Graph.Reports (fun _ => True) _ g := .setField named trivial
    exact halted.withGraph ((halted.unending.addBlock .methodCall (.call call)).reports reports)
  | same => exact halted
  | setField found accepted differs set => exact settles (.setField set trivial)
  | connectNext linked => exact settles (.connectNext linked)
  | connectSocket linked => exact settles (.connectSocket linked)
  | unplug freed => exact settles (.unplug freed trivial)
  | delete deleted => exact settles (.deleteBlock deleted)
  | applyEditor set => exact settles (.setSignature set trivial)
  | setScope scope =>
    exact settled_halted (s := { s with scope, graph := (s.graph.reconcileAll scope).2 }) halted.phase
      (halted.unending.reports (.reconcileEach ..))

theorem Halted.edit (halted : s.Halted) (edit : SessionEdit) : (s.edit edit).Halted := by
  rw [Session.edit_eq]
  cases ran : edit.run s with
  | error error => exact halted
  | ok edited => exact halted.run ran

/-- Whatever block is edited, no other one learns of it. -/
structure Isolated (s : Session) : Prop where
  renames : ∀ {d raw edit t}, s.setField d Field.name raw = .ok (edit, t) →
    ∀ r, r ≠ d → t.graph.block? r = s.graph.block? r
  reshapes : ∀ {d editor changes after t}, s.applyEditor d editor = .ok (changes, after, t) →
    ∀ r, r ≠ d → t.graph.block? r = s.graph.block? r

theorem Halted.isolated (halted : s.Halted) : s.Isolated where
  renames {d raw edit t} h r apart := by
    rcases setField_cases h with ⟨-, rfl⟩ | ⟨block, stored, old, g, found, -, differs, set, -, rfl⟩
    · rfl
    · rw [halted.unheard (Graph.waiting_setField halted.idle found differs set) rfl]
      exact (Graph.block?_setField set r).trans (if_neg apart)
  reshapes {d editor changes after t} h r apart := by
    obtain ⟨g, set, rfl⟩ := applyEditor_cases h
    obtain ⟨block, found, -⟩ := Graph.setSignature_cases set
    rw [halted.unheard (Graph.waiting_setSignature halted.idle found set) rfl]
    exact (Graph.block?_setSignature set r).trans (if_neg apart)

/-! Loading. -/

variable {forest : Forest}

theorem mem_references_take {r : BlockId} {before : Block} (loaded : Graph.ofForest forest = .ok g)
    (found : g.block? r = some before) (reference : before.kind.isReference = true) {n : Nat} :
    r ∈ references (forest.spots.take n) ↔ r ∈ forest.ids.take n := by
  rw [mem_references, ← forest.ids_spots, ← List.map_take, List.mem_map]
  refine exists_congr fun spot => and_congr_right fun member => and_iff_right_of_imp fun here => ?_
  have there := (ahead_ofForest loaded).present spot (List.mem_of_mem_take member)
  rw [here] at there
  cases found.symm.trans there
  exact reference

theorem size_of_not_mem_take {r : BlockId} {before : Block} (loaded : Graph.ofForest forest = .ok g)
    (found : g.block? r = some before) {n : Nat} (waits : r ∉ forest.ids.take n) : n ≤ forest.size := by
  by_contra few
  rw [List.take_of_length_le (not_le.mp few).le] at waits
  exact waits ((Graph.ids_ofForest loaded).mem_iff.mp
    (Graph.contains_iff_mem.mp (Graph.contains_iff_block.mpr ⟨before, found⟩)))

/-- Loading gives the references among the first blocks their turns, as many as events are answered. If the
end of loading is answered, too, what the turns told is handled; otherwise the session stops. -/
theorem load_turns (scope : Scope) (loaded : Graph.ofForest forest = .ok g) :
    ∃ s h, Session.load forest scope .standard = .ok s ∧
      Graph.Settled (.collect g) scope (references (forest.spots.take eventLimit)) g h ∧
      (forest.size < eventLimit → s.Rested ∧ h.Alerts s.graph) ∧
      (eventLimit ≤ forest.size → s.Halted ∧ s.graph = h) := by
  have ahead := ahead_ofForest loaded
  have loading := loading_ofForest Event.Quiet scope loaded
  have tells : g.Tells Event.Quiet scope := g.tells_quiet scope
  have sound := Graph.Sound.ofForest loaded
  let s : Session := { graph := g.push .finishedLoading, scope, phase := .whileLoading }
  have opens : Session.load forest scope .standard = .ok s.settled := load_eq_ok.mpr ⟨g, loaded, rfl⟩
  by_cases few : forest.size < eventLimit
  · obtain ⟨t, own, left, ⟨opened, -, quiet, settled⟩, run⟩ :=
      loading.finishes tells sound ahead (forest.length_spots ▸ few)
    have ends : s.settled = (t.handleWithin own left).1 := congrArg (·.1) run
    rw [List.append_nil, ← List.take_of_length_le (forest.length_spots.trans_le few.le)] at settled
    refine ⟨s.settled, t.graph, opens, settled, fun _ => ?_, fun many => absurd few many.not_gt⟩
    rw [ends]
    exact opened.alerts settled.sound quiet own left
  · obtain ⟨phase, settled⟩ := loading.stops tells sound ahead (forest.length_spots ▸ not_lt.mp few)
    rw [List.append_nil] at settled
    exact ⟨s.settled, _, opens, settled, fun fits => absurd fits few,
      fun _ => ⟨⟨phase, pending_settled s⟩, rfl⟩⟩

/-- A session opens exactly if its document has fewer blocks than one round answers events. Whatever the
number, the references among the first blocks are brought in line with the scope, unless they hung from an
argument that had its parameter taken away, and references beyond them are left as they were stored. In an
open session later edits of declarations reach their references; in one that did not open they never do. -/
theorem load_opens_iff (scope : Scope) (loaded : Graph.ofForest forest = .ok g) :
    ∃ s, Session.load forest scope .standard = .ok s ∧
      (∀ r after, s.graph.block? r = some after → ∃ before, g.block? r = some before ∧
        after.kind = before.kind ∧ (before.kind.isReference = true →
          (r ∈ forest.ids.take eventLimit → (scope.settle (.collect g) before).Alerted after) ∧
          (r ∉ forest.ids.take eventLimit → after = before))) ∧
      (∀ r before, g.block? r = some before → before.kind.isReference = true →
        (s.graph.block? r = none ↔
          g.Dropped (.collect g) scope (references (forest.spots.take eventLimit)) r)) ∧
      ∀ edits : List SessionEdit,
        let t := edits.foldl Session.edit s
        t.graph.pending.toList = [] ∧ (t.phase = .afterLoading ↔ forest.size < eventLimit) ∧
          (forest.size < eventLimit → t.Propagates) ∧ (eventLimit ≤ forest.size → t.Isolated) := by
  obtain ⟨s, h, opens, settled, opened, stopped⟩ := load_turns scope loaded
  have alerts : h.Alerts s.graph := by
    rcases lt_or_ge forest.size eventLimit with few | many
    · exact (opened few).2
    · rw [(stopped many).2]
      exact .refl h
  refine ⟨s, opens, fun r after there => ?_, fun r before found reference => ?_, fun edits => ?_⟩
  · obtain ⟨middle, between, kind⟩ := alerts.before there
    obtain ⟨before, found, same⟩ := settled.before between
    have kept : middle.kind = before.kind := by
      rw [same]
      split
      · exact scope.kind_settle _ before
      · rfl
    refine ⟨before, found, kind.symm.trans kept, fun reference => ⟨fun turned => ?_, fun waits => ?_⟩⟩
    · rw [if_pos ((mem_references_take loaded found reference).mpr turned)] at same
      exact same ▸ alerts.alerted between there (kept.symm ▸ reference)
    · rw [if_neg (mt (mem_references_take loaded found reference).mp waits)] at same
      rw [(stopped (size_of_not_mem_take loaded found waits)).2, between] at there
      exact (Option.some.inj there).symm.trans same
  · exact alerts.missing_iff.trans (settled.block?_eq_none_iff found)
  · intro t
    rcases lt_or_ge forest.size eventLimit with few | many
    · have rested : (edits.foldl Session.edit s).Rested :=
        List.foldlRecOn edits Session.edit (opened few).1 fun s rested edit _ => rested.edit edit
      exact ⟨rested.idle, iff_of_true rested.opened.phase few, fun _ => rested.propagates,
        fun many => absurd few many.not_gt⟩
    · have halted : (edits.foldl Session.edit s).Halted :=
        List.foldlRecOn edits Session.edit (stopped many).1 fun s halted edit _ => halted.edit edit
      have closed : t.phase ≠ .afterLoading := fun opened => nomatch halted.phase.symm.trans opened
      exact ⟨halted.idle, iff_of_false closed many.not_gt, fun few => absurd few many.not_gt,
        fun _ => halted.isolated⟩

/-! A document that reaches the limit. -/

/-- An event, or behind all events a call of a method that is not declared. -/
def crowded (n i : Nat) : BlockTree :=
  if i < n then .node ⟨i⟩ .event [] (.event []) []
  else .node ⟨i⟩ .methodCall [] (.call { name := "gone" }) []

/-- A number of events and a call, each of them loose. -/
def crowd (n : Nat) : Forest := ⟨(List.range (n + 1)).map fun i => [crowded n i]⟩

theorem crowded_eq (n i : Nat) : ∃ kind extra, crowded n i = .node ⟨i⟩ kind [] extra [] := by
  unfold crowded
  split
  · exact ⟨_, _, rfl⟩
  · exact ⟨_, _, rfl⟩

theorem ids_crowd (n : Nat) : (crowd n).ids = (List.range (n + 1)).map BlockId.mk := by
  rw [Forest.ids, crowd, List.flatMap_map, ← List.flatMap_pure_eq_map]
  refine List.flatMap_congr fun i _ => ?_
  obtain ⟨kind, extra, is⟩ := crowded_eq n i
  rw [is]
  rfl

theorem spots_crowd (n : Nat) :
    (crowd n).spots = (List.range (n + 1)).map fun i => ⟨crowded n i, [], none⟩ := by
  rw [Forest.spots, crowd, List.flatMap_map, ← List.flatMap_pure_eq_map]
  refine List.flatMap_congr fun i _ => ?_
  obtain ⟨kind, extra, is⟩ := crowded_eq n i
  rw [Function.comp, is]
  rfl

theorem crowd_loads {n : Nat} (few : n < BlockId.last.number) : ∃ g, Graph.ofForest (crowd n) = .ok g := by
  have distinct : (crowd n).Distinct := by
    intro chain listed
    obtain ⟨i, -, rfl⟩ := List.mem_map.mp listed
    obtain ⟨kind, extra, is⟩ := crowded_eq n i
    rw [is]
    exact ⟨⟨List.nodup_nil, List.nodup_nil, trivial⟩, trivial⟩
  refine (Graph.ofForest_ok_iff distinct).mpr ⟨?_, fun id listed => ?_, fun spot listed => ?_⟩
  · rw [ids_crowd]
    exact List.nodup_range.map fun _ _ same => congrArg BlockId.number same
  · rw [ids_crowd] at listed
    obtain ⟨i, within, rfl⟩ := List.mem_map.mp listed
    exact (Nat.le_of_lt_succ (List.mem_range.mp within)).trans_lt few
  · rw [spots_crowd] at listed
    obtain ⟨i, -, rfl⟩ := List.mem_map.mp listed
    obtain ⟨kind, extra, is⟩ := crowded_eq n i
    rw [is]
    exact fun _ _ member => absurd member List.not_mem_nil

theorem block?_crowd {n i : Nat} (loaded : Graph.ofForest (crowd n) = .ok g) (within : i ≤ n) :
    g.block? ⟨i⟩ = some (crowded n i).block := by
  have listed : (⟨crowded n i, [], none⟩ : Spot) ∈ (crowd n).spots := by
    rw [spots_crowd]
    exact List.mem_map_of_mem (List.mem_range.mpr (Nat.lt_succ_of_le within))
  have present := (ahead_ofForest loaded).present _ listed
  obtain ⟨kind, extra, is⟩ := crowded_eq n i
  rw [is] at present ⊢
  exact present

theorem size_crowd (n : Nat) : (crowd n).size = n + 1 := by
  rw [Forest.size, ids_crowd, List.length_map, List.length_range]

theorem take_ids_crowd (n : Nat) : (crowd n).ids.take n = (List.range n).map BlockId.mk := by
  rw [ids_crowd, ← List.map_take, List.take_range, Nat.min_eq_left (Nat.le_succ n)]

theorem references_crowd (n : Nat) : references ((crowd n).spots.take n) = [] := by
  rw [spots_crowd, ← List.map_take, List.take_range, Nat.min_eq_left (Nat.le_succ n), references,
    List.map_eq_nil_iff, List.filter_eq_nil_iff]
  intro spot listed
  obtain ⟨i, within, rfl⟩ := List.mem_map.mp listed
  simp only [Spot.node, crowded, if_pos (List.mem_range.mp within)]
  exact Bool.false_ne_true

theorem methods_crowd {n : Nat} (loaded : Graph.ofForest (crowd n) = .ok g) :
    (Declarations.collect g).methods = [] := by
  refine List.eq_nil_iff_forall_not_mem.mpr fun method listed => ?_
  obtain ⟨block, found, declares⟩ := Declarations.method_of_collect listed
  obtain ⟨state, carried, -⟩ := MethodDecl.ofBlock?_eq_some.mp declares
  obtain ⟨spot, there, here⟩ := Graph.spot_of_contains loaded (Graph.contains_iff_block.mpr ⟨block, found⟩)
  have same := (ahead_ofForest loaded).present spot there
  rw [here, found] at same
  cases same
  rw [spots_crowd] at there
  obtain ⟨i, -, rfl⟩ := List.mem_map.mp there
  simp only [Spot.node, crowded] at carried
  split at carried
  · cases carried
  · cases carried

/-- The call comes behind as many events as one round answers, so it never has a turn: nothing warns that its
method is not declared, although its turn would. -/
theorem load_opens_iff_crowd :
    ∃ s g block, Session.load (crowd eventLimit) {} .standard = .ok s ∧ s.phase = .whileLoading ∧ s.Isolated ∧
      Graph.ofForest (crowd eventLimit) = .ok g ∧ s.graph.block? ⟨eventLimit⟩ = some block ∧
      block.warning = none ∧ (Scope.settle {} (.collect g) block).warning = some (missingWarning "gone") := by
  obtain ⟨g, loaded⟩ := crowd_loads (n := eventLimit) (by decide)
  obtain ⟨s, opens, survives, gone, edited⟩ := load_opens_iff {} loaded
  have many : eventLimit ≤ (crowd eventLimit).size := (size_crowd eventLimit).symm ▸ Nat.le_succ _
  obtain ⟨-, opened, -, isolated⟩ := edited []
  have phase : s.phase = .whileLoading := by
    cases phase : s.phase with
    | whileLoading => rfl
    | afterLoading => exact absurd (opened.mp phase) many.not_gt
  have found := block?_crowd loaded (Nat.le_refl eventLimit)
  rw [crowded, if_neg (Nat.lt_irrefl _)] at found
  cases there : s.graph.block? ⟨eventLimit⟩ with
  | none =>
    obtain ⟨r, member, -⟩ := (gone _ _ found rfl).mp there
    rw [references_crowd] at member
    cases member
  | some block =>
    obtain ⟨before, same, -, waits⟩ := survives _ _ there
    cases found.symm.trans same
    have behind : (⟨eventLimit⟩ : BlockId) ∉ (crowd eventLimit).ids.take eventLimit := by
      rw [take_ids_crowd]
      intro listed
      obtain ⟨i, within, same⟩ := List.mem_map.mp listed
      cases same
      exact Nat.lt_irrefl _ (List.mem_range.mp within)
    refine ⟨s, g, block, opens, phase, isolated many, loaded, there, ?_⟩
    rw [(waits rfl).2 behind]
    have carried : (BlockTree.node ⟨eventLimit⟩ .methodCall [] (.call { name := "gone" }) []).block.extra
        = .call { name := "gone" } := rfl
    have missing : Scope.lookup {} (.collect g) .methodCall { name := "gone" } = .missing := by
      simp [Scope.lookup, Scope.owner?, Scope.wantsEvent, Declarations.findMethod?, methods_crowd loaded]
    rw [Scope.settle_of_missing carried missing]
    exact ⟨rfl, rfl⟩

end Session
end RobotBlocks
