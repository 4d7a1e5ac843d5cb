import RobotBlocks.Editor
import RobotBlocks.Proofs.Graph.Distinct
import RobotBlocks.Proofs.Graph.Storable
import RobotBlocks.Proofs.Session.Run

/-! Sessions that can be stored. Whatever is edited, the links of the graph stay a forest and the
fields of a block keep different names, so that the content of a session is a document without
repeated members. -/
namespace RobotBlocks

namespace Graph

variable {g g' : Graph}

/-- A graph whose forest is a document without repeated members. -/
structure Whole (g : Graph) : Prop where
  sound : g.Sound
  distinct : g.Distinct

theorem Whole.empty : Graph.empty.Whole := ⟨.empty, .empty⟩

theorem Whole.run (whole : g.Whole) (edit : Mutation) (ran : edit.run g = .ok g') : g'.Whole :=
  ⟨whole.sound.run ran, whole.distinct.run ran⟩

theorem Whole.queue (whole : g.Whole) (pending : EventQueue) : Whole { g with pending } :=
  ⟨whole.sound.queue pending, whole.distinct⟩

theorem Evolves.whole (evolves : g.Evolves g') (whole : g.Whole) : g'.Whole :=
  evolves.preserves whole (fun edit _ before ran => before.run edit ran) fun pending before =>
    before.queue pending

theorem Whole.ofForest {forest : Forest} (distinct : forest.Distinct)
    (loaded : ofForest forest = .ok g) : g.Whole :=
  ⟨.ofForest loaded, .ofForest distinct loaded⟩

end Graph

namespace Session

variable {s s' : Session} {content : ModuleContent} {type : ModuleType} {name : String}
  {options : Code.Options}

/-- A session with the standard reactions on a graph that can be stored. -/
structure Whole (s : Session) : Prop where
  standard : s.registry = .standard
  graph : s.graph.Whole

theorem Whole.withGraph {g : Graph} (whole : s.Whole) (graph : g.Whole) : (s.withGraph g).Whole :=
  ⟨(settled_registry _).trans whole.standard, (settled_evolves (s := { s with graph := g }) whole.standard).whole graph⟩

theorem Whole.run (whole : s.Whole) (edit : SessionEdit) (ran : edit.run s = .ok s') :
    s'.Whole := by
  obtain ⟨standard, evolves⟩ := run_evolves whole.standard ran
  refine ⟨standard, ?_⟩
  split at evolves
  · obtain ⟨kind, extra, evolves⟩ := evolves
    exact evolves.whole (whole.graph.run (.add kind extra) rfl)
  · exact evolves.whole whole.graph

theorem Whole.edit (whole : s.Whole) (edit : SessionEdit) : (s.edit edit).Whole := by
  rw [Session.edit_eq]
  cases ran : edit.run s with
  | error error => exact whole
  | ok edited => exact whole.run edit ran

/-- An edit of the graph itself; its events wait. -/
theorem Whole.mutate (whole : s.Whole) (edit : Graph.Mutation) :
    Whole { s with graph := s.graph.mutate edit } := by
  refine ⟨whole.standard, ?_⟩
  unfold Graph.mutate
  cases ran : edit.run s.graph with
  | error error => exact whole.graph
  | ok edited => exact whole.graph.run edit ran

theorem Whole.settled (whole : s.Whole) : s.settled.Whole :=
  ⟨(settled_registry s).trans whole.standard, (settled_evolves whole.standard).whole whole.graph⟩

theorem Whole.load {forest : Forest} {scope : Scope} (distinct : forest.Distinct)
    (loaded : Session.load forest scope .standard = .ok s) : s.Whole := by
  obtain ⟨g, stored, rfl⟩ := load_eq_ok.mp loaded
  have whole := Graph.Whole.ofForest distinct stored
  refine ⟨settled_registry _, ?_⟩
  refine (settled_evolves ?_).whole (whole.queue _)
  rfl

theorem Whole.toForest_distinct (whole : s.Whole) : s.toForest.Distinct :=
  whole.graph.distinct.toForest whole.graph.sound

theorem Whole.reload {scope : Scope} (whole : s.Whole)
    (loaded : Session.load s.toForest scope .standard = .ok s') : s'.Whole :=
  .load whole.toForest_distinct loaded

theorem load_ok_iff {forest : Forest} {scope : Scope} {registry : Registry} :
    (∃ s, Session.load forest scope registry = .ok s) ↔ ∃ g, Graph.ofForest forest = .ok g := by
  simp only [load_eq_ok]
  constructor
  · rintro ⟨s, g, stored, -⟩
    exact ⟨g, stored⟩
  · rintro ⟨g, stored⟩
    exact ⟨_, g, stored, rfl⟩

theorem Whole.new : Session.Whole {} := ⟨rfl, .empty⟩

theorem Whole.starter (started : starter type name = .ok s) : s.Whole := by
  have created : ∀ kind, (createBlock {} kind .none).2.Whole := fun kind =>
    Whole.new.run (.create kind .none) rfl
  cases type with
  | robot => exact Except.ok.inj started ▸ created .componentHolder
  | mechanism => exact Except.ok.inj started ▸ created .componentHolder
  | opMode =>
    obtain ⟨⟨outcome, named⟩, set, rfl⟩ := map_eq_ok.mp (mapError_eq_ok.mp started)
    exact (created .opModeDetails).run (.setField _ _ _) (mapError_eq_ok.mpr (map_eq_ok.mpr ⟨_, set, rfl⟩))
  | unknown => cases started

/-- A content stores the graph of its session under the type of the module. -/
theorem content_eq_ok : s.content type name options = .ok content →
    content.type = type ∧ content.blocks = s.graph.toForest := by
  intro made
  simp only [Session.content, bind_eq_ok, pure_eq_ok] at made
  obtain ⟨generated, -, rfl⟩ := made
  exact ⟨rfl, rfl⟩

theorem Whole.content_distinct (whole : s.Whole) (made : s.content type name options = .ok content) :
    content.blocks.Distinct := by
  rw [(content_eq_ok made).2]
  exact whole.toForest_distinct

end Session
end RobotBlocks
