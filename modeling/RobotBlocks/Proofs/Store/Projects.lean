import Mathlib.Data.List.Nodup
import Mathlib.Data.List.Perm.Basic
import RobotBlocks.Proofs.Text.Sorted
import RobotBlocks.Store.Projects

/-! Projects of well organized workspaces. Where every workspace that has modules has one robot, the projects
list each module once; a workspace without a robot would be in no project, and of two robots one would be
left out. -/
namespace RobotBlocks

/-- Modules in workspaces that have one robot each, at its place, and mechanisms and opmodes beside it. -/
structure Organized (modules : List Module) : Prop where
  paths : (modules.map (·.path)).Nodup
  robot : ∀ module ∈ modules, ∃ robot, robot.path = (ModulePath.robot module.workspace).text ∧
    (modules.filter fun other => other.workspace = module.workspace ∧ other.type = .robot) = [robot]
  crew : ∀ module ∈ modules, module.type = .robot ∨ module.type = .mechanism ∨ module.type = .opMode

namespace Project

/-- The modules of one type in a workspace, in the order in which its project lists them. -/
def crew (modules : List Module) (workspace : String) (type : ModuleType) : List Module :=
  ((modules.filter fun module => module.workspace = workspace).mergeSort fun a b => !decide (b.name < a.name)).filter
    fun module => module.type = type

variable {modules : List Module} {workspace : String}

theorem crew_perm (modules : List Module) (workspace : String) (type : ModuleType) :
    (crew modules workspace type).Perm
      ((modules.filter fun module => module.workspace = workspace).filter fun module => module.type = type) :=
  (List.mergeSort_perm _ _).filter _

/-- A project is made of the last robot of its workspace and of the crews. -/
theorem ofModules?_eq (modules : List Module) (workspace : String) : ofModules? modules workspace =
    ((modules.filter fun module => module.workspace = workspace).filter fun module => module.type = .robot).getLast?.map
      fun robot => ⟨workspace, robot, crew modules workspace .mechanism, crew modules workspace .opMode⟩ := rfl

theorem ofModules?_perm (organized : Organized modules) (present : workspace ∈ modules.map (·.workspace)) :
    ∃ project, ofModules? modules workspace = some project ∧
      project.modules.Perm (modules.filter fun module => module.workspace = workspace) := by
  obtain ⟨member, listed, rfl⟩ := List.mem_map.mp present
  obtain ⟨robot, -, sole⟩ := organized.robot member listed
  let own := modules.filter fun module => module.workspace = member.workspace
  have sole' : own.filter (fun module => module.type = .robot) = [robot] := by
    rw [← sole, List.filter_filter]
    exact List.filter_congr fun module _ => by simp [Bool.and_comm]
  have made : ofModules? modules member.workspace = some ⟨member.workspace, robot,
      crew modules member.workspace .mechanism, crew modules member.workspace .opMode⟩ := by
    rw [ofModules?_eq, sole']
    rfl
  let rest := own.filter fun module => !decide (module.type = .robot)
  have mechanisms : rest.filter (fun module => module.type = .mechanism)
      = own.filter fun module => module.type = .mechanism := by
    rw [List.filter_filter]
    refine List.filter_congr fun module _ => ?_
    cases module.type <;> rfl
  have opModes : rest.filter (fun module => !decide (module.type = .mechanism))
      = own.filter fun module => module.type = .opMode := by
    rw [List.filter_filter]
    refine List.filter_congr fun module known => ?_
    rcases organized.crew module (List.mem_of_mem_filter known) with type | type | type <;> simp [type]
  refine ⟨_, made, ?_⟩
  calc
    _ = [robot] ++ (crew modules member.workspace .mechanism ++ crew modules member.workspace .opMode) := rfl
    _ |>.Perm ([robot] ++ (own.filter (fun module => module.type = .mechanism)
          ++ own.filter fun module => module.type = .opMode)) :=
      ((crew_perm ..).append (crew_perm ..)).append_left _
    _ = own.filter (fun module => module.type = .robot)
          ++ (rest.filter (fun module => module.type = .mechanism)
            ++ rest.filter fun module => !decide (module.type = .mechanism)) := by rw [sole', mechanisms, opModes]
    _ |>.Perm (own.filter (fun module => module.type = .robot) ++ rest) :=
      (List.filter_append_perm _ rest).append_left _
    _ |>.Perm own := List.filter_append_perm _ own

/-- By induction on the names: the project of each has just the modules of its workspace. -/
theorem filterMap_perm {names : List String} {own : String → List Module} (each : ∀ name ∈ names, ∃ project,
    ofModules? modules name = some project ∧ project.modules.Perm (own name)) :
    ((names.filterMap (ofModules? modules)).flatMap Project.modules).Perm (names.flatMap own) := by
  induction names with
  | nil => exact .refl _
  | cons name rest ih =>
    obtain ⟨project, made, perm⟩ := each name (List.mem_cons_self ..)
    rw [List.filterMap_cons_some made, List.flatMap_cons, List.flatMap_cons]
    exact perm.append (ih fun other member => each other (List.mem_cons_of_mem _ member))

/-- Every module is in one project, once. -/
theorem group_perm {entries : List ModuleEntry} (organized : Organized (entries.filterMap (·.module?))) :
    ((group entries).flatMap Project.modules).Perm (entries.filterMap (·.module?)) := by
  let modules := entries.filterMap (·.module?)
  let names := Text.ascending ((modules.filter fun module => module.type = .robot).map (·.workspace))
  let own := fun name => modules.filter fun module => module.workspace = name
  have named : ∀ name ∈ names, name ∈ modules.map (·.workspace) := by
    intro name member
    obtain ⟨robot, listed, rfl⟩ := List.mem_map.mp ((Text.mem_ascending _ name).mp member)
    exact List.mem_map_of_mem (List.mem_of_mem_filter listed)
  have covered : ∀ module ∈ modules, module.workspace ∈ names := by
    intro module listed
    obtain ⟨robot, -, sole⟩ := organized.robot module listed
    obtain ⟨known, same⟩ := List.mem_filter.mp (sole ▸ List.mem_cons_self : robot ∈ modules.filter _)
    obtain ⟨inside, typed⟩ := of_decide_eq_true same
    refine (Text.mem_ascending _ _).mpr (List.mem_map.mpr ⟨robot, List.mem_filter.mpr ⟨known, ?_⟩, inside⟩)
    exact decide_eq_true typed
  have once : modules.Nodup := organized.paths.of_map
  refine (filterMap_perm fun name member => ofModules?_perm organized (named name member)).trans ?_
  refine (List.perm_ext_iff_of_nodup (List.nodup_flatMap.mpr ⟨fun name _ => once.filter _, ?_⟩) once).mpr
    fun module => ?_
  · refine (Text.ascending_nodup _).imp fun differ module one other => differ ?_
    have first := of_decide_eq_true (List.mem_filter.mp one).2
    have second := of_decide_eq_true (List.mem_filter.mp other).2
    exact first.symm.trans second
  · rw [List.mem_flatMap]
    constructor
    · rintro ⟨name, -, listed⟩
      exact List.mem_of_mem_filter listed
    · intro listed
      exact ⟨module.workspace, covered module listed, List.mem_filter.mpr ⟨listed, decide_eq_true rfl⟩⟩

end Project

theorem ModuleEntry.paths_sublist (entries : List ModuleEntry) :
    ((entries.filterMap (·.module?)).map (·.path)).Sublist (entries.map (·.path)) := by
  induction entries with
  | nil => exact .slnil
  | cons entry rest ih =>
    rw [List.filterMap_cons]
    cases named : entry.module? with
    | none => exact ih.cons _
    | some module =>
      obtain ⟨parts, -, rfl⟩ := Option.map_eq_some_iff.mp named
      exact ih.cons_cons _

end RobotBlocks
