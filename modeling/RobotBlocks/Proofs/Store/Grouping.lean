import Mathlib.Data.List.Sort
import RobotBlocks.Proofs.Module.Path
import RobotBlocks.Proofs.Store.Projects

/-! What projects list. The projects of some entries are told by which entries there are: each workspace with a robot
has one, with the mechanisms and the opmodes of the workspace, and all of them are in ascending order. As a list in
strict order is told by its members, it tells nothing of the order in which the entries come. -/
namespace RobotBlocks

/-- The module that an entry stands for, named by the path of the entry. -/
structure ModuleEntry.Lists (entry : ModuleEntry) (module : Module) : Prop where
  named : ModulePath.Named ⟨module.workspace, module.name⟩
  parts : entry.path = ModulePath.text ⟨module.workspace, module.name⟩
  path : module.path = entry.path
  type : module.type = entry.type
  modified : module.modified = entry.modified

theorem ModuleEntry.module?_eq_some_iff {entry : ModuleEntry} {module : Module} :
    entry.module? = some module ↔ entry.Lists module := by
  unfold ModuleEntry.module?
  rw [Option.map_eq_some_iff]
  constructor
  · rintro ⟨parts, read, rfl⟩
    obtain ⟨named, same⟩ := ModulePath.ofText?_eq_some_iff.mp read
    exact ⟨named, same.symm, rfl, rfl, rfl⟩
  · rintro ⟨named, parts, path, type, modified⟩
    refine ⟨_, ModulePath.ofText?_eq_some_iff.mpr ⟨named, parts.symm⟩, ?_⟩
    cases module
    simp_all

namespace Project

variable {modules others : List Module} {workspace : String} {type : ModuleType} {module robot : Module}
  {project : Project}

theorem mem_crew : module ∈ crew modules workspace type ↔
    module ∈ modules ∧ module.workspace = workspace ∧ module.type = type := by
  simp [crew, and_assoc]

/-- Modules under different paths: each has a name of its own in its workspace, and a workspace has one robot. -/
structure Keyed (modules : List Module) : Prop where
  once : modules.Nodup
  unique : ∀ one ∈ modules, ∀ other ∈ modules, one.workspace = other.workspace → one.name = other.name → one = other
  sole : ∀ one ∈ modules, ∀ other ∈ modules, one.type = .robot → other.type = .robot →
    one.workspace = other.workspace → one = other

/-- The order of the names is strict, as no two modules of a workspace have the same name. -/
theorem Keyed.crew_ascending (keyed : Keyed modules) (workspace : String) (type : ModuleType) :
    (crew modules workspace type).Pairwise fun a b => a.name < b.name := by
  let own := modules.filter fun module => module.workspace = workspace
  have known : ∀ {module}, module ∈ own.mergeSort (fun a b => !decide (b.name < a.name)) →
      module ∈ modules ∧ module.workspace = workspace := fun member => by
    simpa [own] using member
  have sorted : (own.mergeSort fun a b => !decide (b.name < a.name)).Pairwise
      fun a b => (!decide (b.name < a.name)) = true := by
    refine List.pairwise_mergeSort (fun a b c => ?_) (fun a b => ?_) own
    · simp only [Bool.not_eq_true', decide_eq_false_iff_not, String.not_lt]
      exact String.le_trans
    · simp only [Bool.or_eq_true, Bool.not_eq_true', decide_eq_false_iff_not, String.not_lt]
      exact String.le_total ..
  have apart : (own.mergeSort fun a b => !decide (b.name < a.name)).Pairwise (· ≠ ·) :=
    (List.mergeSort_perm own _).nodup_iff.mpr (keyed.once.filter _)
  refine List.Pairwise.filter _ ((sorted.and apart).imp_of_mem fun {a b} here there ⟨before, differs⟩ => ?_)
  simp only [Bool.not_eq_true', decide_eq_false_iff_not] at before
  refine Std.lt_of_le_of_ne (Std.not_lt.mp before) fun same => differs ?_
  exact keyed.unique a (known here).1 b (known there).1 ((known here).2.trans (known there).2.symm) same

/-- The project of a workspace is made of its robot and its crews. -/
theorem Keyed.ofModules?_eq_some_iff (keyed : Keyed modules) : ofModules? modules workspace = some project ↔
    ∃ robot ∈ modules, robot.type = .robot ∧ robot.workspace = workspace ∧
      project = ⟨workspace, robot, crew modules workspace .mechanism, crew modules workspace .opMode⟩ := by
  let robots := (modules.filter fun module => module.workspace = workspace).filter fun module => module.type = .robot
  have mem_robots : ∀ {robot}, robot ∈ robots ↔
      robot ∈ modules ∧ robot.type = .robot ∧ robot.workspace = workspace := by
    simp [robots, and_comm, and_assoc]
  have last : ∀ {robot}, robots.getLast? = some robot ↔ robot ∈ robots := by
    refine ⟨List.mem_of_getLast?, fun member => ?_⟩
    have found := List.getLast?_eq_some_getLast (List.ne_nil_of_mem member)
    obtain ⟨there, typed, own⟩ := mem_robots.mp (List.mem_of_getLast? found)
    obtain ⟨there', typed', own'⟩ := mem_robots.mp member
    rw [found, keyed.sole _ there _ there' typed typed' (own.trans own'.symm)]
  rw [ofModules?_eq, Option.map_eq_some_iff]
  refine exists_congr fun robot => ?_
  rw [last, mem_robots, and_assoc, and_assoc, eq_comm (b := project)]

theorem Keyed.mem_group_iff {entries : List ModuleEntry} (keyed : Keyed (entries.filterMap (·.module?))) :
    project ∈ group entries ↔ ∃ robot ∈ entries.filterMap (·.module?), robot.type = .robot ∧
      project = ⟨robot.workspace, robot, crew (entries.filterMap (·.module?)) robot.workspace .mechanism,
        crew (entries.filterMap (·.module?)) robot.workspace .opMode⟩ := by
  simp only [group, List.mem_filterMap (f := ofModules? _), Text.mem_ascending, List.mem_map, List.mem_filter,
    decide_eq_true_eq, keyed.ofModules?_eq_some_iff]
  constructor
  · rintro ⟨workspace, -, robot, there, typed, rfl, rfl⟩
    exact ⟨robot, there, typed, rfl⟩
  · rintro ⟨robot, there, typed, rfl⟩
    exact ⟨robot.workspace, ⟨robot, ⟨there, typed⟩, rfl⟩, robot, there, typed, rfl, rfl⟩

/-- Projects come in the order of their workspaces, and those are listed once. -/
theorem Keyed.group_ascending {entries : List ModuleEntry} (keyed : Keyed (entries.filterMap (·.module?))) :
    (group entries).Pairwise fun a b => a.name < b.name := by
  refine List.Pairwise.filterMap _ (fun a b before project made project' made' => ?_) (Text.ascending_sorted _)
  obtain ⟨robot, -, -, -, rfl⟩ := keyed.ofModules?_eq_some_iff.mp made
  obtain ⟨robot', -, -, -, rfl⟩ := keyed.ofModules?_eq_some_iff.mp made'
  exact before

/-- The order of the modules does not show. -/
theorem Keyed.crew_eq (keyed : Keyed modules) (keyed' : Keyed others)
    (same : ∀ module, module ∈ modules ↔ module ∈ others) (workspace : String) (type : ModuleType) :
    crew modules workspace type = crew others workspace type := by
  refine Text.eq_of_ascending (keyed.crew_ascending workspace type) (keyed'.crew_ascending workspace type)
    fun module => ?_
  rw [mem_crew, mem_crew, same]

variable {entries : List ModuleEntry}

theorem mem_modules_iff : module ∈ entries.filterMap (·.module?) ↔ ∃ entry ∈ entries, entry.Lists module := by
  simp only [List.mem_filterMap, ModuleEntry.module?_eq_some_iff]

theorem keyed_of_paths (paths : (entries.map (·.path)).Nodup)
    (robots : (((entries.filter fun entry => entry.type = .robot).filterMap (·.module?)).map (·.workspace)).Nodup) :
    Keyed (entries.filterMap (·.module?)) := by
  have distinct : ((entries.filterMap (·.module?)).map (·.path)).Nodup :=
    paths.sublist (ModuleEntry.paths_sublist entries)
  have robot : ∀ {module}, module ∈ entries.filterMap (·.module?) → module.type = .robot →
      module ∈ (entries.filter fun entry => entry.type = .robot).filterMap (·.module?) := by
    intro module member typed
    obtain ⟨entry, listed, lists⟩ := mem_modules_iff.mp member
    refine mem_modules_iff.mpr ⟨entry, List.mem_filter.mpr ⟨listed, ?_⟩, lists⟩
    exact decide_eq_true (lists.type.symm.trans typed)
  refine ⟨distinct.of_map, fun one here other there workspace name => ?_,
    fun one here other there typed typed' own => ?_⟩
  · obtain ⟨entry, -, lists⟩ := mem_modules_iff.mp here
    obtain ⟨entry', -, lists'⟩ := mem_modules_iff.mp there
    refine List.inj_on_of_nodup_map distinct here there ?_
    rw [lists.path, lists'.path, lists.parts, lists'.parts, workspace, name]
  · exact List.inj_on_of_nodup_map robots (robot here typed) (robot there typed') own

/-- All modules of one type that entries list for a workspace, in ascending order of their names. -/
structure IsCrew (entries : List ModuleEntry) (workspace : String) (type : ModuleType) (crew : List Module) : Prop where
  ascending : (crew.map (·.name)).Pairwise (· < ·)
  mem_iff : ∀ module, module ∈ crew ↔
    (∃ entry ∈ entries, entry.Lists module) ∧ module.workspace = workspace ∧ module.type = type

theorem Keyed.isCrew (keyed : Keyed (entries.filterMap (·.module?))) (workspace : String) (type : ModuleType) :
    IsCrew entries workspace type (crew (entries.filterMap (·.module?)) workspace type) where
  ascending := List.pairwise_map.mpr (keyed.crew_ascending workspace type)
  mem_iff module := by rw [mem_crew, mem_modules_iff]

/-- Where entries have different paths and no workspace has two robots, the projects are in ascending order, one for
each workspace with a robot at a path that can be read. A project has the mechanisms and the opmodes of its workspace,
each once and in ascending order of their names. Entries at other paths and entries of no type are in no project, and
the order of the entries does not matter. -/
theorem group_exact (paths : (entries.map (·.path)).Nodup)
    (robots : (((entries.filter fun entry => entry.type = .robot).filterMap (·.module?)).map (·.workspace)).Nodup) :
    ((group entries).map (·.name)).Pairwise (· < ·) ∧
    (∀ workspace, workspace ∈ (group entries).map (·.name) ↔
      ∃ entry ∈ entries, ∃ robot, entry.Lists robot ∧ robot.type = .robot ∧ robot.workspace = workspace) ∧
    (∀ project ∈ group entries,
      (∃ entry ∈ entries, entry.Lists project.robot) ∧ project.robot.type = .robot ∧
        project.robot.workspace = project.name ∧ IsCrew entries project.name .mechanism project.mechanisms ∧
        IsCrew entries project.name .opMode project.opModes) ∧
    (∀ entry ∈ entries, (∀ path : ModulePath, path.Named → path.text ≠ entry.path) ∨ entry.type = .unknown →
      ∀ project ∈ group entries, ∀ module ∈ project.modules, module.path ≠ entry.path) ∧
    ∀ other : List ModuleEntry, other.Perm entries → group other = group entries := by
  have keyed := keyed_of_paths paths robots
  have shape : ∀ project ∈ group entries, (∃ entry ∈ entries, entry.Lists project.robot) ∧ project.robot.type = .robot ∧
      project.robot.workspace = project.name ∧ IsCrew entries project.name .mechanism project.mechanisms ∧
      IsCrew entries project.name .opMode project.opModes := by
    intro project listed
    obtain ⟨robot, there, typed, rfl⟩ := keyed.mem_group_iff.mp listed
    exact ⟨mem_modules_iff.mp there, typed, rfl, keyed.isCrew _ _, keyed.isCrew _ _⟩
  refine ⟨List.pairwise_map.mpr keyed.group_ascending, fun workspace => ?_, shape, ?_, fun other perm => ?_⟩
  · rw [List.mem_map]
    constructor
    · rintro ⟨project, listed, rfl⟩
      obtain ⟨⟨entry, known, lists⟩, typed, own, -⟩ := shape project listed
      exact ⟨entry, known, project.robot, lists, typed, own⟩
    · rintro ⟨entry, known, robot, lists, typed, rfl⟩
      exact ⟨_, keyed.mem_group_iff.mpr ⟨robot, mem_modules_iff.mpr ⟨entry, known, lists⟩, typed, rfl⟩, rfl⟩
  · intro entry known stray project listed module member same
    obtain ⟨robot, typed, -, mechanisms, opModes⟩ := shape project listed
    -- Every module of a project is listed by an entry, which has its path to itself.
    have listed : (∃ entry ∈ entries, entry.Lists module) ∧ module.type ≠ .unknown := by
      rcases List.mem_append.mp member with first | last
      · rcases List.mem_cons.mp first with rfl | inside
        · exact ⟨robot, by simp [typed]⟩
        · obtain ⟨lists, -, kind⟩ := (mechanisms.mem_iff module).mp inside
          exact ⟨lists, by simp [kind]⟩
      · obtain ⟨lists, -, kind⟩ := (opModes.mem_iff module).mp last
        exact ⟨lists, by simp [kind]⟩
    obtain ⟨⟨own, there, lists⟩, kind⟩ := listed
    obtain rfl : own = entry := List.inj_on_of_nodup_map paths there known (lists.path.symm.trans same)
    rcases stray with other | unknown
    · exact other _ lists.named lists.parts.symm
    · exact kind (lists.type.trans unknown)
  · have modules : ∀ module, module ∈ other.filterMap (·.module?) ↔ module ∈ entries.filterMap (·.module?) :=
      fun module => (perm.filterMap _).mem_iff
    have keyed' : Keyed (other.filterMap (·.module?)) :=
      keyed_of_paths ((perm.map _).nodup_iff.mpr paths) ((((perm.filter _).filterMap _).map _).nodup_iff.mpr robots)
    refine Text.eq_of_ascending keyed'.group_ascending keyed.group_ascending fun project => ?_
    simp only [keyed'.mem_group_iff, keyed.mem_group_iff, modules, keyed'.crew_eq keyed modules]

/-- Two workspaces with a robot, one without, and a robot that lies nowhere. -/
theorem group_exact_orphan :
    let entries : List ModuleEntry :=
      [⟨"Beta/Beta.blk", .robot, 1⟩, ⟨"Alpha/teleop.blk", .opMode, 2⟩, ⟨"Alpha/auto.blk", .opMode, 3⟩,
        ⟨"Alpha/Alpha.blk", .robot, 4⟩, ⟨"Alpha/arm.blk", .mechanism, 5⟩, ⟨"Orphan/drive.blk", .opMode, 6⟩,
        ⟨"not a path", .robot, 7⟩]
    (entries.map (·.path)).Nodup ∧
      (((entries.filter fun entry => entry.type = .robot).filterMap (·.module?)).map (·.workspace)).Nodup ∧
      "Alpha" ∈ (group entries).map (·.name) ∧ group entries.reverse = group entries := by
  intro entries
  have paths : (entries.map (·.path)).Nodup := by decide
  have robots :
      (((entries.filter fun entry => entry.type = .robot).filterMap (·.module?)).map (·.workspace)).Nodup := by
    decide +kernel
  obtain ⟨-, listed, -, -, unordered⟩ := group_exact paths robots
  have lists : ModuleEntry.Lists ⟨"Alpha/Alpha.blk", .robot, 4⟩ ⟨"Alpha/Alpha.blk", .robot, "Alpha", "Alpha", 4⟩ :=
    ModuleEntry.module?_eq_some_iff.mp (by decide +kernel)
  exact ⟨paths, robots, (listed _).mpr ⟨_, by simp [entries], _, lists, rfl, rfl⟩, unordered _ (List.reverse_perm _)⟩

end Project
end RobotBlocks
