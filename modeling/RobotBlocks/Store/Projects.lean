import RobotBlocks.Store.Basic
import RobotBlocks.Text.Sorted

/-! Projects. A project is a workspace that has a robot, with its mechanisms and opmodes in
ascending order of their names. Modules of a workspace without a robot are in no project. -/
namespace RobotBlocks

structure Project where
  name : String
  robot : Module
  mechanisms : List Module
  opModes : List Module
  deriving DecidableEq, Repr

namespace Project

/-- The robot first, then the mechanisms, then the opmodes. -/
def modules (project : Project) : List Module :=
  project.robot :: project.mechanisms ++ project.opModes

/-- The project of a workspace. Of several robots the last one counts. -/
def ofModules? (modules : List Module) (workspace : String) : Option Project :=
  let own := modules.filter fun module => module.workspace = workspace
  let sorted := own.mergeSort fun a b => !decide (b.name < a.name)
  (own.filter fun module => module.type = .robot).getLast?.map fun robot =>
    { name := workspace, robot
      mechanisms := sorted.filter fun module => module.type = .mechanism
      opModes := sorted.filter fun module => module.type = .opMode }

/-- The projects of stored modules, in ascending order of their names. Entries under a path of
another form are left out. -/
def group (entries : List ModuleEntry) : List Project :=
  let modules := entries.filterMap (·.module?)
  let robots := modules.filter fun module => module.type = .robot
  (Text.ascending (robots.map (·.workspace))).filterMap (ofModules? modules)

end Project

/-- The projects of a store. -/
def ModuleStore.projects {σ : Type} [ModuleStore σ] (store : σ) :
    Except StoreError (List Project) :=
  Project.group <$> ModuleStore.entries store

end RobotBlocks
