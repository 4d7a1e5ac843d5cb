import Mathlib.Data.List.Forall2
import Mathlib.Data.Option.Basic
import RobotBlocks.Proofs.Store.Operations

/-! A shelf and a database that hold the same. Whatever is asked of both, they answer the same and hold the
same afterwards; only the times at which they marked their modules differ. -/
namespace RobotBlocks

/-! Answers without times. -/

def ModuleEntry.timeless (entry : ModuleEntry) : ModuleEntry := { entry with modified := 0 }

def Module.timeless (module : Module) : Module := { module with modified := 0 }

def Project.timeless (project : Project) : Project where
  name := project.name
  robot := project.robot.timeless
  mechanisms := project.mechanisms.map Module.timeless
  opModes := project.opModes.map Module.timeless

def StoreAnswer.timeless : StoreAnswer → StoreAnswer
  | .entries listed => .entries (listed.map ModuleEntry.timeless)
  | .projects grouped => .projects (grouped.map Project.timeless)
  | answer => answer

section Timeless

variable {entries : List ModuleEntry} {oldName newName : String} {moves : List (String × String)}

/-- Where modules land does not depend on times. -/
theorem landings_timeless : landings oldName newName (entries.map ModuleEntry.timeless) moves
    = landings oldName newName entries moves := by
  induction entries generalizing moves with
  | nil => rfl
  | cons entry rest ih =>
    simp only [List.map_cons, landings, ih]
    rfl

theorem planWorkspaceMove_timeless : planWorkspaceMove (entries.map ModuleEntry.timeless) oldName newName
    = planWorkspaceMove entries oldName newName := by
  have taken : ∀ target, (entries.map ModuleEntry.timeless).any (fun entry => entry.path = target)
      = entries.any fun entry => entry.path = target := by
    intro target
    rw [List.any_map]
    rfl
  simp only [planWorkspaceMove, landings_timeless, taken]

theorem Project.ofModules?_timeless (modules : List Module) (workspace : String) :
    ofModules? (modules.map Module.timeless) workspace = (ofModules? modules workspace).map Project.timeless := by
  have kept : ∀ (test : Module → Bool) (listed : List Module), (∀ module, test module.timeless = test module) →
      (listed.map Module.timeless).filter test = (listed.filter test).map Module.timeless := by
    intro test listed ignores
    rw [List.filter_map]
    exact congrArg _ (List.filter_congr fun module _ => ignores module)
  have sorted : ∀ listed : List Module,
      (listed.map Module.timeless).mergeSort (fun a b => !decide (b.name < a.name))
        = (listed.mergeSort fun a b => !decide (b.name < a.name)).map Module.timeless :=
    fun listed => (List.map_mergeSort (f := Module.timeless) fun _ _ _ _ => rfl).symm
  have own := kept (fun module => module.workspace = workspace) modules fun _ => rfl
  simp only [ofModules?, own, sorted]
  rw [kept _ _ fun _ => rfl, kept _ _ fun _ => rfl, kept _ _ fun _ => rfl, List.getLast?_map, Option.map_map,
    Option.map_map]
  rfl

/-- Projects are formed whatever the times. -/
theorem Project.group_timeless :
    Project.group (entries.map ModuleEntry.timeless) = (Project.group entries).map Project.timeless := by
  have modules : (entries.map ModuleEntry.timeless).filterMap (·.module?)
      = (entries.filterMap (·.module?)).map Module.timeless := by
    rw [List.filterMap_map, List.map_filterMap]
    refine List.filterMap_congr fun entry _ => ?_
    simp only [Function.comp, ModuleEntry.module?, ModuleEntry.timeless, Option.map_map]
    rfl
  have robots : ((entries.filterMap (·.module?)).map Module.timeless).filter (fun module => module.type = .robot)
      = ((entries.filterMap (·.module?)).filter fun module => module.type = .robot).map Module.timeless :=
    List.filter_map ..
  simp only [Project.group, modules, robots, List.map_map]
  exact (List.filterMap_congr fun workspace _ => ofModules?_timeless _ workspace).trans
    (List.map_filterMap ..).symm

end Timeless

/-! Rows. -/

/-- The paths, types and texts of the modules. -/
def Shelf.contents (shelf : Shelf) : List (String × String × String) :=
  shelf.modules.map fun (path, module) => (path, module.type.name, module.text)

def Database.contents (db : Database) : List (String × String × String) :=
  db.modules.map fun row => (row.path, row.type, row.text)

/-- A row stands for what a shelf holds under its path. -/
structure Copies (slot : String × StoredModule) (row : ModuleRow) : Prop where
  path : row.path = slot.1
  type : row.type = slot.2.type.name
  text : row.text = slot.2.text

section Rows

open ModuleTable

variable {modules : List (String × StoredModule)} {table : ModuleTable} {path : String} {module : StoredModule}
  {row : ModuleRow}

theorem lookup_select (rows : List.Forall₂ Copies modules table) (path : String) :
    Option.Rel (fun module row => Copies (path, module) row) (modules.lookup path) (table.select path) := by
  induction rows with
  | nil => exact .none
  | @cons slot row slots rest copies _ ih =>
    obtain ⟨first, own⟩ := slot
    rw [Shelf.lookup_cons, select, List.find?_cons, copies.path]
    by_cases same : path = first
    · subst same
      simpa using Option.Rel.some copies
    · have differs : ¬ first = path := fun met => same met.symm
      simp only [same, differs, if_false, decide_false]
      exact ih

theorem select_cases (rows : List.Forall₂ Copies modules table) (path : String) :
    (modules.lookup path = none ∧ table.select path = none) ∨
      ∃ module row, modules.lookup path = some module ∧ table.select path = some row ∧ Copies (path, module) row := by
  have related := lookup_select rows path
  revert related
  cases modules.lookup path <;> cases table.select path <;> intro related
  · exact .inl ⟨rfl, rfl⟩
  · cases related
  · cases related
  · cases related with
    | some copies => exact .inr ⟨_, _, rfl, rfl, copies⟩

/-- A module under a free path. -/
theorem copies_insert (rows : List.Forall₂ Copies modules table) (free : modules.lookup path = none)
    (copies : Copies (path, module) row) :
    List.Forall₂ Copies (Shelf.insertModule path module modules) (place row table) := by
  induction rows with
  | nil => exact .cons copies .nil
  | @cons slot other slots rest head tail ih =>
    obtain ⟨first, own⟩ := slot
    rw [Shelf.lookup_cons] at free
    have differs : ¬ path = first := fun same => by simp [same] at free
    rw [if_neg differs] at free
    unfold Shelf.insertModule place
    rw [if_neg differs, copies.path, head.path]
    split
    · exact .cons copies (.cons head tail)
    · exact .cons head (ih free)

/-- What is read off the rows is read off the shelf. -/
theorem map_rows {α : Type} {f : String × StoredModule → α} {g : ModuleRow → α}
    (rows : List.Forall₂ Copies modules table) (same : ∀ slot row, Copies slot row → g row = f slot) :
    table.map g = modules.map f := by
  induction rows with
  | nil => rfl
  | cons copies _ ih => rw [List.map_cons, List.map_cons, same _ _ copies, ih]

theorem paths_rows (rows : List.Forall₂ Copies modules table) : table.map (·.path) = modules.map (·.1) :=
  map_rows rows fun _ _ copies => copies.path

/-- A statement meets no row where there is none. -/
theorem rows_met : (table.filter fun row => row.path = path).length = 0 ↔ table.select path = none := by
  rw [List.length_eq_zero_iff, List.filter_eq_nil_iff, select, List.find?_eq_none]

/-- A module under a path that is taken. -/
theorem copies_update {old : StoredModule} {change : ModuleRow → ModuleRow} (rows : List.Forall₂ Copies modules table)
    (sorted : Shelf.Sorted modules) (found : modules.lookup path = some old)
    (copies : ∀ row, Copies (path, old) row → Copies (path, module) (change row)) :
    List.Forall₂ Copies (Shelf.insertModule path module modules) (table.update path change).2 := by
  induction rows with
  | nil => cases found
  | @cons slot row slots rest head tail ih =>
    obtain ⟨first, own⟩ := slot
    obtain ⟨above, sorted⟩ := List.pairwise_cons.mp sorted
    rw [Shelf.lookup_cons] at found
    unfold Shelf.insertModule
    show List.Forall₂ Copies _
      ((if row.path = path then change row else row) :: (ModuleTable.update rest path change).2)
    rw [head.path]
    by_cases here : path = first
    · subst here
      rw [if_pos rfl, Option.some.injEq] at found
      subst found
      -- no row after this one has its path
      have missing : slots.lookup path = none :=
        List.lookup_eq_none_iff.mpr fun slot after => by simpa using String.ne_of_lt (above slot after)
      have none : select rest path = none := by
        obtain ⟨-, none⟩ | ⟨module, row, there, -⟩ := select_cases tail path
        · exact none
        · exact absurd (missing.symm.trans there) (Option.some_ne_none module).symm
      rw [if_pos rfl, if_pos rfl, Database.update_none change (rows_met.mpr none)]
      exact .cons (copies row head) tail
    · rw [if_neg here] at found
      have later : ¬ path < first := by
        obtain ⟨before, after, split, -⟩ := List.lookup_eq_some_iff.mp found
        have listed : (path, old) ∈ slots := split ▸ by simp
        exact fun before => String.lt_irrefl _ (String.lt_trans before (above _ listed))
      rw [if_neg here, if_neg later, if_neg (Ne.symm here)]
      exact .cons head (ih sorted found)

theorem typed_rows (rows : List.Forall₂ Copies modules table) :
    ∀ row ∈ table, ∃ type : ModuleType, row.type = type.name := by
  induction rows with
  | nil => exact List.forall_mem_nil _
  | @cons slot row slots rest copies _ ih => exact List.forall_mem_cons.mpr ⟨⟨slot.2.type, copies.type⟩, ih⟩

theorem list_rows (rows : List.Forall₂ Copies modules table) :
    ∃ entries, Database.list table = .ok entries ∧ entries.map ModuleEntry.timeless
      = modules.map fun slot => ⟨slot.1, slot.2.type, 0⟩ := by
  induction rows with
  | nil => exact ⟨[], rfl, rfl⟩
  | @cons slot row slots rest copies _ ih =>
    obtain ⟨entries, listed, same⟩ := ih
    refine ⟨⟨row.path, slot.2.type, row.modified⟩ :: entries, ?_, ?_⟩
    · unfold Database.list at listed ⊢
      simp only [List.mapM_cons, bind_eq_ok, pure_eq_ok]
      exact ⟨_, ⟨slot.2.type, by rw [copies.type, Database.parseType_name], rfl⟩, entries, listed, rfl⟩
    · rw [List.map_cons, List.map_cons, same, ModuleEntry.timeless, copies.path]

end Rows

/-! Stores. -/

/-- A shelf that answers and a database that holds the same. -/
structure Twins (shelf : Shelf) (db : Database) : Prop where
  ordered : shelf.Ordered
  rows : List.Forall₂ Copies shelf.modules db.modules
  values : shelf.values = db.values

namespace Twins

open ModuleTable

variable {shelf : Shelf} {db : Database} (twins : Twins shelf db)
include twins

omit twins in
theorem empty : Twins {} {} := ⟨⟨rfl, .nil⟩, .nil, rfl⟩

/-- The time of the next writes does not matter. -/
theorem mark (time time' : Int) : Twins { shelf with clock := time } { db with clock := time' } :=
  ⟨⟨twins.ordered.available, twins.ordered.sorted⟩, twins.rows, twins.values⟩

theorem select_cases (path : String) : (shelf.module? path = none ∧ db.modules.select path = none) ∨
    ∃ module row, shelf.module? path = some module ∧ db.modules.select path = some row ∧
      Copies (path, module) row :=
  RobotBlocks.select_cases twins.rows path

theorem held (path : String) : shelf.held path = db.held path := by
  rcases twins.select_cases path with ⟨missing, none⟩ | ⟨module, row, found, there, copies⟩
  · rw [Shelf.held, Database.held, missing, none]
    rfl
  · rw [Shelf.held, Database.held_of_select there copies.type, found, copies.text]
    rfl

theorem listed : ∃ entries, Database.list db.modules = .ok entries ∧
    entries.map ModuleEntry.timeless = shelf.list.map ModuleEntry.timeless := by
  obtain ⟨entries, listed, same⟩ := list_rows twins.rows
  refine ⟨entries, listed, same.trans ?_⟩
  rw [Shelf.list, List.map_map]
  rfl

theorem entries : Parallel (fun listed listed' => listed.map ModuleEntry.timeless = listed'.map ModuleEntry.timeless)
    (ModuleStore.entries shelf) (ModuleStore.entries db) := by
  obtain ⟨entries, listed, same⟩ := twins.listed
  rw [Shelf.entries_eq twins.ordered]
  simp only [ModuleStore.entries, listed]
  exact .ok same.symm

theorem keyed : Database.WellKeyed db.modules := by
  refine ⟨?_, typed_rows twins.rows⟩
  rw [paths_rows twins.rows]
  exact twins.ordered.sorted.map _ fun first second before same => String.lt_irrefl _ (same ▸ before)

theorem fetch (path : String) : ModuleStore.fetch shelf path = ModuleStore.fetch db path := by
  rw [Shelf.fetch_held twins.ordered, twins.held]
  exact (Database.fetch_held twins.keyed path).symm

omit twins in
theorem transaction {body : ModuleTable → Except StoreError ModuleTable} {result : Except StoreError Shelf}
    (runs : Parallel (fun after table => Twins after { db with modules := table }) result (body db.modules)) :
    Parallel Twins result (db.transaction body) := by
  rw [Database.transaction]
  generalize body db.modules = written at runs
  cases runs with
  | ok twins => exact .ok twins
  | error e => exact .error e

theorem put {path : String} {module : StoredModule} {row : ModuleRow} (free : shelf.module? path = none)
    (copies : Copies (path, module) row) :
    Twins (shelf.put path module) { db with modules := place row db.modules } :=
  ⟨twins.ordered.put, copies_insert twins.rows free copies, twins.values⟩

theorem filter (keeps : String → Bool) :
    Twins { shelf with modules := shelf.modules.filter fun slot => keeps slot.1 }
      { db with modules := db.modules.filter fun row => keeps row.path } := by
  refine ⟨twins.ordered.filter _, List.rel_filter ?_ twins.rows, twins.values⟩
  intro slot row copies
  show keeps slot.1 = true ↔ keeps row.path = true
  rw [copies.path]

theorem erase (path : String) : Twins (shelf.erase path) { db with modules := (db.modules.delete path).2 } :=
  twins.filter fun other => decide (other ≠ path)

theorem holds (path : String) : db.modules.holds path = (shelf.module? path).isSome := by
  rw [ModuleTable.holds]
  rcases twins.select_cases path with ⟨missing, none⟩ | ⟨module, row, found, there, -⟩
  · rw [missing, none]
    rfl
  · rw [found, there]
    rfl

theorem create (type : ModuleType) (path text : String) :
    Parallel Twins (ModuleStore.create shelf type path text) (ModuleStore.create db type path text) := by
  rw [Shelf.create_eq twins.ordered]
  refine .check fun _ => transaction ?_
  rw [twins.holds]
  cases there : shelf.module? path with
  | none =>
    have free : db.modules.holds path = false := by rw [twins.holds, there]; rfl
    simp only [Shelf.ensureFree, there, ModuleTable.insert, free]
    exact .ok (twins.put there ⟨rfl, rfl, rfl⟩)
  | some module =>
    simp only [Shelf.ensureFree, there]
    exact .error _

theorem save (path text : String) :
    Parallel Twins (ModuleStore.save shelf path text) (ModuleStore.save db path text) := by
  rw [Shelf.save_eq twins.ordered]
  simp only [ModuleStore.save, Database.requireRows, ModuleTable.update, rows_met]
  rcases twins.select_cases path with ⟨missing, none⟩ | ⟨module, row, found, there, -⟩
  · simp only [Shelf.get, missing, none]
    exact .error _
  · simp only [Shelf.get, found, there]
    exact .ok ⟨twins.ordered.put, copies_update twins.rows twins.ordered.sorted found
      fun row copies => ⟨copies.path, copies.type, rfl⟩, twins.values⟩

theorem delete (path : String) : Parallel Twins (ModuleStore.delete shelf path) (ModuleStore.delete db path) := by
  rw [Shelf.delete_eq twins.ordered]
  simp only [ModuleStore.delete, Database.requireRows, ModuleTable.delete, rows_met]
  rcases twins.select_cases path with ⟨missing, none⟩ | ⟨module, row, found, there, -⟩
  · simp only [Shelf.get, missing, none]
    exact .error _
  · simp only [Shelf.get, found, there]
    exact .ok (twins.erase path)

/-- One module goes to a free path. -/
theorem carry {source target : String} (copy : Bool) (free : shelf.module? target = none) :
    Parallel (fun after table => Twins after { db with modules := table })
      (shelf.carry copy (source, target)) (Database.carry db.clock copy db.modules (source, target)) := by
  simp only [Shelf.carry, Database.carry, Database.copyRow]
  rcases twins.select_cases source with ⟨missing, none⟩ | ⟨module, row, found, there, copies⟩
  · simp only [Shelf.get, missing, none]
    exact .error _
  · have free' : db.modules.holds target = false := by rw [twins.holds, free]; rfl
    simp only [Shelf.get, found, there, ModuleTable.insert, free']
    have carried : Copies (target, { module with modified := shelf.clock })
        { row with path := target, modified := db.clock } := ⟨rfl, copies.type, copies.text⟩
    have moved := twins.put free carried
    cases copy with
    | true => exact .ok moved
    | false => exact .ok (moved.erase source)

theorem moveModule (source target : String) (copy : Bool) :
    Parallel Twins (ModuleStore.moveModule shelf source target copy)
      (ModuleStore.moveModule db source target copy) := by
  rw [Shelf.moveModule_eq twins.ordered]
  refine .check fun _ => transaction ?_
  rw [twins.holds, twins.holds]
  cases found : shelf.module? source with
  | none =>
    simp only [Shelf.get, found]
    exact .error _
  | some module =>
    cases there : shelf.module? target with
    | some other =>
      simp only [Shelf.get, Shelf.ensureFree, found, there]
      exact .error _
    | none =>
      simp only [Shelf.get, Shelf.ensureFree, found, there]
      exact twins.carry copy there

/-- Modules go to free paths one after the other. No move takes the path that a later one needs. -/
theorem foldlM_carry (copy : Bool) {moves : List (String × String)} (distinct : (moves.map (·.2)).Nodup)
    (free : ∀ move ∈ moves, shelf.held move.2 = none) :
    Parallel (fun after table => Twins after { db with modules := table })
      (moves.foldlM (Shelf.carry copy) shelf) (moves.foldlM (Database.carry db.clock copy) db.modules) := by
  induction moves generalizing shelf db with
  | nil => exact .ok twins
  | cons move rest ih =>
    obtain ⟨source, target⟩ := move
    obtain ⟨apart, distinct⟩ := List.nodup_cons.mp distinct
    obtain ⟨own, free⟩ := List.forall_mem_cons.mp free
    rw [List.foldlM_cons, List.foldlM_cons]
    refine (twins.carry copy (Option.map_eq_none_iff.mp own)).left.bind ?_
    rintro between table ⟨carried, twins'⟩
    refine ih twins' distinct fun move member => ?_
    obtain ⟨-, _, -, others⟩ := Shelf.carry_held twins.ordered carried
    have differs : move.2 ≠ target := fun same => apart (List.mem_map.mpr ⟨move, member, same⟩)
    rw [others, if_neg differs, free move member, ite_self]

theorem moveWorkspace (oldName newName : String) (copy : Bool) :
    Parallel Twins (ModuleStore.moveWorkspace shelf oldName newName copy)
      (ModuleStore.moveWorkspace db oldName newName copy) := by
  obtain ⟨entries, listed, same⟩ := twins.listed
  have plan : planWorkspaceMove entries oldName newName = planWorkspaceMove shelf.list oldName newName := by
    rw [← planWorkspaceMove_timeless, same, planWorkspaceMove_timeless]
  rw [Shelf.moveWorkspace_eq twins.ordered]
  refine transaction ?_
  rw [listed]
  show Parallel _ _ (planWorkspaceMove entries oldName newName >>= _)
  rw [plan]
  cases planned : planWorkspaceMove shelf.list oldName newName with
  | error error => exact .error error
  | ok moves =>
    obtain ⟨-, -, -, movable⟩ := planWorkspaceMove_eq_ok.mp planned
    have apart := (Shelf.listing twins.ordered).separate movable
    exact twins.foldlM_carry copy apart.targets fun move member => Option.map_eq_none_iff.mpr (apart.free move member)

/-- The database deletes what the shelf does not keep. -/
theorem doomed {name : String} {entries : List ModuleEntry} (listed : Database.list db.modules = .ok entries) :
    (entries.filter fun entry => entry.isIn name).isEmpty = true
      ↔ (shelf.outside name).length = shelf.modules.length := by
  have paths : entries.map (·.path) = shelf.modules.map (·.1) :=
    (Database.list_paths listed).trans (paths_rows twins.rows)
  have every : (∀ entry ∈ entries, ¬ entry.isIn name = true) ↔ ∀ slot ∈ shelf.modules,
      (!(ModulePath.ofText? slot.1).any fun path => path.workspace = name) = true := by
    simp only [Bool.not_eq_true', Bool.not_eq_true, ModuleEntry.isIn]
    rw [← List.forall_mem_map (f := fun entry : ModuleEntry => entry.path)
      (P := fun path => ((ModulePath.ofText? path).any fun path => path.workspace = name) = false), paths,
      List.forall_mem_map]
  rw [List.isEmpty_iff, List.filter_eq_nil_iff, every]
  exact List.length_filter_eq_length_iff.symm

theorem deleteWorkspace (name : String) :
    Parallel Twins (ModuleStore.deleteWorkspace shelf name) (ModuleStore.deleteWorkspace db name) := by
  obtain ⟨entries, listed, -⟩ := twins.listed
  rw [Shelf.deleteWorkspace_eq twins.ordered, Database.deleteWorkspace_eq name listed]
  by_cases none : (shelf.outside name).length = shelf.modules.length
  · rw [if_pos none, if_pos ((twins.doomed listed).mpr none)]
    exact .error _
  · rw [if_neg none, if_neg fun empty => none ((twins.doomed listed).mp empty)]
    have left := twins.filter fun path => !(ModulePath.ofText? path).any fun path => path.workspace = name
    exact .ok left

theorem fetchValue (key default : String) :
    ModuleStore.fetchValue shelf key default = ModuleStore.fetchValue db key default := by
  simp only [ModuleStore.fetchValue, twins.ordered.open?, ← twins.values]
  rfl

theorem saveValue (key value : String) :
    Parallel Twins (ModuleStore.saveValue shelf key value) (ModuleStore.saveValue db key value) := by
  simp only [ModuleStore.saveValue, twins.ordered.open?]
  exact .ok ⟨⟨twins.ordered.available, twins.ordered.sorted⟩, twins.rows, by rw [twins.values]⟩

theorem projects : Parallel (fun grouped grouped' => grouped.map Project.timeless = grouped'.map Project.timeless)
    (ModuleStore.projects shelf) (ModuleStore.projects db) := by
  refine twins.entries.map fun listed listed' same => ?_
  rw [← Project.group_timeless, same, Project.group_timeless]

theorem contains (path : String) : ModuleStore.contains shelf path = ModuleStore.contains db path := by
  rw [ModuleStore.contains, ModuleStore.contains, ModuleStore.fetchOptional, ModuleStore.fetchOptional, twins.fetch]

/-! Operations. -/

/-- The same answer, but for times, and stores that hold the same. -/
def Agree : StoreAnswer × Shelf → StoreAnswer × Database → Prop
  | (answer, shelf), (answer', db) => answer.timeless = answer'.timeless ∧ Twins shelf db

/-- An operation on both. -/
theorem perform (op : StoreOp) : Parallel Agree (op.perform shelf) (op.perform db) := by
  -- a write is answered by `done`; a question leaves the stores as they are
  have write : ∀ {result : Except StoreError Shelf} {result' : Except StoreError Database},
      Parallel Twins result result' → Parallel Agree (return (.done, ← result)) (return (.done, ← result')) :=
    fun runs => runs.bind fun _ _ twins => .ok ⟨rfl, twins⟩
  cases op with
  | entries => exact twins.entries.bind fun listed listed' same => .ok ⟨congrArg StoreAnswer.entries same, twins⟩
  | fetch path =>
    rw [StoreOp.perform, StoreOp.perform, twins.fetch]
    exact .check fun text => .ok ⟨rfl, twins⟩
  | create type path text => exact write (twins.create type path text)
  | save path text => exact write (twins.save path text)
  | delete path => exact write (twins.delete path)
  | moveModule source target copy => exact write (twins.moveModule source target copy)
  | moveWorkspace oldName newName copy => exact write (twins.moveWorkspace oldName newName copy)
  | deleteWorkspace name => exact write (twins.deleteWorkspace name)
  | fetchValue key default =>
    rw [StoreOp.perform, StoreOp.perform, twins.fetchValue]
    exact .check fun text => .ok ⟨rfl, twins⟩
  | saveValue key value => exact write (twins.saveValue key value)
  | projects => exact twins.projects.bind fun grouped grouped' same => .ok ⟨congrArg StoreAnswer.projects same, twins⟩
  | contains path =>
    rw [StoreOp.perform, StoreOp.perform, twins.contains]
    exact .check fun known => .ok ⟨rfl, twins⟩

theorem execute (op : StoreOp) : (shelf.execute op).1.map StoreAnswer.timeless
      = (db.execute op).1.map StoreAnswer.timeless ∧ Twins (shelf.execute op).2 (db.execute op).2 := by
  have performed := twins.perform op
  rw [Shelf.execute_eq twins.ordered, Database.execute_eq, StoreOp.outcome, StoreOp.outcome]
  generalize op.perform shelf = first, op.perform db = second at performed
  cases performed with
  | ok related => exact ⟨congrArg Except.ok related.1, related.2⟩
  | error e => exact ⟨rfl, twins⟩

/-- Operations on both, each at its own two times. -/
theorem run (ops : List (StoreOp × Int × Int)) :
    (Shelf.run (ops.map fun (op, time, _) => (op, time)) shelf).1.map (Except.map StoreAnswer.timeless)
        = (Database.run (ops.map fun (op, _, time) => (op, time)) db).1.map (Except.map StoreAnswer.timeless) ∧
      Twins (Shelf.run (ops.map fun (op, time, _) => (op, time)) shelf).2
        (Database.run (ops.map fun (op, _, time) => (op, time)) db).2 := by
  induction ops generalizing shelf db with
  | nil => exact ⟨rfl, twins⟩
  | cons step rest ih =>
    obtain ⟨op, time, time'⟩ := step
    obtain ⟨answer, after⟩ := (twins.mark time time').execute op
    obtain ⟨answers, final⟩ := ih after
    refine ⟨?_, final⟩
    simp only [Shelf.run, Database.run, List.map_cons, runOps] at answers ⊢
    rw [answer, answers]

theorem contents : shelf.contents = db.contents :=
  (map_rows twins.rows fun slot row copies => by rw [copies.path, copies.type, copies.text]).symm

end Twins

/-- A store in memory and a store in tables that begin empty answer whatever is asked of them alike, they hold
the same modules and values, and an operation that they refuse changes neither. -/
theorem stores_agree (ops : List (StoreOp × Int × Int)) :
    let shelf := Shelf.run (ops.map fun (op, time, _) => (op, time)) {}
    let db := Database.run (ops.map fun (op, _, time) => (op, time)) {}
    shelf.1.map (Except.map StoreAnswer.timeless) = db.1.map (Except.map StoreAnswer.timeless) ∧
      shelf.2.contents = db.2.contents ∧ shelf.2.values = db.2.values ∧
      ∀ (op : StoreOp) (time : Int) (error : StoreError),
        ((Shelf.execute { shelf.2 with clock := time } op).1 = .error error →
          (Shelf.execute { shelf.2 with clock := time } op).2 = { shelf.2 with clock := time }) ∧
        ((Database.execute { db.2 with clock := time } op).1 = .error error →
          (Database.execute { db.2 with clock := time } op).2 = { db.2 with clock := time }) := by
  intro shelf db
  obtain ⟨answers, twins⟩ := Twins.empty.run ops
  refine ⟨answers, twins.contents, twins.values, fun op time error => ⟨?_, ?_⟩⟩
  · rw [Shelf.execute_eq (twins.mark time time).ordered]
    exact StoreOp.unchanged_of_error
  · rw [Database.execute_eq]
    exact StoreOp.unchanged_of_error

end RobotBlocks
