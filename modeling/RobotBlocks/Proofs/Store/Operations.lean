import RobotBlocks.Proofs.Store.Relocation
import RobotBlocks.Store.Projects

/-! Operations as they are carried out. A shelf carries the modules of a workspace one after the other, and
it drops the modules of a workspace before it sees whether there were any; a database changes rows before it
sees how many there were. An operation that is refused leaves the store as it was all the same. -/
namespace RobotBlocks

/-- What is asked of a store. -/
inductive StoreOp where
  | entries
  | fetch (path : String)
  | create (type : ModuleType) (path text : String)
  | save (path text : String)
  | delete (path : String)
  | moveModule (source target : String) (copy : Bool)
  | moveWorkspace (oldName newName : String) (copy : Bool)
  | deleteWorkspace (name : String)
  | fetchValue (key default : String)
  | saveValue (key value : String)
  | projects
  | contains (path : String)
  deriving DecidableEq, Repr

inductive StoreAnswer where
  | done
  | entries (entries : List ModuleEntry)
  | text (text : String)
  | projects (projects : List Project)
  | known (present : Bool)
  deriving DecidableEq, Repr

/-- An answer or a refusal, and the store after it. -/
abbrev Outcome (σ : Type) := Except StoreError StoreAnswer × σ

namespace StoreOp

variable {σ : Type} [ModuleStore σ]

/-- The answer and the store after it, or the refusal. -/
def perform (store : σ) : StoreOp → Except StoreError (StoreAnswer × σ)
  | entries => return (.entries (← ModuleStore.entries store), store)
  | fetch path => return (.text (← ModuleStore.fetch store path), store)
  | create type path text => return (.done, ← ModuleStore.create store type path text)
  | save path text => return (.done, ← ModuleStore.save store path text)
  | delete path => return (.done, ← ModuleStore.delete store path)
  | moveModule source target copy => return (.done, ← ModuleStore.moveModule store source target copy)
  | moveWorkspace oldName newName copy => return (.done, ← ModuleStore.moveWorkspace store oldName newName copy)
  | deleteWorkspace name => return (.done, ← ModuleStore.deleteWorkspace store name)
  | fetchValue key default => return (.text (← ModuleStore.fetchValue store key default), store)
  | saveValue key value => return (.done, ← ModuleStore.saveValue store key value)
  | projects => return (.projects (← ModuleStore.projects store), store)
  | contains path => return (.known (← ModuleStore.contains store path), store)

/-- The outcome where a refused operation changes nothing. -/
def outcome (store : σ) (op : StoreOp) : Outcome σ :=
  match op.perform store with
  | .ok (answer, after) => (.ok answer, after)
  | .error error => (.error error, store)

theorem outcome_ok {op : StoreOp} {store after : σ} {answer : StoreAnswer}
    (performed : op.perform store = .ok (answer, after)) : op.outcome store = (.ok answer, after) := by
  rw [outcome, performed]

theorem outcome_error {op : StoreOp} {store : σ} {error : StoreError}
    (refused : op.perform store = .error error) : op.outcome store = (.error error, store) := by
  rw [outcome, refused]

theorem unchanged_of_error {op : StoreOp} {store : σ} {error : StoreError}
    (refused : (op.outcome store).1 = .error error) : (op.outcome store).2 = store := by
  unfold outcome at refused ⊢
  cases ran : op.perform store with
  | error error => rfl
  | ok result =>
    rw [ran] at refused
    cases refused

end StoreOp

/-- Steps one after the other on a store that keeps what happened before a refusal. -/
def stepwise {σ α : Type} (step : σ → α → Except StoreError σ) : List α → σ → Except StoreError Unit × σ
  | [], store => (.ok (), store)
  | item :: rest, store =>
    match step store item with
    | .ok after => stepwise step rest after
    | .error error => (.error error, store)

theorem stepwise_of_ok {σ α : Type} {step : σ → α → Except StoreError σ} {items : List α} {store after : σ}
    (ran : items.foldlM step store = .ok after) : stepwise step items store = (.ok (), after) := by
  induction items generalizing store with
  | nil => rw [stepwise, pure_eq_ok.mp ran]
  | cons item rest ih =>
    simp only [List.foldlM_cons, bind_eq_ok] at ran
    obtain ⟨between, first, later⟩ := ran
    rw [stepwise, first]
    exact ih later

/-! A shelf. -/

namespace Shelf

variable {shelf : Shelf}

/-- The modules of all workspaces but one. -/
def outside (shelf : Shelf) (name : String) : List (String × StoredModule) :=
  shelf.modules.filter fun (path, _) => !(ModulePath.ofText? path).any fun path => path.workspace = name

/-- How a shelf carries out an operation. -/
def execute (shelf : Shelf) : StoreOp → Outcome Shelf
  | .moveWorkspace oldName newName copy =>
    match shelf.open? >>= fun shelf => planWorkspaceMove shelf.list oldName newName with
    | .error error => (.error error, shelf)
    | .ok moves =>
      let (result, shelf) := stepwise (carry copy) moves shelf
      (result.map fun _ => .done, shelf)
  | .deleteWorkspace name =>
    match shelf.open? with
    | .error error => (.error error, shelf)
    | .ok shelf =>
      let kept := shelf.outside name
      (if kept.length = shelf.modules.length then .error (.notFound name) else .ok .done,
        { shelf with modules := kept })
  | op => op.outcome shelf

/-! What a shelf does that answers. -/

section Answers

variable {path text source target name oldName newName : String} {type : ModuleType} {copy : Bool}
  (ordered : shelf.Ordered)
include ordered

theorem entries_eq : ModuleStore.entries shelf = .ok shelf.list := by
  simp only [ModuleStore.entries, ordered.open?]
  rfl

theorem create_eq : ModuleStore.create shelf type path text = (do
    let _ ← parsePath path
    shelf.ensureFree path
    return shelf.put path ⟨type, text, shelf.clock⟩) := by
  simp only [ModuleStore.create, ordered.open?]
  rfl

theorem save_eq : ModuleStore.save shelf path text = (do
    let module ← shelf.get path
    return shelf.put path { module with text, modified := shelf.clock }) := by
  simp only [ModuleStore.save, ordered.open?]
  rfl

theorem delete_eq : ModuleStore.delete shelf path = (do
    let _ ← shelf.get path
    return shelf.erase path) := by
  simp only [ModuleStore.delete, ordered.open?]
  rfl

theorem moveModule_eq : ModuleStore.moveModule shelf source target copy = (do
    let _ ← parsePath target
    let _ ← shelf.get source
    shelf.ensureFree target
    shelf.carry copy (source, target)) := by
  simp only [ModuleStore.moveModule, ordered.open?]
  rfl

theorem moveWorkspace_eq : ModuleStore.moveWorkspace shelf oldName newName copy = (do
    let moves ← planWorkspaceMove shelf.list oldName newName
    moves.foldlM (carry copy) shelf) := by
  simp only [ModuleStore.moveWorkspace, ordered.open?]
  rfl

theorem deleteWorkspace_eq : ModuleStore.deleteWorkspace shelf name
    = if (shelf.outside name).length = shelf.modules.length then .error (.notFound name)
      else .ok { shelf with modules := shelf.outside name } := by
  simp only [ModuleStore.deleteWorkspace, ordered.open?]
  rfl

end Answers

theorem execute_eq (ordered : shelf.Ordered) (op : StoreOp) : shelf.execute op = op.outcome shelf := by
  cases op with
  | moveWorkspace oldName newName copy =>
    have opened : (shelf.open? >>= fun shelf => planWorkspaceMove shelf.list oldName newName)
        = planWorkspaceMove shelf.list oldName newName := by rw [ordered.open?]; rfl
    cases planned : planWorkspaceMove shelf.list oldName newName with
    | error error =>
      have refused : (StoreOp.moveWorkspace oldName newName copy).perform shelf = .error error := by
        rw [StoreOp.perform, moveWorkspace_eq ordered, planned]
        rfl
      rw [StoreOp.outcome_error refused, execute, opened, planned]
    | ok moves =>
      obtain ⟨after, carried, -⟩ := plan_relocates ordered copy planned
      have performed : (StoreOp.moveWorkspace oldName newName copy).perform shelf = .ok (.done, after) := by
        simp only [StoreOp.perform, moveWorkspace_eq ordered, planned, bind_eq_ok, pure_eq_ok]
        exact ⟨after, ⟨moves, rfl, carried⟩, rfl⟩
      rw [StoreOp.outcome_ok performed, execute, opened, planned]
      simp only [stepwise_of_ok carried]
      rfl
  | deleteWorkspace name =>
    unfold execute
    simp only [ordered.open?]
    by_cases same : (shelf.outside name).length = shelf.modules.length
    · have refused : (StoreOp.deleteWorkspace name).perform shelf = .error (.notFound name) := by
        rw [StoreOp.perform, deleteWorkspace_eq ordered, if_pos same]
        rfl
      have all : shelf.outside name = shelf.modules :=
        List.filter_eq_self.mpr (List.length_filter_eq_length_iff.mp same)
      rw [StoreOp.outcome_error refused, if_pos same, all]
    · have performed : (StoreOp.deleteWorkspace name).perform shelf
          = .ok (.done, { shelf with modules := shelf.outside name }) := by
        rw [StoreOp.perform, deleteWorkspace_eq ordered, if_neg same]
        rfl
      rw [StoreOp.outcome_ok performed, if_neg same]
  | _ => rfl

end Shelf

namespace Database

variable {db : Database}

/-- How a database carries out an operation. A transaction is taken back when it fails, a single statement
is not. -/
def execute (db : Database) : StoreOp → Outcome Database
  | .save path text =>
    let (count, modules) := db.modules.update path fun row => { row with text, modified := db.clock }
    ((requireRows count path).map fun _ => .done, { db with modules })
  | .delete path =>
    let (count, modules) := db.modules.delete path
    ((requireRows count path).map fun _ => .done, { db with modules })
  | op => op.outcome db

/-- A statement that meets no row changes none. -/
theorem update_none {path : String} {table : ModuleTable} (change : ModuleRow → ModuleRow)
    (none : (table.update path change).1 = 0) : (table.update path change).2 = table := by
  have missing := List.filter_eq_nil_iff.mp (List.eq_nil_of_length_eq_zero none)
  refine (List.map_congr_left fun row member => ?_).trans (List.map_id table)
  rw [if_neg (by simpa using missing row member)]
  rfl

theorem delete_none {path : String} {table : ModuleTable} (none : (table.delete path).1 = 0) :
    (table.delete path).2 = table := by
  have missing := List.filter_eq_nil_iff.mp (List.eq_nil_of_length_eq_zero none)
  exact List.filter_eq_self.mpr fun row member => by simpa using missing row member

theorem outcome_counted {op : StoreOp} {count : Nat} {path : String} {modules : ModuleTable}
    (performs : op.perform db = do
      requireRows count path
      return (.done, { db with modules }))
    (still : count = 0 → modules = db.modules) :
    op.outcome db = ((requireRows count path).map fun _ => .done, { db with modules }) := by
  unfold requireRows at performs ⊢
  by_cases none : count = 0
  · rw [if_pos none] at performs ⊢
    rw [StoreOp.outcome_error performs, still none]
    rfl
  · rw [if_neg none] at performs ⊢
    rw [StoreOp.outcome_ok performs]
    rfl

theorem execute_eq (db : Database) (op : StoreOp) : db.execute op = op.outcome db := by
  cases op with
  | save path text =>
    refine (outcome_counted ?_ (update_none _)).symm
    simp only [StoreOp.perform, ModuleStore.save, bind_assoc, pure_bind]
  | delete path =>
    refine (outcome_counted ?_ delete_none).symm
    simp only [StoreOp.perform, ModuleStore.delete, bind_assoc, pure_bind]
  | _ => rfl

end Database

/-! A workspace that is moved or copied. -/

/-- What comes of the wish to carry a workspace to a new name: the whole workspace is there, or nothing has
changed, and that for the reasons there are, if not because the store cannot be read. -/
structure Settles {σ : Type} (view : σ → String → Option StoredModule) (unreadable : σ → Prop) (clock : Int)
    (copy : Bool) (oldName newName : String) (store : σ) (outcome : Outcome σ) : Prop where
  moved : ∀ answer, outcome.1 = .ok answer →
    Relocated StoredModule.type (StoredModule.at clock) copy oldName newName (view store) (view outcome.2)
  kept : ∀ error, outcome.1 = .error error → outcome.2 = store
  refused : (∃ error, outcome.1 = .error error) ↔
    unreadable store ∨ Hindered StoredModule.type oldName newName (view store)

section Settling

variable {oldName newName : String} {copy : Bool}

/-- An operation that changes nothing when it is refused settles what the store does. -/
theorem settles_outcome {σ : Type} [ModuleStore σ] {view : σ → String → Option StoredModule}
    {unreadable : σ → Prop} {clock : Int} {store : σ}
    (relocates : ∀ after, ModuleStore.moveWorkspace store oldName newName copy = .ok after →
      Relocated StoredModule.type (StoredModule.at clock) copy oldName newName (view store) (view after))
    (refused : (∃ error, ModuleStore.moveWorkspace store oldName newName copy = .error error) ↔
      unreadable store ∨ Hindered StoredModule.type oldName newName (view store)) :
    Settles view unreadable clock copy oldName newName store
      ((StoreOp.moveWorkspace oldName newName copy).outcome store) := by
  cases ran : ModuleStore.moveWorkspace store oldName newName copy with
  | ok after =>
    rw [ran] at refused
    have performed : (StoreOp.moveWorkspace oldName newName copy).perform store = .ok (.done, after) := by
      rw [StoreOp.perform, ran]
      rfl
    rw [StoreOp.outcome_ok performed]
    exact ⟨fun _ _ => relocates after ran, nofun, (iff_of_false nofun nofun).trans refused⟩
  | error error =>
    rw [ran] at refused
    have failed : (StoreOp.moveWorkspace oldName newName copy).perform store = .error error := by
      rw [StoreOp.perform, ran]
      rfl
    rw [StoreOp.outcome_error failed]
    exact ⟨nofun, fun _ _ => rfl, (iff_of_true ⟨error, rfl⟩ ⟨error, rfl⟩).trans refused⟩

theorem Shelf.moveWorkspace_refused_iff {shelf : Shelf} (ordered : shelf.Ordered) :
    (∃ error, ModuleStore.moveWorkspace shelf oldName newName copy = .error error) ↔
      Hindered StoredModule.type oldName newName shelf.module? := by
  rw [← (listing ordered).plan_refused_iff, moveWorkspace_eq ordered]
  cases planned : planWorkspaceMove shelf.list oldName newName with
  | error error => exact iff_of_true ⟨error, rfl⟩ ⟨error, rfl⟩
  | ok moves =>
    obtain ⟨after, carried, -⟩ := plan_relocates ordered copy planned
    refine iff_of_false (fun ⟨error, refused⟩ => ?_) nofun
    cases refused.symm.trans carried

theorem Database.moveWorkspace_refused_iff {db : Database} (keyed : WellKeyed db.modules) :
    (∃ error, ModuleStore.moveWorkspace db oldName newName copy = .error error) ↔
      Hindered StoredModule.type oldName newName (stored db.modules) := by
  obtain ⟨entries, listed, -, -⟩ := list_eq keyed.typed
  rw [← (listing keyed listed).plan_refused_iff]
  cases planned : planWorkspaceMove entries oldName newName with
  | error error =>
    cases ran : ModuleStore.moveWorkspace db oldName newName copy with
    | error reason => exact iff_of_true ⟨reason, rfl⟩ ⟨error, rfl⟩
    | ok after =>
      simp only [ModuleStore.moveWorkspace, transaction, bind_eq_ok, pure_eq_ok] at ran
      obtain ⟨table, ⟨entries', listed', moves, planned', -⟩, -⟩ := ran
      cases listed.symm.trans listed'
      cases planned.symm.trans planned'
  | ok moves =>
    obtain ⟨table, carried, -⟩ := (delivers db.clock copy).relocates keyed (listing keyed listed) planned
    have moved : ModuleStore.moveWorkspace db oldName newName copy = .ok { db with modules := table } := by
      simp only [ModuleStore.moveWorkspace, transaction, bind_eq_ok, pure_eq_ok]
      exact ⟨table, ⟨entries, listed, moves, planned, carried⟩, rfl⟩
    refine iff_of_false ?_ ?_
    · rintro ⟨error, refused⟩
      cases refused.symm.trans moved
    · rintro ⟨error, refused⟩
      cases refused

namespace Shelf

/-- A shelf that cannot be reached. -/
def Closed (shelf : Shelf) : Prop := shelf.available = false

theorem settles {shelf : Shelf} (sorted : Sorted shelf.modules) :
    Settles module? Closed shelf.clock copy oldName newName shelf
      (shelf.execute (.moveWorkspace oldName newName copy)) := by
  cases available : shelf.available with
  | true =>
    have ordered : shelf.Ordered := ⟨available, sorted⟩
    have opens : ¬ shelf.Closed := fun closed => nomatch available.symm.trans closed
    rw [execute_eq ordered]
    refine settles_outcome (fun after moved => (moveWorkspace_relocates ordered moved).2) ?_
    rw [moveWorkspace_refused_iff ordered, or_iff_right opens]
  | false =>
    have refused : shelf.execute (.moveWorkspace oldName newName copy) = (.error .unavailable, shelf) := by
      obtain ⟨modules, values, _, clock⟩ := shelf
      subst available
      rfl
    rw [refused]
    exact ⟨nofun, fun _ _ => rfl, iff_of_true ⟨_, rfl⟩ (.inl available)⟩

end Shelf

namespace Database

/-- A database has a row with a type that is none. -/
def Unreadable (db : Database) : Prop := ∃ row ∈ db.modules, ∀ type : ModuleType, row.type ≠ type.name

theorem typed_of_list {table : ModuleTable} {entries : List ModuleEntry} (listed : list table = .ok entries) :
    ∀ row ∈ table, ∃ type : ModuleType, row.type = type.name := by
  induction table generalizing entries with
  | nil => exact nofun
  | cons row rest ih =>
    unfold list at listed ih
    simp only [List.mapM_cons, bind_eq_ok, pure_eq_ok] at listed
    obtain ⟨_, ⟨type, parsed, -⟩, later, listed', -⟩ := listed
    exact List.forall_mem_cons.mpr ⟨⟨type, name_of_parseType parsed⟩, ih listed'⟩

theorem settles {db : Database} (distinct : (db.modules.map (·.path)).Nodup) :
    Settles (fun db => stored db.modules) Unreadable db.clock copy oldName newName db
      (db.execute (.moveWorkspace oldName newName copy)) := by
  rw [execute_eq]
  by_cases unreadable : db.Unreadable
  · have unlisted : ∀ entries, list db.modules ≠ .ok entries := by
      intro entries listed
      obtain ⟨row, member, strange⟩ := unreadable
      obtain ⟨type, same⟩ := typed_of_list listed row member
      exact strange type same
    have refuses : ∀ after, ModuleStore.moveWorkspace db oldName newName copy ≠ .ok after := by
      intro after moved
      simp only [ModuleStore.moveWorkspace, transaction, bind_eq_ok] at moved
      obtain ⟨table, ⟨entries, listed, -⟩, -⟩ := moved
      exact unlisted entries listed
    refine settles_outcome (fun after moved => absurd moved (refuses after)) (iff_of_true ?_ (.inl unreadable))
    cases ran : ModuleStore.moveWorkspace db oldName newName copy with
    | error error => exact ⟨error, rfl⟩
    | ok after => exact absurd ran (refuses after)
  · have keyed : WellKeyed db.modules :=
      ⟨distinct, fun row member => by
        by_contra none
        exact unreadable ⟨row, member, fun type same => none ⟨type, same⟩⟩⟩
    refine settles_outcome (fun after moved => (moveWorkspace_relocates keyed moved).2) ?_
    rw [moveWorkspace_refused_iff keyed, or_iff_right unreadable]

end Database

/-- Whatever a store holds: when a workspace is moved or copied, every module of it arrives as it was, at a path
of its own that was free; the old paths are kept by a copy and given up by a move, and nothing else changes. When
it is refused nothing changes at all, and it is refused just for a name that is none, for a workspace without
modules, for two modules that would land on one path, for a path that is taken, and for a store that cannot be
read: a shelf that is unavailable, or a database with a row whose type is none, whatever workspace it is in. -/
theorem moveWorkspace_settles (oldName newName : String) (copy : Bool) :
    (∀ shelf : Shelf, Shelf.Sorted shelf.modules → Settles Shelf.module? Shelf.Closed shelf.clock copy oldName newName
      shelf (shelf.execute (.moveWorkspace oldName newName copy))) ∧
    ∀ db : Database, (db.modules.map (·.path)).Nodup →
      Settles (fun db => Database.stored db.modules) Database.Unreadable db.clock copy oldName newName db
        (db.execute (.moveWorkspace oldName newName copy)) :=
  ⟨fun _ => Shelf.settles, fun _ => Database.settles⟩

/-- A workspace is renamed on a shelf. In a database its copy is refused, since the robot would land where the
module beside it does. -/
theorem moveWorkspace_settles_robot :
    let shelf : Shelf := { modules := [("A/A.blk", ⟨.robot, "r", 1⟩), ("A/M.blk", ⟨.opMode, "m", 2⟩)], clock := 7 }
    let db : Database := { modules := [⟨"A/A.blk", "robot", "r", 1⟩, ⟨"A/M.blk", "opmode", "m", 2⟩] }
    (Shelf.Sorted shelf.modules ∧ (db.modules.map (·.path)).Nodup) ∧
      (Settles Shelf.module? Shelf.Closed 7 false "A" "C" shelf (shelf.execute (.moveWorkspace "A" "C" false)) ∧
        shelf.execute (.moveWorkspace "A" "C" false)
          = (.ok .done, { shelf with modules := [("C/C.blk", ⟨.robot, "r", 7⟩), ("C/M.blk", ⟨.opMode, "m", 7⟩)] })) ∧
      Settles (fun db => Database.stored db.modules) Database.Unreadable 0 true "A" "M" db
        (db.execute (.moveWorkspace "A" "M" true)) ∧
      db.execute (.moveWorkspace "A" "M" true) = (.error (.alreadyExists "M/M.blk"), db) := by
  intro shelf db
  have sorted : Shelf.Sorted shelf.modules := List.pairwise_pair.mpr (by decide)
  have distinct : (db.modules.map (·.path)).Nodup := by decide
  exact ⟨⟨sorted, distinct⟩, ⟨(moveWorkspace_settles "A" "C" false).1 shelf sorted, by decide +kernel⟩,
    (moveWorkspace_settles "A" "M" true).2 db distinct, by decide +kernel⟩

/-- A robot could move alone to a free workspace. The shelf that has it is not available, and in the database
there is a row of another workspace with a type that is none; both refuse. -/
theorem moveWorkspace_refuses_unreadable :
    let shelf : Shelf := { modules := [("A/A.blk", ⟨.robot, "r", 1⟩)], available := false }
    let db : Database := { modules := [⟨"A/A.blk", "robot", "r", 1⟩, ⟨"B/M.blk", "op-mode", "m", 2⟩] }
    ((shelf.execute (.moveWorkspace "A" "C" false)).1 = .error .unavailable ∧
      ¬ Hindered StoredModule.type "A" "C" shelf.module?) ∧
    (db.execute (.moveWorkspace "A" "C" false)).1 = .error (.badType "op-mode") ∧
      ¬ Hindered StoredModule.type "A" "C" (Database.stored db.modules) := by
  intro shelf db
  have ordered : Shelf.Ordered { shelf with available := true } := ⟨rfl, List.pairwise_singleton ..⟩
  have free : ¬ Hindered StoredModule.type "A" "C" shelf.module? := fun hindered => by
    obtain ⟨error, refused⟩ := (Shelf.listing ordered).plan_refused_iff.mpr hindered
    cases (show planWorkspaceMove [⟨"A/A.blk", .robot, 1⟩] "A" "C" = .ok [("A/A.blk", "C/C.blk")] from rfl).symm.trans
      refused
  have same : Database.stored db.modules = shelf.module? := by
    funext path
    by_cases robot : path = "A/A.blk"
    · subst robot
      rfl
    · by_cases strange : path = "B/M.blk"
      · subst strange
        rfl
      · simp [Database.stored, ModuleTable.select, Shelf.module?, db, shelf, List.lookup_cons, Ne.symm robot,
          Ne.symm strange, beq_false_of_ne robot]
  exact ⟨⟨rfl, free⟩, rfl, same ▸ free⟩

end Settling

/-! Runs. -/

/-- The answers to operations that come one after the other, each at its own time, and the store after them. -/
def runOps {σ : Type} (execute : Int → σ → StoreOp → Outcome σ) :
    List (StoreOp × Int) → σ → List (Except StoreError StoreAnswer) × σ
  | [], store => ([], store)
  | (op, time) :: rest, store =>
    let (answer, after) := execute time store op
    let (answers, final) := runOps execute rest after
    (answer :: answers, final)

/-- Operations on a shelf. -/
def Shelf.run : List (StoreOp × Int) → Shelf → List (Except StoreError StoreAnswer) × Shelf :=
  runOps fun time shelf => Shelf.execute { shelf with clock := time }

/-- Operations on a database. -/
def Database.run : List (StoreOp × Int) → Database → List (Except StoreError StoreAnswer) × Database :=
  runOps fun time db => Database.execute { db with clock := time }

end RobotBlocks
