import Mathlib.Data.List.Nodup
import RobotBlocks.Proofs.Result
import RobotBlocks.Proofs.Store.Lawful
import RobotBlocks.Store.Database

/-! A database obeys the laws of a store. The key of a row is its path, and its type is one that
can be read back. -/
namespace RobotBlocks

namespace Database

open ModuleTable

variable {path : String} {row : ModuleRow} {table : ModuleTable}

theorem parseType_name (type : ModuleType) : parseType type.name = .ok type := by
  cases type <;> rfl

theorem name_of_parseType {text : String} {type : ModuleType} (parsed : parseType text = .ok type) :
    text = type.name := by
  unfold parseType ModuleType.ofName? at parsed
  split at parsed
  · next some =>
    cases parsed
    split at some <;> cases some <;> rfl
  · cases parsed

/-- No two rows have the same path, and the type of every row is known. -/
structure WellKeyed (table : ModuleTable) : Prop where
  distinct : (table.map (·.path)).Nodup
  typed : ∀ row ∈ table, ∃ type : ModuleType, row.type = type.name

theorem select_eq_some (keyed : WellKeyed table) :
    select table path = some row ↔ row ∈ table ∧ row.path = path := by
  constructor
  · intro found
    exact ⟨List.mem_of_find?_eq_some found, by simpa using List.find?_some found⟩
  · rintro ⟨member, rfl⟩
    have present : (select table row.path).isSome := by
      rw [select, List.find?_isSome]
      exact ⟨row, member, by simp⟩
    obtain ⟨other, found⟩ := Option.isSome_iff_exists.mp present
    have same : other.path = row.path := by simpa using List.find?_some found
    rw [found, List.inj_on_of_nodup_map keyed.distinct (List.mem_of_find?_eq_some found) member same]

theorem place_perm : (place row table).Perm (row :: table) := by
  induction table with
  | nil => exact .refl _
  | cons other rest ih =>
    unfold place
    split
    · exact .refl _
    · exact (ih.cons other).trans (.swap ..)

theorem WellKeyed.place {type : ModuleType} (keyed : WellKeyed table) (free : holds table row.path = false)
    (typed : row.type = type.name) : WellKeyed (ModuleTable.place row table) := by
  constructor
  · rw [(place_perm.map _).nodup_iff, List.map_cons, List.nodup_cons]
    refine ⟨fun member => ?_, keyed.distinct⟩
    obtain ⟨other, listed, same⟩ := List.mem_map.mp member
    rw [holds, (select_eq_some keyed).mpr ⟨listed, same⟩] at free
    cases free
  · intro other member
    rcases List.mem_cons.mp (place_perm.mem_iff.mp member) with rfl | later
    · exact ⟨type, typed⟩
    · exact keyed.typed other later

/-- Writing a text keeps the paths and the types. -/
theorem WellKeyed.update {change : ModuleRow → ModuleRow} (keyed : WellKeyed table)
    (samePath : ∀ row, (change row).path = row.path) (sameType : ∀ row, (change row).type = row.type) :
    WellKeyed (table.update path change).2 := by
  constructor
  · have paths : (table.update path change).2.map (·.path) = table.map (·.path) := by
      rw [ModuleTable.update, List.map_map]
      apply List.map_congr_left
      intro row _
      dsimp only [Function.comp]
      split
      · exact samePath row
      · rfl
    rw [paths]
    exact keyed.distinct
  · intro row member
    obtain ⟨old, listed, rfl⟩ := List.mem_map.mp member
    obtain ⟨type, typed⟩ := keyed.typed old listed
    refine ⟨type, ?_⟩
    split
    · rw [sameType, typed]
    · exact typed

/-- What a row holds. -/
def heldBy (row : ModuleRow) : Option (ModuleType × String) :=
  (parseType row.type).toOption.map fun type => (type, row.text)

theorem heldBy_eq {type : ModuleType} (typed : row.type = type.name) :
    heldBy row = some (type, row.text) := by
  simp [heldBy, typed, parseType_name, Except.toOption]

theorem list_eq (typed : ∀ row ∈ table, ∃ type : ModuleType, row.type = type.name) :
    ∃ entries, list table = .ok entries ∧
      (∀ entry ∈ entries, ∃ row ∈ table, entry.path = row.path ∧ row.type = entry.type.name) ∧
      ∀ row ∈ table, ∃ entry ∈ entries, entry.path = row.path := by
  induction table with
  | nil => exact ⟨[], rfl, by simp, by simp⟩
  | cons row rest ih =>
    obtain ⟨type, named⟩ := typed row (List.mem_cons_self ..)
    obtain ⟨entries, listed, sound, complete⟩ :=
      ih fun other member => typed other (List.mem_cons_of_mem _ member)
    refine ⟨⟨row.path, type, row.modified⟩ :: entries, ?_, ?_, ?_⟩
    · unfold list at listed ⊢
      simp only [List.mapM_cons, bind_eq_ok, pure_eq_ok]
      exact ⟨_, ⟨type, by rw [named, parseType_name], rfl⟩, entries, listed, rfl⟩
    · intro entry member
      rcases List.mem_cons.mp member with rfl | later
      · exact ⟨row, List.mem_cons_self .., rfl, named⟩
      · obtain ⟨other, there, same⟩ := sound entry later
        exact ⟨other, List.mem_cons_of_mem _ there, same⟩
    · intro other member
      rcases List.mem_cons.mp member with rfl | later
      · exact ⟨_, List.mem_cons_self .., rfl⟩
      · obtain ⟨entry, there, same⟩ := complete other later
        exact ⟨entry, List.mem_cons_of_mem _ there, same⟩

theorem select_place (keyed : WellKeyed table) (keyed' : WellKeyed (place row table)) (other : String) :
    select (place row table) other = if other = row.path then some row else select table other := by
  split
  · next same =>
    exact (select_eq_some keyed').mpr ⟨place_perm.mem_iff.mpr (List.mem_cons_self ..), same.symm⟩
  · next differs =>
    apply Option.ext
    intro found
    rw [select_eq_some keyed', select_eq_some keyed, place_perm.mem_iff, List.mem_cons]
    constructor
    · rintro ⟨rfl | member, same⟩
      · exact absurd same.symm differs
      · exact ⟨member, same⟩
    · rintro ⟨member, same⟩
      exact ⟨.inr member, same⟩

theorem select_update (change : ModuleRow → ModuleRow) (samePath : ∀ row, (change row).path = row.path)
    (other : String) : select (table.update path change).2 other =
      if other = path then (select table other).map change else select table other := by
  simp only [select, ModuleTable.update]
  induction table with
  | nil => simp
  | cons row rest ih =>
    rw [List.map_cons, List.find?_cons, List.find?_cons, ih]
    by_cases here : row.path = path
    · by_cases same : other = path
      · simp [here, same, samePath]
      · simp [here, samePath, same, Ne.symm same]
    · by_cases same : other = path
      · simp [here, same]
      · by_cases met : row.path = other <;> simp [here, same, met]

variable {db db' : Database} {text : String}

/-- What a database holds under a path. -/
def held (db : Database) (path : String) : Option (ModuleType × String) :=
  (db.modules.select path).bind heldBy

theorem held_of_select {type : ModuleType} (found : db.modules.select path = some row)
    (typed : row.type = type.name) : db.held path = some (type, row.text) := by
  rw [held, found, Option.bind_some, heldBy_eq typed]

theorem fetch_held (keyed : WellKeyed db.modules) (path : String) :
    ModuleStore.fetch db path = match db.held path with
      | some (_, text) => .ok text
      | none => .error (.notFound path) := by
  simp only [ModuleStore.fetch]
  cases found : db.modules.select path with
  | none => simp [held, found]
  | some row =>
    obtain ⟨type, typed⟩ := keyed.typed row ((select_eq_some keyed).mp found).1
    simp [held_of_select found typed]

theorem entries_held (keyed : WellKeyed db.modules) : ∃ entries, ModuleStore.entries db = .ok entries ∧
    (∀ entry ∈ entries, ∃ text, db.held entry.path = some (entry.type, text)) ∧
    ∀ path, (db.held path).isSome → ∃ entry ∈ entries, entry.path = path := by
  obtain ⟨entries, listed, sound, complete⟩ := list_eq keyed.typed
  refine ⟨entries, listed, ?_, ?_⟩
  · intro entry member
    obtain ⟨row, there, same, typed⟩ := sound entry member
    exact ⟨row.text, held_of_select ((select_eq_some keyed).mpr ⟨there, same.symm⟩) typed⟩
  · intro path holds
    cases found : db.modules.select path with
    | none => simp [held, found] at holds
    | some row =>
      obtain ⟨there, rfl⟩ := (select_eq_some keyed).mp found
      exact complete row there

theorem create_held {type : ModuleType} (keyed : WellKeyed db.modules)
    (h : ModuleStore.create db type path text = .ok db') :
    WellKeyed db'.modules ∧ db.held path = none ∧
      ∀ other, db'.held other = if other = path then some (type, text) else db.held other := by
  simp only [ModuleStore.create, transaction, bind_eq_ok, pure_eq_ok] at h
  obtain ⟨-, -, table, placed, rfl⟩ := h
  split at placed
  · exact absurd placed throw_ne_ok
  · next free =>
    have free : db.modules.holds path = false := by simpa using free
    rw [ModuleTable.insert, if_neg (by simp [free])] at placed
    cases placed
    have keyed' : WellKeyed (place ⟨path, type.name, text, db.clock⟩ db.modules) :=
      keyed.place free rfl
    refine ⟨keyed', ?_, fun other => ?_⟩
    · have none : db.modules.select path = none := by simpa [holds] using free
      rw [held, none, Option.bind_none]
    · rw [held, select_place keyed keyed']
      split
      · exact heldBy_eq rfl
      · rfl

theorem save_held (keyed : WellKeyed db.modules) (h : ModuleStore.save db path text = .ok db') :
    WellKeyed db'.modules ∧ ∃ type old, db.held path = some (type, old) ∧
      ∀ other, db'.held other = if other = path then some (type, text) else db.held other := by
  simp only [ModuleStore.save, bind_eq_ok, pure_eq_ok, requireRows] at h
  obtain ⟨_, met, rfl⟩ := h
  split at met
  · cases met
  · next some =>
    have present : (db.modules.select path).isSome := by
      rw [select, List.find?_isSome]
      obtain ⟨row, member⟩ := List.exists_mem_of_length_pos (Nat.pos_of_ne_zero some)
      exact ⟨row, List.mem_filter.mp member⟩
    obtain ⟨row, found⟩ := Option.isSome_iff_exists.mp present
    obtain ⟨type, typed⟩ := keyed.typed row ((select_eq_some keyed).mp found).1
    refine ⟨keyed.update (fun _ => rfl) fun _ => rfl, type, row.text, held_of_select found typed, ?_⟩
    intro other
    rw [held, select_update (fun row => { row with text, modified := db.clock }) fun _ => rfl]
    split
    · next same =>
      subst same
      rw [found, Option.map_some, Option.bind_some]
      exact heldBy_eq typed
    · rfl

instance : LawfulStore Database where
  Intact db := WellKeyed db.modules
  held := held
  fetch_eq := fetch_held
  entries_eq := entries_held
  create_ok := create_held
  save_ok := save_held

theorem list_paths {entries : List ModuleEntry} (listed : list table = .ok entries) :
    entries.map (·.path) = table.map (·.path) := by
  induction table generalizing entries with
  | nil =>
    cases pure_eq_ok.mp listed
    rfl
  | cons row rest ih =>
    unfold list at listed ih
    simp only [List.mapM_cons, bind_eq_ok, pure_eq_ok] at listed
    obtain ⟨first, ⟨type, -, rfl⟩, others, later, rfl⟩ := listed
    rw [List.map_cons, List.map_cons, ih later]

theorem save_ok_of_held (keyed : WellKeyed db.modules) (text : String)
    (holds : (db.held path).isSome = true) : ∃ db', ModuleStore.save db path text = .ok db' := by
  obtain ⟨row, found⟩ : ∃ row, db.modules.select path = some row := by
    rw [held] at holds
    exact Option.isSome_iff_exists.mp (Option.isSome_of_isSome_bind holds)
  obtain ⟨member, same⟩ := (select_eq_some keyed).mp found
  have some : (db.modules.filter fun row => row.path = path).length ≠ 0 :=
    Nat.ne_of_gt (List.length_pos_of_mem (List.mem_filter.mpr ⟨member, by simpa using same⟩))
  simp only [ModuleStore.save, ModuleTable.update, requireRows, if_neg some]
  exact ⟨_, rfl⟩

instance : KeyedStore Database where
  entries_distinct keyed listed := list_paths listed ▸ keyed.distinct
  save_held := save_ok_of_held

/-! Paths and types. -/

/-- The listing reads the types of the rows one after the other. -/
theorem listing_eq (db : Database) :
    ModuleStore.listing db = db.modules.mapM fun row => (parseType row.type).map fun type => (row.path, type) := by
  change (list db.modules).map _ = _
  induction db.modules with
  | nil => rfl
  | cons row rest ih =>
    unfold list at ih ⊢
    rw [List.mapM_cons, List.mapM_cons, ← ih]
    cases parseType row.type with
    | error error => rfl
    | ok type =>
      cases rest.mapM fun row =>
        (do return ⟨row.path, ← parseType row.type, row.modified⟩ : Except StoreError ModuleEntry) <;> rfl

theorem listing_distinct {listed : List (String × ModuleType)} (distinct : (db.modules.map (·.path)).Nodup)
    (same : ModuleStore.listing db = .ok listed) : (listed.map Prod.fst).Nodup := by
  obtain ⟨entries, rows, rfl⟩ := map_eq_ok.mp same
  rw [List.map_map]
  exact (list_paths rows).symm ▸ distinct

theorem save_update (h : ModuleStore.save db path text = .ok db') :
    (∃ row, db.modules.select path = some row) ∧ db'.modules
      = db.modules.map fun row => if row.path = path then { row with text, modified := db.clock } else row := by
  simp only [ModuleStore.save, bind_eq_ok, pure_eq_ok, requireRows] at h
  obtain ⟨_, met, rfl⟩ := h
  split at met
  · cases met
  · next some =>
    obtain ⟨row, member⟩ := List.exists_mem_of_length_pos (Nat.pos_of_ne_zero some)
    refine ⟨Option.isSome_iff_exists.mp ?_, rfl⟩
    rw [select, List.find?_isSome]
    exact ⟨row, List.mem_filter.mp member⟩

theorem save_select (h : ModuleStore.save db path text = .ok db') : ∃ row, db.modules.select path = some row ∧
    ∀ other, db'.modules.select other
      = if other = path then some { row with text, modified := db.clock } else db.modules.select other := by
  obtain ⟨⟨row, found⟩, rows⟩ := save_update h
  refine ⟨row, found, fun other => ?_⟩
  rw [rows]
  refine (select_update (fun row => { row with text, modified := db.clock }) (fun _ => rfl) other).trans ?_
  split
  · next same => rw [same, found, Option.map_some]
  · rfl

theorem save_framed (distinct : (db.modules.map (·.path)).Nodup) (h : ModuleStore.save db path text = .ok db') :
    (db'.modules.map (·.path)).Nodup ∧ ModuleStore.listing db' = ModuleStore.listing db ∧
      (∃ old, ModuleStore.fetch db path = .ok old) ∧ ∀ other, ModuleStore.fetch db' other
        = if other = path then .ok text else ModuleStore.fetch db other := by
  obtain ⟨-, rows⟩ := save_update h
  obtain ⟨row, found, after⟩ := save_select h
  refine ⟨?_, ?_, ⟨row.text, by simp only [ModuleStore.fetch, found]⟩, fun other => ?_⟩
  · rw [rows, List.map_map]
    refine (List.map_congr_left fun row _ => ?_) ▸ distinct
    dsimp only [Function.comp]
    split <;> rfl
  · rw [listing_eq, listing_eq, rows, List.mapM_map]
    refine congrArg (List.mapM · db.modules) (funext fun row => ?_)
    dsimp only [Function.comp]
    split <;> rfl
  · simp only [ModuleStore.fetch, after]
    by_cases same : other = path <;> simp [same]

/-- The types of the rows need not be known. -/
instance : FramedStore Database where
  Keyed db := (db.modules.map (·.path)).Nodup
  listing_distinct := listing_distinct
  save_frame := save_framed

/-! Moving and deleting. -/

variable {table' : ModuleTable}

theorem WellKeyed.filter (keyed : WellKeyed table) (keeps : ModuleRow → Bool) :
    WellKeyed (table.filter keeps) :=
  ⟨keyed.distinct.sublist (List.filter_sublist.map _),
    fun row member => keyed.typed row (List.mem_of_mem_filter member)⟩

theorem select_filter (keeps : String → Bool) (table : ModuleTable) (path : String) :
    select (table.filter fun row => keeps row.path) path
      = if keeps path then select table path else none := by
  rw [select, select, List.find?_filter]
  split
  · next kept =>
    refine congrArg (List.find? · table) (funext fun row => ?_)
    by_cases same : row.path = path <;> simp [same, kept]
  · next gone =>
    rw [List.find?_eq_none]
    intro row _
    by_cases same : row.path = path <;> simp [same, gone]

theorem held_filter (table : ModuleTable) (keeps : String → Bool) (other : String) :
    held { db with modules := table.filter fun row => keeps row.path } other
      = if keeps other then held { db with modules := table } other else none := by
  simp only [held, select_filter]
  split <;> rfl

theorem held_delete (table : ModuleTable) (other : String) :
    held { db with modules := (table.delete path).2 } other
      = if other = path then none else held { db with modules := table } other := by
  refine (held_filter table (fun other => decide (other ≠ path)) other).trans ?_
  by_cases same : other = path <;> simp [same]

theorem delete_held (keyed : WellKeyed db.modules) (h : ModuleStore.delete db path = .ok db') :
    WellKeyed db'.modules ∧ ∀ other, db'.held other = if other = path then none else db.held other := by
  simp only [ModuleStore.delete, bind_eq_ok, pure_eq_ok] at h
  obtain ⟨_, -, rfl⟩ := h
  exact ⟨keyed.filter _, held_delete db.modules⟩

theorem insert_held {type : ModuleType} (keyed : WellKeyed table) (typed : row.type = type.name)
    (h : table.insert row = .ok table') :
    WellKeyed table' ∧ held { db with modules := table } row.path = none ∧
      ∀ other, held { db with modules := table' } other
        = if other = row.path then some (type, row.text) else held { db with modules := table } other := by
  unfold ModuleTable.insert at h
  split at h
  · cases h
  · next free =>
    cases h
    have free : table.holds row.path = false := by simpa using free
    have none : table.select row.path = none := by simpa [holds] using free
    have keyed' := keyed.place free typed
    refine ⟨keyed', by rw [held, none, Option.bind_none], fun other => ?_⟩
    rw [held, select_place keyed keyed']
    split
    · exact heldBy_eq typed
    · rfl

theorem carry_held {clock : Int} {source target : String} {copy : Bool} (db : Database) (keyed : WellKeyed table)
    (h : carry clock copy table (source, target) = .ok table') :
    WellKeyed table' ∧ held { db with modules := table } target = none ∧
      ∃ own, held { db with modules := table } source = some own ∧
      ∀ other, held { db with modules := table' } other =
        if copy = false ∧ other = source then none
        else if other = target then some own else held { db with modules := table } other := by
  simp only [carry, bind_eq_ok, pure_eq_ok] at h
  obtain ⟨between, copied, rfl⟩ := h
  unfold copyRow at copied
  cases found : table.select source with
  | none => simp [found] at copied
  | some row =>
    rw [found] at copied
    obtain ⟨type, typed⟩ := keyed.typed row ((select_eq_some keyed).mp found).1
    have typed' : ({ row with path := target, modified := clock } : ModuleRow).type = type.name := typed
    obtain ⟨keyed', free, others⟩ := insert_held keyed typed' copied
    have here : held { db with modules := table } source = some (type, row.text) := held_of_select found typed
    cases copy with
    | true => exact ⟨keyed', free, _, here, fun other => by simp [others]⟩
    | false =>
      refine ⟨keyed'.filter _, free, _, here, fun other => ?_⟩
      rw [if_neg (by simp), held_delete, others]
      simp

theorem moveModule_held {source target : String} {copy : Bool} (keyed : WellKeyed db.modules)
    (h : ModuleStore.moveModule db source target copy = .ok db') :
    WellKeyed db'.modules ∧ db.held target = none ∧ ∃ own, db.held source = some own ∧
      ∀ other, db'.held other = if copy = false ∧ other = source then none
        else if other = target then some own else db.held other := by
  simp only [ModuleStore.moveModule, transaction, bind_eq_ok, pure_eq_ok] at h
  obtain ⟨-, -, table, carried, rfl⟩ := h
  split at carried
  · exact absurd carried throw_ne_ok
  · split at carried
    · exact absurd carried throw_ne_ok
    · exact carry_held db keyed carried

theorem moveWorkspace_held {oldName newName : String} {copy : Bool} (keyed : WellKeyed db.modules)
    (h : ModuleStore.moveWorkspace db oldName newName copy = .ok db') :
    WellKeyed db'.modules ∧ Draws db db' := by
  simp only [ModuleStore.moveWorkspace, transaction, bind_eq_ok, pure_eq_ok] at h
  obtain ⟨table, ⟨-, -, moves, -, carried⟩, rfl⟩ := h
  refine foldlM_keeps
    (P := fun table : ModuleTable => WellKeyed table ∧ Draws db { db with modules := table }) ?_
    ⟨keyed, .refl db⟩ carried
  rintro ⟨source, target⟩ there next ⟨known, drawn⟩ carried
  obtain ⟨known', -, own, here, others⟩ := carry_held db known carried
  exact ⟨known', drawn.trans (.carry here others)⟩

theorem foldl_delete (entries : List ModuleEntry) (table : ModuleTable) :
    entries.foldl (fun table entry => (table.delete entry.path).2) table
      = table.filter fun row => !entries.any fun entry => entry.path = row.path := by
  induction entries generalizing table with
  | nil => simp
  | cons entry rest ih =>
    rw [List.foldl_cons, ih, ModuleTable.delete, List.filter_filter]
    refine List.filter_congr fun row _ => ?_
    by_cases same : row.path = entry.path <;> simp [same, eq_comm]

/-- A row is doomed with its workspace. -/
theorem any_doomed {entries : List ModuleEntry} {name : String} (listed : list table = .ok entries)
    (member : row ∈ table) : (entries.filter (·.isIn name)).any (fun entry => entry.path = row.path)
      = (ModulePath.ofText? row.path).any fun path => path.workspace = name := by
  obtain ⟨entry, known, same⟩ : ∃ entry ∈ entries, entry.path = row.path := by
    rw [← List.mem_map, list_paths listed]
    exact List.mem_map_of_mem member
  rw [Bool.eq_iff_iff, List.any_eq_true]
  constructor
  · rintro ⟨other, inside, alike⟩
    have inside : other.isIn name = true := (List.mem_filter.mp inside).2
    rwa [ModuleEntry.isIn, of_decide_eq_true alike] at inside
  · intro inside
    refine ⟨entry, List.mem_filter.mpr ⟨known, ?_⟩, decide_eq_true same⟩
    rwa [ModuleEntry.isIn, same]

theorem deleteWorkspace_eq {entries : List ModuleEntry} (name : String) (listed : list db.modules = .ok entries) :
    ModuleStore.deleteWorkspace db name = if (entries.filter (·.isIn name)).isEmpty then .error (.notFound name)
      else .ok { db with modules := db.modules.filter fun row =>
        !(ModulePath.ofText? row.path).any fun path => path.workspace = name } := by
  have kept : (entries.filter (·.isIn name)).foldl (fun table entry => (table.delete entry.path).2) db.modules
      = db.modules.filter fun row => !(ModulePath.ofText? row.path).any fun path => path.workspace = name := by
    rw [foldl_delete]
    exact List.filter_congr fun row member => by rw [any_doomed listed member]
  rw [← kept]
  simp only [ModuleStore.deleteWorkspace, transaction, listed]
  by_cases none : (entries.filter (·.isIn name)).isEmpty
  · rw [if_pos none]
    simp only [bind, Except.bind, if_pos none]
    rfl
  · rw [if_neg none]
    simp only [bind, Except.bind, if_neg none]
    rfl

theorem deleteWorkspace_held {name : String} (keyed : WellKeyed db.modules)
    (h : ModuleStore.deleteWorkspace db name = .ok db') :
    WellKeyed db'.modules ∧ ∀ other, db'.held other =
      if (ModulePath.ofText? other).any (fun path => path.workspace = name) then none
      else db.held other := by
  obtain ⟨entries, listed, -, -⟩ := list_eq keyed.typed
  rw [deleteWorkspace_eq name listed] at h
  split at h
  · cases h
  · cases h
    refine ⟨keyed.filter _, fun other => ?_⟩
    rw [held_filter db.modules fun path => !(ModulePath.ofText? path).any fun path => path.workspace = name]
    cases (ModulePath.ofText? other).any fun path => path.workspace = name <;> rfl

instance : MovingStore Database where
  delete_ok := delete_held
  moveModule_ok := moveModule_held
  moveWorkspace_ok := moveWorkspace_held
  deleteWorkspace_ok := deleteWorkspace_held

end Database
end RobotBlocks
