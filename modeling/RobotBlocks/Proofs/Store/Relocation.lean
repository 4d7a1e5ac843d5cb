import RobotBlocks.Proofs.Store.Database
import RobotBlocks.Proofs.Store.Plan
import RobotBlocks.Proofs.Store.Shelf

/-! Both stores carry a workspace as its plan says. A planned move does not stop halfway: every module is still
there when its turn comes, and its new path is still free. -/
namespace RobotBlocks

section

variable {α β : Type} {type : α → ModuleType} {oldName newName source target : String}
  {before after : String → Option α}

theorem lands_map {type' : β → ModuleType} {f : α → β} (typed : ∀ own, type' (f own) = type own) :
    Lands type' (fun path => (before path).map f) oldName newName source target ↔
      Lands type before oldName newName source target := by
  simp only [Lands, Option.map_eq_some_iff]
  constructor
  · rintro ⟨_, path, ⟨own, here, rfl⟩, parsed, inside, aimed⟩
    exact ⟨own, path, here, parsed, inside, typed own ▸ aimed⟩
  · rintro ⟨own, path, here, parsed, inside, aimed⟩
    exact ⟨f own, path, ⟨own, here, rfl⟩, parsed, inside, (typed own).symm ▸ aimed⟩

/-- A move that is seen through what it does not touch. -/
theorem Relocated.map {type' : β → ModuleType} {mark : α → α} {mark' : β → β} {copy : Bool} {f : α → β}
    (relocated : Relocated type mark copy oldName newName before after)
    (typed : ∀ own, type' (f own) = type own) (marked : ∀ own, f (mark own) = mark' (f own)) :
    Relocated type' mark' copy oldName newName (fun path => (before path).map f)
      (fun path => (after path).map f) where
  named := relocated.named
  arrived source target lands := by
    obtain ⟨free, own, here, there⟩ := relocated.arrived source target ((lands_map typed).mp lands)
    exact ⟨by rw [free]; rfl, f own, by rw [here]; rfl, by rw [there, Option.map_some, marked]⟩
  apart first second target one other :=
    relocated.apart first second target ((lands_map typed).mp one) ((lands_map typed).mp other)
  old source target lands := by
    rw [relocated.old source target ((lands_map typed).mp lands)]
    cases copy <;> rfl
  others path notOld notNew := by
    rw [relocated.others path (fun target lands => notOld target ((lands_map typed).mpr lands))
      fun source lands => notNew source ((lands_map typed).mpr lands)]

end

/-- A module that is written again at some time. -/
def StoredModule.at (clock : Int) (module : StoredModule) : StoredModule := { module with modified := clock }

/-- What of a module does not tell of its changes. -/
def StoredModule.content (module : StoredModule) : ModuleType × String := (module.type, module.text)

namespace Shelf

variable {shelf shelf' : Shelf} {oldName newName : String} {copy : Bool}

theorem listing (ordered : shelf.Ordered) : Listing StoredModule.type shelf.module? shelf.list where
  distinct := entries_distinct ordered (by simp only [ModuleStore.entries, ordered.open?]; rfl)
  sound entry member := by
    obtain ⟨⟨path, module⟩, listed, rfl⟩ := List.mem_map.mp member
    exact ⟨module, ordered.sorted.lookup_of_mem listed, rfl⟩
  complete path stored := by
    obtain ⟨module, found⟩ := Option.isSome_iff_exists.mp stored
    obtain ⟨before, after, split, -⟩ := List.lookup_eq_some_iff.mp found
    have listed : (path, module) ∈ shelf.modules := split ▸ by simp
    exact ⟨_, List.mem_map_of_mem listed, rfl⟩

theorem delivers (clock : Int) (copy : Bool) :
    Delivers module? (StoredModule.at clock) copy (fun shelf => shelf.Ordered ∧ shelf.clock = clock) (carry copy) := by
  rintro shelf source target own ⟨ordered, rfl⟩ here -
  have carried : carry copy shelf (source, target) = .ok (if copy
      then shelf.put target (own.at shelf.clock) else (shelf.put target (own.at shelf.clock)).erase source) := by
    simp only [carry, get_eq_ok.mpr here]
    rfl
  have put : ∀ other, (shelf.put target (own.at shelf.clock)).module? other
      = if other = target then some (own.at shelf.clock) else shelf.module? other :=
    lookup_insertModule shelf.modules
  refine ⟨_, carried, ?_⟩
  cases copy with
  | true => exact ⟨⟨ordered.put, rfl⟩, fun other => by simp [put]⟩
  | false =>
    refine ⟨⟨ordered.put.filter _, rfl⟩, fun other => ?_⟩
    refine (lookup_filter (fun other => decide (other ≠ source)) _ other).trans ?_
    by_cases same : other = source
    · simp [same]
    · exact (if_pos (decide_eq_true same)).trans ((put other).trans (if_neg fun both => same both.2).symm)

theorem plan_relocates {moves : List (String × String)} (ordered : shelf.Ordered) (copy : Bool)
    (planned : planWorkspaceMove shelf.list oldName newName = .ok moves) :
    ∃ after, moves.foldlM (carry copy) shelf = .ok after ∧ after.Ordered ∧
      Relocated StoredModule.type (StoredModule.at shelf.clock) copy oldName newName shelf.module? after.module? := by
  obtain ⟨after, ran, ⟨ordered', -⟩, relocated⟩ :=
    (delivers shelf.clock copy).relocates ⟨ordered, rfl⟩ (listing ordered) planned
  exact ⟨after, ran, ordered', relocated⟩

theorem moveWorkspace_relocates (ordered : shelf.Ordered)
    (moved : ModuleStore.moveWorkspace shelf oldName newName copy = .ok shelf') :
    shelf'.Ordered ∧
      Relocated StoredModule.type (StoredModule.at shelf.clock) copy oldName newName shelf.module? shelf'.module? := by
  simp only [ModuleStore.moveWorkspace, ordered.open?, bind_eq_ok] at moved
  obtain ⟨opened, same, moves, planned, carried⟩ := moved
  cases same
  obtain ⟨after, ran, relocated⟩ := plan_relocates ordered copy planned
  cases carried.symm.trans ran
  exact relocated

end Shelf

namespace Database

open ModuleTable

variable {table : ModuleTable} {db db' : Database} {oldName newName : String} {copy : Bool}

def storedBy (row : ModuleRow) : Option StoredModule :=
  (parseType row.type).toOption.map fun type => ⟨type, row.text, row.modified⟩

/-- The module under a path, with the time of its change. -/
def stored (table : ModuleTable) (path : String) : Option StoredModule := (select table path).bind storedBy

theorem held_eq (db : Database) (path : String) :
    db.held path = (stored db.modules path).map StoredModule.content := by
  unfold held stored
  cases select db.modules path with
  | none => rfl
  | some row =>
    rw [Option.bind_some, Option.bind_some, heldBy, storedBy, Option.map_map]
    rfl

theorem storedBy_eq {row : ModuleRow} {type : ModuleType} (typed : row.type = type.name) :
    storedBy row = some ⟨type, row.text, row.modified⟩ := by
  simp [storedBy, typed, parseType_name, Except.toOption]

theorem stored_of_select {path : String} {row : ModuleRow} {type : ModuleType}
    (found : select table path = some row) (typed : row.type = type.name) :
    stored table path = some ⟨type, row.text, row.modified⟩ := by
  rw [stored, found, Option.bind_some, storedBy_eq typed]

theorem stored_eq_none (keyed : WellKeyed table) {path : String} :
    stored table path = none ↔ select table path = none := by
  cases found : select table path with
  | none => simp [stored, found]
  | some row =>
    obtain ⟨type, typed⟩ := keyed.typed row ((select_eq_some keyed).mp found).1
    simp [stored_of_select found typed]

theorem listing {entries : List ModuleEntry} (keyed : WellKeyed table) (listed : list table = .ok entries) :
    Listing StoredModule.type (stored table) entries where
  distinct := list_paths listed ▸ keyed.distinct
  sound entry member := by
    obtain ⟨entries', listed', sound, -⟩ := list_eq keyed.typed
    cases listed.symm.trans listed'
    obtain ⟨row, there, same, typed⟩ := sound entry member
    exact ⟨_, stored_of_select ((select_eq_some keyed).mpr ⟨there, same.symm⟩) typed, rfl⟩
  complete path present := by
    obtain ⟨entries', listed', -, complete⟩ := list_eq keyed.typed
    cases listed.symm.trans listed'
    obtain ⟨row, found⟩ := Option.isSome_iff_exists.mp (Option.isSome_of_isSome_bind present)
    obtain ⟨there, rfl⟩ := (select_eq_some keyed).mp found
    exact complete row there

theorem delivers (clock : Int) (copy : Bool) :
    Delivers stored (StoredModule.at clock) copy WellKeyed (carry clock copy) := by
  intro table source target own keyed here free
  obtain ⟨row, found⟩ := Option.isSome_iff_exists.mp
    (Option.isSome_of_isSome_bind (Option.isSome_iff_exists.mpr ⟨own, here⟩))
  obtain ⟨type, typed⟩ := keyed.typed row ((select_eq_some keyed).mp found).1
  obtain rfl : _ = own := Option.some.inj ((stored_of_select found typed).symm.trans here)
  have vacant : table.holds target = false := by
    rw [holds, (stored_eq_none keyed).mp free]
    rfl
  let moved : ModuleRow := { row with path := target, modified := clock }
  have keyed' : WellKeyed (place moved table) := keyed.place vacant typed
  have arrives : storedBy moved = some (StoredModule.at clock ⟨type, row.text, row.modified⟩) := storedBy_eq typed
  have placed : ∀ other, stored (place moved table) other
      = if other = target then some (StoredModule.at clock ⟨type, row.text, row.modified⟩)
        else stored table other := by
    intro other
    rw [stored, select_place keyed keyed']
    split
    · exact arrives
    · rfl
  have carried : carry clock copy table (source, target)
      = .ok (if copy then place moved table else ((place moved table).delete source).2) := by
    simp only [carry, copyRow, found, ModuleTable.insert, vacant]
    rfl
  refine ⟨_, carried, ?_⟩
  cases copy with
  | true => exact ⟨keyed', fun other => by simpa using placed other⟩
  | false =>
    refine ⟨keyed'.filter _, fun other => ?_⟩
    have deleted : select ((place moved table).delete source).2 other
        = if other = source then none else select (place moved table) other := by
      refine (select_filter (fun other => decide (other ≠ source)) _ other).trans ?_
      by_cases same : other = source <;> simp [same]
    show stored ((place moved table).delete source).2 other = _
    by_cases same : other = source
    · rw [if_pos ⟨rfl, same⟩, stored, show select _ other = none from deleted.trans (if_pos same), Option.bind_none]
    · rw [if_neg fun both => same both.2, ← placed other, stored, stored]
      exact congrArg (·.bind storedBy) (deleted.trans (if_neg same))

theorem moveWorkspace_relocates (keyed : WellKeyed db.modules)
    (moved : ModuleStore.moveWorkspace db oldName newName copy = .ok db') :
    WellKeyed db'.modules ∧ Relocated StoredModule.type (StoredModule.at db.clock) copy oldName newName
      (stored db.modules) (stored db'.modules) := by
  simp only [ModuleStore.moveWorkspace, transaction, bind_eq_ok, pure_eq_ok] at moved
  obtain ⟨table, ⟨entries, listed, moves, planned, carried⟩, rfl⟩ := moved
  obtain ⟨after, ran, relocated⟩ := (delivers db.clock copy).relocates keyed (listing keyed listed) planned
  cases carried.symm.trans ran
  exact relocated

end Database

/-! The law of a store that moves workspaces. -/

open LawfulStore in
/-- A store whose modules are told by their types and texts, and that carries a workspace as a whole. -/
class RelocatingStore (σ : Type) [ModuleStore σ] extends KeyedStore σ, MovingStore σ where
  relocates {s s' : σ} {oldName newName : String} {copy : Bool} (intact : Intact s) :
    ModuleStore.moveWorkspace s oldName newName copy = .ok s' →
      Relocated Prod.fst id copy oldName newName (held s) (held s')

instance : RelocatingStore Shelf where
  relocates ordered moved := (Shelf.moveWorkspace_relocates ordered moved).2.map
    (f := StoredModule.content) (fun _ => rfl) fun _ => rfl

instance : RelocatingStore Database where
  relocates {db db' oldName newName copy} keyed moved := by
    have relocated : Relocated Prod.fst id copy oldName newName _ _ :=
      (Database.moveWorkspace_relocates keyed moved).2.map (f := StoredModule.content) (fun _ => rfl) fun _ => rfl
    simp only [← Database.held_eq] at relocated
    exact relocated

end RobotBlocks
