import RobotBlocks.Proofs.Result
import RobotBlocks.Proofs.Store.Lawful
import RobotBlocks.Store.Shelf

/-! A shelf obeys the laws of a store. Its modules stay in ascending order of their paths, so that a
path is listed once. -/
namespace RobotBlocks

namespace Shelf

variable {path : String} {module : StoredModule}

theorem lookup_cons (first : String) (rest : List (String × StoredModule)) (other : String) :
    ((first, module) :: rest).lookup other = if other = first then some module else rest.lookup other := by
  rw [List.lookup_cons]
  by_cases same : other = first
  · simp [same]
  · rw [beq_false_of_ne same, if_neg same]

theorem lookup_insertModule (modules : List (String × StoredModule)) (other : String) :
    (insertModule path module modules).lookup other =
      if other = path then some module else modules.lookup other := by
  induction modules with
  | nil => exact lookup_cons ..
  | cons head rest ih =>
    obtain ⟨first, old⟩ := head
    unfold insertModule
    split
    · next met =>
      subst met
      by_cases same : other = path <;> simp [lookup_cons, same]
    · split
      · exact lookup_cons ..
      · next differs _ =>
        rw [lookup_cons, lookup_cons, ih]
        by_cases same : other = first
        · simp [same, Ne.symm differs]
        · simp [same]

theorem mem_insertModule {modules : List (String × StoredModule)} {slot : String × StoredModule}
    (member : slot ∈ insertModule path module modules) :
    slot = (path, module) ∨ slot ∈ modules := by
  induction modules with
  | nil => exact .inl (List.mem_singleton.mp member)
  | cons head rest ih =>
    unfold insertModule at member
    split at member
    · rcases List.mem_cons.mp member with new | old
      · exact .inl new
      · exact .inr (List.mem_cons_of_mem _ old)
    · split at member
      · exact List.mem_cons.mp member
      · rcases List.mem_cons.mp member with first | later
        · exact .inr (first ▸ List.mem_cons_self ..)
        · exact (ih later).imp_right (List.mem_cons_of_mem _)

/-- The paths of a shelf ascend. -/
def Sorted (modules : List (String × StoredModule)) : Prop :=
  modules.Pairwise fun first second => first.1 < second.1

theorem Sorted.insertModule {modules : List (String × StoredModule)} (sorted : Sorted modules) :
    Sorted (Shelf.insertModule path module modules) := by
  induction sorted with
  | nil => exact List.pairwise_singleton ..
  | @cons head rest above sorted ih =>
    unfold Shelf.insertModule
    split
    · next met =>
      exact .cons (met ▸ above) sorted
    · split
      · next before =>
        refine .cons (fun slot member => ?_) (.cons above sorted)
        rcases List.mem_cons.mp member with rfl | later
        · exact before
        · exact String.lt_trans before (above slot later)
      · next differs after =>
        refine .cons (fun slot member => ?_) ih
        rcases mem_insertModule member with rfl | later
        · exact Std.lt_of_le_of_ne (Std.not_lt.mp after) (Ne.symm differs)
        · exact above slot later

theorem Sorted.lookup_of_mem {modules : List (String × StoredModule)} (sorted : Sorted modules)
    (member : (path, module) ∈ modules) : modules.lookup path = some module := by
  induction sorted with
  | nil => cases member
  | @cons head rest above sorted ih =>
    obtain ⟨first, old⟩ := head
    rcases List.mem_cons.mp member with same | later
    · obtain ⟨rfl, rfl⟩ := Prod.mk.inj same
      simp
    · have differs : path ≠ first := fun same => String.lt_irrefl _ (same ▸ above _ later)
      rw [lookup_cons, if_neg differs]
      exact ih later

theorem get_eq_ok {shelf : Shelf} : shelf.get path = .ok module ↔ shelf.module? path = some module := by
  unfold get
  cases shelf.module? path <;> simp

variable {shelf shelf' : Shelf} {text : String}

/-- A shelf that answers and whose paths ascend. -/
structure Ordered (shelf : Shelf) : Prop where
  available : shelf.available = true
  sorted : Sorted shelf.modules

/-- What a shelf holds under a path. -/
def held (shelf : Shelf) (path : String) : Option (ModuleType × String) :=
  (shelf.module? path).map fun module => (module.type, module.text)

theorem Ordered.put (ordered : shelf.Ordered) : (shelf.put path module).Ordered :=
  ⟨ordered.available, ordered.sorted.insertModule⟩

theorem held_put (other : String) : (shelf.put path module).held other
    = if other = path then some (module.type, module.text) else shelf.held other := by
  simp only [held, module?, put, lookup_insertModule]
  split <;> rfl

theorem Ordered.open? (ordered : shelf.Ordered) : shelf.open? = .ok shelf := by
  rw [Shelf.open?, if_pos ordered.available]

theorem fetch_held (ordered : shelf.Ordered) (path : String) :
    ModuleStore.fetch shelf path = match shelf.held path with
      | some (_, text) => .ok text
      | none => .error (.notFound path) := by
  simp only [ModuleStore.fetch, ordered.open?]
  cases found : shelf.module? path <;>
    simp [held, get, found, bind, Except.bind, pure, Except.pure]

theorem entries_held (ordered : shelf.Ordered) : ∃ entries, ModuleStore.entries shelf = .ok entries ∧
    (∀ entry ∈ entries, ∃ text, shelf.held entry.path = some (entry.type, text)) ∧
    ∀ path, (shelf.held path).isSome → ∃ entry ∈ entries, entry.path = path := by
  refine ⟨shelf.list, by simp only [ModuleStore.entries, ordered.open?]; rfl, ?_, ?_⟩
  · intro entry member
    obtain ⟨⟨path, module⟩, listed, rfl⟩ := List.mem_map.mp member
    exact ⟨module.text, by simp [held, module?, ordered.sorted.lookup_of_mem listed]⟩
  · intro path holds
    obtain ⟨module, found⟩ := Option.isSome_iff_exists.mp (Option.isSome_map.symm.trans holds)
    obtain ⟨before, after, split, -⟩ := List.lookup_eq_some_iff.mp found
    have listed : (path, module) ∈ shelf.modules := split ▸ by simp
    exact ⟨_, List.mem_map_of_mem listed, rfl⟩

theorem create_held {type : ModuleType} (ordered : shelf.Ordered)
    (h : ModuleStore.create shelf type path text = .ok shelf') :
    shelf'.Ordered ∧ shelf.held path = none ∧
      ∀ other, shelf'.held other = if other = path then some (type, text) else shelf.held other := by
  simp only [ModuleStore.create, ordered.open?, ensureFree, bind_eq_ok, pure_eq_ok] at h
  obtain ⟨-, -, opened, same, _, free, rfl⟩ := h
  cases same
  have free : shelf.module? path = none := by
    cases found : shelf.module? path <;> simp_all
  exact ⟨ordered.put, by simp [held, free], held_put⟩

theorem save_held (ordered : shelf.Ordered) (h : ModuleStore.save shelf path text = .ok shelf') :
    shelf'.Ordered ∧ ∃ type old, shelf.held path = some (type, old) ∧
      ∀ other, shelf'.held other = if other = path then some (type, text) else shelf.held other := by
  simp only [ModuleStore.save, ordered.open?, bind_eq_ok, pure_eq_ok, get_eq_ok] at h
  obtain ⟨opened, same, module, found, rfl⟩ := h
  cases same
  exact ⟨ordered.put, module.type, module.text, by simp [held, found], held_put⟩

instance : LawfulStore Shelf where
  Intact := Ordered
  held := held
  fetch_eq := fetch_held
  entries_eq := entries_held
  create_ok := create_held
  save_ok := save_held

theorem entries_distinct {entries : List ModuleEntry} (ordered : shelf.Ordered)
    (listed : ModuleStore.entries shelf = .ok entries) : (entries.map (·.path)).Nodup := by
  have same : entries = shelf.list := by
    simp only [ModuleStore.entries, ordered.open?] at listed
    exact (Except.ok.inj listed).symm
  rw [same, list, List.map_map]
  refine List.Pairwise.map _ (fun first second before => ?_) ordered.sorted
  intro (met : first.1 = second.1)
  exact String.lt_irrefl _ (met ▸ before)

theorem save_ok_of_held (ordered : shelf.Ordered) (text : String) (holds : (shelf.held path).isSome = true) :
    ∃ shelf', ModuleStore.save shelf path text = .ok shelf' := by
  obtain ⟨module, found⟩ := Option.isSome_iff_exists.mp (Option.isSome_map.symm.trans holds)
  simp only [ModuleStore.save, ordered.open?, bind_eq_ok, pure_eq_ok, get_eq_ok]
  exact ⟨_, shelf, rfl, module, found, rfl⟩

instance : KeyedStore Shelf where
  entries_distinct := entries_distinct
  save_held := save_ok_of_held

/-! Paths and types. -/

theorem open?_eq_ok {opened : Shelf} : shelf.open? = .ok opened ↔ shelf.available = true ∧ shelf = opened := by
  unfold Shelf.open?
  split
  · next available => simp [available]
  · next unavailable => simp [unavailable]

theorem types_insertModule {modules : List (String × StoredModule)} {old : StoredModule} (sorted : Sorted modules)
    (found : modules.lookup path = some old) (same : module.type = old.type) :
    (insertModule path module modules).map (fun slot => (slot.1, slot.2.type))
      = modules.map fun slot => (slot.1, slot.2.type) := by
  induction sorted with
  | nil => cases found
  | @cons head rest above sorted ih =>
    obtain ⟨first, own⟩ := head
    rw [lookup_cons] at found
    unfold insertModule
    split
    · next met =>
      rw [if_pos met, Option.some.injEq] at found
      rw [List.map_cons, List.map_cons, same, found, met]
    · next differs =>
      rw [if_neg differs] at found
      have later : ¬ path < first := by
        obtain ⟨before, after, split, -⟩ := List.lookup_eq_some_iff.mp found
        have listed : (path, old) ∈ rest := split ▸ by simp
        exact fun before => String.lt_irrefl _ (String.lt_trans before (above _ listed))
      rw [if_neg later, List.map_cons, List.map_cons, ih found]

theorem listing_eq (available : shelf.available = true) :
    ModuleStore.listing shelf = .ok (shelf.modules.map fun slot => (slot.1, slot.2.type)) := by
  rw [ModuleStore.listing, ModuleStore.entries]
  simp only [instModuleStore, open?_eq_ok.mpr ⟨available, rfl⟩, bind, Except.bind, pure, Except.pure, Except.map, list,
    List.map_map]
  rfl

theorem save_listing (ordered : shelf.Ordered) (h : ModuleStore.save shelf path text = .ok shelf') :
    ModuleStore.listing shelf' = ModuleStore.listing shelf := by
  simp only [ModuleStore.save, ordered.open?, bind_eq_ok, pure_eq_ok, get_eq_ok] at h
  obtain ⟨opened, same, module, found, rfl⟩ := h
  cases same
  have after : ModuleStore.listing (shelf.put path { module with text, modified := shelf.clock }) = _ :=
    listing_eq ordered.available
  rw [after, listing_eq ordered.available]
  exact congrArg _ (types_insertModule ordered.sorted found rfl)

theorem listing_distinct {listed : List (String × ModuleType)} (sorted : Sorted shelf.modules)
    (same : ModuleStore.listing shelf = .ok listed) : (listed.map Prod.fst).Nodup := by
  obtain ⟨entries, known, rfl⟩ := map_eq_ok.mp same
  have available : shelf.available = true := by
    simp only [ModuleStore.entries, bind_eq_ok, open?_eq_ok] at known
    obtain ⟨_, ⟨available, -⟩, -⟩ := known
    exact available
  rw [List.map_map]
  exact entries_distinct ⟨available, sorted⟩ known

theorem save_framed (sorted : Sorted shelf.modules) (h : ModuleStore.save shelf path text = .ok shelf') :
    Sorted shelf'.modules ∧ ModuleStore.listing shelf' = ModuleStore.listing shelf ∧
      (∃ old, ModuleStore.fetch shelf path = .ok old) ∧ ∀ other, ModuleStore.fetch shelf' other
        = if other = path then .ok text else ModuleStore.fetch shelf other := by
  have ordered : shelf.Ordered := by
    simp only [ModuleStore.save, bind_eq_ok, open?_eq_ok] at h
    obtain ⟨_, ⟨available, -⟩, -⟩ := h
    exact ⟨available, sorted⟩
  exact ⟨(save_held ordered h).1.sorted, save_listing ordered h, LawfulStore.save_fetch ordered h⟩

instance : FramedStore Shelf where
  Keyed shelf := Sorted shelf.modules
  listing_distinct := listing_distinct
  save_frame := save_framed

/-! Moving and deleting. -/

theorem lookup_filter (keeps : String → Bool) (modules : List (String × StoredModule)) (path : String) :
    (modules.filter fun slot => keeps slot.1).lookup path = if keeps path then modules.lookup path else none := by
  induction modules with
  | nil => simp
  | cons head rest ih =>
    obtain ⟨first, own⟩ := head
    rw [List.filter_cons, lookup_cons]
    by_cases same : path = first
    · subst same
      split
      · simp
      · next gone => simp [ih, gone]
    · rw [if_neg same]
      split
      · rw [lookup_cons, if_neg same, ih]
      · exact ih

theorem held_filter (keeps : String → Bool) (other : String) :
    held { shelf with modules := shelf.modules.filter fun slot => keeps slot.1 } other
      = if keeps other then shelf.held other else none := by
  simp only [held, module?, lookup_filter]
  split <;> rfl

theorem Ordered.filter (ordered : shelf.Ordered) (keeps : String × StoredModule → Bool) :
    Ordered { shelf with modules := shelf.modules.filter keeps } :=
  ⟨ordered.available, ordered.sorted.filter keeps⟩

theorem held_erase (other : String) :
    (shelf.erase path).held other = if other = path then none else shelf.held other := by
  rw [erase, held_filter fun other => decide (other ≠ path)]
  by_cases same : other = path <;> simp [same]

theorem delete_held (ordered : shelf.Ordered) (h : ModuleStore.delete shelf path = .ok shelf') :
    shelf'.Ordered ∧ ∀ other, shelf'.held other = if other = path then none else shelf.held other := by
  simp only [ModuleStore.delete, ordered.open?, bind_eq_ok, pure_eq_ok] at h
  obtain ⟨opened, same, _, -, rfl⟩ := h
  cases same
  exact ⟨ordered.filter _, held_erase⟩

theorem carry_held {source target : String} {copy : Bool} (ordered : shelf.Ordered)
    (h : carry copy shelf (source, target) = .ok shelf') :
    shelf'.Ordered ∧ ∃ own, shelf.held source = some own ∧ ∀ other, shelf'.held other =
      if copy = false ∧ other = source then none
      else if other = target then some own else shelf.held other := by
  simp only [carry, bind_eq_ok, pure_eq_ok, get_eq_ok] at h
  obtain ⟨module, found, rfl⟩ := h
  have here : shelf.held source = some (module.type, module.text) := by simp [held, found]
  cases copy with
  | true => exact ⟨ordered.put, _, here, fun other => by simp [held_put]⟩
  | false => exact ⟨ordered.put.filter _, _, here, fun other => by simp [held_erase, held_put]⟩

theorem moveModule_held {source target : String} {copy : Bool} (ordered : shelf.Ordered)
    (h : ModuleStore.moveModule shelf source target copy = .ok shelf') :
    shelf'.Ordered ∧ shelf.held target = none ∧ ∃ own, shelf.held source = some own ∧
      ∀ other, shelf'.held other = if copy = false ∧ other = source then none
        else if other = target then some own else shelf.held other := by
  simp only [ModuleStore.moveModule, ordered.open?, ensureFree, bind_eq_ok] at h
  obtain ⟨-, -, opened, same, _, -, _, free, carried⟩ := h
  cases same
  have free : shelf.module? target = none := by
    cases found : shelf.module? target <;> simp_all
  obtain ⟨ordered', moved⟩ := carry_held ordered carried
  exact ⟨ordered', by rw [held, free]; rfl, moved⟩

theorem moveWorkspace_held {oldName newName : String} {copy : Bool} (ordered : shelf.Ordered)
    (h : ModuleStore.moveWorkspace shelf oldName newName copy = .ok shelf') :
    shelf'.Ordered ∧ Draws shelf shelf' := by
  simp only [ModuleStore.moveWorkspace, ordered.open?, bind_eq_ok] at h
  obtain ⟨opened, same, moves, -, carried⟩ := h
  cases same
  refine foldlM_keeps (P := fun there : Shelf => there.Ordered ∧ Draws shelf there) ?_
    ⟨ordered, .refl shelf⟩ carried
  rintro ⟨source, target⟩ there next ⟨known, drawn⟩ carried
  obtain ⟨known', own, here, others⟩ := carry_held known carried
  exact ⟨known', drawn.trans (.carry here others)⟩

theorem deleteWorkspace_held {name : String} (ordered : shelf.Ordered)
    (h : ModuleStore.deleteWorkspace shelf name = .ok shelf') :
    shelf'.Ordered ∧ ∀ other, shelf'.held other =
      if (ModulePath.ofText? other).any (fun path => path.workspace = name) then none
      else shelf.held other := by
  simp only [ModuleStore.deleteWorkspace, ordered.open?, bind_eq_ok] at h
  obtain ⟨opened, same, h⟩ := h
  cases same
  split at h
  · exact absurd h throw_ne_ok
  · cases pure_eq_ok.mp h
    refine ⟨ordered.filter _, fun other => ?_⟩
    rw [held_filter fun other => !(ModulePath.ofText? other).any fun path => path.workspace = name]
    cases (ModulePath.ofText? other).any fun path => path.workspace = name <;> rfl

instance : MovingStore Shelf where
  delete_ok := delete_held
  moveModule_ok := moveModule_held
  moveWorkspace_ok := moveWorkspace_held
  deleteWorkspace_ok := deleteWorkspace_held

end Shelf

end RobotBlocks
