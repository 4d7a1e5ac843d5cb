import RobotBlocks.Store.Basic

/-! What the editor may rely on in a store: under every path it holds a type and a text or nothing,
and a write changes what it holds under one path only. -/
namespace RobotBlocks

/-- The laws of a store that answers. -/
class LawfulStore (σ : Type) [ModuleStore σ] where
  /-- The store answers, and its modules have different paths. -/
  Intact : σ → Prop
  /-- The type and the text under a path. -/
  held : σ → String → Option (ModuleType × String)
  fetch_eq {s : σ} (intact : Intact s) (path : String) :
    ModuleStore.fetch s path = match held s path with
      | some (_, text) => .ok text
      | none => .error (.notFound path)
  entries_eq {s : σ} (intact : Intact s) : ∃ entries, ModuleStore.entries s = .ok entries ∧
    (∀ entry ∈ entries, ∃ text, held s entry.path = some (entry.type, text)) ∧
    ∀ path, (held s path).isSome → ∃ entry ∈ entries, entry.path = path
  create_ok {s s' : σ} {type : ModuleType} {path text : String} (intact : Intact s) :
    ModuleStore.create s type path text = .ok s' →
      Intact s' ∧ held s path = none ∧
        ∀ other, held s' other = if other = path then some (type, text) else held s other
  save_ok {s s' : σ} {path text : String} (intact : Intact s) :
    ModuleStore.save s path text = .ok s' →
      Intact s' ∧ ∃ type old, held s path = some (type, old) ∧
        ∀ other, held s' other = if other = path then some (type, text) else held s other

/-- A store that lists every path once and takes a text wherever it holds one. -/
class KeyedStore (σ : Type) [ModuleStore σ] extends LawfulStore σ where
  entries_distinct {s : σ} {entries : List ModuleEntry} (intact : Intact s) :
    ModuleStore.entries s = .ok entries → (entries.map (·.path)).Nodup
  save_held {s : σ} {path : String} (intact : Intact s) (text : String) :
    (held s path).isSome = true → ∃ s', ModuleStore.save s path text = .ok s'

section Draws

open LawfulStore

variable {σ : Type} [ModuleStore σ] [LawfulStore σ] {store store' store'' : σ}

/-- Whatever the one store holds somewhere, the other held somewhere. -/
def Draws (store store' : σ) : Prop :=
  ∀ path own, held store' path = some own → ∃ source, held store source = some own

theorem Draws.refl (store : σ) : Draws store store := fun path _ here => ⟨path, here⟩

theorem Draws.trans (first : Draws store store') (second : Draws store' store'') : Draws store store'' :=
  fun path own here => let ⟨between, there⟩ := second path own here; first between own there

/-- A module that is carried to a new path was held under its old one. -/
theorem Draws.carry {source target : String} {copy : Bool} {own : ModuleType × String}
    (here : held store source = some own) (others : ∀ other, held store' other =
      if copy = false ∧ other = source then none
      else if other = target then some own else held store other) : Draws store store' := by
  intro other held there
  rw [others] at there
  split at there
  · cases there
  · split at there
    · exact ⟨source, here.trans there⟩
    · exact ⟨other, there⟩

theorem Draws.drop {gone : String → Prop} [DecidablePred gone]
    (others : ∀ other, held store' other = if gone other then none else held store other) :
    Draws store store' := by
  intro other held there
  rw [others] at there
  split at there
  · cases there
  · exact ⟨other, there⟩

end Draws

open LawfulStore in
/-- A store that moves and deletes what it holds without looking into it. -/
class MovingStore (σ : Type) [ModuleStore σ] extends LawfulStore σ where
  delete_ok {s s' : σ} {path : String} (intact : Intact s) :
    ModuleStore.delete s path = .ok s' →
      Intact s' ∧ ∀ other, held s' other = if other = path then none else held s other
  moveModule_ok {s s' : σ} {source target : String} {copy : Bool} (intact : Intact s) :
    ModuleStore.moveModule s source target copy = .ok s' →
      Intact s' ∧ held s target = none ∧ ∃ own, held s source = some own ∧ ∀ other, held s' other =
        if copy = false ∧ other = source then none
        else if other = target then some own else held s other
  moveWorkspace_ok {s s' : σ} {oldName newName : String} {copy : Bool} (intact : Intact s) :
    ModuleStore.moveWorkspace s oldName newName copy = .ok s' → Intact s' ∧ Draws s s'
  deleteWorkspace_ok {s s' : σ} {name : String} (intact : Intact s) :
    ModuleStore.deleteWorkspace s name = .ok s' → Intact s' ∧ ∀ other, held s' other =
      if (ModulePath.ofText? other).any (fun path => path.workspace = name) then none
      else held s other

/-- The paths and types of the modules, in the order in which they are listed. -/
def ModuleStore.listing {σ : Type} [ModuleStore σ] (store : σ) : Except StoreError (List (String × ModuleType)) :=
  (ModuleStore.entries store).map (List.map fun entry => (entry.path, entry.type))

/-- A store that takes a text under the path of a module and leaves everything else alone, whether it answers all
that it is asked or not. -/
class FramedStore (σ : Type) [ModuleStore σ] where
  /-- No path is stored twice. -/
  Keyed : σ → Prop
  listing_distinct {s : σ} {listed : List (String × ModuleType)} (keyed : Keyed s) :
    ModuleStore.listing s = .ok listed → (listed.map Prod.fst).Nodup
  save_frame {s s' : σ} {path text : String} (keyed : Keyed s) :
    ModuleStore.save s path text = .ok s' →
      Keyed s' ∧ ModuleStore.listing s' = ModuleStore.listing s ∧ (∃ old, ModuleStore.fetch s path = .ok old) ∧
        ∀ other, ModuleStore.fetch s' other = if other = path then .ok text else ModuleStore.fetch s other

/-- What is held under a path is what is fetched from there. -/
theorem LawfulStore.save_fetch {σ : Type} [ModuleStore σ] [LawfulStore σ] {s s' : σ} {path text : String}
    (intact : Intact s) (saved : ModuleStore.save s path text = .ok s') :
    (∃ old, ModuleStore.fetch s path = .ok old) ∧
      ∀ other, ModuleStore.fetch s' other = if other = path then .ok text else ModuleStore.fetch s other := by
  obtain ⟨intact', type, old, here, others⟩ := LawfulStore.save_ok intact saved
  refine ⟨⟨old, by rw [fetch_eq intact, here]⟩, fun other => ?_⟩
  rw [fetch_eq intact', fetch_eq intact, others]
  by_cases same : other = path <;> simp [same]

end RobotBlocks
