import RobotBlocks.Proofs.Editor.Authored
import RobotBlocks.Proofs.Module.Path

/-! The declarations that a module sees in its store: those of the robot of its workspace and of the
mechanisms there, each under the name that its path bears. -/
namespace RobotBlocks

open LawfulStore

namespace Declarations

variable {known : Declarations}

theorem Unambiguous.exported (unambiguous : known.Unambiguous) : known.exported.Unambiguous :=
  ⟨unambiguous.events, fun one other => unambiguous.methods (List.mem_of_mem_filter one) (List.mem_of_mem_filter other)⟩

theorem Unambiguous.none : ({} : Declarations).Unambiguous := ⟨nofun, nofun⟩

end Declarations

/-- What composed texts declare is unambiguous. -/
theorem Composed.unambiguous {type : ModuleType} {text : String} {content : ModuleContent}
    (composed : Composed type text) (parsed : ModuleContent.parse text = .ok content) :
    content.declarations.Unambiguous := by
  obtain ⟨s, -, rfl⟩ := composed.parsed parsed
  unfold Session.document
  split
  · exact (Declarations.unambiguous_collect s.graph).exported
  · exact .none

namespace Editor

variable {σ : Type} [ModuleStore σ] [LawfulStore σ] {store store' : σ} {workspace own name : String}
  {content other : ModuleContent} {mechanisms mechanisms' : Labelled ModuleContent}
  {robot robot' : Option ModuleContent}

theorem module?_parts {entry : ModuleEntry} {module : Module} (named : entry.module? = some module) :
    ModulePath.ofText? module.path = some ⟨module.workspace, module.name⟩ := by
  obtain ⟨parts, same, rfl⟩ := Option.map_eq_some_iff.mp named
  exact same

/-- The store holds a readable mechanism of the name, and not under the module's own path. -/
def Supplies (store : σ) (workspace own name : String) (content : ModuleContent) : Prop :=
  ∃ path text, path ≠ own ∧ ModulePath.ofText? path = some ⟨workspace, name⟩ ∧
    held store path = some (.mechanism, text) ∧ ModuleContent.parse text = .ok content

/-- A workspace has one mechanism of a name. -/
theorem Supplies.unique (supplies : Supplies store workspace own name content)
    (again : Supplies store workspace own name other) : content = other := by
  obtain ⟨path, text, -, parts, here, parsed⟩ := supplies
  obtain ⟨path', text', -, parts', here', parsed'⟩ := again
  obtain rfl : path = path' :=
    (ModulePath.text_ofText? parts).symm.trans (ModulePath.text_ofText? parts')
  cases here.symm.trans here'
  exact Except.ok.inj (parsed.symm.trans parsed')

/-- The mechanisms that a module sees are those that the store supplies. -/
theorem mem_fetchMechanisms (intact : Intact store)
    (fetched : fetchMechanisms store workspace own = .ok mechanisms) :
    (name, content) ∈ mechanisms ↔ Supplies store workspace own name content := by
  obtain ⟨entries, listed, sound, complete⟩ := LawfulStore.entries_eq intact
  obtain rfl := Except.ok.inj ((fetchMechanisms_eq intact listed workspace own).symm.trans fetched)
  rw [List.mem_filterMap]
  constructor
  · rintro ⟨module, member, shown⟩
    obtain ⟨present, kept⟩ := List.mem_filter.mp member
    simp only [Bool.and_eq_true, decide_eq_true_eq] at kept
    obtain ⟨⟨mechanism, apart⟩, rfl⟩ := kept
    obtain ⟨entry, -, named⟩ := List.mem_filterMap.mp present
    obtain ⟨text, here⟩ := module?_held sound present
    simp only [readMechanism, here, Option.bind_some, Option.map_eq_some_iff, Prod.mk.injEq] at shown
    obtain ⟨_, parsed, rfl, rfl⟩ := shown
    exact ⟨module.path, text, apart, module?_parts named, mechanism ▸ here, toOption_eq_some.mp parsed⟩
  · rintro ⟨path, text, apart, parts, here, parsed⟩
    obtain ⟨entry, present, rfl⟩ := complete path (by rw [here]; rfl)
    obtain ⟨_, there⟩ := sound entry present
    obtain ⟨mechanism, -⟩ := Prod.mk.inj (Option.some.inj (there.symm.trans here))
    let module : Module := ⟨entry.path, entry.type, name, workspace, entry.modified⟩
    have named : entry.module? = some module := by rw [ModuleEntry.module?, parts]; rfl
    refine ⟨module, List.mem_filter.mpr ⟨List.mem_filterMap.mpr ⟨entry, present, named⟩, ?_⟩, ?_⟩
    · simp [module, mechanism, apart]
    · simp only [readMechanism, module, here, Option.bind_some, toOption_eq_some.mpr parsed, Option.map_some]

/-- The declarations of a mechanism that the module sees. -/
theorem get?_scopeOf (intact : Intact store)
    (fetched : fetchMechanisms store workspace own = .ok mechanisms) {known : Declarations} :
    (scopeOf robot mechanisms).mechanisms.get? name = some known ↔
      ∃ content, Supplies store workspace own name content ∧ content.declarations = known := by
  have entries : ∀ {known}, (name, known) ∈ (scopeOf robot mechanisms).mechanisms ↔
      ∃ content, Supplies store workspace own name content ∧ content.declarations = known := by
    intro known
    simp only [scopeOf, List.mem_map, Prod.mk.injEq, Prod.exists, ← mem_fetchMechanisms intact fetched]
    constructor
    · rintro ⟨_, content, member, rfl, rfl⟩
      exact ⟨content, member, rfl⟩
    · rintro ⟨content, member, rfl⟩
      exact ⟨name, content, member, rfl, rfl⟩
  refine ⟨fun shown => entries.mp (Labelled.mem_of_get? shown), fun supplied => ?_⟩
  have labelled : name ∈ (scopeOf robot mechanisms).mechanisms.labels :=
    List.mem_map_of_mem (entries.mpr supplied)
  obtain ⟨first, shown⟩ := Option.isSome_iff_exists.mp (Labelled.get?_isSome_iff.mpr labelled)
  obtain ⟨content, supplies, rfl⟩ := supplied
  obtain ⟨other, again, rfl⟩ := entries.mp (Labelled.mem_of_get? shown)
  rw [shown, supplies.unique again]

/-- Every readable text of the one store stands for a readable text of the other that declares the same. -/
structure Recedes (store' store : σ) : Prop where
  readable : ∀ {path type text content}, held store' path = some (type, text) →
    ModuleContent.parse text = .ok content → ∃ text' content', held store path = some (type, text') ∧
      ModuleContent.parse text' = .ok content' ∧ content'.declarations = content.declarations

/-- A store with some texts of the one and some of the other stands between them. -/
theorem Recedes.between {there : σ} (recedes : Recedes store' store)
    (between : ∀ path, held there path = held store' path ∨ held there path = held store path) :
    Recedes store' there := by
  refine ⟨fun {path type text content} here parsed => ?_⟩
  rcases between path with same | same
  · exact ⟨text, content, same.trans here, parsed, rfl⟩
  · rw [same]
    exact recedes.readable here parsed

theorem Recedes.narrower (recedes : Recedes store' store) (intact : Intact store) (intact' : Intact store')
    (fetched : fetchMechanisms store workspace own = .ok mechanisms)
    (fetched' : fetchMechanisms store' workspace own = .ok mechanisms')
    (beside : ∀ known, robot'.map (·.declarations) = some known → robot.map (·.declarations) = some known) :
    (scopeOf robot' mechanisms').Narrower (scopeOf robot mechanisms) := by
  refine ⟨beside, fun {name known} shown => ?_⟩
  obtain ⟨content, ⟨path, text, apart, parts, here, parsed⟩, rfl⟩ := (get?_scopeOf intact' fetched').mp shown
  obtain ⟨text', content', there, parsed', same⟩ := recedes.readable here parsed
  exact (get?_scopeOf intact fetched).mpr ⟨content', ⟨path, text', apart, parts, there, parsed'⟩, same⟩

/-- The declarations that a module of an authored store sees are unambiguous. -/
theorem scopeOf_clear (authored : Authored store)
    (fetched : fetchMechanisms store workspace own = .ok mechanisms)
    (beside : ∀ content, robot = some content → content.declarations.Unambiguous) :
    (scopeOf robot mechanisms).Clear := by
  constructor
  · intro known shown
    obtain ⟨content, held, rfl⟩ := Option.map_eq_some_iff.mp shown
    exact beside content held
  · intro name known member
    obtain ⟨⟨label, content⟩, listed, same⟩ := List.mem_map.mp member
    obtain ⟨rfl, rfl⟩ := Prod.mk.inj same
    obtain ⟨path, text, -, -, here, parsed⟩ := (mem_fetchMechanisms authored.intact fetched).mp listed
    exact (authored.composed here).unambiguous parsed

end Editor
end RobotBlocks
