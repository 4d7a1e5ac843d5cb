import RobotBlocks.Proofs.Module.Content
import RobotBlocks.Proofs.Session.Whole
import RobotBlocks.Proofs.Store.Lawful

/-! Stores that only the editor writes. Every text in them is the text of a content, which is read
back unless its document nests too deep. -/
namespace RobotBlocks

open Json Decoder LawfulStore

/-- A text that storing a module of the type makes. -/
def Written (type : ModuleType) (text : String) : Prop :=
  ∃ content : ModuleContent, content.text = text ∧ content.type = type ∧
    type ≠ .unknown ∧ content.blocks.Distinct

theorem Written.parsed {type : ModuleType} {text : String} {content : ModuleContent}
    (written : Written type text) (parsed : ModuleContent.parse text = .ok content) :
    content.text = text ∧ content.type = type ∧ content.blocks.Distinct := by
  obtain ⟨stored, rfl, rfl, known, distinct⟩ := written
  rw [ModuleContent.parse_text distinct known] at parsed
  split at parsed
  · cases parsed
    exact ⟨rfl, rfl, distinct⟩
  · cases parsed

theorem Session.Whole.written {s : Session} {type : ModuleType} {name text : String}
    {options : Code.Options} (whole : s.Whole) (known : type ≠ .unknown)
    (made : s.contentText type name options = .ok text) : Written type text := by
  obtain ⟨content, own, rfl⟩ := map_eq_ok.mp made
  exact ⟨content, rfl, (content_eq_ok own).1, known, whole.content_distinct own⟩

variable {σ : Type} [ModuleStore σ] [LawfulStore σ] {store store' : σ} {path text : String}
  {type : ModuleType} {module : Module}

/-- A store that answers and holds what storing modules made. -/
structure Stocked (store : σ) : Prop where
  intact : Intact store
  written : ∀ {path : String} {type : ModuleType} {text : String},
    held store path = some (type, text) → Written type text

/-- The store holds the module under its path. -/
def Holds (store : σ) (module : Module) : Prop :=
  ∃ text, held store module.path = some (module.type, text)

/-- Modules keep their types, and new ones may come. -/
def Keeps (store store' : σ) : Prop :=
  ∀ {path : String} {type : ModuleType} {text : String}, held store path = some (type, text) →
    ∃ text', held store' path = some (type, text')

theorem Stocked.overwrite (stocked : Stocked store) (intact : Intact store')
    (written : Written type text) (others : ∀ other, held store' other
      = if other = path then some (type, text) else held store other) : Stocked store' := by
  refine ⟨intact, fun {other _ _} holds => ?_⟩
  rw [others] at holds
  split at holds
  · cases holds
    exact written
  · exact stocked.written holds

theorem Stocked.save (stocked : Stocked store) (holds : Holds store module)
    (written : Written module.type text) (saved : ModuleStore.save store module.path text = .ok store') :
    Stocked store' ∧ Keeps store store' ∧ ∀ other, held store' other
      = if other = module.path then some (module.type, text) else held store other := by
  obtain ⟨intact, type, old, here, others⟩ := LawfulStore.save_ok stocked.intact saved
  obtain ⟨_, same⟩ := holds
  obtain rfl : type = module.type := (Prod.mk.inj (Option.some.inj (here.symm.trans same))).1
  refine ⟨stocked.overwrite intact written others, fun {other _ _} holds => ?_, others⟩
  rw [others]
  split
  · next met =>
    subst met
    cases here.symm.trans holds
    exact ⟨_, rfl⟩
  · exact ⟨_, holds⟩

end RobotBlocks
