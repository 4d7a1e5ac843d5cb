import RobotBlocks.Proofs.Code.Linkage
import RobotBlocks.Proofs.Text.Names

/-! The names of the methods of a class. Handlers get names that no other handler has and that no method
without a block has; a definition is named after its display name alone. So two methods of a class have one
name exactly if a definition shares its identifier with another method. -/
namespace RobotBlocks

namespace Code

open RobotBlocks.Graph

variable {g : Graph} {scope : Scope} {id : BlockId} {call : CallState} {type : ModuleType} {name base : String}
  {used : List String} {blocks : List Block} {outline : Outline} {handler : Handler}

namespace Handler

theorem uniqueName_not_mem : uniqueName base used ∉ used := Text.numbered_not_mem (base ++ "_") base used

/-- The methods of handlers are marked as such. -/
def marked (name : String) : Prop := "_handle_".toList <+: name.toList

theorem marked_append (rest : String) : marked ("_handle_" ++ rest) := by
  rw [marked, String.toList_append]
  exact List.prefix_append ..

theorem marked_baseName? (named : baseName? call = some base) : marked base := by
  unfold baseName? at named
  cases target : call.target with
  | moduleFunction module => simp [target] at named
  | selfModule | fireEvent =>
    simp only [target, Option.some.injEq] at named
    exact named ▸ marked_append _
  | robot | component | mechanism =>
    simp only [target, Option.some.injEq, String.append_assoc] at named
    exact named ▸ marked_append _

theorem uniqueName_cases (base : String) (used : List String) :
    uniqueName base used = base ∨ ∃ n : Nat, uniqueName base used = base ++ "_" ++ toString n := by
  unfold uniqueName
  split
  · exact .inr Text.firstUnused_eq_candidate
  · exact .inl rfl

theorem marked_uniqueName (named : marked base) : marked (uniqueName base used) := by
  rcases uniqueName_cases base used with is | ⟨n, is⟩
  · rwa [is]
  · rw [is, marked, String.toList_append, String.toList_append, List.append_assoc]
    exact named.trans (List.prefix_append ..)

/-- The name of a handler is a base name, made unique among those in use. -/
theorem collect_named (member : handler ∈ (collect blocks used).1) :
    ∃ call base used, baseName? call = some base ∧ handler.methodName = uniqueName base used := by
  induction blocks generalizing used with
  | nil => cases member
  | cons first rest ih =>
    unfold collect at member
    split at member
    · next call _ _ =>
      split at member
      · exact ih member
      · next base named =>
        rcases List.mem_cons.mp member with rfl | member
        · exact ⟨call, base, used, named, rfl⟩
        · exact ih member
    · exact ih member

theorem collect_marked (member : handler ∈ (collect blocks used).1) : marked handler.methodName := by
  obtain ⟨call, base, used, named, is⟩ := collect_named member
  exact is ▸ marked_uniqueName (marked_baseName? named)

/-- By induction on the blocks: the names come from those that are not used up. -/
theorem collect_names : ((collect blocks used).1.map (·.methodName)).Nodup ∧
    ∀ handler ∈ (collect blocks used).1, handler.methodName ∉ used := by
  induction blocks generalizing used with
  | nil => exact ⟨List.nodup_nil, nofun⟩
  | cons first rest ih =>
    unfold collect
    split
    · split
      · exact ih
      · next base _ =>
        obtain ⟨distinct, apart⟩ := @ih (uniqueName base used :: used)
        refine ⟨List.nodup_cons.mpr ⟨fun member => ?_, distinct⟩, fun handler member => ?_⟩
        · obtain ⟨handler, member, same⟩ := List.mem_map.mp member
          exact apart handler member (same ▸ List.mem_cons_self ..)
        · rcases List.mem_cons.mp member with rfl | member
          · exact uniqueName_not_mem
          · exact fun old => apart handler member (List.mem_cons_of_mem _ old)
    · exact ih

end Handler

/-- The name under which a definition appears in its class. -/
def definedName (g : Graph) (id : BlockId) : String := Text.identifier ((g.block? id).elim "" Block.name)

theorem furniture_names (outline : Outline) : (furniture outline).map (·.name) =
    "__init__" :: (if outline.type.exports then ["define_hardware"] else [])
      ++ if outline.handlers.isEmpty then [] else ["register_event_handlers"] := by
  have constructor : (initMethod outline).name = "__init__" := by
    unfold initMethod
    dsimp only
    split <;> rfl
  unfold furniture hardware
  split <;> split <;> simp [constructor, hardwareMethod, registerMethod]

theorem written_names (g : Graph) (scope : Scope) (outline : Outline) :
    (written g scope outline).1.methods.map (·.name) = (furniture outline).map (·.name)
      ++ (outline.methods.map (definedName g) ++ outline.handlers.map (·.methodName)) := by
  simp only [written, bodies, List.map_append, List.map_map]
  rfl

theorem furniture_names_nodup (outline : Outline) : ((furniture outline).map (·.name)).Nodup := by
  rw [furniture_names]
  split <;> split <;> decide

theorem Outline.handlers_marked (collected : Outline.collect? type name g = some outline)
    (member : handler ∈ outline.handlers) : Handler.marked handler.methodName := by
  obtain ⟨className, -, rfl⟩ := Option.map_eq_some_iff.mp collected
  exact Handler.collect_marked member

theorem Outline.handlers_nodup (collected : Outline.collect? type name g = some outline) :
    (outline.handlers.map (·.methodName)).Nodup := by
  obtain ⟨className, -, rfl⟩ := Option.map_eq_some_iff.mp collected
  exact Handler.collect_names.1

theorem not_marked_of_furniture (member : name ∈ (furniture outline).map (·.name)) : ¬ Handler.marked name := by
  have names : name = "__init__" ∨ name = "define_hardware" ∨ name = "register_event_handlers" := by
    rw [furniture_names] at member
    split at member <;> split at member <;> simp at member <;> tauto
  unfold Handler.marked
  rcases names with rfl | rfl | rfl <;> decide

/-- Only definitions take names away from other methods. -/
structure NamesApart (g : Graph) (outline : Outline) : Prop where
  definitions : ∀ a ∈ outline.methods, ∀ b ∈ outline.methods, definedName g a = definedName g b → a = b
  init : ∀ id ∈ outline.methods, definedName g id ≠ "__init__"
  hardware : outline.type.exports = true → ∀ id ∈ outline.methods, definedName g id ≠ "define_hardware"
  register : outline.handlers ≠ [] → ∀ id ∈ outline.methods, definedName g id ≠ "register_event_handlers"
  handlers : ∀ id ∈ outline.methods, ∀ handler ∈ outline.handlers, definedName g id ≠ handler.methodName

theorem written_names_nodup_iff (sound : g.Sound) (collected : Outline.collect? type name g = some outline) :
    ((written g scope outline).1.methods.map (·.name)).Nodup ↔ NamesApart g outline := by
  have once := Outline.methods_nodup sound collected
  rw [written_names, List.nodup_append, List.nodup_append]
  constructor
  · rintro ⟨-, ⟨definitions, -, handled⟩, furnished⟩
    have other : ∀ {name}, name ∈ (furniture outline).map (·.name) → ∀ id ∈ outline.methods,
        definedName g id ≠ name := fun member id listed same =>
      furnished _ member _ (List.mem_append_left _ (List.mem_map_of_mem listed)) same.symm
    refine ⟨fun a left b right same => List.inj_on_of_nodup_map definitions left right same, other ?_,
      fun exports => other ?_, fun some => other ?_, fun id listed handler member => ?_⟩
    · rw [furniture_names]
      exact List.mem_append_left _ (List.mem_cons_self ..)
    · rw [furniture_names, if_pos exports]
      exact List.mem_append_left _ (List.mem_cons_of_mem _ (List.mem_singleton_self _))
    · have some : ¬ outline.handlers.isEmpty = true := by simpa using some
      rw [furniture_names, if_neg some]
      exact List.mem_append_right _ (List.mem_singleton_self _)
    · exact handled _ (List.mem_map_of_mem listed) _ (List.mem_map_of_mem member)
  · intro apart
    refine ⟨furniture_names_nodup outline, ⟨once.map_on fun a left b right => apart.definitions a left b right,
      Outline.handlers_nodup collected, ?_⟩, ?_⟩
    · rintro _ defined _ handled
      obtain ⟨id, listed, rfl⟩ := List.mem_map.mp defined
      obtain ⟨handler, member, rfl⟩ := List.mem_map.mp handled
      exact apart.handlers id listed handler member
    · rintro name furnished _ other rfl
      rcases List.mem_append.mp other with defined | handled
      · obtain ⟨id, listed, rfl⟩ := List.mem_map.mp defined
        rw [furniture_names, List.mem_append, List.mem_cons] at furnished
        rcases furnished with (init | hardware) | register
        · exact apart.init id listed init
        · split at hardware
          · next exports => exact apart.hardware exports id listed (List.mem_singleton.mp hardware)
          · cases hardware
        · split at register
          · cases register
          · next some => exact apart.register (by simpa using some) id listed (List.mem_singleton.mp register)
      · obtain ⟨handler, member, rfl⟩ := List.mem_map.mp handled
        exact not_marked_of_furniture furnished (Outline.handlers_marked collected member)

end Code
end RobotBlocks
