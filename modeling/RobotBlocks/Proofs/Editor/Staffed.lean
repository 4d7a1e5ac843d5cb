import RobotBlocks.Proofs.Editor.Changes
import RobotBlocks.Proofs.Store.Projects
import RobotBlocks.Proofs.Store.Relocation

/-! Workspaces and their robots. Creating, moving and deleting each have a check of their own that keeps modules
off the path of a robot and robots on it, and the plan of a move aims a robot at the path of the new one. Together
they keep one robot in every workspace that has modules, so that each module is one of a project. -/
namespace RobotBlocks

open LawfulStore

namespace ModulePath

variable {text : String} {path : ModulePath} {newName : String} {type : ModuleType}

theorem ofText?_robot (parts : ofText? text = some path) :
    ofText? (robot path.workspace).text = some (robot path.workspace) :=
  ofText?_text (valid_ofText? parts).1 (valid_ofText? parts).1

theorem eq_robot (place : path.module = path.workspace) : path = robot path.workspace := by
  cases path
  cases place
  rfl

theorem under_valid (type : ModuleType) (parts : ofText? text = some path) (named : isValidName newName = true) :
    ofText? (path.under type newName).text = some (path.under type newName) := by
  unfold under
  split
  · exact ofText?_text named named
  · exact ofText?_text named (valid_ofText? parts).2

theorem under_workspace : (path.under type newName).workspace = newName := by
  unfold under
  split <;> rfl

end ModulePath

/-- A type that a module under a path may have: the path of a robot is there for robots alone. -/
structure Suits (path : ModulePath) (type : ModuleType) : Prop where
  known : type ≠ .unknown
  robot : type = .robot ↔ path.module = path.workspace

section Lawful

variable {σ : Type} [ModuleStore σ] [LawfulStore σ] {store store' : σ} {text : String} {path : ModulePath}

/-- A store in which every module has a type that its path suits, and a robot in its workspace. -/
structure Staffed (store : σ) : Prop where
  intact : Intact store
  suits : ∀ {text : String} {own : ModuleType × String}, held store text = some own →
    ∃ path, ModulePath.ofText? text = some path ∧ Suits path own.1
  led : ∀ {text : String} {path : ModulePath}, (held store text).isSome = true →
    ModulePath.ofText? text = some path → (held store (ModulePath.robot path.workspace).text).isSome = true

namespace Staffed

theorem of_each (intact : Intact store) (each : ∀ text own, held store text = some own → ∃ path,
    ModulePath.ofText? text = some path ∧ Suits path own.1 ∧
      (held store (ModulePath.robot path.workspace).text).isSome = true) : Staffed store where
  intact := intact
  suits here := let ⟨path, parts, suits, _⟩ := each _ _ here; ⟨path, parts, suits⟩
  led present parts := by
    obtain ⟨own, here⟩ := Option.isSome_iff_exists.mp present
    obtain ⟨path, parts', -, led⟩ := each _ _ here
    cases parts.symm.trans parts'
    exact led

theorem empty (intact : Intact store) (empty : ∀ text, held store text = none) : Staffed store :=
  .of_each intact fun text _ here => nomatch (empty text).symm.trans here

/-- The robot of a workspace that has modules. -/
theorem robot (staffed : Staffed store) (present : (held store text).isSome = true)
    (parts : ModulePath.ofText? text = some path) :
    ∃ body, held store (ModulePath.robot path.workspace).text = some (.robot, body) := by
  obtain ⟨⟨type, body⟩, there⟩ := Option.isSome_iff_exists.mp (staffed.led present parts)
  obtain ⟨path', parts', suits⟩ := staffed.suits there
  cases (ModulePath.ofText?_robot parts).symm.trans parts'
  obtain rfl : type = .robot := suits.robot.mpr rfl
  exact ⟨body, there⟩

/-- Other texts under the same paths. -/
theorem retyped (staffed : Staffed store) (intact : Intact store')
    (types : ∀ text, (held store' text).map Prod.fst = (held store text).map Prod.fst) : Staffed store' := by
  have present : ∀ text, (held store' text).isSome = (held store text).isSome := by
    intro text
    rw [← Option.isSome_map (f := Prod.fst), types, Option.isSome_map]
  refine .of_each intact fun text own here => ?_
  have typed := types text
  rw [here, Option.map_some, eq_comm, Option.map_eq_some_iff] at typed
  obtain ⟨own', before, same⟩ := typed
  obtain ⟨path, parts, suits⟩ := staffed.suits before
  refine ⟨path, parts, same ▸ suits, ?_⟩
  rw [present]
  exact staffed.led (by rw [before]; rfl) parts

/-- A new module, which is a robot or has one. -/
theorem add {own : ModuleType × String} (staffed : Staffed store) (intact : Intact store')
    (parts : ModulePath.ofText? text = some path) (suits : Suits path own.1)
    (led : own.1 = .robot ∨ (held store (ModulePath.robot path.workspace).text).isSome = true)
    (others : ∀ other, held store' other = if other = text then some own else held store other) :
    Staffed store' := by
  have stays : ∀ other, (held store other).isSome = true → (held store' other).isSome = true := by
    intro other present
    rw [others]
    split
    · rfl
    · exact present
  refine .of_each intact fun other own' here => ?_
  rw [others] at here
  split at here
  · next same =>
    cases here
    subst same
    refine ⟨path, parts, suits, led.elim (fun robot => ?_) (stays _)⟩
    rw [← ModulePath.eq_robot (suits.robot.mp robot), ModulePath.text_ofText? parts, others, if_pos rfl]
    rfl
  · obtain ⟨path', parts', suits'⟩ := staffed.suits here
    exact ⟨path', parts', suits', stays _ (staffed.led (by rw [here]; rfl) parts')⟩

/-- Modules go, but no robot before its modules. -/
theorem drop {gone : String → Prop} [DecidablePred gone] (staffed : Staffed store) (intact : Intact store')
    (last : ∀ text path, ModulePath.ofText? text = some path → gone (ModulePath.robot path.workspace).text →
      gone text)
    (others : ∀ other, held store' other = if gone other then none else held store other) : Staffed store' := by
  refine .of_each intact fun other own here => ?_
  rw [others] at here
  split at here
  · cases here
  · next kept =>
    obtain ⟨path, parts, suits⟩ := staffed.suits here
    refine ⟨path, parts, suits, ?_⟩
    rw [others, if_neg fun away => kept (last other path parts away)]
    exact staffed.led (by rw [here]; rfl) parts

/-- A module that is no robot gets another name in its workspace. -/
theorem carry {source newName : String} {copy : Bool} {own : ModuleType × String} (staffed : Staffed store)
    (intact : Intact store') (parts : ModulePath.ofText? source = some path) (crew : path.module ≠ path.workspace)
    (named : isValidName newName = true) (free : held store (ModulePath.text ⟨path.workspace, newName⟩) = none)
    (here : held store source = some own) (others : ∀ other, held store' other =
      if copy = false ∧ other = source then none
      else if other = ModulePath.text ⟨path.workspace, newName⟩ then some own else held store other) :
    Staffed store' := by
  obtain ⟨path', parts', suits⟩ := staffed.suits here
  cases parts.symm.trans parts'
  have leads := staffed.led (by rw [here]; rfl) parts
  have apart : newName ≠ path.workspace := by
    rintro rfl
    rw [ModulePath.robot, free] at leads
    cases leads
  -- the module that moves is no robot
  have stays : ∀ {text path'}, ModulePath.ofText? text = some path' →
      (held store (ModulePath.robot path'.workspace).text).isSome = true →
      (held store' (ModulePath.robot path'.workspace).text).isSome = true := by
    intro text path' named there
    have other : (ModulePath.robot path'.workspace).text ≠ source := by
      rintro rfl
      cases (ModulePath.ofText?_robot named).symm.trans parts
      exact crew rfl
    rw [others, if_neg fun both => other both.2]
    split
    · rfl
    · exact there
  have remains := stays parts leads
  refine .of_each intact fun text own' there => ?_
  rw [others] at there
  split at there
  · cases there
  · split at there
    · next same =>
      cases there
      subst same
      exact ⟨⟨path.workspace, newName⟩, ModulePath.ofText?_text (ModulePath.valid_ofText? parts).1 named,
        ⟨suits.known, iff_of_false (fun robot => crew (suits.robot.mp robot)) apart⟩, remains⟩
    · obtain ⟨path', parts', suits'⟩ := staffed.suits there
      exact ⟨path', parts', suits', stays parts' (staffed.led (by rw [there]; rfl) parts')⟩

end Staffed
end Lawful

/-! A workspace that is moved. -/

section Relocated

variable {σ : Type} [ModuleStore σ] [LawfulStore σ] {store store' : σ} {oldName newName source target : String}
  {copy : Bool}

namespace Staffed

variable (staffed : Staffed store)
include staffed

/-- With a module of the workspace its robot lands on the path of the new one. -/
theorem lands_robot (lands : Lands Prod.fst (held store) oldName newName source target) :
    Lands Prod.fst (held store) oldName newName (ModulePath.robot oldName).text
      (ModulePath.robot newName).text := by
  obtain ⟨own, path, here, parts, rfl, -⟩ := lands
  obtain ⟨body, robot⟩ := staffed.robot (by rw [here]; rfl) parts
  exact ⟨_, _, robot, ModulePath.ofText?_robot parts, rfl, rfl⟩

/-- The new workspace was empty. -/
theorem vacant (relocated : Relocated Prod.fst id copy oldName newName (held store) (held store'))
    (lands : Lands Prod.fst (held store) oldName newName source target) {text : String} {path : ModulePath}
    (parts : ModulePath.ofText? text = some path) (inside : path.workspace = newName) : held store text = none := by
  obtain ⟨free, -⟩ := relocated.arrived _ _ (staffed.lands_robot lands)
  by_contra stored
  have led := staffed.led (Option.isSome_iff_ne_none.mpr stored) parts
  rw [inside, free] at led
  cases led

/-- What lands beside the robot does not land on its path. -/
theorem suits_under (relocated : Relocated Prod.fst id copy oldName newName (held store) (held store'))
    {own : ModuleType × String} {path : ModulePath} (here : held store source = some own)
    (parts : ModulePath.ofText? source = some path) (inside : path.workspace = oldName) :
    Suits (path.under own.1 newName) own.1 := by
  obtain ⟨path', parts', suits⟩ := staffed.suits here
  cases parts.symm.trans parts'
  have lands : Lands Prod.fst (held store) oldName newName source (path.under own.1 newName).text :=
    ⟨own, path, here, parts, inside, rfl⟩
  refine ⟨suits.known, fun robot => ?_, fun same => ?_⟩
  · rw [ModulePath.under, if_pos robot]
    rfl
  · by_contra crew
    have aimed : (path.under own.1 newName).text = (ModulePath.robot newName).text := by
      rw [ModulePath.under, if_neg crew] at same ⊢
      exact congrArg (fun module => ModulePath.text ⟨newName, module⟩) same
    have met := relocated.apart _ _ _ (aimed ▸ lands) (staffed.lands_robot lands)
    rw [met, ← inside] at parts
    have place : ModulePath.robot path.workspace = path :=
      Option.some.inj ((ModulePath.ofText?_robot parts').symm.trans parts)
    exact crew (suits.robot.mpr (congrArg ModulePath.module place).symm)

omit staffed in
theorem arrives (relocated : Relocated Prod.fst id copy oldName newName (held store) (held store'))
    (lands : Lands Prod.fst (held store) oldName newName source target) : (held store' target).isSome = true := by
  obtain ⟨-, own, -, there⟩ := relocated.arrived _ _ lands
  rw [there]
  rfl

omit staffed in
/-- Under a path where no module of the workspace landed, there is what was there before, unless the workspace
has left it. -/
theorem unmoved (relocated : Relocated Prod.fst id copy oldName newName (held store) (held store')) {text : String}
    {path : ModulePath} (parts : ModulePath.ofText? text = some path)
    (unlanded : ∀ source, ¬ Lands Prod.fst (held store) oldName newName source text)
    (kept : path.workspace = oldName → copy = true) : held store' text = held store text := by
  by_cases leaves : ∃ target, Lands Prod.fst (held store) oldName newName text target
  · obtain ⟨target, lands⟩ := leaves
    rw [relocated.old _ _ lands]
    obtain ⟨own, path', -, parts', inside, -⟩ := lands
    cases parts.symm.trans parts'
    rw [if_pos (kept inside)]
  · exact relocated.others text (fun target lands => leaves ⟨target, lands⟩) unlanded

omit staffed in
/-- A move leaves nothing under the paths of the old workspace but what lands there. -/
theorem copied_of_left (relocated : Relocated Prod.fst id copy oldName newName (held store) (held store'))
    {text : String} {path : ModulePath} (parts : ModulePath.ofText? text = some path)
    (unlanded : ∀ source, ¬ Lands Prod.fst (held store) oldName newName source text)
    (present : (held store' text).isSome = true) (inside : path.workspace = oldName) : copy = true := by
  by_contra moved
  cases before : held store text with
  | none =>
    have still : held store' text = none := by
      rw [relocated.others text ?_ unlanded, before]
      rintro target ⟨own, -, here, -⟩
      cases before.symm.trans here
    rw [still] at present
    cases present
  | some own =>
    rw [relocated.old text _ ⟨own, path, before, parts, inside, rfl⟩, if_neg moved] at present
    cases present

theorem relocated (relocated : Relocated Prod.fst id copy oldName newName (held store) (held store'))
    (intact : Intact store') : Staffed store' := by
  refine .of_each intact fun text own here => ?_
  by_cases landed : ∃ source, Lands Prod.fst (held store) oldName newName source text
  · obtain ⟨source, lands⟩ := landed
    obtain ⟨-, own', before, there⟩ := relocated.arrived _ _ lands
    cases here.symm.trans there
    have leads := staffed.lands_robot lands
    obtain ⟨own', path, before', parts, inside, rfl⟩ := lands
    cases before.symm.trans before'
    refine ⟨_, ModulePath.under_valid _ parts relocated.named, staffed.suits_under relocated before parts inside, ?_⟩
    rw [ModulePath.under_workspace]
    exact arrives relocated leads
  · have unlanded : ∀ source, ¬ Lands Prod.fst (held store) oldName newName source text :=
      fun source lands => landed ⟨source, lands⟩
    -- the module was there before, and so was its robot, which stays where it stays
    have still : held store' text = held store text := by
      cases parts : ModulePath.ofText? text with
      | none =>
        refine relocated.others text ?_ unlanded
        rintro target ⟨own, path, -, parts', -⟩
        cases parts.symm.trans parts'
      | some path =>
        exact unmoved relocated parts unlanded (copied_of_left relocated parts unlanded (by rw [here]; rfl))
    have before := still.symm.trans here
    obtain ⟨path, parts, suits⟩ := staffed.suits before
    refine ⟨path, parts, suits, ?_⟩
    by_cases met : ∃ source, Lands Prod.fst (held store) oldName newName source
        (ModulePath.robot path.workspace).text
    · exact arrives relocated met.choose_spec
    · have kept : path.workspace = oldName → copy = true :=
        copied_of_left relocated parts unlanded (by rw [here]; rfl)
      rw [unmoved relocated (ModulePath.ofText?_robot parts) (fun source lands => met ⟨source, lands⟩) kept]
      exact staffed.led (by rw [before]; rfl) parts

end Staffed
end Relocated

/-! Runs. -/

section Changes

variable {σ : Type} [ModuleStore σ] [RelocatingStore σ] {store store' : σ}

/-- One case for each write; what keeps the workspaces staffed is what was checked before it. -/
theorem Change.staffed (change : Change store store') (staffed : Staffed store) : Staffed store' := by
  cases change with
  | save saved =>
    obtain ⟨intact, type, old, here, others⟩ := LawfulStore.save_ok staffed.intact saved
    refine staffed.retyped intact fun text => ?_
    rw [others]
    split
    · next same => rw [same, here]; rfl
    · rfl
  | createProject named created =>
    obtain ⟨intact, -, others⟩ := LawfulStore.create_ok staffed.intact created
    exact staffed.add intact (ModulePath.ofText?_text named named)
      ⟨(by decide : ModuleType.robot ≠ .unknown), iff_of_true rfl rfl⟩ (.inl rfl) others
  | @createModule type path text _ workspace module crew known led created =>
    obtain ⟨intact, free, others⟩ := LawfulStore.create_ok staffed.intact created
    have leads : (held store (ModulePath.robot path.workspace).text).isSome = true := by
      rw [ModuleStore.contains, ModuleStore.fetchOptional, LawfulStore.fetch_eq staffed.intact] at led
      cases there : held store (ModulePath.robot path.workspace).text with
      | none => rw [there] at led; cases led
      | some own => rfl
    have apart : path.module ≠ path.workspace := by
      intro same
      rw [← ModulePath.eq_robot same, free] at leads
      cases leads
    exact staffed.add intact (ModulePath.ofText?_text workspace module) ⟨known, iff_of_false crew apart⟩
      (.inr leads) others
  | moveModule parts crew named moved =>
    obtain ⟨intact, free, own, here, others⟩ := MovingStore.moveModule_ok staffed.intact moved
    exact staffed.carry intact parts crew named free here others
  | @deleteModule source path _ parts crew deleted =>
    obtain ⟨intact, others⟩ := MovingStore.delete_ok staffed.intact deleted
    refine staffed.drop intact (fun text path' parts' gone => ?_) others
    cases (gone ▸ ModulePath.ofText?_robot parts').symm.trans parts
    exact absurd rfl crew
  | moveWorkspace moved =>
    exact staffed.relocated (RelocatingStore.relocates staffed.intact moved)
      (MovingStore.moveWorkspace_ok staffed.intact moved).1
  | @deleteWorkspace name _ deleted =>
    obtain ⟨intact, others⟩ := MovingStore.deleteWorkspace_ok staffed.intact deleted
    refine staffed.drop intact (fun text path parts gone => ?_) others
    rw [ModulePath.ofText?_robot parts] at gone
    rw [parts]
    exact gone

theorem Changes.staffed (changes : Changes store store') (staffed : Staffed store) : Staffed store' := by
  induction changes with
  | refl => exact staffed
  | tail _ change ih => exact change.staffed ih

end Changes

/-! Listings. -/

section Keyed

variable {σ : Type} [ModuleStore σ] [KeyedStore σ] {store : σ} {entries : List ModuleEntry}

namespace Staffed

variable (staffed : Staffed store) (listed : ModuleStore.entries store = .ok entries)
include staffed listed

/-- Every entry is that of a module. -/
theorem module?_entries : entries.map (·.module?) = (entries.filterMap (·.module?)).map some := by
  obtain ⟨_, again, sound, -⟩ := LawfulStore.entries_eq staffed.intact
  cases listed.symm.trans again
  clear listed again
  induction entries with
  | nil => rfl
  | cons entry rest ih =>
    obtain ⟨text, here⟩ := sound entry (List.mem_cons_self ..)
    obtain ⟨path, parts, -⟩ := staffed.suits here
    have named : entry.module? = some ⟨entry.path, entry.type, path.module, path.workspace, entry.modified⟩ := by
      rw [ModuleEntry.module?, parts]
      rfl
    rw [List.map_cons, List.filterMap_cons_some named, List.map_cons, named,
      ih fun entry member => sound entry (List.mem_cons_of_mem _ member)]

theorem mem_paths (path : String) :
    path ∈ (entries.filterMap (·.module?)).map (·.path) ↔ (held store path).isSome = true := by
  obtain ⟨_, again, sound, complete⟩ := LawfulStore.entries_eq staffed.intact
  cases listed.symm.trans again
  constructor
  · intro member
    obtain ⟨module, known, rfl⟩ := List.mem_map.mp member
    obtain ⟨text, here⟩ := Editor.module?_held sound known
    rw [here]
    rfl
  · intro present
    obtain ⟨entry, known, rfl⟩ := complete path present
    obtain ⟨text, here⟩ := sound entry known
    obtain ⟨path, parts, -⟩ := staffed.suits here
    refine List.mem_map.mpr ⟨_, List.mem_filterMap.mpr ⟨entry, known, by rw [ModuleEntry.module?, parts]; rfl⟩, rfl⟩

theorem placed {module : Module} (known : module ∈ entries.filterMap (·.module?)) :
    ModulePath.ofText? module.path = some ⟨module.workspace, module.name⟩ ∧
      Suits ⟨module.workspace, module.name⟩ module.type := by
  obtain ⟨_, again, sound, -⟩ := LawfulStore.entries_eq staffed.intact
  cases listed.symm.trans again
  obtain ⟨entry, -, named⟩ := List.mem_filterMap.mp known
  obtain ⟨text, here⟩ := Editor.module?_held sound known
  obtain ⟨path, parts, suits⟩ := staffed.suits here
  cases (Editor.module?_parts named).symm.trans parts
  exact ⟨parts, suits⟩

theorem organized : Organized (entries.filterMap (·.module?)) := by
  have paths : ((entries.filterMap (·.module?)).map (·.path)).Nodup :=
    (KeyedStore.entries_distinct staffed.intact listed).sublist (ModuleEntry.paths_sublist entries)
  refine ⟨paths, fun module known => ?_, fun module known => ?_⟩
  · have present := (staffed.mem_paths listed _).mp (List.mem_map_of_mem known)
    obtain ⟨robot, known', place⟩ := List.mem_map.mp
      ((staffed.mem_paths listed _).mpr (staffed.led present (staffed.placed listed known).1))
    obtain ⟨parts, suits⟩ := staffed.placed listed known'
    rw [place, ModulePath.ofText?_robot (staffed.placed listed known).1] at parts
    obtain ⟨inside, named⟩ := ModulePath.mk.inj (Option.some.inj parts)
    have typed : robot.type = .robot := suits.robot.mpr (named.symm.trans inside)
    refine ⟨robot, place, List.perm_singleton.mp ((List.perm_ext_iff_of_nodup (paths.of_map.filter _)
      (List.nodup_singleton _)).mpr fun other => ?_)⟩
    rw [List.mem_filter, List.mem_singleton, decide_eq_true_eq]
    constructor
    · rintro ⟨listed', beside, typed'⟩
      obtain ⟨parts', suits'⟩ := staffed.placed listed listed'
      -- a robot's path is told by its workspace
      have same : other.path = robot.path := by
        rw [place, ← beside, ← ModulePath.text_ofText? parts', ModulePath.eq_robot (suits'.robot.mp typed')]
      exact List.inj_on_of_nodup_map paths listed' known' same
    · rintro rfl
      exact ⟨known', inside.symm, typed⟩
  · have known := (staffed.placed listed known).2.known
    cases type : module.type with
    | robot => exact .inl rfl
    | mechanism => exact .inr (.inl rfl)
    | opMode => exact .inr (.inr rfl)
    | unknown => exact absurd type known

end Staffed
end Keyed

/-- Whatever editors and commands do to a store that is empty at first: every workspace that has a module has one
robot, at the path of the robot, and mechanisms and opmodes beside it, and each module is listed in one project,
once. -/
theorem Editor.turns_organized {σ : Type} [ModuleStore σ] [RelocatingStore σ] {start : σ} (intact : Intact start)
    (empty : ∀ path, held start path = none) (options : Code.Options) (turns : List Turn) :
    let store := (turns.foldl Editor.turn { store := start, options }).store
    ∃ entries modules projects, ModuleStore.entries store = .ok entries ∧
      entries.map (·.module?) = modules.map some ∧
      (∀ path, path ∈ modules.map (·.path) ↔ (held store path).isSome = true) ∧ Organized modules ∧
      ModuleStore.projects store = .ok projects ∧ (projects.flatMap Project.modules).Perm modules := by
  intro store
  have staffed : Staffed store :=
    (Editor.foldl_turn_changes { store := start, options } turns).staffed (.empty intact empty)
  obtain ⟨entries, listed, -, -⟩ := LawfulStore.entries_eq staffed.intact
  have organized := staffed.organized listed
  refine ⟨entries, _, Project.group entries, listed, staffed.module?_entries listed, staffed.mem_paths listed,
    organized, ?_, Project.group_perm organized⟩
  rw [ModuleStore.projects, listed]
  rfl

/-- A project and its copy, after the opmode of the first is deleted. -/
theorem Editor.turns_organized_copied :
    let turns : List Turn := [.edit (.step (.createProject "A")), .command {} (.newModule "A" "M" "opmode"),
      .edit (.moveWorkspace "A" "B" true), .command {} (.deleteModule "A/M.blk")]
    let store := (turns.foldl Editor.turn ({ store := {} } : Editor Shelf)).store
    (∃ entries modules projects, ModuleStore.entries store = .ok entries ∧
      entries.map (·.module?) = modules.map some ∧
      (∀ path, path ∈ modules.map (·.path) ↔ (held store path).isSome = true) ∧ Organized modules ∧
      ModuleStore.projects store = .ok projects ∧ (projects.flatMap Project.modules).Perm modules) ∧
    (ModuleStore.entries store).toOption.map (·.map fun entry => (entry.path, entry.type))
      = some [("A/A.blk", .robot), ("B/B.blk", .robot), ("B/M.blk", .opMode)] := by
  intro turns store
  have intact : Intact ({} : Shelf) := ⟨rfl, .nil⟩
  exact ⟨turns_organized intact (fun _ => rfl) {} turns, by decide +kernel⟩

end RobotBlocks
