import RobotBlocks.Proofs.Editor.Run
import RobotBlocks.Proofs.Session.Document
import RobotBlocks.Proofs.Store.Database
import RobotBlocks.Proofs.Store.Shelf

/-! The other modules of a workspace after a robot or a mechanism was saved. They follow one after the
other, and an unreadable text is passed over; but a readable one whose blocks cannot be rebuilt ends the
round, and the modules behind it stay as they were. -/
namespace RobotBlocks

open LawfulStore

namespace Editor

variable {σ : Type} [ModuleStore σ] [LawfulStore σ] {store : σ} {module : Module} {text : String}
  {robot : Option ModuleContent} {options : Code.Options}

/-- The text of the module is readable, but its blocks cannot be rebuilt, or no code is made for a module
of its type. -/
def Broken (store : σ) (module : Module) : Prop :=
  ∃ text content, held store module.path = some (module.type, text) ∧
    ModuleContent.parse text = .ok content ∧
    ((∀ g, Graph.ofForest content.blocks ≠ .ok g) ∨ module.type = .unknown)

/-- A module that is not broken gets a text or keeps its own, if the options are valid. -/
theorem refreshed_ok (intact : Intact store) (valid : options.isValid = true)
    (here : held store module.path = some (module.type, text)) (follows : ¬ Broken store module)
    (robot : Option ModuleContent) :
    ∃ outcome, refreshed options store module text robot = .ok outcome := by
  unfold refreshed
  cases parsed : ModuleContent.parse text with
  | error error => exact ⟨_, rfl⟩
  | ok content =>
    obtain ⟨g, rebuilt⟩ : ∃ g, Graph.ofForest content.blocks = .ok g := by
      by_contra none
      exact follows ⟨text, content, here, parsed, .inl (not_exists.mp none)⟩
    have known : module.type ≠ .unknown := fun unknown => follows ⟨text, content, here, parsed, .inr unknown⟩
    let beside := if module.type = .robot then none else robot
    obtain ⟨scope, same⟩ := openSession_eq intact module content beside
    obtain ⟨session, loaded⟩ := Session.load_ok_iff.mpr ⟨g, rebuilt⟩
    obtain ⟨newText, made⟩ : ∃ text, session.contentText module.type module.name options = .ok text :=
      (Session.contentText_ok_iff (Session.load_sound loaded)).mpr ⟨valid, known⟩
    refine ⟨some newText, ?_⟩
    simp only [bind_eq_ok]
    refine ⟨session, ?_, map_eq_ok.mpr ⟨newText, made, rfl⟩⟩
    rw [same, loaded]
    rfl

theorem refreshed_error (intact : Intact store) (broken : Broken store module)
    (here : held store module.path = some (module.type, text)) (robot : Option ModuleContent) :
    ∃ error, refreshed options store module text robot = .error error := by
  obtain ⟨_, content, same, parsed, refuses⟩ := broken
  obtain ⟨-, rfl⟩ := Prod.mk.inj (Option.some.inj (here.symm.trans same))
  cases made : refreshed options store module text robot with
  | error error => exact ⟨error, rfl⟩
  | ok outcome =>
    simp only [refreshed, parsed, bind_eq_ok] at made
    obtain ⟨session, opened, made⟩ := made
    obtain ⟨newText, made, -⟩ := map_eq_ok.mp made
    obtain ⟨scope, same⟩ := openSession_eq intact module content (if module.type = .robot then none else robot)
    rw [same, mapError_eq_ok] at opened
    rcases refuses with lost | unknown
    · obtain ⟨g, rebuilt⟩ := Session.load_ok_iff.mp ⟨session, opened⟩
      exact absurd rebuilt (lost g)
    · have typed := (Session.contentText_ok_iff (Session.load_sound opened)).mp ⟨newText, made⟩
      exact absurd unknown typed.2

/-- A broken module changes nothing. -/
theorem syncModule_broken (intact : Intact store) (broken : Broken store module) (options : Code.Options)
    (robot : Option ModuleContent) : ∃ error, syncModule options store module robot = .error error := by
  obtain ⟨text, -, here, -⟩ := id broken
  obtain ⟨error, refused⟩ : ∃ error, refreshed options store module text robot = .error error :=
    refreshed_error intact broken here robot
  refine ⟨error, ?_⟩
  rw [syncModule, LawfulStore.fetch_eq intact, here]
  simp only [fromStore_ok, refused, bind, Except.bind]

end Editor

namespace Editor

variable {σ : Type} [ModuleStore σ] [KeyedStore σ] {store store' : σ} {module : Module} {text : String}
  {robot : Option ModuleContent} {options : Code.Options} {modules : List Module}

/-- A module that gets a text is written if the text is another one. -/
theorem syncModule_follows {outcome : Option String} (intact : Intact store)
    (here : held store module.path = some (module.type, text))
    (made : refreshed options store module text robot = .ok outcome) :
    ∃ store', syncModule options store module robot = .ok (decide (outcome.getD text ≠ text), store') ∧
      Intact store' ∧ ∀ path, held store' path
        = if path = module.path then some (module.type, outcome.getD text) else held store path := by
  have stays : ∀ path, held store path
      = if path = module.path then some (module.type, text) else held store path := by
    intro path
    split
    · next same => rw [same, here]
    · rfl
  rw [syncModule, LawfulStore.fetch_eq intact, here]
  simp only [fromStore_ok, made, bind, Except.bind]
  cases outcome with
  | none => exact ⟨store, by simp [pure, Except.pure], intact, stays⟩
  | some newText =>
    by_cases same : newText = text
    · subst same
      exact ⟨store, by simp [pure, Except.pure], intact, stays⟩
    · obtain ⟨saved, wrote⟩ : ∃ saved, ModuleStore.save store module.path newText = .ok saved :=
        KeyedStore.save_held intact newText (by rw [here]; rfl)
      obtain ⟨intact', type, old, there, others⟩ := LawfulStore.save_ok intact wrote
      obtain ⟨rfl, -⟩ := Prod.mk.inj (Option.some.inj (here.symm.trans there))
      exact ⟨saved, by simp [same, wrote, fromStore_ok, pure, Except.pure], intact', others⟩

/-- What a round leaves of a list of modules. -/
structure Follows (options : Code.Options) (robot : Option ModuleContent) (store : σ) (modules : List Module)
    (answer : Except EditorError (List String)) (final : σ) : Prop where
  intact : Intact final
  /-- Other texts stay. -/
  frame : ∀ path, path ∉ modules.map (·.path) → held final path = held store path
  /-- If no module is broken the answer names those with a new text. -/
  answered : (∀ module ∈ modules, ¬ Broken store module) → answer
    = .ok ((modules.filter fun module => held final module.path ≠ held store module.path).map (·.path))
  /-- Before the first broken one each module gets the text that it gets beside the modules before it. -/
  followed : ∀ (earlier later : List Module) (module : Module), modules = earlier ++ module :: later →
    (∀ other ∈ earlier ++ [module], ¬ Broken store other) → ∃ there : σ, ∃ text outcome, Intact there ∧
      (∀ path, held there path = if path ∈ earlier.map (·.path) then held final path else held store path) ∧
      held store module.path = some (module.type, text) ∧
      refreshed options there module text robot = .ok outcome ∧
      held final module.path = some (module.type, outcome.getD text)
  /-- The first broken one ends the round. -/
  stopped : ∀ (earlier later : List Module) (module : Module), modules = earlier ++ module :: later →
    (∀ other ∈ earlier, ¬ Broken store other) → Broken store module →
      (∃ error, answer = .error error) ∧
        ∀ other ∈ module :: later, held final other.path = held store other.path

theorem broken_congr (same : held store' module.path = held store module.path) :
    Broken store' module ↔ Broken store module := by
  simp only [Broken, same]

/-- A broken module at the head ends the round at once. -/
theorem Follows.halt {first : Module} {rest : List Module} {error : EditorError} (intact : Intact store)
    (broken : Broken store first) : Follows options robot store (first :: rest) (.error error) store := by
  refine ⟨intact, fun _ _ => rfl, fun follows => ?_, fun earlier _ module split follows => ?_,
    fun _ _ _ _ _ _ => ⟨⟨error, rfl⟩, fun _ _ => rfl⟩⟩
  · exact absurd broken (follows first (List.mem_cons_self ..))
  · have among : first ∈ earlier ++ [module] := by
      cases earlier with
      | nil => simp [(List.cons.inj split).1]
      | cons other earlier => simp [(List.cons.inj split).1]
    exact absurd broken (follows first among)

/-- A module that gets a text goes before what the round leaves of the others. -/
theorem Follows.cons {first : Module} {rest : List Module} {outcome : Option String} {next final : σ}
    {answer : Except EditorError (List String)} (intact : Intact store) (fine : ¬ Broken store first)
    (here : held store first.path = some (first.type, text))
    (made : refreshed options store first text robot = .ok outcome)
    (others : ∀ path, held next path
      = if path = first.path then some (first.type, outcome.getD text) else held store path)
    (apart : first.path ∉ rest.map (·.path)) (later : Follows options robot next rest answer final) :
    Follows options robot store (first :: rest) (answer.map fun paths =>
      if outcome.getD text ≠ text then first.path :: paths else paths) final := by
  have own : held final first.path = some (first.type, outcome.getD text) := by
    rw [later.frame _ apart, others, if_pos rfl]
  have elsewhere : ∀ module ∈ rest, held next module.path = held store module.path := by
    intro module member
    have differs : module.path ≠ first.path := fun same => apart (List.mem_map.mpr ⟨module, member, same⟩)
    rw [others, if_neg differs]
  have same : ∀ module ∈ rest, (Broken next module ↔ Broken store module) :=
    fun module member => broken_congr (elsewhere module member)
  refine ⟨later.intact, fun path outside => ?_, fun follows => ?_,
    fun earlier behind module split follows => ?_, fun earlier behind module split follows broken => ?_⟩
  · obtain ⟨differs, outside⟩ := not_or.mp (List.mem_cons.not.mp outside)
    rw [later.frame path outside, others, if_neg differs]
  · have answered := later.answered fun module member =>
      mt (same module member).mp (follows module (List.mem_cons_of_mem _ member))
    have rewritten : (rest.filter fun module => held final module.path ≠ held next module.path)
        = rest.filter fun module => held final module.path ≠ held store module.path :=
      List.filter_congr fun module member => by rw [elsewhere module member]
    rw [answered, rewritten, List.filter_cons, own, here]
    by_cases changes : outcome.getD text = text
    · simp [changes, Except.map]
    · simp [changes, Except.map]
  · cases earlier with
    | nil =>
      obtain ⟨rfl, -⟩ := List.cons.inj split
      exact ⟨store, text, outcome, intact, by simp, here, made, own⟩
    | cons other earlier =>
      rw [List.cons_append] at split
      obtain ⟨rfl, rfl⟩ := List.cons.inj split
      have among : ∀ other ∈ earlier ++ [module], other ∈ earlier ++ module :: behind := by
        intro other member
        rw [List.append_cons]
        exact List.mem_append_left _ member
      obtain ⟨there, text, outcome, intact, before, here, made, own⟩ := later.followed earlier behind module rfl
        fun other member => mt (same other (among other member)).mp
          (follows other (List.mem_cons_of_mem _ member))
      refine ⟨there, text, outcome, intact, fun path => ?_, ?_, made, own⟩
      · rw [before]
        simp only [List.map_cons, List.mem_cons]
        by_cases met : path = first.path
        · have outside : first.path ∉ earlier.map (·.path) := fun member =>
            apart (by rw [List.map_append]; exact List.mem_append_left _ member)
          rw [met, if_neg outside, if_pos (.inl rfl), later.frame _ apart]
        · rw [others, if_neg met]
          simp only [met, false_or]
      · rw [← elsewhere _ (by simp), here]
  · cases earlier with
    | nil =>
      obtain ⟨rfl, -⟩ := List.cons.inj split
      exact absurd broken fine
    | cons other earlier =>
      rw [List.cons_append] at split
      obtain ⟨rfl, rfl⟩ := List.cons.inj split
      obtain ⟨⟨error, failed⟩, untouched⟩ := later.stopped earlier behind module rfl (fun other member =>
        mt (same other (by simp [member])).mp (follows other (List.mem_cons_of_mem _ member)))
        ((same module (by simp)).mpr broken)
      refine ⟨⟨error, by rw [failed]; rfl⟩, fun other member => ?_⟩
      rw [untouched other member, elsewhere other (List.mem_append_right _ member)]

/-- By induction on the modules; the first one leaves the texts of the others alone. -/
theorem syncEach_follows (robot : Option ModuleContent) (valid : options.isValid = true)
    (intact : Intact store) (holds : ∀ module ∈ modules, Holds store module)
    (distinct : (modules.map (·.path)).Nodup) :
    Follows options robot store modules (syncEach options robot store modules).1
      (syncEach options robot store modules).2 := by
  induction modules generalizing store with
  | nil =>
    refine ⟨intact, fun _ _ => rfl, fun _ => rfl, fun _ _ _ split => ?_, fun _ _ _ split => ?_⟩
    · simp at split
    · simp at split
  | cons first rest ih =>
    obtain ⟨apart, distinct⟩ := List.nodup_cons.mp distinct
    obtain ⟨text, here⟩ := holds first (List.mem_cons_self ..)
    unfold syncEach
    by_cases broken : Broken store first
    · obtain ⟨error, refused⟩ := syncModule_broken intact broken options robot
      rw [refused]
      exact .halt intact broken
    · obtain ⟨outcome, made⟩ := refreshed_ok intact valid here broken robot
      obtain ⟨next, synced, intact', others⟩ := syncModule_follows intact here made
      rw [synced]
      have still : ∀ module ∈ rest, Holds next module := by
        intro module member
        obtain ⟨own, there⟩ := holds module (List.mem_cons_of_mem _ member)
        have differs : module.path ≠ first.path := fun same => apart (List.mem_map.mpr ⟨module, member, same⟩)
        exact ⟨own, by rw [others, if_neg differs, there]⟩
      simpa using Follows.cons intact broken here made others apart (ih intact' still distinct)

/-- The robot of a workspace, if the store holds one that can be read. -/
def robotOf (store : σ) (workspace : String) : Option ModuleContent :=
  (held store (ModulePath.robot workspace).text).bind fun own => (ModuleContent.parse own.2).toOption

theorem syncDependents_eq {entries : List ModuleEntry} {saved : Module} (options : Code.Options)
    (intact : Intact store)
    (listed : ModuleStore.entries store = .ok entries)
    (readable : ∀ {type text}, held store (ModulePath.robot saved.workspace).text = some (type, text) →
      ∃ content, ModuleContent.parse text = .ok content) :
    syncDependents options store saved
      = syncEach options (robotOf store saved.workspace) store (othersOf entries saved) := by
  unfold syncDependents robotOf
  cases here : held store (ModulePath.robot saved.workspace).text with
  | none =>
    simp only [listed, fetchRobot_eq intact, here, fromStore_ok]
    rfl
  | some own =>
    obtain ⟨content, parsed⟩ := readable here
    simp only [listed, fetchRobot_eq intact, here, fromStore_ok, Option.map_some, Option.bind_some]
    simp only [bind, Except.bind, parseContent, parsed]
    rfl

/-- A round over the other modules of a workspace. -/
theorem othersOf_follows {entries : List ModuleEntry} (valid : options.isValid = true) (intact : Intact store)
    (listed : ModuleStore.entries store = .ok entries) (robot : Option ModuleContent) (saved : Module) :
    Follows options robot store (othersOf entries saved)
      (syncEach options robot store (othersOf entries saved)).1
      (syncEach options robot store (othersOf entries saved)).2 := by
  exact syncEach_follows robot valid intact (othersOf_held intact listed)
    ((KeyedStore.entries_distinct intact listed).sublist othersOf_sublist)

variable {editor : Editor σ} {opened : OpenModule}

omit [ModuleStore σ] [KeyedStore σ] in
theorem contentText_valid (made : editor.contentText = .ok text) : editor.options.isValid = true := by
  simp only [contentText, bind_eq_ok] at made
  obtain ⟨opened, -, made⟩ := made
  exact Session.contentText_valid made

/-- Saving a robot or a mechanism stores it and takes the others through a round. -/
theorem save_eq {entries : List ModuleEntry} (intact : Intact store) (current : editor.current = some opened)
    (exports : opened.module.type.exports = true) (made : editor.contentText = .ok text)
    (saved : ModuleStore.save editor.store opened.module.path text = .ok store)
    (listed : ModuleStore.entries store = .ok entries)
    (readable : ∀ {type text}, held store (ModulePath.robot opened.module.workspace).text
      = some (type, text) → ∃ content, ModuleContent.parse text = .ok content) :
    let round := syncEach editor.options (robotOf store opened.module.workspace) store
      (othersOf entries opened.module)
    editor.save = (round.1, { editor with
      store := round.2, current := some { opened with savedText := text } }) := by
  intro round
  have opens : editor.getOpen = .ok opened := getOpen_eq_ok.mpr current
  simp only [save, made, opens, saved, fromStore_ok, exports, bind, Except.bind, pure, Except.pure,
    if_true, syncDependents_eq editor.options intact listed readable]
  rfl

/-- After a robot or a mechanism is saved, what becomes of the others depends on the first broken one. -/
theorem save_follows (intact : Intact editor.store) (current : editor.current = some opened)
    (exports : opened.module.type.exports = true) (made : editor.contentText = .ok text)
    (saved : ModuleStore.save editor.store opened.module.path text = .ok store)
    (readable : ∀ {type text}, held store (ModulePath.robot opened.module.workspace).text
      = some (type, text) → ∃ content, ModuleContent.parse text = .ok content) :
    ∃ entries, ModuleStore.entries store = .ok entries ∧
      Follows editor.options (robotOf store opened.module.workspace) store (othersOf entries opened.module)
        editor.save.1 editor.save.2.store := by
  obtain ⟨kept, -⟩ := LawfulStore.save_ok intact saved
  obtain ⟨entries, listed, -⟩ := LawfulStore.entries_eq kept
  refine ⟨entries, listed, ?_⟩
  rw [save_eq kept current exports made saved listed readable]
  exact othersOf_follows (contentText_valid made) kept listed _ _

/-- Two blocks of one id end the round, and the module behind them keeps its outdated text. -/
theorem save_follows_repeated :
    let number : BlockTree := .node ⟨0⟩ .number [("NUM", "0")] .none []
    let robot : ModuleContent := { type := .robot }
    let repeated : ModuleContent := { type := .opMode, blocks := ⟨[[number], [number]]⟩ }
    let outdated : ModuleContent := { type := .opMode, opMode := some ⟨.teleop, "N", "", true⟩ }
    let store : Shelf :=
      { modules := [("A/A.blk", ⟨.robot, robot.text, 0⟩), ("A/M.blk", ⟨.opMode, repeated.text, 0⟩),
          ("A/N.blk", ⟨.opMode, outdated.text, 0⟩)] }
    let opened : OpenModule :=
      { module := ⟨"A/A.blk", .robot, "A", "A", 0⟩, session := {}, savedText := "", robot := none }
    let editor : Editor Shelf := { store, current := some opened }
    editor.contentText = .ok robot.text ∧
      refreshed {} store ⟨"A/N.blk", .opMode, "N", "A", 0⟩ outdated.text (some robot)
        = .ok (some { outdated with opMode := none }.text) ∧
      (∃ error, editor.save.1 = .error error) ∧
      held editor.save.2.store "A/N.blk" = some (.opMode, outdated.text) := by
  intro number robot repeated outdated store opened editor
  have made : editor.contentText = .ok robot.text := rfl
  have empty : (⟨[]⟩ : Forest).Distinct := by simp [Forest.Distinct]
  have readable : ModuleContent.parse robot.text = .ok robot :=
    (ModuleContent.parse_text empty (by decide)).trans (if_pos (by decide +kernel))
  have distinct : repeated.blocks.Distinct := by
    simp [repeated, number, Forest.Distinct, BlockTree.DistinctChain, BlockTree.Distinct,
      BlockTree.DistinctInputs, Labelled.labels]
  have parsed : ModuleContent.parse repeated.text = .ok repeated :=
    (ModuleContent.parse_text distinct (by decide)).trans (if_pos (by decide +kernel))
  have read : ModuleContent.parse outdated.text = .ok outdated :=
    (ModuleContent.parse_text empty (by decide)).trans (if_pos (by decide +kernel))
  have ascending : (store.modules.map Prod.fst).Pairwise (· < ·) :=
    show ["A/A.blk", "A/M.blk", "A/N.blk"].Pairwise (· < ·) by decide
  have intact : Intact store := ⟨rfl, List.pairwise_map.mp ascending⟩
  have lost : ∀ g, Graph.ofForest repeated.blocks ≠ .ok g := by
    rintro g ⟨⟩
  have broken : Broken store ⟨"A/M.blk", .opMode, "M", "A", 0⟩ :=
    ⟨repeated.text, repeated, rfl, parsed, .inl lost⟩
  have own : held store (ModulePath.robot "A").text = some (.robot, robot.text) := rfl
  have current : editor.current = some opened := rfl
  have stored : ModuleStore.save editor.store opened.module.path robot.text = .ok store := by rfl
  obtain ⟨entries, listed, follows⟩ := save_follows intact current rfl made stored fun {type text} here => by
    obtain ⟨-, rfl⟩ := Prod.mk.inj (Option.some.inj (own.symm.trans here))
    exact ⟨robot, readable⟩
  obtain rfl := Except.ok.inj listed
  have others : othersOf store.list opened.module
      = [⟨"A/M.blk", .opMode, "M", "A", 0⟩, ⟨"A/N.blk", .opMode, "N", "A", 0⟩] := by decide +kernel
  obtain ⟨failed, untouched⟩ := follows.stopped [] _ _ others (List.forall_mem_nil _) broken
  refine ⟨made, ?_, failed, ?_⟩
  · have alone : mechanismsOf store.list "A" "A/N.blk" = [] := by decide +kernel
    have fetched := fetchMechanisms_eq intact listed "A" "A/N.blk"
    rw [alone] at fetched
    rw [refreshed, read]
    simp only [openSession, fetched]
    rfl
  · exact untouched ⟨"A/N.blk", .opMode, "N", "A", 0⟩ (by simp)

end Editor
end RobotBlocks
