import RobotBlocks.Proofs.Editor.Dependents
import RobotBlocks.Proofs.Editor.Reload
import RobotBlocks.Proofs.Editor.Surroundings

/-! One round over the other modules of a workspace is enough. A module that follows declares what it
declared, so the modules before it in the round saw what they see when they are opened, and what was
stored for them is what their sessions store again. -/
namespace RobotBlocks

open Json Decoder LawfulStore

/-- A content with few enough blocks and nothing but values and calls for the arguments of its calls. -/
structure ModuleContent.Moderate (content : ModuleContent) : Prop where
  few : content.blocks.size < 100000
  argued : content.blocks.Argued

instance (content : ModuleContent) : Decidable content.Moderate :=
  decidable_of_iff (content.blocks.size < 100000 ∧ content.blocks.Argued)
    ⟨fun ⟨few, argued⟩ => ⟨few, argued⟩, fun moderate => ⟨moderate.few, moderate.argued⟩⟩

variable {type : ModuleType} {text : String} {content : ModuleContent} {scope scope' : Scope} {s : Session}

/-- A composed content keeps its declarations when it is opened. -/
theorem Composed.load_declarations (composed : Composed type text)
    (parsed : ModuleContent.parse text = .ok content) (moderate : content.Moderate)
    (opened : Session.load content.blocks scope .standard = .ok s) :
    (s.document type).declarations = content.declarations := by
  obtain ⟨stored, whole, rfl⟩ := composed.parsed parsed
  obtain ⟨g, loaded⟩ := Session.load_ok_iff.mp ⟨s, opened⟩
  obtain ⟨regular, own⟩ := whole.declares loaded moderate.argued
  have declared := (Session.load_declares loaded regular moderate.few opened).trans own
  simp only [Session.document, declared]

/-- A composed content that was opened and stored is opened again without any change. -/
theorem Composed.load_again (composed : Composed type text)
    (parsed : ModuleContent.parse text = .ok content) (moderate : content.Moderate)
    (opened : Session.load content.blocks scope .standard = .ok s) (clear : scope.Clear)
    (narrower : scope'.Narrower scope) : ∃ again, Session.load s.toForest scope' .standard = .ok again ∧
      again.graph.Sound ∧ ∀ type, again.document type = s.document type := by
  obtain ⟨stored, whole, rfl⟩ := composed.parsed parsed
  obtain ⟨g, loaded⟩ := Session.load_ok_iff.mp ⟨s, opened⟩
  obtain ⟨regular, -⟩ := whole.declares loaded moderate.argued
  exact Session.load_again loaded regular moderate.few opened clear narrower

namespace Editor

variable {σ : Type} [ModuleStore σ] [KeyedStore σ] {store final there : σ} {module : Module}
  {modules : List Module} {robot : Option ModuleContent} {options : Code.Options} {paths : List String}

omit [KeyedStore σ] in
theorem openSession_ok {content : ModuleContent} {robot : Option ModuleContent} {s : Session}
    {mechanisms : Labelled ModuleContent}
    (fetched : fetchMechanisms store module.workspace module.path = .ok mechanisms)
    (loaded : Session.load content.blocks (scopeOf robot mechanisms) .standard = .ok s) :
    openSession store module content robot = .ok s := by
  simp only [openSession, fetched, fromStore_ok]
  exact mapError_eq_ok.mpr loaded

omit [KeyedStore σ] in
theorem refreshed_load {mechanisms : Labelled ModuleContent} (valid : options.isValid = true)
    (known : module.type ≠ .unknown) (parsed : ModuleContent.parse text = .ok content)
    (fetched : fetchMechanisms store module.workspace module.path = .ok mechanisms)
    (loaded : Session.load content.blocks
      (scopeOf (if module.type = .robot then none else robot) mechanisms) .standard = .ok s) :
    refreshed options store module text robot = .ok (some (s.document module.type).text) := by
  have made := Session.document_contentText (Session.load_sound loaded) valid known module.name
  simp only [refreshed, parsed, bind_eq_ok]
  exact ⟨s, openSession_ok fetched loaded, map_eq_ok.mpr ⟨_, made, rfl⟩⟩

/-- The text that a readable module gets is that of the session on its content. -/
theorem refreshed_some {newText : String} (intact : Intact store)
    (made : refreshed options store module text robot = .ok (some newText)) :
    ∃ content mechanisms s, ModuleContent.parse text = .ok content ∧
      fetchMechanisms store module.workspace module.path = .ok mechanisms ∧
      Session.load content.blocks
        (scopeOf (if module.type = .robot then none else robot) mechanisms) .standard = .ok s ∧
      newText = (s.document module.type).text := by
  obtain ⟨mechanisms, fetched⟩ := fetchMechanisms_ok intact module.workspace module.path
  unfold refreshed at made
  cases parsed : ModuleContent.parse text with
  | error error => simp [parsed] at made
  | ok content =>
    simp only [parsed, bind_eq_ok, openSession, fetched, fromStore_ok, Except.ok.injEq, exists_eq_left',
      mapError_eq_ok] at made
    obtain ⟨s, opened, made⟩ := made
    obtain ⟨_, own, same⟩ := map_eq_ok.mp made
    cases same
    exact ⟨content, mechanisms, s, rfl, fetched, opened, Session.contentText_document own⟩

omit [KeyedStore σ] in
theorem refreshed_none (made : refreshed options store module text robot = .ok none) :
    ∀ content, ModuleContent.parse text ≠ .ok content := by
  intro content parsed
  simp only [refreshed, parsed, bind_eq_ok] at made
  obtain ⟨s, -, made⟩ := made
  obtain ⟨_, -, same⟩ := map_eq_ok.mp made
  cases same

/-- In a round that succeeds every module gets the text that it gets beside some texts from before the
round and some from after it. -/
theorem Follows.all (follows : Follows options robot store modules (.ok paths) final)
    (member : module ∈ modules) : ∃ there : σ, ∃ text outcome, Intact there ∧
      (∀ path, held there path = held final path ∨ held there path = held store path) ∧
      held store module.path = some (module.type, text) ∧
      refreshed options there module text robot = .ok outcome ∧
      held final module.path = some (module.type, outcome.getD text) := by
  classical
  have fine : ∀ other ∈ modules, ¬ Broken store other := by
    cases found : modules.find? fun other => decide (Broken store other) with
    | none => simpa using List.find?_eq_none.mp found
    | some first =>
      obtain ⟨broken, earlier, later, split, before⟩ := List.find?_eq_some_iff_append.mp found
      have stopped := follows.stopped earlier later first split
        (fun other member => by simpa using before other member) (by simpa using broken)
      obtain ⟨⟨error, failed⟩, -⟩ := stopped
      cases failed
  obtain ⟨earlier, later, rfl⟩ := List.append_of_mem member
  obtain ⟨there, text, outcome, intact, before, rest⟩ := follows.followed earlier later module rfl
    fun other listed => fine other (by
      rw [List.append_cons]
      exact List.mem_append_left _ listed)
  refine ⟨there, text, outcome, intact, fun path => ?_, rest⟩
  rw [before]
  split
  · exact .inl rfl
  · exact .inr rfl

/-- The texts of the modules are moderate as far as they can be read. -/
def AllModerate (store : σ) (modules : List Module) : Prop :=
  ∀ module ∈ modules, ∀ type text content, held store module.path = some (type, text) →
    ModuleContent.parse text = .ok content → content.Moderate

/-- A round leaves every readable text with the declarations that it had. -/
theorem Follows.recedes (follows : Follows options robot store modules (.ok paths) final)
    (authored : Authored store) (moderate : AllModerate store modules) : Recedes final store := by
  refine ⟨fun {path type text content} here parsed => ?_⟩
  by_cases member : path ∈ modules.map (·.path)
  · obtain ⟨module, listed, rfl⟩ := List.mem_map.mp member
    obtain ⟨there, old, outcome, intact, -, before, made, after⟩ := follows.all listed
    cases here.symm.trans after
    cases outcome with
    | none => exact ⟨old, content, before, parsed, rfl⟩
    | some newText =>
      obtain ⟨stored, mechanisms, s, read, -, opened, rfl⟩ := refreshed_some intact made
      have composed := authored.composed before
      have whole : s.Whole := .load (composed.written.parsed read).2.2 opened
      obtain rfl := whole.parse_document composed.known parsed
      exact ⟨old, stored, before, read,
        (composed.load_declarations read (moderate module listed _ _ _ before read) opened).symm⟩
  · exact ⟨text, content, follows.frame path member ▸ here, parsed, rfl⟩

theorem robotOf_unambiguous {workspace : String} (authored : Authored store)
    (own : robotOf store workspace = some content) : content.declarations.Unambiguous := by
  obtain ⟨⟨type, text⟩, here, read⟩ := Option.bind_eq_some_iff.mp own
  exact (authored.composed here).unambiguous (toOption_eq_some.mp read)

/-- The robot that is read when a module is opened after the round declares what that robot declared
beside which the module followed. -/
theorem Recedes.beside {robot' : Option ModuleContent} {known : Declarations} (recedes : Recedes final store)
    (workspace : String) (read : readRobot module.type
      ((held final (ModulePath.robot workspace).text).map Prod.snd) = .ok robot')
    (shown : robot'.map (·.declarations) = some known) :
    (if module.type = .robot then none else robotOf store workspace).map (·.declarations) = some known := by
  obtain ⟨content, rfl, rfl⟩ := Option.map_eq_some_iff.mp shown
  cases here : held final (ModulePath.robot workspace).text with
  | none => simp [here, readRobot, pure_eq_ok] at read
  | some own =>
    obtain ⟨type, text⟩ := own
    by_cases robot : module.type = .robot
    · simp [here, readRobot, robot, pure_eq_ok] at read
    · simp only [here, Option.map_some, readRobot, if_neg robot] at read
      obtain ⟨_, parsed, same⟩ := map_eq_ok.mp read
      cases same
      obtain ⟨text', content', there, parsed', declared⟩ := recedes.readable here (mapError_eq_ok.mp parsed)
      simp [robot, robotOf, there, parsed', declared, Except.toOption]

/-- A module that followed is opened with the session that stores its text. -/
theorem Follows.reopens {content : ModuleContent} {robot' : Option ModuleContent}
    (follows : Follows options robot store modules (.ok paths) final)
    (authored : Authored store) (authored' : Authored final) (moderate : AllModerate store modules)
    (member : module ∈ modules) (own : robot = robotOf store module.workspace)
    (here : held final module.path = some (module.type, text))
    (parsed : ModuleContent.parse text = .ok content)
    (read : readRobot module.type ((held final (ModulePath.robot module.workspace).text).map Prod.snd)
      = .ok robot') : ∃ mechanisms session,
        fetchMechanisms final module.workspace module.path = .ok mechanisms ∧
        Session.load content.blocks (scopeOf robot' mechanisms) .standard = .ok session ∧
        session.graph.Sound ∧ (session.document module.type).text = text := by
  subst own
  obtain ⟨there, old, outcome, intact, between, before, made, after⟩ := follows.all member
  cases here.symm.trans after
  cases outcome with
  | none => exact absurd parsed (refreshed_none made content)
  | some newText =>
    obtain ⟨stored, mechanisms, s, readable, fetched, opened, rfl⟩ := refreshed_some intact made
    obtain ⟨mechanisms', fetched'⟩ := fetchMechanisms_ok authored'.intact module.workspace module.path
    have composed := authored.composed before
    have recedes := follows.recedes authored moderate
    have narrower := (recedes.between between).narrower intact authored'.intact fetched fetched'
      fun known shown => recedes.beside module.workspace read shown
    have beside : ∀ content, (if module.type = .robot then none else robotOf store module.workspace)
        = some content → content.declarations.Unambiguous := by
      intro content own
      split at own
      · cases own
      · exact robotOf_unambiguous authored own
    have clear := scopeOf_clear (authored.between authored' intact between) fetched beside
    have whole : s.Whole := .load (composed.written.parsed readable).2.2 opened
    obtain rfl := whole.parse_document composed.known parsed
    obtain ⟨again, reopened, sound, same⟩ := composed.load_again readable
      (moderate module member _ _ _ before readable) opened clear narrower
    exact ⟨mechanisms', again, fetched', reopened, sound, congrArg ModuleContent.text (same _)⟩

/-- A round takes place only if the robot can be read. -/
theorem syncDependents_readable {saved : Module} (intact : Intact store)
    (synced : (syncDependents options store saved).1 = .ok paths) {type : ModuleType}
    (here : held store (ModulePath.robot saved.workspace).text = some (type, text)) :
    ∃ content, ModuleContent.parse text = .ok content := by
  obtain ⟨entries, listed, -⟩ := LawfulStore.entries_eq intact
  cases parsed : ModuleContent.parse text with
  | ok content => exact ⟨content, rfl⟩
  | error error =>
    simp only [syncDependents, listed, fetchRobot_eq intact, here, fromStore_ok, Option.map_some,
      parseContent] at synced
    simp only [bind, Except.bind, parsed] at synced
    cases synced

/-- A round leaves every module its type. -/
theorem Follows.kept {path : String} {type : ModuleType}
    (follows : Follows options robot store modules (.ok paths) final)
    (here : held final path = some (type, text)) : ∃ old, held store path = some (type, old) := by
  by_cases member : path ∈ modules.map (·.path)
  · obtain ⟨module, listed, rfl⟩ := List.mem_map.mp member
    obtain ⟨there, old, outcome, -, -, before, -, after⟩ := follows.all listed
    cases here.symm.trans after
    exact ⟨old, before⟩
  · exact ⟨text, follows.frame path member ▸ here⟩

theorem mem_othersOf {entries : List ModuleEntry} {saved : Module} {path : String} {type : ModuleType}
    {parts : ModulePath} (intact : Intact store) (listed : ModuleStore.entries store = .ok entries)
    (here : held store path = some (type, text)) (named : ModulePath.ofText? path = some parts)
    (other : path ≠ saved.path) (beside : parts.workspace = saved.workspace) :
    ∃ modified, ⟨path, type, parts.module, parts.workspace, modified⟩ ∈ othersOf entries saved := by
  obtain ⟨same, again, sound, complete⟩ := LawfulStore.entries_eq intact
  obtain rfl : entries = same := Except.ok.inj (listed.symm.trans again)
  obtain ⟨entry, member, rfl⟩ := complete path (by rw [here]; rfl)
  obtain ⟨_, there⟩ := sound entry member
  obtain ⟨rfl, -⟩ := Prod.mk.inj (Option.some.inj (there.symm.trans here))
  have named : entry.module? = some ⟨entry.path, entry.type, parts.module, parts.workspace, entry.modified⟩ := by
    rw [ModuleEntry.module?, named]
    rfl
  refine ⟨entry.modified, List.mem_filter.mpr ⟨List.mem_filterMap.mpr ⟨entry, member, named⟩, ?_⟩⟩
  simp [other, beside]

theorem readRobot_held_iff {path : String} {type : ModuleType} :
    (∃ robot, readRobot type ((held store path).map Prod.snd) = .ok robot) ↔
      (type ≠ .robot → ∀ other text, held store path = some (other, text) →
        ∃ robot, ModuleContent.parse text = .ok robot) := by
  rw [readRobot_ok_iff]
  refine imp_congr_right fun _ => ⟨fun readable other text here => readable text (by rw [here]; rfl), ?_⟩
  intro readable text shown
  obtain ⟨⟨other, text⟩, here, rfl⟩ := Option.map_eq_some_iff.mp shown
  exact readable other text here

end Editor
end RobotBlocks
