import RobotBlocks.Proofs.Editor.Opening

/-! The modules of a workspace follow a saved one. Each is written under its own path only. -/
namespace RobotBlocks.Editor

open Json Decoder LawfulStore

variable {σ : Type} [ModuleStore σ] [LawfulStore σ] {store store' : σ} {text : String}
  {module : Module} {modules : List Module} {robot : Option ModuleContent} {options : Code.Options}

theorem refreshed_written {newText : String} (intact : Intact store) (written : Written module.type text)
    (made : refreshed options store module text robot = .ok (some newText)) :
    Written module.type newText := by
  unfold refreshed at made
  cases parsed : ModuleContent.parse text with
  | error error => simp [parsed] at made
  | ok content =>
    simp only [parsed, bind_eq_ok] at made
    obtain ⟨session, opened, made⟩ := made
    obtain ⟨newText, own, same⟩ := map_eq_ok.mp made
    cases same
    obtain ⟨-, -, distinct⟩ := written.parsed parsed
    have known : module.type ≠ .unknown := by
      obtain ⟨-, -, -, known, -⟩ := written
      exact known
    exact (openSession_whole intact distinct opened).written known own

omit [LawfulStore σ] in
/-- A module that is brought in line gets another text, or nothing is written. -/
theorem syncModule_cases {changed : Bool}
    (synced : syncModule options store module robot = .ok (changed, store')) :
    changed = false ∧ store' = store ∨ ∃ text newText, changed = true ∧
      ModuleStore.fetch store module.path = .ok text ∧
      refreshed options store module text robot = .ok (some newText) ∧ newText ≠ text ∧
      ModuleStore.save store module.path newText = .ok store' := by
  simp only [syncModule, bind_eq_ok, fromStore_eq_ok] at synced
  obtain ⟨text, fetched, outcome, made, synced⟩ := synced
  cases outcome with
  | none =>
    cases pure_eq_ok.mp synced
    exact .inl ⟨rfl, rfl⟩
  | some newText =>
    dsimp only at synced
    split at synced
    · cases pure_eq_ok.mp synced
      exact .inl ⟨rfl, rfl⟩
    · next differs =>
      simp only [bind_eq_ok, pure_eq_ok, fromStore_eq_ok, Prod.mk.injEq] at synced
      obtain ⟨_, wrote, rfl, rfl⟩ := synced
      exact .inr ⟨text, newText, rfl, fetched, made, differs, wrote⟩

/-- Bringing a module in line writes under its path only. -/
theorem syncModule_ok {changed : Bool} (stocked : Stocked store) (holds : Holds store module)
    (synced : syncModule options store module robot = .ok (changed, store')) :
    Stocked store' ∧ Keeps store store' ∧
      ∀ other, other ≠ module.path → held store' other = held store other := by
  rcases syncModule_cases synced with ⟨-, rfl⟩ | ⟨fetched, newText, -, own, made, -, wrote⟩
  · exact ⟨stocked, fun holds => ⟨_, holds⟩, fun _ _ => rfl⟩
  · obtain ⟨text, here⟩ := id holds
    obtain rfl : text = fetched := by
      rw [LawfulStore.fetch_eq stocked.intact, here] at own
      exact Except.ok.inj own
    have written := refreshed_written stocked.intact (stocked.written here) made
    obtain ⟨stocked', keeps, others⟩ := stocked.save holds written wrote
    exact ⟨stocked', keeps, fun other differs => by rw [others, if_neg differs]⟩

theorem syncEach_spec (options : Code.Options) (robot : Option ModuleContent)
    (stocked : Stocked store) (holds : ∀ module ∈ modules, Holds store module) :
    Stocked (syncEach options robot store modules).2 ∧
      Keeps store (syncEach options robot store modules).2 ∧
      ∀ other, (∀ module ∈ modules, module.path ≠ other) →
        held (syncEach options robot store modules).2 other = held store other := by
  induction modules generalizing store with
  | nil => exact ⟨stocked, fun holds => ⟨_, holds⟩, fun _ _ => rfl⟩
  | cons module rest ih =>
    unfold syncEach
    cases synced : syncModule options store module robot with
    | error error => exact ⟨stocked, fun holds => ⟨_, holds⟩, fun _ _ => rfl⟩
    | ok answer =>
      obtain ⟨changed, next⟩ := answer
      obtain ⟨stocked', keeps, frame⟩ :=
        syncModule_ok stocked (holds module (List.mem_cons_self ..)) synced
      have later : ∀ other ∈ rest, Holds next other := fun other member =>
        let ⟨_, here⟩ := holds other (List.mem_cons_of_mem _ member)
        keeps here
      obtain ⟨last, kept, untouched⟩ := ih stocked' later
      refine ⟨last, fun here => ?_, fun other apart => ?_⟩
      · obtain ⟨_, there⟩ := keeps here
        exact kept there
      · refine (untouched other fun module member =>
          apart module (List.mem_cons_of_mem _ member)).trans (frame other ?_)
        exact (apart module (List.mem_cons_self ..)).symm

/-- The other modules of the workspace of a module, in the order of the entries. -/
def othersOf (entries : List ModuleEntry) (saved : Module) : List Module :=
  (entries.filterMap (·.module?)).filter fun module =>
    module.path ≠ saved.path && module.workspace = saved.workspace

theorem othersOf_sublist {entries : List ModuleEntry} {saved : Module} :
    ((othersOf entries saved).map (·.path)).Sublist (entries.map (·.path)) := by
  have named : ((entries.filterMap (·.module?)).map (·.path)).Sublist (entries.map (·.path)) := by
    induction entries with
    | nil => exact .slnil
    | cons entry rest ih =>
      rw [List.filterMap_cons]
      cases named : ModulePath.ofText? entry.path with
      | none => simpa [ModuleEntry.module?, named] using ih.cons entry.path
      | some parts => simpa [ModuleEntry.module?, named] using ih.cons_cons entry.path
  exact (List.filter_sublist.map _).trans named

/-- Each of them is a module of the same workspace under a path of its own. -/
theorem othersOf_beside {entries : List ModuleEntry} {saved : Module} (member : module ∈ othersOf entries saved) :
    module.path ≠ saved.path ∧
      ∃ parts, ModulePath.ofText? module.path = some parts ∧ parts.workspace = saved.workspace := by
  obtain ⟨listed, beside⟩ := List.mem_filter.mp member
  simp only [Bool.and_eq_true, decide_eq_true_eq] at beside
  obtain ⟨entry, -, named⟩ := List.mem_filterMap.mp listed
  obtain ⟨parts, split, rfl⟩ := Option.map_eq_some_iff.mp named
  exact ⟨beside.1, parts, split, beside.2⟩

omit [LawfulStore σ] in
/-- What follows a saved module are the others of its workspace, unless the round is refused before it starts. -/
theorem syncDependents_cases (options : Code.Options) (store : σ) (saved : Module) :
    (∃ error, syncDependents options store saved = (.error error, store)) ∨ ∃ entries robot,
      ModuleStore.entries store = .ok entries ∧
        syncDependents options store saved = syncEach options robot store (othersOf entries saved) := by
  unfold syncDependents
  extract_lets prepared
  cases ready : prepared with
  | error error => exact .inl ⟨error, rfl⟩
  | ok answer =>
    obtain ⟨others, robot⟩ := answer
    simp only [prepared, bind_eq_ok, fromStore_eq_ok] at ready
    obtain ⟨entries, listed, robotText, -, ready⟩ := ready
    refine .inr ⟨entries, robot, listed, ?_⟩
    cases robotText with
    | none | some text =>
      simp only [bind_eq_ok, pure_eq_ok, Prod.mk.injEq] at ready
      obtain ⟨_, -, rfl, rfl⟩ := ready
      rfl

theorem othersOf_held {entries : List ModuleEntry} {saved : Module} (intact : Intact store)
    (listed : ModuleStore.entries store = .ok entries) : ∀ module ∈ othersOf entries saved, Holds store module := by
  obtain ⟨same, again, sound, -⟩ := LawfulStore.entries_eq intact
  obtain rfl : entries = same := Except.ok.inj (listed.symm.trans again)
  exact fun module member => module?_held sound (List.mem_of_mem_filter member)

/-- After a module was saved the others follow it, and it stays as it was stored. -/
theorem syncDependents_spec (options : Code.Options) (stocked : Stocked store) (saved : Module) :
    Stocked (syncDependents options store saved).2 ∧
      Keeps store (syncDependents options store saved).2 ∧
      held (syncDependents options store saved).2 saved.path = held store saved.path := by
  rcases syncDependents_cases options store saved with ⟨error, same⟩ | ⟨entries, robot, listed, same⟩
  · rw [same]
    exact ⟨stocked, fun holds => ⟨_, holds⟩, rfl⟩
  · rw [same]
    obtain ⟨stocked', keeps, frame⟩ := syncEach_spec options robot stocked (othersOf_held stocked.intact listed)
    exact ⟨stocked', keeps, frame saved.path fun module member => (othersOf_beside member).1⟩

end RobotBlocks.Editor
