import RobotBlocks.Proofs.Editor.Run
import RobotBlocks.Proofs.Store.Shelf

/-! What saving leaves alone. A round writes under the paths that it reports and under no others, each of them once and
with another text than the one before; so saving changes texts alone, and only those of the saved module and of the
ones that it reports. If the module itself cannot be stored, nothing happens. -/
namespace RobotBlocks.Editor

open FramedStore

variable {σ : Type} [ModuleStore σ] [FramedStore σ] {store next final : σ} {path text : String} {module saved : Module}
  {modules : List Module} {robot : Option ModuleContent} {options : Code.Options} {paths later : List String}

/-- The texts under some paths became other ones, and nothing else changed. -/
structure Rewritten (store final : σ) (paths : List String) : Prop where
  keyed : Keyed final
  listing : ModuleStore.listing final = ModuleStore.listing store
  changed : ∀ path ∈ paths, ∃ old new, ModuleStore.fetch store path = .ok old ∧
    ModuleStore.fetch final path = .ok new ∧ new ≠ old
  frame : ∀ path, path ∉ paths → ModuleStore.fetch final path = ModuleStore.fetch store path

namespace Rewritten

theorem refl (keyed : Keyed store) : Rewritten store store [] :=
  ⟨keyed, rfl, List.forall_mem_nil _, fun _ _ => rfl⟩

/-- No path comes up in both rounds. -/
theorem append (first : Rewritten store next paths) (second : Rewritten next final later)
    (apart : ∀ path ∈ paths, path ∉ later) : Rewritten store final (paths ++ later) := by
  refine ⟨second.keyed, second.listing.trans first.listing, fun path member => ?_, fun path outside => ?_⟩
  · rcases List.mem_append.mp member with early | late
    · rw [second.frame path (apart path early)]
      exact first.changed path early
    · rw [← first.frame path fun early => apart path early late]
      exact second.changed path late
  · obtain ⟨early, late⟩ := not_or.mp (List.mem_append.not.mp outside)
    rw [second.frame path late, first.frame path early]

end Rewritten

/-- Bringing one module in line changes its own text, or nothing. -/
theorem syncModule_rewritten {changed : Bool} (keyed : Keyed store)
    (synced : syncModule options store module robot = .ok (changed, next)) :
    Rewritten store next (if changed then [module.path] else []) := by
  rcases syncModule_cases synced with ⟨rfl, rfl⟩ | ⟨text, newText, rfl, here, -, differs, wrote⟩
  · exact .refl keyed
  · obtain ⟨keyed', listing, -, fetched⟩ := save_frame keyed wrote
    refine ⟨keyed', listing, fun path member => ?_, fun path outside => ?_⟩
    · obtain rfl := List.mem_singleton.mp member
      exact ⟨text, newText, here, by rw [fetched, if_pos rfl], differs⟩
    · have apart : path ≠ module.path := fun same => outside (List.mem_singleton.mpr same)
      rw [fetched, if_neg apart]

/-- By induction on the modules: a round that succeeds changes the texts of those that it reports. -/
theorem syncEach_rewritten (keyed : Keyed store) (distinct : (modules.map (·.path)).Nodup)
    (synced : syncEach options robot store modules = (.ok paths, final)) :
    Rewritten store final paths ∧ paths.Sublist (modules.map (·.path)) := by
  induction modules generalizing store paths with
  | nil =>
    cases synced
    exact ⟨.refl keyed, .slnil⟩
  | cons module rest ih =>
    obtain ⟨apart, distinct⟩ := List.nodup_cons.mp distinct
    unfold syncEach at synced
    cases own : syncModule options store module robot with
    | error error =>
      rw [own] at synced
      cases synced
    | ok answer =>
      obtain ⟨changed, next⟩ := answer
      have first := syncModule_rewritten keyed own
      rw [own] at synced
      obtain ⟨answered, rfl⟩ := Prod.mk.inj synced
      obtain ⟨later, rest', rfl⟩ := map_eq_ok.mp answered
      obtain ⟨second, among⟩ := ih first.keyed distinct (Prod.ext rest' rfl)
      have fresh : module.path ∉ later := fun member => apart (among.subset member)
      cases changed with
      | true => exact ⟨first.append second (by simpa using fresh), among.cons_cons _⟩
      | false => exact ⟨first.append second (List.forall_mem_nil _), among.cons _⟩

/-- A round changes the texts of others of the workspace, in the order in which they are listed. -/
theorem syncDependents_rewritten (keyed : Keyed store)
    (synced : syncDependents options store saved = (.ok paths, final)) :
    Rewritten store final paths ∧ paths.Nodup ∧
      (∃ listed, ModuleStore.listing store = .ok listed ∧ paths.Sublist (listed.map Prod.fst)) ∧
      ∀ path ∈ paths, path ≠ saved.path ∧
        ∃ parts, ModulePath.ofText? path = some parts ∧ parts.workspace = saved.workspace := by
  rcases syncDependents_cases options store saved with ⟨error, refused⟩ | ⟨entries, robot, listed, same⟩
  · rw [refused] at synced
    cases synced
  · rw [same] at synced
    have shown : ModuleStore.listing store = .ok (entries.map fun entry => (entry.path, entry.type)) := by
      rw [ModuleStore.listing, listed]
      rfl
    have named : (entries.map fun entry => (entry.path, entry.type)).map Prod.fst = entries.map (·.path) := by
      simp
    have distinct : (entries.map (·.path)).Nodup := named ▸ listing_distinct keyed shown
    obtain ⟨rewritten, among⟩ := syncEach_rewritten keyed (distinct.sublist othersOf_sublist) synced
    have within := among.trans othersOf_sublist
    refine ⟨rewritten, distinct.sublist within, ⟨_, shown, named ▸ within⟩, fun path member => ?_⟩
    obtain ⟨module, other, rfl⟩ := List.mem_map.mp (among.subset member)
    exact othersOf_beside other

/-- What saving the open module leaves if it succeeds. -/
structure Saved (editor : Editor σ) (opened : OpenModule) (text : String) (paths : List String)
    (final : Editor σ) : Prop where
  stored : ModuleStore.fetch final.store opened.module.path = .ok text
  /-- There was such a module before. -/
  known : ∃ old, ModuleStore.fetch editor.store opened.module.path = .ok old
  current : final.current = some { opened with savedText := text }
  unmodified : final.isModified = .ok false
  listing : ModuleStore.listing final.store = ModuleStore.listing editor.store
  /-- The texts of the reported modules are other ones, and those of all further modules are the same. -/
  changed : ∀ path, path ≠ opened.module.path →
    (ModuleStore.fetch final.store path ≠ ModuleStore.fetch editor.store path ↔ path ∈ paths)
  /-- The reported modules are others of the same workspace. -/
  beside : ∀ path ∈ paths, path ≠ opened.module.path ∧
    ∃ parts, ModulePath.ofText? path = some parts ∧ parts.workspace = opened.module.workspace
  distinct : paths.Nodup
  /-- They are reported in the order in which they are listed. -/
  listed : paths = [] ∨ ∃ listed, ModuleStore.listing editor.store = .ok listed ∧
    paths.Sublist (listed.map Prod.fst)
  /-- No module follows an opmode. -/
  quiet : opened.module.type = .opMode → paths = []

variable {editor : Editor σ} {opened : OpenModule}

/-- A stored module and a round behind it. -/
theorem Saved.of_rewritten (keyed : Keyed editor.store)
    (made : opened.session.contentText opened.module.type opened.module.name editor.options = .ok text)
    (wrote : ModuleStore.save editor.store opened.module.path text = .ok next)
    (round : Rewritten next final paths) (distinct : paths.Nodup)
    (listed : paths = [] ∨ ∃ listed, ModuleStore.listing next = .ok listed ∧ paths.Sublist (listed.map Prod.fst))
    (beside : ∀ path ∈ paths, path ≠ opened.module.path ∧
      ∃ parts, ModulePath.ofText? path = some parts ∧ parts.workspace = opened.module.workspace)
    (quiet : opened.module.type = .opMode → paths = []) :
    editor.Saved opened text paths
      { editor with store := final, current := some { opened with savedText := text } } := by
  obtain ⟨-, listing, known, fetched⟩ := save_frame keyed wrote
  have elsewhere : ∀ path, path ≠ opened.module.path →
      ModuleStore.fetch next path = ModuleStore.fetch editor.store path :=
    fun path differs => by rw [fetched, if_neg differs]
  exact {
    stored := by rw [round.frame _ fun member => (beside _ member).1 rfl, fetched, if_pos rfl]
    known
    current := rfl
    unmodified := isModified_eq rfl made
    listing := round.listing.trans listing
    changed := fun path differs => by
      rw [← elsewhere path differs]
      refine ⟨fun other => by_contra fun outside => other (round.frame path outside), fun member => ?_⟩
      obtain ⟨old, new, before, after, differs⟩ := round.changed path member
      rw [before, after]
      exact fun same => differs (Except.ok.inj same)
    beside
    distinct
    listed := by rwa [← listing]
    quiet }

/-- Saving changes the texts of the module and of those that it reports, or, if the module cannot be stored, nothing. -/
theorem save_texts (keyed : Keyed editor.store) (current : editor.current = some opened) :
    (∀ paths, editor.save.1 = .ok paths →
      ∃ text, editor.contentText = .ok text ∧ editor.Saved opened text paths editor.save.2) ∧
    ∀ text error, editor.contentText = .ok text →
      ModuleStore.save editor.store opened.module.path text = .error error →
        editor.save = (.error (.store error), editor) := by
  have opens : editor.getOpen = .ok opened := getOpen_eq_ok.mpr current
  refine ⟨fun paths answered => ?_, fun text error made refused => ?_⟩
  · rcases save_cases editor with ⟨error, same⟩ | ⟨_, text, next, open', made, wrote, same⟩
    · rw [same] at answered
      cases answered
    · obtain rfl : opened = _ := Option.some.inj (current.symm.trans open')
      refine ⟨text, by rw [contentText, opens]; exact made, ?_⟩
      have keyed' := (save_frame keyed wrote).1
      rw [same] at answered ⊢
      dsimp only at answered ⊢
      split at answered
      · next exports =>
        rw [if_pos exports]
        obtain ⟨round, distinct, listed, beside⟩ := syncDependents_rewritten keyed' (Prod.ext answered rfl)
        exact .of_rewritten keyed made wrote round distinct (.inr listed) beside fun opMode => by
          rw [opMode] at exports
          cases exports
      · next silent =>
        cases answered
        rw [if_neg silent]
        exact .of_rewritten keyed made wrote (.refl keyed') .nil (.inl rfl) (List.forall_mem_nil _) fun _ => rfl
  · simp only [save, made, opens, refused, fromStore, bind, Except.bind, Except.mapError]

/-- The outdated opmode of the workspace follows a robot, the same text elsewhere does not, and a store that does not
answer leaves the editor as it was. -/
theorem save_texts_followed :
    let robot : ModuleContent := { type := .robot }
    let outdated := "\x7b\"moduleType\":\"opmode\"\x7d"
    let store : Shelf := { modules := [("A/A.blk", ⟨.robot, "", 0⟩), ("A/N.blk", ⟨.opMode, outdated, 0⟩),
      ("B/N.blk", ⟨.opMode, outdated, 0⟩)] }
    let opened : OpenModule :=
      { module := ⟨"A/A.blk", .robot, "A", "A", 0⟩, session := {}, savedText := "", robot := none }
    let editor : Editor Shelf := { store, current := some opened }
    let silent : Editor Shelf := { editor with store := { store with available := false } }
    (editor.Saved opened robot.text ["A/N.blk"] editor.save.2 ∧
      ModuleStore.fetch editor.save.2.store "B/N.blk" = .ok outdated) ∧
      silent.save = (.error (.store .unavailable), silent) := by
  intro robot outdated store opened editor silent
  have ascending : (store.modules.map Prod.fst).Pairwise (· < ·) :=
    show ["A/A.blk", "A/N.blk", "B/N.blk"].Pairwise (· < ·) by decide
  have keyed : Keyed editor.store := List.pairwise_map.mp ascending
  have keyed' : Keyed silent.store := List.pairwise_map.mp ascending
  have answered : editor.save.1 = .ok ["A/N.blk"] := by decide +kernel
  have made : silent.contentText = .ok robot.text := rfl
  obtain ⟨text, shows, saved⟩ := (save_texts keyed rfl).1 _ answered
  obtain rfl : robot.text = text := Except.ok.inj (made.symm.trans shows)
  have elsewhere : ModuleStore.fetch editor.save.2.store "B/N.blk" = ModuleStore.fetch store "B/N.blk" := by
    by_contra other
    exact absurd ((saved.changed "B/N.blk" (by decide)).mp other) (by decide)
  exact ⟨⟨saved, elsewhere⟩, (save_texts keyed' rfl).2 _ _ made rfl⟩

end RobotBlocks.Editor
