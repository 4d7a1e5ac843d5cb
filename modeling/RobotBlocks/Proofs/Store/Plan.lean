import Mathlib.Data.List.Nodup
import RobotBlocks.Proofs.Result
import RobotBlocks.Store.Basic

/-! Moves of workspaces. The modules of a workspace are looked up in a listing, each of them gets a path
under the new name, and then they are carried there one after the other. What comes of it is told by what is
stored under each path, whatever is stored. -/
namespace RobotBlocks

/-- The path of a module of some type under a new workspace. -/
def ModulePath.under (path : ModulePath) (type : ModuleType) (workspace : String) : ModulePath :=
  if type = .robot then .robot workspace else ⟨workspace, path.module⟩

theorem landing_eq (entry : ModuleEntry) (path : ModulePath) (newName : String) :
    landing entry path newName = (path.under entry.type newName).text := by
  unfold landing ModulePath.under
  split <;> rfl

section Views

variable {α : Type} (type : α → ModuleType)

/-- A module of the old workspace is stored under the source, and the target is its path under the new
name. -/
def Lands (view : String → Option α) (oldName newName source target : String) : Prop :=
  ∃ own path, view source = some own ∧ ModulePath.ofText? source = some path ∧ path.workspace = oldName ∧
    target = (path.under (type own) newName).text

theorem Lands.target_unique {type : α → ModuleType} {view : String → Option α}
    {oldName newName source target target' : String} (lands : Lands type view oldName newName source target)
    (again : Lands type view oldName newName source target') : target = target' := by
  obtain ⟨own, path, here, parts, -, rfl⟩ := lands
  obtain ⟨own', path', here', parts', -, rfl⟩ := again
  cases here.symm.trans here'
  cases parts.symm.trans parts'
  rfl

/-- What a move of a workspace makes of what is stored. -/
structure Relocated (mark : α → α) (copy : Bool) (oldName newName : String)
    (before after : String → Option α) : Prop where
  named : isValidName newName = true
  /-- Every module of the workspace is there again, under a path that was free … -/
  arrived : ∀ source target, Lands type before oldName newName source target →
    before target = none ∧ ∃ own, before source = some own ∧ after target = some (mark own)
  /-- … and that no other one got. -/
  apart : ∀ first second target, Lands type before oldName newName first target →
    Lands type before oldName newName second target → first = second
  old : ∀ source target, Lands type before oldName newName source target →
    after source = if copy then before source else none
  others : ∀ path, (∀ target, ¬ Lands type before oldName newName path target) →
    (∀ source, ¬ Lands type before oldName newName source path) → after path = before path

/-- Why a workspace is not moved. -/
inductive Hindered (oldName newName : String) (view : String → Option α) : Prop where
  | name (invalid : isValidName newName = false)
  | missing (none : ∀ text path, ModulePath.ofText? text = some path → path.workspace = oldName →
      view text = none)
  | collision {first second target : String} (differ : first ≠ second)
      (one : Lands type view oldName newName first target)
      (other : Lands type view oldName newName second target)
  | taken {source target : String} (lands : Lands type view oldName newName source target)
      (there : (view target).isSome = true)

end Views

/-! The plan. -/

section Plan

variable {entries : List ModuleEntry} {oldName newName : String} {moves result : List (String × String)}

/-- The move of an entry: none unless its module is one of the old workspace. -/
def ModuleEntry.move? (oldName newName : String) (entry : ModuleEntry) : Option (String × String) :=
  match ModulePath.ofText? entry.path with
  | none => none
  | some path => if path.workspace = oldName then some (entry.path, landing entry path newName) else none

theorem ModuleEntry.move?_eq_some {entry : ModuleEntry} {move : String × String} :
    entry.move? oldName newName = some move ↔ move.1 = entry.path ∧ ∃ path,
      ModulePath.ofText? entry.path = some path ∧ path.workspace = oldName ∧
        move.2 = (path.under entry.type newName).text := by
  obtain ⟨source, target⟩ := move
  unfold move?
  cases ModulePath.ofText? entry.path with
  | none => simp
  | some path =>
    by_cases own : path.workspace = oldName
    · simp [own, landing_eq, eq_comm]
    · simp [own]

/-- The moves of a listing, in its order. -/
def movesOf (entries : List ModuleEntry) (oldName newName : String) : List (String × String) :=
  entries.filterMap (·.move? oldName newName)

/-- By induction on the entries: each of them adds nothing, or a move to a path that is not aimed at yet. -/
theorem landings_eq_ok (fresh : (moves.map (·.2)).Nodup) :
    landings oldName newName entries moves = .ok result ↔
      result = moves ++ movesOf entries oldName newName ∧ (result.map (·.2)).Nodup := by
  induction entries generalizing moves with
  | nil =>
    simp only [landings, movesOf, List.filterMap_nil, List.append_nil, Except.ok.injEq]
    exact ⟨fun same => ⟨same.symm, same ▸ fresh⟩, fun both => both.1.symm⟩
  | cons entry rest ih =>
    unfold landings
    cases parsed : ModulePath.ofText? entry.path with
    | none =>
      have still : entry.move? oldName newName = none := by simp [ModuleEntry.move?, parsed]
      simpa only [movesOf, List.filterMap_cons, still] using ih fresh
    | some path =>
      by_cases own : path.workspace = oldName
      · have move : entry.move? oldName newName = some (entry.path, landing entry path newName) := by
          simp [ModuleEntry.move?, parsed, own]
        simp only [own, ne_eq, not_true, if_false, movesOf, List.filterMap_cons, move]
        by_cases aimed : landing entry path newName ∈ moves.map (·.2)
        · rw [if_pos (by simpa using aimed)]
          refine iff_of_false nofun ?_
          rintro ⟨rfl, distinct⟩
          rw [List.map_append, List.map_cons] at distinct
          exact List.nodup_append.mp distinct |>.2.2 _ aimed _ (List.mem_cons_self ..) rfl
        · rw [if_neg (by simpa using aimed)]
          have fresh' : ((moves ++ [(entry.path, landing entry path newName)]).map (·.2)).Nodup := by
            rw [List.map_append, List.map_singleton, List.nodup_append_comm]
            exact List.nodup_cons.mpr ⟨aimed, fresh⟩
          simpa only [movesOf, List.append_assoc, List.singleton_append] using ih fresh'
      · have still : entry.move? oldName newName = none := by simp [ModuleEntry.move?, parsed, own]
        simpa only [own, ne_eq, not_false_iff, if_true, movesOf, List.filterMap_cons, still] using ih fresh

theorem landings_nil_eq_ok : landings oldName newName entries [] = .ok result ↔
    result = movesOf entries oldName newName ∧ (result.map (·.2)).Nodup := by
  have fresh : (([] : List (String × String)).map (·.2)).Nodup := List.nodup_nil
  simpa only [List.nil_append] using landings_eq_ok fresh

/-- Modules that are carried: each is listed once, and no two of them get the same new path, or one that is
listed. -/
structure Movable (entries : List ModuleEntry) (moves : List (String × String)) : Prop where
  sources : (moves.map (·.1)).Sublist (entries.map (·.path))
  distinct : (moves.map (·.2)).Nodup
  free : ∀ move ∈ moves, ∀ entry ∈ entries, entry.path ≠ move.2

theorem movesOf_sources (entries : List ModuleEntry) :
    ((movesOf entries oldName newName).map (·.1)).Sublist (entries.map (·.path)) := by
  induction entries with
  | nil => exact .slnil
  | cons entry rest ih =>
    rw [movesOf, List.filterMap_cons]
    cases moved : entry.move? oldName newName with
    | none => exact ih.cons _
    | some move =>
      rw [List.map_cons, List.map_cons, (ModuleEntry.move?_eq_some.mp moved).1]
      exact ih.cons_cons _

theorem planWorkspaceMove_eq_ok : planWorkspaceMove entries oldName newName = .ok moves ↔
    isValidName newName = true ∧ moves = movesOf entries oldName newName ∧ moves ≠ [] ∧ Movable entries moves := by
  have movable : ∀ {moves}, moves = movesOf entries oldName newName → ((moves.map (·.2)).Nodup ∧
      (∀ move ∈ moves, ∀ entry ∈ entries, entry.path ≠ move.2) ↔ Movable entries moves) :=
    fun is => ⟨fun ⟨distinct, free⟩ => ⟨is ▸ movesOf_sources entries, distinct, free⟩,
      fun movable => ⟨movable.distinct, movable.free⟩⟩
  simp only [planWorkspaceMove, throw_bind, refuse_eq_ok, bind_eq_ok, landings_nil_eq_ok,
    Bool.not_eq_true', Bool.not_eq_false, List.isEmpty_iff]
  refine and_congr_right fun _ => ?_
  have search : ∀ moves : List (String × String),
      ((moves.find? fun move => entries.any fun entry => entry.path = move.2) = none
        ↔ ∀ move ∈ moves, ∀ entry ∈ entries, entry.path ≠ move.2) := by
    intro moves
    simp only [List.find?_eq_none, List.any_eq_true, decide_eq_true_eq, not_exists, not_and]
  constructor
  · rintro ⟨landed, ⟨is, distinct⟩, some, planned⟩
    split at planned
    · exact absurd planned throw_ne_ok
    · next free =>
      obtain rfl := pure_eq_ok.mp planned
      exact ⟨is, some, (movable is).mp ⟨distinct, (search landed).mp free⟩⟩
  · rintro ⟨is, some, fits⟩
    refine ⟨moves, ⟨is, fits.distinct⟩, some, ?_⟩
    rw [(search moves).mpr fits.free]
    rfl

end Plan

/-! A listing of what is stored. -/

section Listing

variable {α : Type} {type : α → ModuleType} {entries : List ModuleEntry} {view : String → Option α}
  {oldName newName : String}

/-- Every stored module is listed once, with its type. -/
structure Listing (type : α → ModuleType) (view : String → Option α) (entries : List ModuleEntry) : Prop where
  distinct : (entries.map (·.path)).Nodup
  sound : ∀ entry ∈ entries, ∃ own, view entry.path = some own ∧ type own = entry.type
  complete : ∀ path, (view path).isSome = true → ∃ entry ∈ entries, entry.path = path

namespace Listing

variable (listing : Listing type view entries)
include listing

theorem mem_movesOf {source target : String} :
    (source, target) ∈ movesOf entries oldName newName ↔ Lands type view oldName newName source target := by
  simp only [movesOf, List.mem_filterMap, ModuleEntry.move?_eq_some]
  constructor
  · rintro ⟨entry, known, rfl, path, parsed, own, aimed⟩
    obtain ⟨stored, here, typed⟩ := listing.sound entry known
    exact ⟨stored, path, here, parsed, own, typed ▸ aimed⟩
  · rintro ⟨stored, path, here, parsed, own, aimed⟩
    obtain ⟨entry, known, rfl⟩ := listing.complete source (by rw [here]; rfl)
    obtain ⟨stored', here', typed⟩ := listing.sound entry known
    cases here.symm.trans here'
    exact ⟨entry, known, rfl, path, parsed, own, typed ▸ aimed⟩

theorem free_iff {path : String} : (∀ entry ∈ entries, entry.path ≠ path) ↔ view path = none := by
  constructor
  · intro free
    by_contra stored
    obtain ⟨entry, known, same⟩ := listing.complete path (Option.isSome_iff_ne_none.mpr stored)
    exact free entry known same
  · rintro none entry known rfl
    obtain ⟨own, here, -⟩ := listing.sound entry known
    cases none.symm.trans here

theorem movesOf_eq_nil : movesOf entries oldName newName = [] ↔
    ∀ text path, ModulePath.ofText? text = some path → path.workspace = oldName → view text = none := by
  rw [List.eq_nil_iff_forall_not_mem]
  constructor
  · intro still text path parsed own
    by_contra stored
    obtain ⟨module, here⟩ := Option.ne_none_iff_exists'.mp stored
    exact still (text, (path.under (type module) newName).text)
      (listing.mem_movesOf.mpr ⟨module, path, here, parsed, own, rfl⟩)
  · rintro none ⟨source, target⟩ moved
    obtain ⟨module, path, here, parsed, own, -⟩ := listing.mem_movesOf.mp moved
    cases (none source path parsed own).symm.trans here

/-- Each module has one move. -/
theorem movesOf_nodup : ((movesOf entries oldName newName).map (·.1)).Nodup :=
  listing.distinct.sublist (movesOf_sources entries)

theorem targets_nodup : ((movesOf entries oldName newName).map (·.2)).Nodup ↔
    ∀ first second target, Lands type view oldName newName first target →
      Lands type view oldName newName second target → first = second := by
  have once : (movesOf entries oldName newName).Nodup := listing.movesOf_nodup.of_map
  constructor
  · intro distinct first second target one other
    exact congrArg Prod.fst (List.inj_on_of_nodup_map distinct (listing.mem_movesOf.mpr one)
      (listing.mem_movesOf.mpr other) rfl)
  · intro apart
    refine once.map_on fun move member other member' same => ?_
    obtain ⟨source, target⟩ := move
    obtain ⟨source', target'⟩ := other
    obtain rfl : target = target' := same
    rw [apart source source' target (listing.mem_movesOf.mp member) (listing.mem_movesOf.mp member')]

/-- A plan is refused for the reasons there are. -/
theorem plan_refused_iff :
    (∃ error, planWorkspaceMove entries oldName newName = .error error) ↔ Hindered type oldName newName view := by
  constructor
  · rintro ⟨error, refused⟩
    by_contra clear
    have valid : isValidName newName = true := by
      by_contra invalid
      exact clear (.name (Bool.eq_false_iff.mpr invalid))
    have some : movesOf entries oldName newName ≠ [] := fun none => clear (.missing (listing.movesOf_eq_nil.mp none))
    have distinct : ((movesOf entries oldName newName).map (·.2)).Nodup := by
      refine listing.targets_nodup.mpr fun first second target one other => ?_
      by_contra differ
      exact clear (.collision differ one other)
    have free : ∀ move ∈ movesOf entries oldName newName, ∀ entry ∈ entries, entry.path ≠ move.2 := by
      refine fun move member => listing.free_iff.mpr ?_
      by_contra there
      exact clear (.taken (listing.mem_movesOf.mp member) (Option.isSome_iff_ne_none.mpr there))
    have planned := planWorkspaceMove_eq_ok.mpr ⟨valid, rfl, some, movesOf_sources entries, distinct, free⟩
    cases refused.symm.trans planned
  · intro hindered
    cases planned : planWorkspaceMove entries oldName newName with
    | error error => exact ⟨error, rfl⟩
    | ok moves =>
      obtain ⟨valid, rfl, some, movable⟩ := planWorkspaceMove_eq_ok.mp planned
      cases hindered with
      | name invalid => cases valid.symm.trans invalid
      | missing none => exact absurd (listing.movesOf_eq_nil.mpr none) some
      | collision differ one other =>
        exact absurd (listing.targets_nodup.mp movable.distinct _ _ _ one other) differ
      | taken lands there =>
        have free := listing.free_iff.mp (movable.free _ (listing.mem_movesOf.mpr lands))
        rw [free] at there
        cases there

end Listing

end Listing

/-! One module after the other. -/

section Carrying

variable {σ α ε : Type} {view : σ → String → Option α} {mark : α → α} {copy : Bool} {Good : σ → Prop}
  {step : σ → String × String → Except ε σ} {moves : List (String × String)} {store : σ}

/-- A step carries what is stored under one path to another one, which is free, and unless it is copied it
is gone from the first. -/
def Delivers (view : σ → String → Option α) (mark : α → α) (copy : Bool) (Good : σ → Prop)
    (step : σ → String × String → Except ε σ) : Prop :=
  ∀ store source target own, Good store → view store source = some own → view store target = none →
    ∃ after, step store (source, target) = .ok after ∧ Good after ∧ ∀ other, view after other =
      if copy = false ∧ other = source then none
      else if other = target then some (mark own) else view store other

/-- Moves that do not meet: no two of one source, no two to one target, every source stored, every target
free. -/
structure Separate (view : String → Option α) (moves : List (String × String)) : Prop where
  sources : (moves.map (·.1)).Nodup
  targets : (moves.map (·.2)).Nodup
  stored : ∀ move ∈ moves, (view move.1).isSome = true
  free : ∀ move ∈ moves, view move.2 = none

/-- What moves that do not meet leave of what is stored. -/
structure Delivered (mark : α → α) (copy : Bool) (moves : List (String × String))
    (before after : String → Option α) : Prop where
  arrived : ∀ move ∈ moves, after move.2 = (before move.1).map mark
  old : ∀ move ∈ moves, after move.1 = if copy then before move.1 else none
  others : ∀ path, (∀ move ∈ moves, path ≠ move.1 ∧ path ≠ move.2) → after path = before path

section First

variable {before between after : String → Option α} {source target : String} {rest : List (String × String)} {own : α}
  (apart : Separate before ((source, target) :: rest)) (here : before source = some own)
  (views : ∀ other, between other = if copy = false ∧ other = source then none
    else if other = target then some (mark own) else before other)
include apart here

/-- No path of a later move is one of the first. -/
theorem Separate.first {move : String × String} (member : move ∈ rest) :
    (move.1 ≠ source ∧ move.1 ≠ target) ∧ move.2 ≠ source ∧ move.2 ≠ target := by
  obtain ⟨once, -⟩ := List.nodup_cons.mp apart.sources
  obtain ⟨single, -⟩ := List.nodup_cons.mp apart.targets
  have free : before target = none := apart.free _ (List.mem_cons_self ..)
  have stored := apart.stored move (List.mem_cons_of_mem _ member)
  have vacant := apart.free move (List.mem_cons_of_mem _ member)
  refine ⟨⟨fun same => once (List.mem_map.mpr ⟨move, member, same⟩), fun same => ?_⟩, fun same => ?_,
    fun same => single (List.mem_map.mpr ⟨move, member, same⟩)⟩
  · rw [same, free] at stored
    cases stored
  · rw [same, here] at vacant
    cases vacant

include views

/-- The first move leaves the later ones as they were. -/
theorem Separate.kept {move : String × String} (member : move ∈ rest) :
    between move.1 = before move.1 ∧ between move.2 = before move.2 := by
  obtain ⟨⟨otherSource, freshSource⟩, otherTarget, freshTarget⟩ := apart.first here member
  rw [views, views, if_neg fun both => otherSource both.2, if_neg freshSource,
    if_neg fun both => otherTarget both.2, if_neg freshTarget]
  exact ⟨rfl, rfl⟩

theorem Separate.tail : Separate between rest where
  sources := (List.nodup_cons.mp apart.sources).2
  targets := (List.nodup_cons.mp apart.targets).2
  stored move member := by
    rw [(apart.kept here views member).1]
    exact apart.stored move (List.mem_cons_of_mem _ member)
  free move member := by
    rw [(apart.kept here views member).2]
    exact apart.free move (List.mem_cons_of_mem _ member)

/-- The later moves leave the first one as it came out. -/
theorem Delivered.cons (carried : Delivered mark copy rest between after) :
    Delivered mark copy ((source, target) :: rest) before after := by
  have free : before target = none := apart.free _ (List.mem_cons_self ..)
  have differ : source ≠ target := by
    rintro rfl
    cases here.symm.trans free
  have past : ∀ path, (∀ move ∈ rest, path ≠ move.1 ∧ path ≠ move.2) → after path = between path := carried.others
  refine ⟨fun move member => ?_, fun move member => ?_, fun path away => ?_⟩
  · rcases List.mem_cons.mp member with rfl | member
    · rw [past target fun move member => ⟨(apart.first here member).1.2.symm, (apart.first here member).2.2.symm⟩,
        views, if_neg fun both => differ both.2.symm, if_pos rfl, here, Option.map_some]
    · rw [carried.arrived move member, (apart.kept here views member).1]
  · rcases List.mem_cons.mp member with rfl | member
    · rw [past source fun move member => ⟨(apart.first here member).1.1.symm, (apart.first here member).2.1.symm⟩,
        views, if_neg differ]
      cases copy <;> simp
    · rw [carried.old move member, (apart.kept here views member).1]
  · obtain ⟨notSource, notTarget⟩ := away _ (List.mem_cons_self ..)
    rw [past path fun move member => away move (List.mem_cons_of_mem _ member), views,
      if_neg fun both => notSource both.2, if_neg notTarget]

end First

/-- By induction on the moves: the first one is not touched by the later ones, nor are they by it. -/
theorem Delivers.foldlM (carries : Delivers view mark copy Good step) (good : Good store)
    (apart : Separate (view store) moves) : ∃ after, moves.foldlM step store = .ok after ∧ Good after ∧
      Delivered mark copy moves (view store) (view after) := by
  induction moves generalizing store with
  | nil => exact ⟨store, rfl, good, nofun, nofun, fun _ _ => rfl⟩
  | cons move rest ih =>
    obtain ⟨source, target⟩ := move
    obtain ⟨own, here⟩ := Option.isSome_iff_exists.mp (apart.stored _ (List.mem_cons_self ..))
    obtain ⟨between, first, good', views⟩ :=
      carries store source target own good here (apart.free _ (List.mem_cons_self ..))
    obtain ⟨after, later, good'', carried⟩ := ih good' (apart.tail here views)
    exact ⟨after, by rw [List.foldlM_cons, first]; exact later, good'', carried.cons apart here views⟩

end Carrying

/-! A planned move. -/

section Planned

variable {σ α ε : Type} {type : α → ModuleType} {view : σ → String → Option α} {mark : α → α} {copy : Bool}
  {Good : σ → Prop} {step : σ → String × String → Except ε σ} {entries : List ModuleEntry}
  {moves : List (String × String)} {store : σ} {oldName newName : String}

theorem Listing.separate {view : String → Option α} (listing : Listing type view entries)
    (movable : Movable entries moves) : Separate view moves where
  sources := listing.distinct.sublist movable.sources
  targets := movable.distinct
  stored move member := by
    obtain ⟨entry, known, same⟩ := List.mem_map.mp (movable.sources.subset (List.mem_map_of_mem member))
    obtain ⟨own, here, -⟩ := listing.sound entry known
    rw [← same, here]
    rfl
  free move member := listing.free_iff.mp (movable.free move member)

/-- A planned move does not stop halfway, and it relocates the workspace. -/
theorem Delivers.relocates (carries : Delivers view mark copy Good step) (good : Good store)
    (listing : Listing type (view store) entries)
    (planned : planWorkspaceMove entries oldName newName = .ok moves) :
    ∃ after, moves.foldlM step store = .ok after ∧ Good after ∧
      Relocated type mark copy oldName newName (view store) (view after) := by
  obtain ⟨valid, rfl, -, movable⟩ := planWorkspaceMove_eq_ok.mp planned
  have apart := listing.separate movable
  obtain ⟨after, ran, good', carried⟩ := carries.foldlM good apart
  refine ⟨after, ran, good', valid, fun source target lands => ?_, listing.targets_nodup.mp movable.distinct,
    fun source target lands => carried.old _ (listing.mem_movesOf.mpr lands), fun path notOld notNew => ?_⟩
  · have member := listing.mem_movesOf.mpr lands
    obtain ⟨own, here⟩ := Option.isSome_iff_exists.mp (apart.stored _ member)
    exact ⟨apart.free _ member, own, here, by rw [carried.arrived _ member, here, Option.map_some]⟩
  · refine carried.others path fun move member => ⟨?_, ?_⟩
    · rintro rfl
      exact notOld move.2 (listing.mem_movesOf.mp member)
    · rintro rfl
      exact notNew move.1 (listing.mem_movesOf.mp member)

end Planned
end RobotBlocks
