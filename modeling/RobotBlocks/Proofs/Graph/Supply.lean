import RobotBlocks.Proofs.Graph.Allocation

/-! The supply of ids. Ids have 32 bits, so the counter above all ids stops at the last one. Once that
is in use, a new block gets the lowest free id, which a loop without a bound looks for; it ends before
it runs out of ids, as long as there are fewer blocks than ids. -/
namespace RobotBlocks

/-- The id that follows, if it has 32 bits. -/
def BlockId.next? (id : BlockId) : Option BlockId :=
  if id.number < last.number then some ⟨id.number + 1⟩ else none

theorem BlockId.next?_eq_some {id next : BlockId} (h : id.next? = some next) :
    next.number = id.number + 1 ∧ next.number ≤ last.number := by
  unfold next? at h
  split at h
  · next early =>
    cases h
    exact ⟨rfl, early⟩
  · cases h

/-- The numbers up to the last id are those of 32 bits. -/
theorem BlockId.le_last_iff {id : BlockId} : id.number ≤ last.number ↔ id.number < UInt32.size := by
  simp only [last, UInt32.size]
  omega

/-- No more distinct ids stand below a number than it counts. -/
theorem BlockId.length_le_of_lt {ids : List BlockId} {bound : Nat} (distinct : ids.Nodup)
    (below : ∀ id ∈ ids, id.number < bound) : ids.length ≤ bound := by
  have numbers : (ids.map BlockId.number).Nodup :=
    distinct.map fun ⟨_⟩ ⟨_⟩ same => congrArg BlockId.mk same
  have subset : ids.map BlockId.number ⊆ List.range bound := by
    intro n member
    obtain ⟨id, present, rfl⟩ := List.mem_map.mp member
    exact List.mem_range.mpr (below id present)
  simpa using (numbers.subperm subset).length_le

namespace Graph

variable {g g' : Graph} {id found : BlockId} {block : Block}

/-! The search. -/

/-- The loop that looks for a free id: the id to look at, or nothing, once the last id is in use as well
and there is none to go on to. -/
def searchStep (g : Graph) : Option BlockId → Option (Option BlockId)
  | none => none
  | some id => if g.contains id then some id.next? else none

/-- A new block gets this id: the one that the counter shows or, if that is in use, what the loop finds
from zero on. -/
def Allots (g : Graph) (id : BlockId) : Prop :=
  if g.contains ⟨g.nextNumber⟩ then Ends g.searchStep (some ⟨0⟩) (some id) else id = ⟨g.nextNumber⟩

/-- A loop that ends with an id has not run out of them, and the id is free. -/
theorem free_of_search {state : Option BlockId} (ends : Ends g.searchStep state (some found))
    (within : ∀ id ∈ state, id.number ≤ BlockId.last.number) :
    g.contains found = false ∧ found.number ≤ BlockId.last.number := by
  generalize reached : some found = final at ends
  induction ends with
  | stop done =>
    subst reached
    exact ⟨by simpa [searchStep] using done, within found rfl⟩
  | @again state next final more _ ih =>
    refine ih ?_ reached
    cases state with
    | none => cases more
    | some id =>
      simp only [searchStep, Option.ite_none_right_eq_some, Option.some.injEq] at more
      obtain ⟨-, rfl⟩ := more
      exact fun later here => (BlockId.next?_eq_some here).2

/-- Past ids in use the loop goes on to the first free one. -/
theorem search_ends {start n : Nat} (from_start : start ≤ n) (early : n ≤ BlockId.last.number)
    (passed : ∀ k, start ≤ k → k < n → g.contains ⟨k⟩ = true) (free : g.contains ⟨n⟩ = false) :
    Ends g.searchStep (some ⟨start⟩) (some ⟨n⟩) := by
  obtain ⟨distance, rfl⟩ := Nat.exists_eq_add_of_le from_start
  induction distance generalizing start with
  | zero => exact .stop (by simpa [searchStep] using free)
  | succ distance ih =>
    have taken := passed start (Nat.le_refl _) (by omega)
    have follows : BlockId.next? ⟨start⟩ = some ⟨start + 1⟩ := if_pos (by dsimp only; omega)
    have on : g.searchStep (some ⟨start⟩) = some (some ⟨start + 1⟩) := by simp [searchStep, taken, follows]
    have shift : start + (distance + 1) = start + 1 + distance := by omega
    rw [shift] at early passed free ⊢
    exact .again on (ih (by omega) early (fun k after => passed k (by omega)) free)

/-! The counter. -/

/-- The counter is above all ids in use, except that it stops at the last id. -/
structure Capped (g : Graph) : Prop where
  bounded : g.nextNumber ≤ BlockId.last.number
  above : ∀ id, g.contains id = true →
    id.number < g.nextNumber ∨ id = BlockId.last ∧ g.nextNumber = BlockId.last.number

namespace Capped

theorem le_last (capped : g.Capped) (present : g.contains id = true) :
    id.number ≤ BlockId.last.number := by
  rcases capped.above id present with below | ⟨rfl, -⟩
  · exact Nat.le_trans (Nat.le_of_lt below) capped.bounded
  · exact Nat.le_refl _

/-- Once the last id is in use, the counter rests there. -/
theorem rests (capped : g.Capped) (present : g.contains BlockId.last = true) :
    g.nextNumber = BlockId.last.number := by
  rcases capped.above _ present with below | ⟨-, rests⟩
  · exact absurd below (Nat.not_lt_of_le capped.bounded)
  · exact rests

/-- The id that the counter shows is in use only if it is the last one. -/
theorem contains_next_iff (capped : g.Capped) :
    g.contains ⟨g.nextNumber⟩ = true ↔ g.contains BlockId.last = true := by
  constructor
  · intro present
    rcases capped.above _ present with below | ⟨same, -⟩
    · exact absurd below (Nat.lt_irrefl _)
    · exact same ▸ present
  · intro present
    rw [capped.rests present]
    exact present

theorem persists (capped : g.Capped) (persists : g.Persists g') : g'.Capped where
  bounded := persists.counter ▸ capped.bounded
  above id present := by
    rw [persists.counter]
    exact capped.above id (contains_iff_mem.mpr (persists.ids (contains_iff_mem.mp present)))

/-- A block may come in under the last id if the counter is there already. -/
theorem place (capped : g.Capped) (fits : block.id.number < BlockId.last.number ∨
    block.id = BlockId.last ∧ g.nextNumber = BlockId.last.number) : (g.place block).Capped := by
  have bounded := capped.bounded
  have old : ∀ id, (g.place block).contains id = true → id = block.id ∨ g.contains id = true := by
    intro id present
    simpa [contains_iff_mem, (g.ids_place block).mem_iff] using present
  rcases fits with early | ⟨own, rests⟩
  · have counter := g.nextNumber_place early
    refine ⟨by omega, fun id present => ?_⟩
    rcases old id present with rfl | present
    · exact .inl (by omega)
    · rcases capped.above id present with below | ⟨same, rests⟩
      · exact .inl (by omega)
      · exact .inr ⟨same, by omega⟩
  · have counter : (g.place block).nextNumber = g.nextNumber := if_neg (by simp [own])
    refine ⟨by omega, fun id present => ?_⟩
    rw [counter]
    rcases old id present with rfl | present
    · exact .inr ⟨own, rests⟩
    · exact capped.above id present

theorem keptByLoading : KeptByLoading Capped where
  insert tree capped h := by
    obtain ⟨-, early, rfl⟩ := insertBlock_eq_ok.mp h
    exact capped.place (.inl early)
  attach capped h := by
    obtain ⟨-, -, -, -, -, rfl⟩ := attach_eq_ok.mp h
    exact capped.persists ((Moves.link _ _ _ _).persists rfl)

end Capped

theorem Capped.empty : empty.Capped :=
  ⟨Nat.zero_le _, nofun⟩

/-! What is given out. -/

/-- While the last id is free, the counter shows the new id; else it is the lowest free one. -/
theorem Capped.freshId_number (capped : g.Capped) :
    if g.contains BlockId.last then ∀ n < g.freshId.number, g.contains ⟨n⟩ = true
    else g.freshId = ⟨g.nextNumber⟩ := by
  unfold freshId
  simp only [capped.contains_next_iff]
  split
  · exact fun n => (g.lowestFree_spec g.size 0).1 n (Nat.zero_le n)
  · rfl

/-- With fewer blocks than ids, the new id has 32 bits, and the counter is ready for it. -/
theorem Capped.freshId_fits (capped : g.Capped) (room : g.size < UInt32.size) :
    g.freshId.number < BlockId.last.number ∨
      g.freshId = BlockId.last ∧ g.nextNumber = BlockId.last.number := by
  have number := capped.freshId_number
  split at number
  · next last =>
    -- All numbers below the new one are in use, so there are no more of them than blocks.
    have few := le_size number
    have within : g.freshId.number ≤ BlockId.last.number := by
      rw [BlockId.le_last_iff]
      omega
    rcases Nat.lt_or_eq_of_le within with early | same
    · exact .inl early
    · have free := g.freshId_fresh
      have own : g.freshId = BlockId.last := congrArg BlockId.mk same
      rw [own, last] at free
      cases free
  · rw [number]
    rcases Nat.lt_or_eq_of_le capped.bounded with early | same
    · exact .inl early
    · exact .inr ⟨congrArg BlockId.mk same, same⟩

/-- With an id left, there are fewer blocks than ids. -/
theorem Capped.size_lt (capped : g.Capped) (distinct : g.ids.Nodup) (free : g.contains found = false)
    (early : found.number ≤ BlockId.last.number) : g.size < UInt32.size := by
  have apart : found ∉ g.ids := by
    rw [← contains_iff_mem, free]
    exact Bool.false_ne_true
  have below : ∀ id ∈ found :: g.ids, id.number < UInt32.size := by
    intro id member
    rw [← BlockId.le_last_iff]
    rcases List.mem_cons.mp member with rfl | member
    · exact early
    · exact capped.le_last (contains_iff_mem.mpr member)
  have few := BlockId.length_le_of_lt (distinct.cons apart) below
  rw [List.length_cons, ids, List.length_map] at few
  exact few

theorem Capped.allots_freshId (capped : g.Capped) (room : g.size < UInt32.size) : g.Allots g.freshId := by
  have number := capped.freshId_number
  unfold Allots
  simp only [capped.contains_next_iff]
  split at number
  · next last =>
    rw [if_pos last]
    have early : g.freshId.number ≤ BlockId.last.number := by
      rcases capped.freshId_fits room with early | ⟨same, -⟩
      · exact Nat.le_of_lt early
      · exact Nat.le_of_eq (congrArg BlockId.number same)
    exact search_ends (Nat.zero_le _) early (fun k _ => number k) g.freshId_fresh
  · next free => rwa [if_neg free]

theorem Capped.free_of_allots (capped : g.Capped) (allots : g.Allots id) :
    g.contains id = false ∧ id.number ≤ BlockId.last.number := by
  unfold Allots at allots
  split at allots
  · exact free_of_search allots (by simp)
  · next free =>
    subst allots
    exact ⟨by simpa using free, capped.bounded⟩

theorem Allots.unique {other : BlockId} (one : g.Allots id) (two : g.Allots other) : id = other := by
  unfold Allots at one two
  split at one
  · next taken =>
    rw [if_pos taken] at two
    exact Option.some.inj (one.unique two)
  · next free =>
    rw [if_neg free] at two
    exact one.trans two.symm

/-! Runs. -/

/-- Whether the operation asks for a new id. -/
def Operation.asks : Operation → Bool
  | mutate (.add ..) => true
  | _ => false

/-- The graphs that operations reach from the empty graph or from a stored forest, where a new id is
asked for only while there are fewer blocks than ids: after that the search finds none. -/
inductive Roomy : Graph → Prop where
  | empty : Roomy empty
  | loaded {forest : Forest} {g : Graph} (h : ofForest forest = .ok g) : Roomy g
  | operated {g : Graph} (reached : Roomy g) (operation : Operation)
      (room : operation.asks = true → g.size < UInt32.size) : Roomy (g.operate operation)
  /-- Events come and go. -/
  | queued {g : Graph} (reached : Roomy g) (pending : EventQueue) : Roomy { g with pending }

theorem Roomy.assembled (reached : g.Roomy) : g.Assembled := by
  induction reached with
  | empty => exact .empty
  | loaded h => exact .loaded h
  | operated _ operation _ ih => exact ih.operated operation
  | queued _ pending ih => exact ih.queued pending

/-- An operation brings in no block, or one that has its id from outside, or one with a new id. -/
theorem operate_cases (g : Graph) (operation : Operation) : g.Persists (g.operate operation) ∨
    ∃ block, g.operate operation = g.place block ∧
      (block.id.number < BlockId.last.number ∨ operation.asks = true ∧ block.id = g.freshId) := by
  unfold operate
  split
  · next changed ran =>
    cases operation with
    | insert block =>
      obtain ⟨-, early, rfl⟩ := insertBlock_eq_ok.mp ran
      exact .inr ⟨block, rfl, .inl early⟩
    | mutate edit =>
      cases creates : edit.creates with
      | false => exact .inl (.run creates ran)
      | true =>
        cases edit with
        | add kind extra =>
          cases ran
          exact .inr ⟨_, rfl, .inr ⟨rfl, Block.id_create ..⟩⟩
        | insert id kind extra =>
          obtain ⟨-, early, rfl⟩ := insertBlock_eq_ok.mp ran
          exact .inr ⟨_, rfl, .inl early⟩
        | _ => cases creates
  · exact .inl ⟨rfl, List.Subset.refl _⟩

theorem Capped.operate (capped : g.Capped) (operation : Operation)
    (room : operation.asks = true → g.size < UInt32.size) : (g.operate operation).Capped := by
  rcases g.operate_cases operation with persists | ⟨block, placed, early | ⟨asks, own⟩⟩
  · exact capped.persists persists
  · exact placed ▸ capped.place (.inl early)
  · rw [placed]
    exact capped.place (own ▸ capped.freshId_fits (room asks))

theorem Roomy.capped (reached : g.Roomy) : g.Capped := by
  induction reached with
  | empty => exact .empty
  | loaded h => exact Capped.keptByLoading.ofForest .empty h
  | operated _ operation room ih => exact ih.operate operation room
  | queued _ pending ih => exact ⟨ih.bounded, ih.above⟩

theorem Tree.size_operate_le (tree : g.Tree) (operation : Operation) :
    (g.operate operation).size ≤ g.size + 1 := by
  have count : ∀ g : Graph, g.ids.length = g.size := fun _ => List.length_map _
  rw [← count, ← count]
  rcases g.operate_cases operation with persists | ⟨block, placed, -⟩
  · have kept := ((tree.operate operation).distinct.subperm persists.ids).length_le
    exact Nat.le_succ_of_le kept
  · rw [placed, (g.ids_place block).length_eq, List.length_cons]

/-- With no more operations than ids that are left, none asks in vain. -/
theorem Roomy.foldl_operate (reached : g.Roomy) {operations : List Operation}
    (room : g.size + operations.length ≤ UInt32.size) : (operations.foldl operate g).Roomy := by
  induction operations generalizing g with
  | nil => exact reached
  | cons operation operations ih =>
    rw [List.length_cons] at room
    have grown := reached.assembled.tree.size_operate_le operation
    exact ih (reached.operated operation fun _ => by omega) (by omega)

/-- A counter that has come to the last id stays there. -/
theorem nextNumber_foldl_operate (rests : g.nextNumber = BlockId.last.number) (operations : List Operation) :
    (operations.foldl operate g).nextNumber = BlockId.last.number := by
  induction operations generalizing g with
  | nil => exact rests
  | cons operation operations ih =>
    refine ih ?_
    rcases g.operate_cases operation with persists | ⟨block, placed, -⟩
    · exact persists.counter.trans rests
    · rw [placed]
      by_cases early : block.id.number < BlockId.last.number
      · rw [nextNumber_place g early, rests]
        omega
      · exact (if_neg early).trans rests

/-- As long as there are fewer blocks than ids, and not beyond, the search for a new id ends within 32
bits, and with the id that the graph gives out. No block has that id; it is the one that the counter
shows or, once the last id is in use, the lowest free one. The counter is above all ids in use, but once
the last id is in use it rests there, whatever comes after. -/
theorem Roomy.allots_iff (reached : g.Roomy) :
    (∀ id, g.Allots id ↔ g.size < UInt32.size ∧ id = g.freshId) ∧
    (∀ id, g.Allots id → g.contains id = false ∧ id.number < UInt32.size ∧
      if g.contains BlockId.last then ∀ n < id.number, g.contains ⟨n⟩ = true
      else id = ⟨g.nextNumber⟩) ∧
    (∀ id, g.contains id = true →
      id.number < g.nextNumber ∨ id = BlockId.last ∧ g.nextNumber = BlockId.last.number) ∧
    (g.contains BlockId.last = true → ∀ operations : List Operation,
      (operations.foldl operate g).nextNumber = BlockId.last.number) := by
  have capped := reached.capped
  have allots_iff : ∀ id, g.Allots id ↔ g.size < UInt32.size ∧ id = g.freshId := by
    intro id
    constructor
    · intro allots
      -- One id is free, so the blocks do not take them all.
      obtain ⟨free, early⟩ := capped.free_of_allots allots
      have room := capped.size_lt reached.assembled.tree.distinct free early
      exact ⟨room, allots.unique (capped.allots_freshId room)⟩
    · rintro ⟨room, rfl⟩
      exact capped.allots_freshId room
  refine ⟨allots_iff, fun id allots => ?_, capped.above, fun last => ?_⟩
  · obtain ⟨free, early⟩ := capped.free_of_allots allots
    obtain ⟨-, rfl⟩ := (allots_iff id).mp allots
    exact ⟨free, BlockId.le_last_iff.mp early, capped.freshId_number⟩
  · exact nextNumber_foldl_operate (capped.rests last)

/-- The second block gets the last id, the third one zero; after a delete, zero is found again. -/
theorem allots_iff_last_in_use :
    let operations : List Operation := [.insert (.create ⟨4294967294⟩ .text .none),
      .mutate (.add .text .none), .mutate (.add .text .none), .mutate (.add .text .none),
      .mutate (.delete ⟨0⟩ false)]
    let g := operations.foldl operate Graph.empty
    g.contains BlockId.last = true ∧ g.nextNumber = BlockId.last.number ∧ g.contains ⟨1⟩ = true ∧
      g.Allots ⟨0⟩ := by
  intro operations g
  have reached : g.Roomy := Roomy.empty.foldl_operate (by decide)
  obtain ⟨allots_iff, -, -, rests⟩ := reached.allots_iff
  have last : g.contains BlockId.last = true := by decide
  exact ⟨last, rests last [], by decide, (allots_iff ⟨0⟩).mpr ⟨by decide, by decide⟩⟩

end Graph
end RobotBlocks
