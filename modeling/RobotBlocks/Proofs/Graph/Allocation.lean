import RobotBlocks.Proofs.Graph.History

/-! Which ids fresh blocks get over a whole run of edits and reloads. The counter of a graph stands
above all ids that the graph has seen, but it is not stored: a reload sets it above the ids that are
left, and an id above them that was lost before is given out again. -/
namespace RobotBlocks

/-- The number above all the ids. -/
def ceiling : List BlockId → Nat
  | [] => 0
  | id :: ids => max (id.number + 1) (ceiling ids)

theorem ceiling_le {ids : List BlockId} {bound : Nat} :
    ceiling ids ≤ bound ↔ ∀ id ∈ ids, id.number < bound := by
  induction ids with
  | nil => simp [ceiling]
  | cons id ids ih => rw [ceiling, Nat.max_le, ih, List.forall_mem_cons, Nat.succ_le_iff]

theorem lt_ceiling {id : BlockId} {ids : List BlockId} (member : id ∈ ids) :
    id.number < ceiling ids :=
  ceiling_le.mp (Nat.le_refl _) id member

theorem ceiling_mono {ids others : List BlockId} (subset : ids ⊆ others) :
    ceiling ids ≤ ceiling others :=
  ceiling_le.mpr fun _ member => lt_ceiling (subset member)

theorem ceiling_append (ids others : List BlockId) :
    ceiling (ids ++ others) = max (ceiling ids) (ceiling others) := by
  induction ids with
  | nil => simp [ceiling]
  | cons id ids ih => simp [ceiling, ih, Nat.max_assoc]

namespace Graph

variable {g g' : Graph}

/-! The counter under single operations. -/

theorem ids_place (g : Graph) (block : Block) : (g.place block).ids.Perm (block.id :: g.ids) :=
  (insertNode_perm { block } g.nodes).map Node.id

theorem ceiling_place (g : Graph) (block : Block) :
    ceiling (g.place block).ids = max (block.id.number + 1) (ceiling g.ids) := by
  have perm := g.ids_place block
  exact Nat.le_antisymm (ceiling_mono perm.subset) (ceiling_mono perm.symm.subset)

theorem nextNumber_place (g : Graph) {block : Block} (early : block.id.number < BlockId.last.number) :
    (g.place block).nextNumber = max g.nextNumber (block.id.number + 1) :=
  if_pos early

theorem nextNumber_detach (g : Graph) (id : BlockId) (heal : Bool) :
    (g.detach id heal).nextNumber = g.nextNumber := by
  unfold detach
  split
  · rfl
  · dsimp only
    split <;> rfl

theorem nextNumber_removeNode (g : Graph) (id : BlockId) :
    (g.removeNode id).nextNumber = g.nextNumber := by
  unfold removeNode
  split <;> rfl

theorem nextNumber_unplug {id : BlockId} {heal : Bool} (h : g.unplug id heal = .ok g') :
    g'.nextNumber = g.nextNumber := by
  rcases unplug_cases h with ⟨-, rfl⟩ | ⟨_, _, -, rfl⟩
  · rfl
  · exact nextNumber_detach g id heal

theorem nextNumber_connectNext {parent id : BlockId} (h : g.connectNext parent id = .ok g') :
    g'.nextNumber = g.nextNumber := by
  obtain ⟨kind, above, -, -, -, rfl⟩ := connectNext_cases h
  have loose := nextNumber_detach g id false
  dsimp only [emit, push]
  split
  · next displaced _ => exact (nextNumber_detach _ displaced false).trans loose
  · exact loose

theorem nextNumber_connectSocket {parent child : BlockId} {socket : String}
    (h : g.connectSocket parent socket child = .ok g') : g'.nextNumber = g.nextNumber := by
  obtain ⟨kind, owner, socketKind, vacated, -, -, -, -, rfl, made⟩ := connectSocket_cases h
  have loose := nextNumber_detach g child false
  have before : vacated.nextNumber = g.nextNumber := by
    split at made
    · exact made ▸ loose
    · exact (nextNumber_unplug made).trans loose
    · next occupant _ => exact made ▸ (nextNumber_detach _ occupant false).trans loose
  exact before

/-- A graph goes on without a new block. -/
structure Persists (g g' : Graph) : Prop where
  counter : g'.nextNumber = g.nextNumber
  ids : g'.ids ⊆ g.ids

theorem Moves.persists (moves : g.Moves g') (counter : g'.nextNumber = g.nextNumber) :
    g.Persists g' :=
  ⟨counter, moves.ids ▸ List.Subset.refl _⟩

theorem Persists.updateBlock (g : Graph) {id : BlockId} {change : Block → Block}
    (keeps : ∀ block, block.id = id → (change block).id = id) : g.Persists (g.updateBlock id change) :=
  ⟨rfl, ids_updateBlock g id change keeps ▸ List.Subset.refl _⟩

theorem Persists.removeNode (persists : g.Persists g') (id : BlockId) :
    g.Persists (g'.removeNode id) := by
  refine ⟨(nextNumber_removeNode g' id).trans persists.counter, ?_⟩
  rw [ids_removeNode]
  exact fun other member => persists.ids (List.mem_of_mem_filter member)

theorem Persists.foldl_removeNode (persists : g.Persists g') (doomed : List BlockId) :
    g.Persists (doomed.foldl Graph.removeNode g') := by
  induction doomed generalizing g' with
  | nil => exact persists
  | cons id doomed ih => exact ih (persists.removeNode id)

theorem Persists.deleteBlock {id : BlockId} {heal : Bool} {doomed : List BlockId}
    (h : g.deleteBlock id heal = .ok (doomed, g')) : g.Persists g' := by
  obtain ⟨-, -, rfl⟩ := deleteBlock_eq_ok.mp h
  exact ((Moves.detach g id heal).persists (nextNumber_detach g id heal)).foldl_removeNode _

def Mutation.creates : Mutation → Bool
  | .add .. | .insert .. => true
  | _ => false

theorem Persists.run {edit : Mutation} (kept : edit.creates = false) (h : edit.run g = .ok g') :
    g.Persists g' := by
  cases edit with
  | add kind extra => cases kept
  | insert id kind extra => cases kept
  | delete id heal =>
    obtain ⟨⟨doomed, rest⟩, deleted, rfl⟩ := map_eq_ok.mp h
    exact .deleteBlock deleted
  | unplug id heal => exact (Moves.unplug h).persists (nextNumber_unplug h)
  | connectNext previous id => exact (Moves.connectNext h).persists (nextNumber_connectNext h)
  | connectSocket parent socket child =>
    exact (Moves.connectSocket h).persists (nextNumber_connectSocket h)
  | setField id name value =>
    obtain ⟨⟨old, edited⟩, set, rfl⟩ := map_eq_ok.mp h
    obtain ⟨block, -, -, rfl⟩ := setField_cases set
    have edited : g.Persists (g.updateBlock id fun block =>
        { block with fields := block.fields.put name value }) := .updateBlock g fun _ same => same
    dsimp only
    split
    · exact edited
    · exact ⟨edited.counter, edited.ids⟩
  | setExtra id extra =>
    obtain ⟨block, found, -, rfl⟩ := setExtra_eq_ok.mp h
    have named := block?_id found
    have edited : g.Persists (g.updateBlock id fun _ => block.withExtra extra) :=
      .updateBlock g fun _ _ => by simpa using named
    exact ⟨edited.counter, edited.ids⟩
  | setSignature id changes =>
    obtain ⟨block, found, -, rfl⟩ := setSignature_cases h
    have edited : g.Persists (g.updateBlock id fun current => ({ current with
        extra := block.extra.withParams (changes.map (·.param)) } : Block).showParams) :=
      .updateBlock g fun _ same => by simpa using same
    exact ⟨edited.counter, edited.ids⟩
  | setWarning id warning =>
    obtain ⟨-, rfl⟩ := setWarning_eq_ok.mp h
    exact .updateBlock g fun _ same => same

theorem place_of_run {edit : Mutation} (creates : edit.creates = true) (h : edit.run g = .ok g') :
    ∃ block, g' = g.place block := by
  cases edit with
  | add kind extra =>
    cases h
    exact ⟨_, rfl⟩
  | insert id kind extra =>
    obtain ⟨-, -, rfl⟩ := insertBlock_eq_ok.mp h
    exact ⟨_, rfl⟩
  | _ => cases creates

/-! The counter of a rebuilt graph. -/

/-- The counter of a graph that has lost no block since it was rebuilt. -/
def CountsIds (g : Graph) : Prop := g.nextNumber = ceiling g.ids

theorem CountsIds.insertBlock {block : Block} (counts : g.CountsIds)
    (h : g.insertBlock block = .ok g') : g'.CountsIds := by
  obtain ⟨-, early, rfl⟩ := insertBlock_eq_ok.mp h
  rw [CountsIds, nextNumber_place g early, ceiling_place, counts, Nat.max_comm]

theorem CountsIds.attach {parent child : BlockId} {hook : Link} (counts : g.CountsIds)
    (h : g.attach parent hook child = .ok g') : g'.CountsIds := by
  obtain ⟨-, -, -, -, -, rfl⟩ := attach_eq_ok.mp h
  rw [CountsIds, (Moves.link g parent hook child).ids]
  exact counts

theorem CountsIds.ofForest {forest : Forest} (h : ofForest forest = .ok g) : g.CountsIds := by
  have kept : KeptByLoading CountsIds :=
    ⟨fun _ counts inserted => counts.insertBlock inserted, fun counts hung => counts.attach hung⟩
  exact kept.ofForest rfl h

/-! Runs. -/

/-- What is done with a graph next: one edit, or a reload from its own stored form. -/
inductive Turn where
  | edit (edit : Mutation)
  | reload
  deriving DecidableEq, Repr

/-- A run up to here: the graph, the ids that blocks have had at any time, and the ids that blocks
have had since the last reload. -/
structure Course where
  graph : Graph
  had : List BlockId
  recent : List BlockId

namespace Course

def start (g : Graph) : Course := ⟨g, g.ids, g.ids⟩

/-- A reload that is refused changes nothing. -/
def take (course : Course) : Turn → Course
  | .edit edit =>
    let g := course.graph.mutate edit
    ⟨g, course.had ++ g.ids, course.recent ++ g.ids⟩
  | .reload =>
    match ofForest course.graph.toForest with
    | .ok g => ⟨g, course.had ++ g.ids, g.ids⟩
    | .error _ => course

def run (course : Course) (turns : List Turn) : Course := turns.foldl take course

/-- The counter stands just above the recent ids. -/
structure Counted (course : Course) : Prop where
  counter : course.graph.nextNumber = ceiling course.recent
  present : course.graph.ids ⊆ course.recent

variable {course : Course}

theorem had_subset_take (course : Course) (turn : Turn) : course.had ⊆ (course.take turn).had := by
  cases turn with
  | edit edit => exact List.subset_append_left ..
  | reload =>
    simp only [take]
    split
    · exact List.subset_append_left ..
    · exact List.Subset.refl _

theorem had_subset_run (course : Course) (turns : List Turn) : course.had ⊆ (course.run turns).had := by
  induction turns generalizing course with
  | nil => exact List.Subset.refl _
  | cons turn turns ih => exact List.Subset.trans (course.had_subset_take turn) (ih _)

theorem Counted.ofForest {forest : Forest} {g : Graph} (h : ofForest forest = .ok g) :
    (start g).Counted :=
  ⟨CountsIds.ofForest h, List.Subset.refl _⟩

/-- A new block moves the counter with the recent ids; nothing else moves either. -/
theorem Counted.mutate (counted : course.Counted) (edit : Mutation)
    (early : ∀ id ∈ (course.graph.mutate edit).ids, id.number < BlockId.last.number) :
    (course.take (.edit edit)).Counted := by
  refine ⟨?_, List.subset_append_right ..⟩
  change (course.graph.mutate edit).nextNumber = ceiling (course.recent ++ (course.graph.mutate edit).ids)
  have stays : ∀ {g : Graph}, course.graph.Persists g →
      g.nextNumber = ceiling (course.recent ++ g.ids) := by
    intro g persists
    have below : ceiling g.ids ≤ ceiling course.recent :=
      ceiling_mono (List.Subset.trans persists.ids counted.present)
    rw [persists.counter, counted.counter, ceiling_append, Nat.max_eq_left below]
  unfold Graph.mutate at early ⊢
  split at early
  · next edited ran =>
    cases creates : edit.creates with
    | true =>
      obtain ⟨block, rfl⟩ := place_of_run creates ran
      have placed := (course.graph.ids_place block).mem_iff.mpr (List.mem_cons_self ..)
      have own := early block.id placed
      have below := ceiling_mono counted.present
      rw [nextNumber_place _ own, counted.counter, ceiling_append, ceiling_place]
      omega
    | false => exact stays (.run creates ran)
  · exact stays ⟨rfl, List.Subset.refl _⟩

theorem Counted.take (counted : course.Counted) (turn : Turn)
    (early : ∀ id ∈ (course.take turn).had, id.number < BlockId.last.number) :
    (course.take turn).Counted := by
  cases turn with
  | edit edit => exact counted.mutate edit fun id member => early id (List.mem_append_right _ member)
  | reload =>
    simp only [Course.take]
    split
    · next g loaded => exact ⟨CountsIds.ofForest loaded, List.Subset.refl _⟩
    · exact counted

theorem Counted.run (counted : course.Counted) (turns : List Turn)
    (early : ∀ id ∈ (course.run turns).had, id.number < BlockId.last.number) :
    (course.run turns).Counted := by
  induction turns generalizing course with
  | nil => exact counted
  | cons turn turns ih =>
    have after := had_subset_run (course.take turn) turns
    exact ih (counted.take turn fun id member => early id (after member)) early

/-- Without a reload all ids are recent. -/
theorem recent_run (same : course.recent = course.had) {turns : List Turn}
    (unbroken : Turn.reload ∉ turns) : (course.run turns).recent = (course.run turns).had := by
  induction turns generalizing course with
  | nil => exact same
  | cons turn turns ih =>
    have apart := List.ne_of_not_mem_cons unbroken
    have later := List.not_mem_of_not_mem_cons unbroken
    cases turn with
    | edit edit => exact ih (congrArg (· ++ (course.graph.mutate edit).ids) same) later
    | reload => exact absurd rfl apart

theorem Counted.freshId (counted : course.Counted) : course.graph.freshId = ⟨ceiling course.recent⟩ := by
  have free : course.graph.contains ⟨course.graph.nextNumber⟩ = false := by
    rw [← Bool.not_eq_true, contains_iff_mem]
    intro member
    have below := lt_ceiling (counted.present member)
    rw [← counted.counter] at below
    exact Nat.lt_irrefl _ below
  rw [Graph.freshId, free, counted.counter]
  rfl

/-- As long as ids last, a fresh block gets the id just above all ids that blocks have had since the
last reload. So an id comes back exactly when a block with that id was lost before the last reload and
no block since has had an id as high; without a reload none ever does. -/
theorem freshId_run {forest : Forest} {g : Graph} (loaded : ofForest forest = .ok g)
    (turns : List Turn)
    (early : ∀ id ∈ ((start g).run turns).had, id.number < BlockId.last.number) :
    let course := (start g).run turns
    course.graph.freshId = ⟨ceiling course.recent⟩ ∧ course.graph.freshId ∉ course.recent ∧
    (course.graph.freshId ∈ course.had ↔
      ∃ lost ∈ course.had, lost ∉ course.recent ∧ lost.number = ceiling course.recent) ∧
    (Turn.reload ∉ turns → course.graph.freshId ∉ course.had) := by
  intro course
  have counted := (Counted.ofForest loaded).run turns early
  have fresh := counted.freshId
  have new : course.graph.freshId ∉ course.recent := by
    rw [fresh]
    exact fun member => Nat.lt_irrefl _ (lt_ceiling member)
  refine ⟨fresh, new, ?_, ?_⟩
  · constructor
    · intro again
      exact ⟨_, again, new, congrArg BlockId.number fresh⟩
    · rintro ⟨lost, member, -, same⟩
      have back : course.graph.freshId = lost := by rw [fresh, ← same]
      exact back ▸ member
  · intro unbroken again
    have fresh : (start g).recent = (start g).had := rfl
    have same := recent_run fresh unbroken
    exact new (same.symm ▸ again)

/-- The id of a definition that was deleted before a reload goes to the next block, whatever a call
keeps. -/
theorem freshId_run_reload :
    let turns : List Turn := [.edit (.add .methodCall (.call { declaration := some ⟨1⟩ })),
      .edit (.add .methodDef (.method {})), .edit (.delete ⟨1⟩ false), .reload]
    let course := (start Graph.empty).run turns
    course.graph.freshId = ⟨1⟩ ∧ course.graph.freshId ∈ course.had := by
  intro turns course
  have early : ∀ id ∈ course.had, id.number < BlockId.last.number := by decide
  have loaded : ofForest {} = .ok Graph.empty := rfl
  obtain ⟨fresh, -, again, -⟩ := freshId_run loaded turns early
  exact ⟨fresh.trans (by decide), again.mpr ⟨⟨1⟩, by decide⟩⟩

end Course
end Graph
end RobotBlocks
