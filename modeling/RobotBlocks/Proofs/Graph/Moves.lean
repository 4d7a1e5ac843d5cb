import RobotBlocks.Proofs.Graph.Relink
import RobotBlocks.Proofs.Graph.Walk
import RobotBlocks.Proofs.Result

/-! Moves keep the invariant of a graph: it stays a forest, and its blocks keep what their kinds
and states ask for. -/
namespace RobotBlocks.Graph

variable {g g' g'' : Graph} {id other parent child first displaced : BlockId} {hook : Link}
  {heal : Bool}

/-- The invariant of every graph that edits reach. -/
structure Sound (g : Graph) : Prop where
  tree : g.Tree
  fitted : g.Fitted

/-- What holds of every tree holds of sound graphs. -/
instance : CoeOut g.Sound g.Tree := ⟨Sound.tree⟩

/-- A move changes links alone. -/
structure Moves (g g' : Graph) : Prop where
  ids : g'.ids = g.ids
  blocks : ∀ id, g'.block? id = g.block? id

/-- What becomes of a block that hangs from a link, and of the statement below it. -/
theorem detach_cases (heal : Bool) (linked : g.parentLink? id = some (parent, hook)) :
    g.detach id heal = g.setParent id none ∨
    ∃ follower, (g.setParent id none).next? id = some follower ∧
      g.detach id heal = (g.setParent id none).link parent hook follower := by
  cases heal with
  | false => exact .inl (by simp [detach, linked])
  | true =>
    cases below : (g.setParent id none).next? id with
    | none => exact .inl (by simp [detach, linked, below])
    | some follower => exact .inr ⟨follower, rfl, by simp [detach, linked, below]⟩

namespace Moves

theorem refl (g : Graph) : g.Moves g := ⟨rfl, fun _ => rfl⟩

theorem trans (h : g.Moves g') (k : g'.Moves g'') : g.Moves g'' :=
  ⟨k.ids.trans h.ids, fun id => (k.blocks id).trans (h.blocks id)⟩

theorem contains (h : g.Moves g') (id : BlockId) : g'.contains id = g.contains id := by
  rw [Bool.eq_iff_iff, contains_iff_mem, contains_iff_mem, h.ids]

theorem fitted (h : g.Moves g') (fitted : g.Fitted) : g'.Fitted :=
  fun found => fitted (h.blocks _ ▸ found)

theorem setParent (g : Graph) (id : BlockId) (parent : Option (BlockId × Link)) :
    g.Moves (g.setParent id parent) :=
  ⟨ids_setParent g id parent, block?_setParent g id parent⟩

theorem link (g : Graph) (parent : BlockId) (hook : Link) (child : BlockId) :
    g.Moves (g.link parent hook child) :=
  setParent g child _

theorem detach (g : Graph) (id : BlockId) (heal : Bool) : g.Moves (g.detach id heal) := by
  cases linked : g.parentLink? id with
  | none => simpa only [Graph.detach, linked] using refl g
  | some place =>
    rcases detach_cases heal linked with same | ⟨follower, -, same⟩
    · exact same ▸ setParent g id none
    · exact same ▸ (setParent g id none).trans (link _ _ _ _)

theorem appendChain (g : Graph) (first displaced : BlockId) :
    g.Moves (g.appendChain first displaced) :=
  (detach g displaced false).trans (link _ _ _ _)

end Moves

/-! Links come and go without an event. -/

theorem pending_detach (g : Graph) (id : BlockId) (heal : Bool) : (g.detach id heal).pending = g.pending := by
  unfold detach
  split
  · rfl
  · dsimp only
    split <;> rfl

theorem pending_link (g : Graph) (parent : BlockId) (hook : Link) (child : BlockId) :
    (g.link parent hook child).pending = g.pending := rfl

theorem pending_appendChain (g : Graph) (first displaced : BlockId) :
    (g.appendChain first displaced).pending = g.pending := by
  rw [appendChain, pending_link, pending_detach]

theorem Tree.push (tree : g.Tree) (event : Event) : (g.push event).Tree :=
  tree.congr rfl (fun _ => rfl) fun _ => rfl

theorem Sound.push (sound : g.Sound) (event : Event) : (g.push event).Sound :=
  ⟨sound.tree.push event, fun found => sound.fitted (by simpa using found)⟩

/-! Taking apart. -/

theorem parentLink?_detach (g : Graph) (id asked : BlockId) :
    (g.detach id false).parentLink? asked = if asked = id then none else g.parentLink? asked := by
  unfold detach
  split
  · next top =>
    by_cases here : asked = id
    · simp [here, top]
    · simp [here]
  · simpa using parentLink?_loosen g id asked

theorem up_of_detach (h : (g.detach id false).Up child parent) : g.Up child parent := by
  obtain ⟨link, linked⟩ := h.exists_link
  rw [parentLink?_detach] at linked
  split at linked
  · simp at linked
  · exact up_of_parentLink linked

theorem climbs_of_detach (h : (g.detach id false).Climbs child parent) : g.Climbs child parent :=
  Relation.ReflTransGen.mono (fun _ _ step => up_of_detach step) _ _ h

/-- Healing hangs the statement below from the link that was freed. -/
theorem Tree.detach (tree : g.Tree) (id : BlockId) (heal : Bool) : (g.detach id heal).Tree := by
  cases linked : g.parentLink? id with
  | none => simpa only [Graph.detach, linked] using tree
  | some place =>
    obtain ⟨parent, hook⟩ := place
    have loose := tree.loosen id
    rcases detach_cases heal linked with same | ⟨follower, below, same⟩
    · exact same ▸ loose
    · have follows := loose.up_of_child? below
      rw [same]
      apply loose.hang (contains_child follows)
      · rw [linkDeclared_congr (block?_setParent g id none)]
        exact tree.declared linked
      · intro other _ taken
        rw [parentLink?_loosen] at taken
        split at taken
        · simp at taken
        · next apart => exact apart (tree.unshared taken linked)
      · intro climbs
        have above : g.Climbs parent id := (climbs_of_loosen climbs).tail (up_of_loosen follows)
        exact tree.not_climbs_child (up_of_parentLink linked) above

theorem Sound.detach (sound : g.Sound) (id : BlockId) (heal : Bool) : (g.detach id heal).Sound :=
  ⟨sound.tree.detach id heal, (Moves.detach g id heal).fitted sound.fitted⟩

theorem unplug_ok (heal : Bool) (present : g.contains id = true) :
    ∃ g', g.unplug id heal = .ok g' := by
  obtain ⟨block, found⟩ := contains_iff_block.mp present
  cases up : g.parent? id with
  | none => exact ⟨g, by simp [unplug, get_eq_ok.mpr found, up, bind, Except.bind, pure, Except.pure]⟩
  | some parent =>
    exact ⟨_, by simp [unplug, get_eq_ok.mpr found, up, bind, Except.bind, pure, Except.pure]; rfl⟩

theorem unplug_cases (h : g.unplug id heal = .ok g') :
    (g.parent? id = none ∧ g' = g) ∨
    ∃ kind parent, g.parent? id = some parent ∧
      g' = (g.detach id heal).emit id kind (.moved (some parent) none) := by
  simp only [Graph.unplug, bind_eq_ok] at h
  obtain ⟨block, -, h⟩ := h
  cases up : g.parent? id with
  | none =>
    simp only [up, pure_eq_ok] at h
    exact .inl ⟨rfl, h.symm⟩
  | some parent =>
    simp only [up, pure_eq_ok] at h
    exact .inr ⟨block.kind, parent, rfl, h.symm⟩

/-- A block that hangs somewhere can always be unplugged. -/
theorem unplug_of_linked (linked : g.parentLink? id = some (parent, hook)) (heal : Bool) :
    ∃ kind, g.unplug id heal = .ok ((g.detach id heal).emit id kind (.moved (some parent) none)) := by
  obtain ⟨block, found⟩ := contains_iff_block.mp (contains_of_parentLink linked)
  refine ⟨block.kind, ?_⟩
  simp [Graph.unplug, get_eq_ok.mpr found, parent?, linked, bind, Except.bind, pure, Except.pure]

theorem Moves.unplug (h : g.unplug id heal = .ok g') : g.Moves g' := by
  rcases unplug_cases h with ⟨-, rfl⟩ | ⟨_, _, -, rfl⟩
  · exact .refl _
  · exact ⟨(Moves.detach g id heal).ids, (Moves.detach g id heal).blocks⟩

theorem parentLink?_unplug (h : g.unplug id false = .ok g') (asked : BlockId) :
    g'.parentLink? asked = if asked = id then none else g.parentLink? asked := by
  rcases unplug_cases h with ⟨top, rfl⟩ | ⟨_, _, -, rfl⟩
  · by_cases here : asked = id
    · subst here
      simpa [parent?] using top
    · simp [here]
  · exact parentLink?_detach g id asked

theorem Tree.unplug (tree : g.Tree) (h : g.unplug id heal = .ok g') : g'.Tree := by
  rcases unplug_cases h with ⟨-, rfl⟩ | ⟨_, _, -, rfl⟩
  · exact tree
  · exact (tree.detach id heal).push _

theorem Sound.unplug (sound : g.Sound) (h : g.unplug id heal = .ok g') : g'.Sound :=
  ⟨sound.tree.unplug h, (Moves.unplug h).fitted sound.fitted⟩

/-! Linking. -/

theorem checkLink_eq_ok {kind : Kind} :
    g.checkLink parent child = .ok kind ↔ g.contains parent = true ∧
      (∃ block, g.block? child = some block ∧ block.kind = kind) ∧
      g.isAncestorOrSelf child parent = false := by
  simp only [checkLink, bind_eq_ok, throw_bind, refuse_eq_ok, pure_eq_ok, get_eq_ok,
    contains_iff_block, Bool.not_eq_true]
  constructor
  · rintro ⟨above, there, block, found, apart, same⟩
    exact ⟨⟨above, there⟩, ⟨block, found, same⟩, apart⟩
  · rintro ⟨⟨above, there⟩, ⟨block, found, same⟩, apart⟩
    exact ⟨above, there, block, found, apart, same⟩

theorem contains_of_checkLink {kind : Kind} (checked : g.checkLink parent child = .ok kind) :
    g.contains parent = true ∧ g.contains child = true := by
  obtain ⟨there, ⟨block, found, -⟩, -⟩ := checkLink_eq_ok.mp checked
  exact ⟨there, contains_iff_block.mpr ⟨block, found⟩⟩

theorem Tree.not_climbs_of_checkLink {kind : Kind} (tree : g.Tree)
    (h : g.checkLink parent child = .ok kind) : ¬ g.Climbs parent child := by
  obtain ⟨-, -, apart⟩ := checkLink_eq_ok.mp h
  intro climbs
  simp [tree.isAncestorOrSelf_iff.mpr climbs] at apart

theorem linkDeclared_next (present : g.contains parent = true) :
    g.linkDeclared (parent, .next) = true := present

theorem top_climbs (top : g.parent? first = none) (climbs : g.Climbs first other) :
    first = other := by
  rcases Relation.ReflTransGen.cases_head climbs with same | ⟨above, step, -⟩
  · exact same
  · exact absurd (top.symm.trans step) (by simp)

section Splice

theorem parentLink?_appendChain (first : BlockId) (present : g.contains displaced = true) (asked : BlockId) :
    (g.appendChain first displaced).parentLink? asked
      = if asked = displaced then some (g.lastInStack first, .next) else g.parentLink? asked := by
  have there : (g.detach displaced false).contains displaced = true := by
    rwa [(Moves.detach g displaced false).contains]
  rw [appendChain, parentLink?_link there, parentLink?_detach]
  split <;> rfl

variable (tree : g.Tree) (present : g.contains first = true) (top : g.parent? first = none)
  (linked : g.parentLink? displaced = some (parent, hook)) (apart : ¬ g.Climbs parent first)
include tree present top linked apart

/-- A chain that hangs elsewhere moves below the last statement of a top block's stack. -/
theorem Tree.not_climbs_displaced : ¬ g.Climbs (g.lastInStack first) displaced := by
  intro climbs
  have owned := up_of_parentLink linked
  rcases climbs_total (tree.lastInStack_climbs present) climbs with up | up
  · have same := top_climbs top up
    exact absurd (top.symm.trans (same ▸ owned)) (by simp)
  · rcases Relation.ReflTransGen.cases_head up with same | ⟨above, step, climbs⟩
    · exact absurd (top.symm.trans (same ▸ owned)) (by simp)
    · exact apart (Up.unique step owned ▸ climbs)

theorem Tree.appendChain : (g.appendChain first displaced).Tree := by
  have last := tree.contains_lastInStack present
  apply (tree.detach displaced false).hang
  · rw [(Moves.detach g displaced false).contains]
    exact contains_of_parentLink linked
  · apply linkDeclared_next
    rwa [(Moves.detach g displaced false).contains]
  · intro other _ taken
    rw [parentLink?_detach] at taken
    split at taken
    · simp at taken
    · exact tree.child?_eq_none.mp (tree.next?_lastInStack present) other taken
  · intro climbs
    exact tree.not_climbs_displaced present top linked apart (climbs_of_detach climbs)

/-- A top block takes over a place, and the chain that was there follows after its stack. -/
theorem Tree.splice : ((g.appendChain first displaced).link parent hook first).Tree := by
  have moves := Moves.appendChain g first displaced
  have links := parentLink?_appendChain first (contains_of_parentLink linked)
  apply (tree.appendChain present top linked apart).hang
  · rwa [moves.contains]
  · rw [linkDeclared_congr moves.blocks]
    exact tree.declared linked
  · intro other _ taken
    rw [links] at taken
    split at taken
    · -- The place of the moved chain is below a block of the stack, never the place taken over.
      have same : g.lastInStack first = parent := congrArg Prod.fst (Option.some.inj taken)
      exact apart (same ▸ tree.lastInStack_climbs present)
    · next other => exact other (tree.unshared taken linked)
  · have away : ¬ (g.detach displaced false).Climbs parent displaced := fun climbs =>
      tree.not_climbs_child (up_of_parentLink linked) (climbs_of_detach climbs)
    have there : (g.detach displaced false).contains displaced = true := by
      rw [(Moves.detach g displaced false).contains]
      exact contains_of_parentLink linked
    rw [Graph.appendChain, climbs_link_of_not_climbs there away]
    exact fun climbs => apart (climbs_of_detach climbs)

end Splice

theorem parent?_detach_self (g : Graph) (id : BlockId) : (g.detach id false).parent? id = none := by
  simp [parent?, parentLink?_detach]

theorem connectNext_cases (h : g.connectNext parent id = .ok g') :
    ∃ kind above, g.checkLink parent id = .ok kind ∧ g.block? parent = some above ∧
      (kind.isValue || above.kind.isValue) = false ∧
      g' = (match (g.detach id false).next? parent with
        | some displaced => ((g.detach id false).appendChain id displaced).link parent .next id
        | none => (g.detach id false).link parent .next id).emit id kind
          (.moved (g.parent? id) (some parent)) := by
  simp only [connectNext, bind_eq_ok, throw_bind, refuse_eq_ok, pure_eq_ok, get_eq_ok,
    Bool.not_eq_true] at h
  obtain ⟨kind, checked, above, found, statements, same⟩ := h
  exact ⟨kind, above, checked, found, statements, same.symm⟩

theorem Moves.connectNext (h : g.connectNext parent id = .ok g') : g.Moves g' := by
  obtain ⟨kind, above, -, -, -, rfl⟩ := connectNext_cases h
  have loose := Moves.detach g id false
  refine ⟨?_, ?_⟩
  all_goals split
  · exact ((loose.trans (.appendChain ..)).trans (.link ..)).ids
  · exact (loose.trans (.link ..)).ids
  · exact ((loose.trans (.appendChain ..)).trans (.link ..)).blocks
  · exact (loose.trans (.link ..)).blocks

theorem Tree.connectNext (tree : g.Tree) (h : g.connectNext parent id = .ok g') : g'.Tree := by
  obtain ⟨kind, above, checked, -, -, rfl⟩ := connectNext_cases h
  obtain ⟨there, here⟩ := contains_of_checkLink checked
  have moves := Moves.detach g id false
  have loose := tree.detach id false
  have present : (g.detach id false).contains id = true := (moves.contains id).trans here
  have apart : ¬ (g.detach id false).Climbs parent id := fun climbs =>
    tree.not_climbs_of_checkLink checked (climbs_of_detach climbs)
  apply Tree.push
  split
  · next displaced below =>
    exact loose.splice present (parent?_detach_self g id) (loose.child?_eq_some.mp below) apart
  · next free =>
    refine loose.hang present ?_ ?_ apart
    · apply linkDeclared_next
      rwa [moves.contains]
    · exact fun other _ => loose.child?_eq_none.mp free other

theorem Sound.connectNext (sound : g.Sound) (h : g.connectNext parent id = .ok g') : g'.Sound :=
  ⟨sound.tree.connectNext h, (Moves.connectNext h).fitted sound.fitted⟩

theorem connectSocket_cases {socket : String} (h : g.connectSocket parent socket child = .ok g') :
    ∃ kind owner socketKind vacated, g.checkLink parent child = .ok kind ∧
      g.block? parent = some owner ∧ owner.socket? socket = some ⟨socket, socketKind⟩ ∧
      (socketKind = .statement → kind.isValue = false) ∧
      g' = (vacated.link parent (.socket socket) child).emit child kind
        (.moved (g.parent? child) (some parent)) ∧
      (match (g.detach child false).plugged? parent socket, socketKind with
        | none, _ => vacated = g.detach child false
        | some occupant, .value => (g.detach child false).unplug occupant false = .ok vacated
        | some occupant, .statement => vacated = (g.detach child false).appendChain child occupant)
    := by
  simp only [connectSocket, bind_eq_ok, throw_bind, get_eq_ok] at h
  obtain ⟨kind, checked, owner, found, h⟩ := h
  cases offered : owner.socket? socket with
  | none => simp [offered, throw_ne_ok] at h
  | some own =>
    obtain ⟨name, socketKind⟩ := own
    have named : name = socket := by simpa using List.find?_some offered
    subst named
    simp only [offered, refuse_eq_ok] at h
    obtain ⟨statements, h⟩ := h
    have allowed : socketKind = .statement → kind.isValue = false := by
      rintro rfl
      simpa using statements
    cases held : (g.detach child false).plugged? parent name with
    | none =>
      simp only [held, bind_eq_ok, pure_eq_ok] at h
      obtain ⟨vacated, same, h⟩ := h
      exact ⟨kind, owner, socketKind, vacated, checked, found, offered, allowed, h.symm, by simp [same]⟩
    | some occupant =>
      cases socketKind with
      | value =>
        simp only [held, bind_eq_ok, pure_eq_ok] at h
        obtain ⟨vacated, moved, h⟩ := h
        exact ⟨kind, owner, .value, vacated, checked, found, offered, allowed, h.symm, moved⟩
      | statement =>
        simp only [held, bind_eq_ok, pure_eq_ok] at h
        obtain ⟨vacated, same, h⟩ := h
        exact ⟨kind, owner, .statement, vacated, checked, found, offered, allowed, h.symm, same.symm⟩

theorem Moves.connectSocket {socket : String} (h : g.connectSocket parent socket child = .ok g') :
    g.Moves g' := by
  obtain ⟨kind, owner, socketKind, vacated, -, -, -, -, rfl, made⟩ := connectSocket_cases h
  have loose := Moves.detach g child false
  have before : g.Moves vacated := by
    split at made
    · exact made ▸ loose
    · exact loose.trans (.unplug made)
    · exact made ▸ loose.trans (.appendChain ..)
  have after := before.trans (.link vacated parent (.socket socket) child)
  exact ⟨after.ids, after.blocks⟩

theorem linkDeclared_socket {socket : String} {owner : Block} (found : g.block? parent = some owner)
    (offered : owner.hasSocket socket = true) : g.linkDeclared (parent, .socket socket) = true := by
  simp [linkDeclared, found, offered]

theorem Tree.connectSocket {socket : String} (tree : g.Tree)
    (h : g.connectSocket parent socket child = .ok g') : g'.Tree := by
  obtain ⟨kind, owner, socketKind, vacated, checked, found, offered, -, rfl, made⟩ :=
    connectSocket_cases h
  obtain ⟨-, here⟩ := contains_of_checkLink checked
  have moves := Moves.detach g child false
  have loose := tree.detach child false
  have present : (g.detach child false).contains child = true := (moves.contains child).trans here
  have apart : ¬ (g.detach child false).Climbs parent child := fun climbs =>
    tree.not_climbs_of_checkLink checked (climbs_of_detach climbs)
  have declared : (g.detach child false).linkDeclared (parent, .socket socket) = true := by
    rw [linkDeclared_congr moves.blocks]
    exact linkDeclared_socket found (by simp [Block.hasSocket, offered])
  apply Tree.push
  split at made
  · next free =>
    subst made
    exact loose.hang present declared (fun other _ => loose.child?_eq_none.mp free other) apart
  · next occupant held =>
    have linked := loose.child?_eq_some.mp held
    have freed := Moves.unplug made
    have links := parentLink?_unplug made
    have vacant := loose.unplug made
    apply vacant.hang
    · rwa [freed.contains]
    · rwa [linkDeclared_congr freed.blocks]
    · intro other _ taken
      rw [links] at taken
      split at taken
      · simp at taken
      · next differs => exact differs (loose.unshared taken linked)
    · intro climbs
      refine apart (Relation.ReflTransGen.mono (fun child parent step => ?_) _ _ climbs)
      obtain ⟨hook, step⟩ := step.exists_link
      rw [links] at step
      split at step
      · simp at step
      · exact up_of_parentLink step
  · next occupant held =>
    subst made
    exact loose.splice present (parent?_detach_self g child) (loose.child?_eq_some.mp held) apart

theorem Sound.connectSocket {socket : String} (sound : g.Sound)
    (h : g.connectSocket parent socket child = .ok g') : g'.Sound :=
  ⟨sound.tree.connectSocket h, (Moves.connectSocket h).fitted sound.fitted⟩

/-- A place is attached to exactly when it is offered and free, and the child is a top block that
the parent is not below. -/
theorem attach_eq_ok : g.attach parent hook child = .ok g' ↔
    g.linkDeclared (parent, hook) = true ∧ g.contains child = true ∧
      g.isAncestorOrSelf child parent = false ∧ g.parent? child = none ∧
      g.child? parent hook = none ∧ g' = g.link parent hook child := by
  simp only [attach, bind_eq_ok, checkLink_eq_ok, throw_bind, refuse_eq_ok]
  cases hook with
  | next =>
    cases free : g.child? parent .next with
    | some occupant => simp [throw_ne_ok]
    | none =>
      simp only [linkDeclared, contains_iff_block, Option.not_isSome_iff_eq_none, pure_eq_ok]
      constructor
      · rintro ⟨kind, ⟨there, ⟨block, found, -⟩, apart⟩, top, same⟩
        exact ⟨there, ⟨block, found⟩, apart, top, trivial, same.symm⟩
      · rintro ⟨there, ⟨block, found⟩, apart, top, -, same⟩
        exact ⟨block.kind, ⟨there, ⟨block, found, rfl⟩, apart⟩, top, same.symm⟩
  | socket name =>
    cases free : g.child? parent (.socket name) with
    | some occupant => simp [bind_eq_ok, require_eq_ok, throw_ne_ok]
    | none =>
      simp only [bind_eq_ok, get_eq_ok, require_eq_ok, pure_eq_ok, linkDeclared,
        contains_iff_block, Option.not_isSome_iff_eq_none, Option.any_eq_true]
      constructor
      · rintro ⟨kind, ⟨-, ⟨block, found, -⟩, apart⟩, top, owner, here, offered, same⟩
        exact ⟨⟨owner, here, offered⟩, ⟨block, found⟩, apart, top, trivial, same.symm⟩
      · rintro ⟨⟨owner, here, offered⟩, ⟨block, found⟩, apart, top, -, same⟩
        exact ⟨block.kind, ⟨⟨owner, here⟩, ⟨block, found, rfl⟩, apart⟩, top, owner, here, offered,
          same.symm⟩

theorem Tree.attach (tree : g.Tree) (h : g.attach parent hook child = .ok g') : g'.Tree := by
  obtain ⟨declared, present, apart, -, free, rfl⟩ := attach_eq_ok.mp h
  refine tree.hang present declared ?_ ?_
  · exact fun other _ => tree.child?_eq_none.mp free other
  · intro climbs
    simp [tree.isAncestorOrSelf_iff.mpr climbs] at apart

theorem Sound.attach (sound : g.Sound) (h : g.attach parent hook child = .ok g') : g'.Sound := by
  refine ⟨sound.tree.attach h, ?_⟩
  obtain ⟨-, -, -, -, -, rfl⟩ := attach_eq_ok.mp h
  exact (Moves.link ..).fitted sound.fitted

end RobotBlocks.Graph
