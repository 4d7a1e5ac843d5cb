import RobotBlocks.Graph.InPlace
import RobotBlocks.Proofs.Graph.History

/-! Edits in place. An operation takes links away and looks blocks up again afterwards, and it looks for the end
of a stack while its blocks are moving. In a forest none of these later steps is refused and each finds what it
would have found before, so that an edit in place is one that is carried out as a whole or not at all. -/
namespace RobotBlocks.Graph

variable {g g' : Graph} {id other parent child displaced previous : BlockId} {hook : Link} {block : Block}

/-! Steps on single nodes. -/

theorem updateNode_comm (g : Graph) {f h : Node → Node} (differs : id ≠ other) (keeps : ∀ node, (f node).id = node.id)
    (keeps' : ∀ node, (h node).id = node.id) :
    (g.updateNode id f).updateNode other h = (g.updateNode other h).updateNode id f := by
  simp only [updateNode, List.map_map]
  congr 1
  refine List.map_congr_left fun node _ => ?_
  by_cases here : node.id = id
  · simp [here, keeps, differs]
  · by_cases there : node.id = other <;> simp [here, there, keeps', Ne.symm differs]

theorem link_comm (differs : id ≠ other) (p q : BlockId) (h k : Link) :
    (g.link p h id).link q k other = (g.link q k other).link p h id :=
  updateNode_comm g differs (fun _ => rfl) fun _ => rfl

theorem link_setParent (g : Graph) (id : BlockId) (place : Option (BlockId × Link)) :
    (g.setParent id place).link parent hook id = g.link parent hook id := by
  simp only [Graph.link, setParent, updateNode, List.map_map]
  congr 1
  refine List.map_congr_left fun node _ => ?_
  by_cases here : node.id = id
  · have same : ({ node with parent := place } : Node).id = id := here
    simp [here, same]
  · simp [here]

theorem Tree.lastInStack_congr (tree : g.Tree) (tree' : g'.Tree) (present : g.contains id = true)
    (present' : g'.contains id = true) (same : ∀ other ∈ g.stack id, g'.next? other = g.next? other) :
    g'.lastInStack id = g.lastInStack id := by
  rw [lastInStack, tree.stack_congr tree' present present' same, lastInStack]

/-- What is left once a socket has made room for a block. -/
def vacated (g : Graph) (parent : BlockId) (socket : String) (kind : SocketKind) (child : BlockId) :
    Except GraphError Graph :=
  match g.plugged? parent socket, kind with
  | none, _ => .ok g
  | some occupant, .value => g.unplug occupant false
  | some occupant, .statement => .ok (g.appendChain child occupant)

theorem connectSocket_eq {owner : Block} {kind : Kind} {socket : String} (checked : g.checkLink parent child = .ok kind)
    (found : g.block? parent = some owner) :
    g.connectSocket parent socket child = match owner.socket? socket with
      | none => .error (.unknownSocket parent socket)
      | some ⟨_, socketKind⟩ =>
        if socketKind = .statement && kind.isValue then .error (.invalidLink (.valueInStatement child socket))
        else ((g.detach child false).vacated parent socket socketKind child).map fun vacated =>
          (vacated.link parent (.socket socket) child).emit child kind (.moved (g.parent? child) (some parent)) := by
  simp only [connectSocket, checked, get_eq_ok.mpr found, ok_bind]
  cases owner.socket? socket with
  | none => rfl
  | some own =>
    obtain ⟨name, socketKind⟩ := own
    simp only [vacated]
    split
    · rfl
    · cases (g.detach child false).plugged? parent socket with
      | none => rfl
      | some occupant =>
        cases socketKind with
        | value => cases (g.detach child false).unplug occupant false <;> rfl
        | statement => rfl

namespace InPlace

variable {α β : Type}

/-- What is left of an edit that is carried out as a whole or not at all. -/
def settle (g : Graph) : Except GraphError (α × Graph) → Except GraphError α × Graph
  | .ok (answer, changed) => (.ok answer, changed)
  | .error fault => (.error fault, g)

theorem perform_pure (a : α) (g : Graph) : perform (pure a) g = (.ok a, g) := rfl

theorem perform_bind (steps : InPlace α) (next : α → InPlace β) (g : Graph) :
    perform (steps >>= next) g = match perform steps g with
      | (.ok a, g') => perform (next a) g'
      | (.error fault, g') => (.error fault, g') := by
  unfold perform
  simp only [ExceptT.run_bind, StateT.run_bind]
  rcases steps.run.run g with ⟨_ | _, _⟩ <;> rfl

theorem perform_ask (question : Graph → Except GraphError α) (g : Graph) :
    perform (ask question) g = (question g, g) := rfl

theorem perform_look (question : Graph → α) (g : Graph) : perform (look question) g = (.ok (question g), g) := rfl

theorem perform_change (f : Graph → Graph) (g : Graph) : perform (change f) g = (.ok (), f g) := rfl

theorem perform_refuse (fault : GraphError) (g : Graph) :
    perform (refuse fault : InPlace α) g = (.error fault, g) := rfl

theorem perform_find (found : g.block? id = some block) : perform (find id) g = (.ok block, g) := by
  rw [find, perform_ask, get_eq_ok.mpr found]

theorem get_of_missing (missing : g.contains id = false) : g.get id = .error (.blockNotFound id) := by
  rw [Graph.get, block?_of_missing missing]

theorem perform_find_missing (missing : g.contains id = false) :
    perform (find id) g = (.error (.blockNotFound id), g) := by
  rw [find, perform_ask, get_of_missing missing]

theorem perform_hang (there : g.contains parent = true) (present : g.contains child = true) :
    perform (hang parent hook child) g = (.ok (), g.link parent hook child) := by
  obtain ⟨above, found⟩ := contains_iff_block.mp there
  obtain ⟨below, found'⟩ := contains_iff_block.mp present
  simp only [hang, perform_bind, perform_find found, perform_find found', perform_change]

/-- The link that the statement below takes over is the one that was freed. -/
theorem perform_detach (present : g.contains id = true) (heal : Bool) :
    perform (detach id heal) g = (.ok (g.parent? id), g.detach id heal) := by
  obtain ⟨block, found⟩ := contains_iff_block.mp present
  simp only [InPlace.detach, perform_bind, perform_find found, perform_look]
  cases linked : g.parentLink? id with
  | none => simp only [perform_pure, parent?, linked, Option.map_none, Graph.detach]
  | some place =>
    obtain ⟨parent, hook⟩ := place
    simp only [perform_bind, perform_change, perform_look, Graph.detach, parent?, linked, Option.map_some]
    cases heal with
    | false => simp only [Bool.false_eq_true, if_false, perform_pure]
    | true =>
      cases below : (g.setParent id none).next? id with
      | none => simp only [if_true, perform_pure]
      | some follower => simp only [if_true, perform_bind, perform_change, perform_pure, link_setParent]

theorem perform_unplug (id : BlockId) (heal : Bool) (g : Graph) :
    perform (unplug id heal) g = settle g ((g.unplug id heal).map (Prod.mk ())) := by
  cases present : g.contains id with
  | false =>
    simp only [InPlace.unplug, perform_bind, perform_find_missing present, Graph.unplug, get_of_missing present]
    rfl
  | true =>
    obtain ⟨block, found⟩ := contains_iff_block.mp present
    simp only [InPlace.unplug, Graph.unplug, perform_bind, perform_find found, perform_detach present,
      get_eq_ok.mpr found]
    cases linked : g.parentLink? id with
    | none =>
      have top : g.parent? id = none := by rw [parent?, linked]; rfl
      simp only [top, perform_pure, Graph.detach, linked]
      simp [bind, Except.bind, pure, Except.pure, Except.map, settle]
    | some place =>
      have up : g.parent? id = some place.1 := by rw [parent?, linked]; rfl
      simp only [up, announce, perform_change]
      simp [bind, Except.bind, pure, Except.pure, Except.map, settle]

theorem perform_foldl_removeNode (doomed : List BlockId) (g : Graph) :
    perform (doomed.forM fun gone => change fun g => g.removeNode gone) g = (.ok (), doomed.foldl removeNode g) := by
  induction doomed generalizing g with
  | nil => rfl
  | cons first doomed ih =>
    change perform ((change fun g => g.removeNode first) >>= fun _ => _) g = _
    rw [perform_bind, perform_change]
    exact ih (g.removeNode first)

theorem perform_deleteBlock (id : BlockId) (heal : Bool) (g : Graph) :
    perform (deleteBlock id heal) g = settle g (g.deleteBlock id heal) := by
  cases present : g.contains id with
  | false =>
    simp only [InPlace.deleteBlock, perform_bind, perform_find_missing present, Graph.deleteBlock,
      get_of_missing present]
    rfl
  | true =>
    obtain ⟨block, found⟩ := contains_iff_block.mp present
    simp only [InPlace.deleteBlock, Graph.deleteBlock, perform_bind, perform_find found, perform_detach present,
      perform_look, perform_foldl_removeNode, perform_pure, get_eq_ok.mpr found]
    rfl

/-! Moves. -/

section Moves

variable (tree : g.Tree)
include tree

/-- A chain elsewhere does not reach into a stack that it is to be put below. -/
theorem next?_detach_of_mem (apart : parent ∉ g.stack id) (linked : g.parentLink? displaced = some (parent, hook))
    (member : other ∈ g.stack id) : (g.detach displaced false).next? other = g.next? other := by
  ext lower
  rw [next?, next?, (tree.detach displaced false).child?_eq_some, tree.child?_eq_some, parentLink?_detach]
  split
  · next here =>
    subst here
    refine ⟨nofun, fun follows => absurd member ?_⟩
    cases linked.symm.trans follows
    exact apart
  · rfl

theorem lastInStack_detach_of_linked (present : g.contains id = true) (apart : parent ∉ g.stack id)
    (linked : g.parentLink? displaced = some (parent, hook)) :
    (g.detach displaced false).lastInStack id = g.lastInStack id :=
  tree.lastInStack_congr (tree.detach displaced false) present (by rwa [(Moves.detach g displaced false).contains])
    fun _ => next?_detach_of_mem tree apart linked

/-- The stack of a block does not end elsewhere once the block hangs from its new place. -/
theorem lastInStack_link_of_outside (tree' : (g.link parent hook id).Tree) (present : g.contains id = true)
    (apart : parent ∉ g.stack id) : (g.link parent hook id).lastInStack id = g.lastInStack id := by
  refine tree.lastInStack_congr tree' present (by rwa [(Moves.link g parent hook id).contains]) fun above member => ?_
  have climbs := tree.climbs_of_mem_stack present member
  ext lower
  rw [next?, next?, tree'.child?_eq_some, tree.child?_eq_some, parentLink?_link present]
  split
  · next here =>
    subst here
    refine ⟨fun same => ?_, fun linked => absurd climbs (tree.not_climbs_child (up_of_parentLink linked))⟩
    cases same
    exact absurd member apart
  · rfl

/-- A chain that hung from the place of a loose stack goes below it, whether the stack has the place already or
not. -/
theorem perform_append (present : g.contains id = true) (linked : g.parentLink? displaced = some (parent, hook))
    (apart : parent ∉ g.stack id) :
    perform (append id displaced) (g.detach displaced false) = (.ok (), g.appendChain id displaced) := by
  have contains := (Moves.detach g displaced false).contains
  have last : (g.detach displaced false).contains (g.lastInStack id) = true :=
    (contains _).trans (tree.contains_lastInStack present)
  have there : (g.detach displaced false).contains displaced = true :=
    (contains _).trans (contains_of_parentLink linked)
  simp only [append, perform_bind, perform_look, lastInStack_detach_of_linked tree present apart linked,
    perform_hang last there]
  rfl

/-- A stack that is hung in the place first has the same tail. -/
theorem perform_hang_append (present : g.contains id = true) (linked : g.parentLink? displaced = some (parent, hook))
    (differs : displaced ≠ id) (apart : ¬ g.Climbs parent id) :
    perform (hang parent hook id) (g.detach displaced false)
        = (.ok (), (g.detach displaced false).link parent hook id) ∧
      perform (append id displaced) ((g.detach displaced false).link parent hook id)
        = (.ok (), (g.appendChain id displaced).link parent hook id) := by
  have loose := tree.detach displaced false
  have moves := Moves.detach g displaced false
  have blocks := Moves.link (g.detach displaced false) parent hook id
  have up := up_of_parentLink linked
  have present' : (g.detach displaced false).contains id = true := (moves.contains id).trans present
  have there : (g.detach displaced false).contains parent = true :=
    (moves.contains parent).trans (tree.contains_parent up)
  have below : ¬ (g.detach displaced false).Climbs parent id := fun climbs => apart (climbs_of_detach climbs)
  have hung : ((g.detach displaced false).link parent hook id).Tree := by
    refine loose.hang present' ?_ (fun other _ taken => ?_) below
    · rw [linkDeclared_congr moves.blocks]
      exact tree.declared linked
    · rw [parentLink?_detach] at taken
      split at taken
      · cases taken
      · next away => exact away (tree.unshared taken linked)
  have last : ((g.detach displaced false).link parent hook id).lastInStack id = g.lastInStack id :=
    (lastInStack_link_of_outside loose hung present' fun member =>
      below (loose.climbs_of_mem_stack present' member)).trans
    (lastInStack_detach_of_linked tree present (fun member => apart (tree.climbs_of_mem_stack present member)) linked)
  refine ⟨perform_hang there present', ?_⟩
  have tail : ((g.detach displaced false).link parent hook id).contains (g.lastInStack id) = true :=
    ((blocks.contains _).trans (moves.contains _)).trans (tree.contains_lastInStack present)
  have chain : ((g.detach displaced false).link parent hook id).contains displaced = true :=
    ((blocks.contains _).trans (moves.contains _)).trans (contains_of_parentLink linked)
  simp only [append, perform_bind, perform_look, last, perform_hang tail chain]
  rw [link_comm (Ne.symm differs)]
  rfl

/-- The tail that the displaced chain is hung from is the same before and after the block has its new place. -/
theorem perform_connectNext (previous id : BlockId) :
    perform (connectNext previous id) g = settle g ((g.connectNext previous id).map (Prod.mk ())) := by
  simp only [InPlace.connectNext, Graph.connectNext, perform_bind, perform_ask]
  cases checked : g.checkLink previous id with
  | error fault => rfl
  | ok kind =>
    obtain ⟨there, present⟩ := contains_of_checkLink checked
    obtain ⟨above, found⟩ := contains_iff_block.mp there
    simp only [perform_find found, get_eq_ok.mpr found, ok_bind]
    cases values : kind.isValue || above.kind.isValue with
    | true => simp only [if_true, perform_refuse]; rfl
    | false =>
      have loose := tree.detach id false
      have moves := Moves.detach g id false
      have there' : (g.detach id false).contains previous = true := (moves.contains previous).trans there
      have present' : (g.detach id false).contains id = true := (moves.contains id).trans present
      simp only [Bool.false_eq_true, if_false, perform_bind, perform_detach present, perform_look]
      cases below : (g.detach id false).next? previous with
      | none =>
        simp only [perform_bind, perform_hang there' present', announce, perform_change]
        rfl
      | some displaced =>
        have linked := loose.child?_eq_some.mp below
        have differs : displaced ≠ id := by
          rintro rfl
          simp [parentLink?_detach] at linked
        obtain ⟨hangs, appends⟩ := perform_hang_append loose present' linked differs fun climbs =>
          tree.not_climbs_of_checkLink checked (climbs_of_detach climbs)
        simp only [perform_bind, perform_detach (contains_of_parentLink linked), hangs, appends, announce,
          perform_change]
        rfl

/-- Room is always made. -/
theorem perform_vacate (socket : String) (kind : SocketKind) (present : g.contains child = true)
    (apart : ¬ g.Climbs parent child) :
    ∃ vacated, g.vacated parent socket kind child = .ok vacated ∧
      perform (vacate parent socket kind child) g = (.ok (), vacated) ∧ g.Moves vacated := by
  simp only [vacate, vacated, perform_bind, perform_look]
  cases held : g.plugged? parent socket with
  | none => exact ⟨g, rfl, rfl, .refl g⟩
  | some occupant =>
    have linked := tree.child?_eq_some.mp held
    cases kind with
    | value =>
      obtain ⟨kind, frees⟩ := unplug_of_linked linked false
      refine ⟨_, frees, ?_, .unplug frees⟩
      simp only [perform_unplug, frees]
      rfl
    | statement =>
      refine ⟨_, rfl, ?_, .appendChain g child occupant⟩
      simp only [perform_bind, perform_detach (contains_of_parentLink linked)]
      exact perform_append tree present linked fun member => apart (tree.climbs_of_mem_stack present member)

theorem perform_connectSocket (parent : BlockId) (socket : String) (child : BlockId) :
    perform (connectSocket parent socket child) g
      = settle g ((g.connectSocket parent socket child).map (Prod.mk ())) := by
  simp only [InPlace.connectSocket, perform_bind, perform_ask]
  cases checked : g.checkLink parent child with
  | error fault =>
    simp only [Graph.connectSocket, checked]
    rfl
  | ok kind =>
    obtain ⟨there, present⟩ := contains_of_checkLink checked
    obtain ⟨owner, found⟩ := contains_iff_block.mp there
    rw [connectSocket_eq checked found]
    simp only [perform_find found]
    cases offered : owner.socket? socket with
    | none => rfl
    | some own =>
      obtain ⟨name, socketKind⟩ := own
      simp only
      cases unfit : decide (socketKind = .statement) && kind.isValue with
      | true => simp only [if_true, perform_refuse]; rfl
      | false =>
        have moves := Moves.detach g child false
        obtain ⟨vacated, makes, vacates, room⟩ := perform_vacate (tree.detach child false) socket socketKind
          ((moves.contains child).trans present) fun climbs =>
            tree.not_climbs_of_checkLink checked (climbs_of_detach climbs)
        have there' := ((room.contains parent).trans (moves.contains parent)).trans there
        have present' := ((room.contains child).trans (moves.contains child)).trans present
        simp only [Bool.false_eq_true, if_false, perform_bind, perform_detach present, vacates,
          perform_hang there' present', announce, perform_change, makes]
        rfl

end Moves

/-! Content. -/

theorem perform_addBlock (kind : Kind) (extra : ExtraState) (g : Graph) :
    perform (addBlock kind extra) g = (.ok (g.addBlock kind extra).1, (g.addBlock kind extra).2) := rfl

theorem perform_insertBlock (block : Block) (g : Graph) :
    perform (insertBlock block) g = settle g ((g.insertBlock block).map (Prod.mk ())) := by
  simp only [InPlace.insertBlock, Graph.insertBlock, perform_bind, perform_look]
  split
  · rfl
  · split <;> rfl

theorem perform_setField (id : BlockId) (name value : String) (g : Graph) :
    perform (setField id name value) g = settle g (g.setField id name value) := by
  simp only [InPlace.setField, Graph.setField, perform_bind]
  cases found : g.get id with
  | error fault => simp only [find, perform_ask, found]; rfl
  | ok block =>
    simp only [find, perform_ask, found, ok_bind, perform_change]
    split <;> rfl

theorem perform_setExtra (id : BlockId) (extra : ExtraState) (g : Graph) :
    perform (setExtra id extra) g = settle g ((g.setExtra id extra).map (Prod.mk ())) := by
  simp only [InPlace.setExtra, Graph.setExtra, perform_bind]
  cases found : g.get id with
  | error fault => simp only [find, perform_ask, found]; rfl
  | ok block =>
    simp only [find, perform_ask, perform_look, found, ok_bind]
    cases block.sockets.find? fun socket =>
        !(block.withExtra extra).hasSocket socket.name && (g.plugged? id socket.name).isSome with
    | some socket => rfl
    | none =>
      simp only [perform_bind, perform_ask, found, perform_change, announce]
      rfl

theorem perform_setSignature (id : BlockId) (changes : List ParamChange) (g : Graph) :
    perform (setSignature id changes) g = settle g ((g.setSignature id changes).map (Prod.mk ())) := by
  simp only [InPlace.setSignature, Graph.setSignature, perform_bind]
  cases found : g.get id with
  | error fault => simp only [find, perform_ask, found]; rfl
  | ok block =>
    simp only [find, perform_ask, found, ok_bind]
    split <;> rfl

theorem perform_setWarning (id : BlockId) (warning : Option String) (g : Graph) :
    perform (setWarning id warning) g = settle g ((g.setWarning id warning).map (Prod.mk ())) := by
  simp only [InPlace.setWarning, Graph.setWarning, perform_bind]
  cases found : g.get id <;> simp only [find, perform_ask, found] <;> rfl

/-! All edits. -/

theorem perform_discard (steps : InPlace α) (result : Except GraphError (α × Graph))
    (settles : perform steps g = settle g result) :
    perform (steps >>= fun _ => pure ()) g = settle g ((result.map (·.2)).map (Prod.mk ())) := by
  rw [perform_bind, settles]
  cases result <;> rfl

end InPlace

def Mutation.inPlace : Mutation → InPlace Unit
  | add kind extra => do let _ ← InPlace.addBlock kind extra
  | insert id kind extra => InPlace.insertBlock (.create id kind extra)
  | delete id heal => do let _ ← InPlace.deleteBlock id heal
  | unplug id heal => InPlace.unplug id heal
  | connectNext previous id => InPlace.connectNext previous id
  | connectSocket parent socket child => InPlace.connectSocket parent socket child
  | setField id name value => do let _ ← InPlace.setField id name value
  | setExtra id extra => InPlace.setExtra id extra
  | setSignature id changes => InPlace.setSignature id changes
  | setWarning id warning => InPlace.setWarning id warning

def Operation.inPlace : Operation → InPlace Unit
  | mutate edit => edit.inPlace
  | insert block => InPlace.insertBlock block

/-- In a forest no step is refused after another one has changed something. -/
theorem Tree.perform_inPlace (tree : g.Tree) (operation : Operation) :
    operation.inPlace.perform g = InPlace.settle g ((operation.run g).map (Prod.mk ())) := by
  cases operation with
  | insert block => exact InPlace.perform_insertBlock block g
  | mutate edit =>
    cases edit with
    | add kind extra => exact InPlace.perform_discard _ (.ok _) (InPlace.perform_addBlock kind extra g)
    | insert id kind extra => exact InPlace.perform_insertBlock _ g
    | delete id heal => exact InPlace.perform_discard _ _ (InPlace.perform_deleteBlock id heal g)
    | unplug id heal => exact InPlace.perform_unplug id heal g
    | connectNext previous id => exact InPlace.perform_connectNext tree previous id
    | connectSocket parent socket child => exact InPlace.perform_connectSocket tree parent socket child
    | setField id name value => exact InPlace.perform_discard _ _ (InPlace.perform_setField id name value g)
    | setExtra id extra => exact InPlace.perform_setExtra id extra g
    | setSignature id changes => exact InPlace.perform_setSignature id changes g
    | setWarning id warning => exact InPlace.perform_setWarning id warning g

end RobotBlocks.Graph
