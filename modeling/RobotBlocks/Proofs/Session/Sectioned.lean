import Mathlib.Data.List.Induction
import RobotBlocks.Proofs.Session.Placement

/-! Runs of operations and the sections of component holders. Every operation but a connection keeps the
sections in order, and a connection keeps them exactly if the statements that come along fit where the
block is put. -/
namespace RobotBlocks
namespace Graph

variable {g g' g'' : Graph} {id : BlockId}

theorem Admits.congr {place : Option (BlockId × String)} (admits : g.Admits place id)
    (kinds : ∀ asked, (g'.block? asked).map (·.kind) = (g.block? asked).map (·.kind)) :
    g'.Admits place id := by
  have before : ∀ {asked after}, g'.block? asked = some after →
      ∃ block, g.block? asked = some block ∧ block.kind = after.kind := by
    intro asked after found
    have same := kinds asked
    rw [found, Option.map_some, eq_comm, Option.map_eq_some_iff] at same
    exact same
  have after : ∀ {asked block}, g.block? asked = some block →
      ∃ after, g'.block? asked = some after ∧ after.kind = block.kind := by
    intro asked block found
    have same := kinds asked
    rw [found, Option.map_some, Option.map_eq_some_iff] at same
    exact same
  intro own rule socket found bound hangs
  obtain ⟨block, here, kind⟩ := before found
  obtain ⟨named, holder, there, is⟩ :=
    PlacementRule.names_iff.mp (admits block rule socket here (kind ▸ bound) hangs)
  obtain ⟨holder', there', kind'⟩ := after there
  exact PlacementRule.names_iff.mpr ⟨named, holder', there', kind'.trans is⟩

/-- The event tells that the block has moved. -/
def MoveOf (id : BlockId) (event : Event) : Prop :=
  ∃ kind source destination, event = .onBlock id kind (.moved source destination)

/-- A block was checked where it stands: it alone may have been taken out, and no other event waits than
before. -/
structure Checks (id : BlockId) (g g' : Graph) : Prop where
  kinds : ∀ asked, (g'.block? asked).map (·.kind) = (g.block? asked).map (·.kind)
  others : ∀ other, other ≠ id → g'.enclosingSocket other = g.enclosingSocket other
  waiting : ∀ event ∈ g'.pending.toList, event ∈ g.pending.toList ∨ MoveOf id event

namespace Checks

theorem refl (g : Graph) : Checks id g g := ⟨fun _ => rfl, fun _ _ => rfl, fun _ member => .inl member⟩

theorem trans (h : Checks id g g') (k : Checks id g' g'') : Checks id g g'' := by
  refine ⟨fun asked => (k.kinds asked).trans (h.kinds asked),
    fun other differs => (k.others other differs).trans (h.others other differs), fun event member => ?_⟩
  rcases k.waiting event member with middle | move
  · exact h.waiting event middle
  · exact .inr move

theorem queue (sound : g.Sound) {pending : EventQueue}
    (fewer : ∀ event ∈ pending.toList, event ∈ g.pending.toList) : Checks id g { g with pending } :=
  ⟨fun _ => rfl, fun other _ => sound.tree.enclosingSocket_congr (sound.queue pending).tree (fun _ => rfl) other,
    fun event member => .inl (fewer event member)⟩

theorem setWarning {warning : Option String} (sound : g.Sound) (h : g.setWarning id warning = .ok g') :
    Checks id g g' := by
  refine ⟨fun asked => ?_, fun other _ => ?_, fun event member => ?_⟩
  · rw [block?_setWarning h]
    split
    · rw [Option.map_map]
      rfl
    · rfl
  · exact sound.tree.enclosingSocket_congr (sound.setWarning h).tree (parentLink?_setWarning h) other
  · obtain ⟨-, rfl⟩ := setWarning_eq_ok.mp h
    exact .inl member

theorem unplug (sound : g.Sound) (h : g.unplug id true = .ok g') :
    Checks id g g' ∧ g'.enclosingSocket id = none := by
  have sound' := sound.unplug h
  rcases unplug_cases h with ⟨top, rfl⟩ | ⟨kind, parent, -, rfl⟩
  · exact ⟨refl _, sound.tree.enclosingSocket_top (by simpa [parent?] using top)⟩
  · have same := (sound.detach id true).tree.enclosingSocket_congr sound'.tree fun _ => rfl
    refine ⟨⟨fun asked => congrArg _ ((Moves.detach g id true).blocks asked), fun other differs => ?_,
      fun event member => ?_⟩, ?_⟩
    · rw [same, sound.tree.enclosingSocket_heal, if_neg differs]
    · rw [emit, push, EventQueue.toList_push, pending_detach] at member
      rcases List.mem_append.mp member with old | new
      · exact .inl old
      · exact .inr ⟨kind, some parent, none, List.mem_singleton.mp new⟩
    · rw [same, sound.tree.enclosingSocket_heal, if_pos rfl]

end Checks

/-- A block that was checked may stand where it stands now. -/
theorem Sound.checks {placement : Placement} (sound : g.Sound)
    (h : g.checkPlacement id = .ok (placement, g')) :
    Checks id g g' ∧ g'.Admits (g'.enclosingSocket id) id := by
  simp only [checkPlacement, bind_eq_ok, get_eq_ok] at h
  obtain ⟨block, found, h⟩ := h
  cases bound : PlacementRule.ofKind? block.kind with
  | none =>
    simp only [bound, pure_eq_ok, Prod.mk.injEq] at h
    obtain ⟨-, rfl⟩ := h
    refine ⟨.refl _, fun own rule socket found' bound' _ => ?_⟩
    cases found.symm.trans found'
    cases bound.symm.trans bound'
  | some rule =>
    simp only [bound] at h
    split at h
    · next holds =>
      simp only [bind_eq_ok, pure_eq_ok, Prod.mk.injEq] at h
      obtain ⟨cleared, clears, -, rfl⟩ := h
      have checks := Checks.setWarning sound clears
      refine ⟨checks, ?_⟩
      rw [sound.tree.enclosingSocket_congr (sound.setWarning clears).tree (parentLink?_setWarning clears)]
      exact (admits_of_holds found bound holds).congr checks.kinds
    · simp only [bind_eq_ok, pure_eq_ok, Prod.mk.injEq] at h
      obtain ⟨loose, freed, warned, warns, -, rfl⟩ := h
      obtain ⟨frees, alone⟩ := Checks.unplug sound freed
      have sound' := sound.unplug freed
      refine ⟨frees.trans (.setWarning sound' warns), ?_⟩
      rw [sound'.tree.enclosingSocket_congr (sound'.setWarning warns).tree (parentLink?_setWarning warns),
        alone]
      intro _ _ _ _ _ none
      cases none

theorem checkPlacement_ok (present : g.contains id = true) :
    ∃ placement g', g.checkPlacement id = .ok (placement, g') := by
  obtain ⟨block, found⟩ := contains_iff_block.mp present
  unfold checkPlacement
  rw [get_eq_ok.mpr found]
  cases bound : PlacementRule.ofKind? block.kind with
  | none => exact ⟨.unconstrained, g, by simp [bound, bind, Except.bind, pure, Except.pure]⟩
  | some rule =>
    by_cases holds : rule.holds g id = true
    · obtain ⟨cleared, clears⟩ : ∃ cleared, g.setWarning id none = .ok cleared :=
        ⟨_, setWarning_eq_ok.mpr ⟨present, rfl⟩⟩
      exact ⟨.valid, cleared, by simp [bound, holds, clears, bind, Except.bind, pure, Except.pure]⟩
    · obtain ⟨loose, freed⟩ := unplug_ok true present
      obtain ⟨warned, warns⟩ : ∃ warned, loose.setWarning id (some rule.message) = .ok warned :=
        ⟨_, setWarning_eq_ok.mpr ⟨by rwa [(Moves.unplug freed).contains], rfl⟩⟩
      exact ⟨.detached rule.message, warned,
        by simp [bound, holds, freed, warns, bind, Except.bind, pure, Except.pure]⟩

theorem Sectioned.queue (sectioned : g.Sectioned) (sound : g.Sound) (pending : EventQueue) :
    Sectioned { g with pending } :=
  sectioned.stays (.of_same_links sound.tree (sound.queue pending).tree (fun found => ⟨_, found, rfl⟩)
    fun _ => rfl) (sound.queue pending).tree

/-- A block that is bound to a section does not sit in a value socket. -/
theorem Sectioned.unbound_of_value {parent : BlockId} {block owner : Block} {socket : String}
    (sectioned : g.Sectioned) (sound : g.Sound) (found : g.block? id = some block)
    (linked : g.parentLink? id = some (parent, .socket socket)) (owned : g.block? parent = some owner)
    (offered : owner.socket? socket = some ⟨socket, .value⟩) : PlacementRule.ofKind? block.kind = none := by
  rw [Option.eq_none_iff_forall_ne_some]
  intro rule bound
  have hangs : g.enclosingSocket id = some (parent, socket) := sound.tree.enclosingSocket_of_link linked
  obtain ⟨-, holder, there, is⟩ := PlacementRule.names_iff.mp (sectioned id block rule _ found bound hangs)
  cases owned.symm.trans there
  have member := List.mem_of_find?_eq_some offered
  rw [(sound.fitted owned).sockets, is, PlacementRule.ofKind?_container bound] at member
  simp [Socket.declared] at member

/-- A fresh block stands alone. -/
theorem Sectioned.addBlock {kind : Kind} {extra : ExtraState} (sound : g.Sound) (sectioned : g.Sectioned) :
    (g.addBlock kind extra).2.Sectioned := by
  have hangs := sound.tree.enclosingSocket_congr (sound.addBlock kind extra).tree (parentLink?_addBlock kind extra)
  have other : ∀ {id block}, g.block? id = some block →
      (g.addBlock kind extra).2.block? id = some block := by
    intro id block found
    have there := contains_iff_block.mpr ⟨block, found⟩
    rw [block?_addBlock, if_neg, found]
    rintro rfl
    exact absurd there (Bool.eq_false_iff.mp g.freshId_fresh)
  intro id block rule place found bound hung
  rw [hangs] at hung
  rw [block?_addBlock] at found
  split at found
  · next here =>
    rw [here, sound.tree.enclosingSocket_top (parentLink?_of_missing g.freshId_fresh)] at hung
    cases hung
  · obtain ⟨named, holder, there, is⟩ := PlacementRule.names_iff.mp (sectioned id block rule place found bound hung)
    exact PlacementRule.names_iff.mpr ⟨named, holder, other there, is⟩

/-- The event tells that a block has moved that is not bound to a section. -/
def Unbound (event : Event) : Prop :=
  ∃ id kind source destination,
    event = .onBlock id kind (.moved source destination) ∧ PlacementRule.ofKind? kind = none

end Graph

namespace Registry

variable {g : Graph} {id : BlockId} {kind : Kind} {event : Event} {journal : List String}

theorem dispatch_moved (g : Graph) (scope : Scope) (id : BlockId) (kind : Kind)
    (source destination : Option BlockId) :
    (standard.dispatch journal scope (.onBlock id kind (.moved source destination)) g).1
      = if (PlacementRule.ofKind? kind).isSome
        then (Reaction.place scope id (.onBlock id kind (.moved source destination)) g).graph else g := by
  rw [dispatch_standard]
  cases kind <;> rfl

theorem dispatch_unbound (g : Graph) (scope : Scope) (unbound : Graph.Unbound event) :
    (standard.dispatch journal scope event g).1 = g := by
  obtain ⟨id, kind, source, destination, rfl, none⟩ := unbound
  rw [dispatch_moved, none]
  rfl

theorem dispatch_checks (sound : g.Sound) (journal : List String) (scope : Scope) (move : Graph.MoveOf id event) :
    Graph.Checks id g (standard.dispatch journal scope event g).1 := by
  obtain ⟨kind, source, destination, rfl⟩ := move
  rw [dispatch_moved]
  split
  · unfold Reaction.place
    cases checked : g.checkPlacement id with
    | error error => exact .refl g
    | ok result => exact (sound.checks checked).1
  · exact .refl g

/-- After its move was answered a block is in its section or stands alone. -/
theorem dispatch_admits {block : Block} (sound : g.Sound) (scope : Scope) (found : g.block? id = some block)
    (source destination : Option BlockId) (after : Graph)
    (answer : (standard.dispatch journal scope (.onBlock id block.kind (.moved source destination)) g).1 = after) :
    after.Admits (after.enclosingSocket id) id := by
  subst answer
  rw [dispatch_moved]
  split
  · obtain ⟨placement, g', checked⟩ := Graph.checkPlacement_ok (Graph.contains_iff_block.mpr ⟨block, found⟩)
    have placed : (Reaction.place scope id (.onBlock id block.kind (.moved source destination)) g).graph
        = g' := by
      simp [Reaction.place, checked, Response.ofEdit]
    rw [placed]
    exact (sound.checks checked).2
  · next free =>
    intro own rule socket found' bound _
    cases found.symm.trans found'
    simp [bound] at free

end Registry

namespace Session

variable {s s' : Session}

/-- What every answer keeps is kept by the handling of all waiting events. -/
theorem Open.handleWithin {P : Graph → Prop} (opened : s.Open) (holds : P s.graph)
    (drop : ∀ {g : Graph}, P g → P { g with pending := {} })
    (answer : ∀ {g : Graph} {event : Event} {pending : EventQueue} (journal : List String), P g →
      g.pending.toList = event :: pending.toList →
      P (Registry.standard.dispatch journal s.scope event { g with pending }).1)
    (own : Option Declarations) (budget : Nat) :
    (s.handleWithin own budget).1.Open ∧ P (s.handleWithin own budget).1.graph := by
  have kept := handleWithin_keeps (P := fun t => t.Open ∧ t.scope = s.scope ∧ P t.graph) ⟨opened, rfl, holds⟩
    (fun ⟨opened, sees, holds⟩ => ⟨⟨opened.registry, opened.phase⟩, sees, drop holds⟩)
    (fun {t event pending} ⟨opened, sees, holds⟩ view own => by
      obtain ⟨still, answers⟩ := handle_open { t with graph := { t.graph with pending } }
        ⟨opened.registry, opened.phase⟩ own event
      refine ⟨still, (handle_scope ..).trans sees, ?_⟩
      rw [answers, sees]
      exact answer _ holds view) own budget
  exact ⟨kept.1, kept.2.2⟩

/-- Between operations the links are a forest and no event waits. -/
structure Rested (s : Session) : Prop where
  opened : s.Open
  sound : s.graph.Sound
  idle : s.graph.pending.toList = []

theorem rested_settled (opened : s.Open) (sound : s.graph.Sound) : s.settled.Rested := by
  obtain ⟨still, sound⟩ := opened.handleWithin sound (fun sound => sound.queue {})
    (fun _ sound _ => (Registry.dispatch_evolves ..).sound (sound.queue _)) none eventLimit
  exact ⟨still, sound, pending_settled s⟩

theorem Open.sectioned (opened : s.Open) (sound : s.graph.Sound) (sectioned : s.graph.Sectioned)
    (own : Option Declarations) (budget : Nat) : (s.handleWithin own budget).1.graph.Sectioned := by
  obtain ⟨-, -, kept⟩ := opened.handleWithin (P := fun g => g.Sound ∧ g.Sectioned) ⟨sound, sectioned⟩
    (fun ⟨sound, kept⟩ => ⟨sound.queue {}, Graph.Sectioned.queue kept sound {}⟩)
    (fun {g event pending} journal ⟨sound, kept⟩ _ => by
      have sound' := (Registry.dispatch_evolves journal s.scope event { g with pending }).sound
        (sound.queue pending)
      exact ⟨sound', (Graph.Sectioned.queue kept sound pending).stays
        (Registry.dispatch_stays (sound.queue pending) s.scope event) sound'.tree⟩) own budget
  exact kept

/-! Connections. -/

section Moved

variable {id : BlockId}

/-- Where the events tell of one block and of blocks that are not bound to a section, the others stay. -/
theorem Open.checks (opened : s.Open) (sound : s.graph.Sound)
    (waiting : ∀ event ∈ s.graph.pending.toList, Graph.MoveOf id event ∨ Graph.Unbound event) :
    Graph.Checks id s.graph s.settled.graph := by
  obtain ⟨-, -, checks⟩ := opened.handleWithin
    (P := fun g => g.Sound ∧ Graph.Checks id s.graph g) ⟨sound, .refl s.graph⟩
    (fun ⟨sound, checks⟩ => ⟨sound.queue {}, checks.trans (.queue sound nofun)⟩)
    (fun {g event pending} journal ⟨sound, checks⟩ view => by
      have sound' := sound.queue pending
      have before := checks.trans (.queue sound fun other (member : other ∈ pending.toList) => by
        rw [view]
        exact List.mem_cons_of_mem _ member)
      refine ⟨(Registry.dispatch_evolves ..).sound sound', ?_⟩
      have told : Graph.MoveOf id event ∨ Graph.Unbound event :=
        (checks.waiting event (by simp [view])).elim (waiting event) .inl
      rcases told with move | unbound
      · exact before.trans (Registry.dispatch_checks sound' journal s.scope move)
      · rw [Registry.dispatch_unbound _ _ unbound]
        exact before) none eventLimit
  exact checks

/-- If all other blocks are in order, so is the graph after the block was checked. -/
theorem Open.sectioned_of_move {block : Block} {before : List Event} {source destination : Option BlockId}
    (opened : s.Open) (sound : s.graph.Sound) (found : s.graph.block? id = some block)
    (others : ∀ other, other ≠ id → s.graph.Admits (s.graph.enclosingSocket other) other)
    (waiting : s.graph.pending.toList = before ++ [.onBlock id block.kind (.moved source destination)])
    (unbound : ∀ event ∈ before, Graph.Unbound event) (own : Option Declarations) {budget : Nat}
    (enough : before.length < budget) : (s.handleWithin own budget).1.graph.Sectioned := by
  obtain ⟨budget, rfl⟩ := Nat.exists_eq_add_one_of_ne_zero (Nat.ne_of_gt (Nat.zero_lt_of_lt enough))
  induction before generalizing s own budget with
  | nil =>
    unfold Session.handleWithin
    split
    · next empty => simp [EventQueue.pop?_none empty] at waiting
    · next event pending popped =>
      obtain ⟨rfl, -⟩ := List.cons.inj ((EventQueue.pop?_some popped).symm.trans waiting)
      have sound' := sound.queue pending
      obtain ⟨still, answers⟩ := handle_open { s with graph := { s.graph with pending } }
        ⟨opened.registry, opened.phase⟩ own (.onBlock id block.kind (.moved source destination))
      have same : ∀ other, ({ s.graph with pending } : Graph).enclosingSocket other
          = s.graph.enclosingSocket other := sound.tree.enclosingSocket_congr sound'.tree fun _ => rfl
      have move : Graph.MoveOf id (.onBlock id block.kind (.moved source destination)) :=
        ⟨_, source, destination, rfl⟩
      have checks := Registry.dispatch_checks sound' s.journal s.scope move
      refine still.sectioned ?_ (fun other => ?_) _ _
      · rw [answers]
        exact (Registry.dispatch_evolves ..).sound sound'
      · by_cases here : other = id
        · subst here
          exact Registry.dispatch_admits sound' s.scope found source destination _ answers.symm
        · rw [answers, checks.others other here, same]
          exact (others other here).congr checks.kinds
  | cons event before ih =>
    unfold Session.handleWithin
    split
    · next empty => simp [EventQueue.pop?_none empty] at waiting
    · next first pending popped =>
      obtain ⟨rfl, rest⟩ := List.cons.inj ((EventQueue.pop?_some popped).symm.trans waiting)
      have sound' := sound.queue pending
      obtain ⟨still, answers⟩ := handle_open { s with graph := { s.graph with pending } }
        ⟨opened.registry, opened.phase⟩ own first
      rw [Registry.dispatch_unbound _ _ (unbound first (List.mem_cons_self ..))] at answers
      obtain ⟨budget, rfl⟩ := Nat.exists_eq_add_one_of_ne_zero (n := budget) (by
        rw [List.length_cons] at enough
        omega)
      refine ih still ?_ ?_ ?_ ?_ (fun other member => unbound other (List.mem_cons_of_mem _ member)) _
        budget (Nat.lt_of_succ_lt_succ enough)
      · rw [answers]
        exact sound'
      · rw [answers]
        exact found
      · intro other differs
        rw [answers, sound.tree.enclosingSocket_congr sound'.tree fun _ => rfl]
        exact others other differs
      · rw [answers]
        exact rest

/-- A block was connected elsewhere: the sections are in order exactly if the statements that came along
fit where it was put. -/
theorem Rested.connected {block : Block} {place : BlockId × Link} {h : Graph} {before : List Event}
    {source destination : Option BlockId} (rested : s.Rested) (sectioned : s.graph.Sectioned)
    (rehung : Graph.Rehung s.graph h id place) (sound : h.Sound) (moves : s.graph.Moves h)
    (found : s.graph.block? id = some block)
    (waiting : h.pending.toList = before ++ [.onBlock id block.kind (.moved source destination)])
    (unbound : ∀ event ∈ before, Graph.Unbound event) (few : before.length < eventLimit) :
    (s.withGraph h).graph.Sectioned ↔ ∀ follower ∈ s.graph.stack id, follower ≠ id →
      s.graph.Admits (s.graph.socketAbove place) follower := by
  have opened : Open { s with graph := h } := ⟨rested.opened.registry, rested.opened.phase⟩
  have hangs := rehung.enclosingSocket rested.sound.tree sound.tree
    (Graph.contains_iff_block.mpr ⟨block, found⟩)
  have kinds : ∀ asked, (h.block? asked).map (·.kind) = (s.graph.block? asked).map (·.kind) :=
    fun asked => congrArg _ (moves.blocks asked)
  constructor
  · intro kept follower member differs
    have told : ∀ event ∈ h.pending.toList, Graph.MoveOf id event ∨ Graph.Unbound event := by
      intro event waits
      rw [waiting] at waits
      rcases List.mem_append.mp waits with early | move
      · exact .inr (unbound event early)
      · exact .inl ⟨_, source, destination, List.mem_singleton.mp move⟩
    have checks := opened.checks sound told
    have admits := kept follower
    rw [show (s.withGraph h).graph.enclosingSocket follower = _ from checks.others follower differs,
      (hangs follower).1 member] at admits
    exact admits.congr fun asked => ((checks.kinds asked).trans (kinds asked)).symm
  · intro fits
    refine opened.sectioned_of_move sound ((moves.blocks id).trans found) (fun other differs => ?_)
      waiting unbound none few
    refine Graph.Admits.congr (g := s.graph) ?_ kinds
    by_cases member : other ∈ s.graph.stack id
    · rw [(hangs other).1 member]
      exact fits other member differs
    · rcases (hangs other).2 member with same | ⟨-, none⟩
      · rw [same]
        exact sectioned other
      · rw [none]
        intro _ _ _ _ _ none
        cases none

end Moved

/-- A connection below another block queues nothing but the move. -/
theorem Rested.connectNext {previous id : BlockId} {h : Graph} (rested : s.Rested)
    (sectioned : s.graph.Sectioned) (linked : s.graph.connectNext previous id = .ok h) :
    (s.withGraph h).graph.Sectioned ↔ ∀ follower ∈ s.graph.stack id, follower ≠ id →
      s.graph.Admits (s.graph.enclosingSocket previous) follower := by
  obtain ⟨kind, above, checked, -, -, same⟩ := Graph.connectNext_cases linked
  obtain ⟨-, ⟨block, found, rfl⟩, -⟩ := Graph.checkLink_eq_ok.mp checked
  have waiting : h.pending.toList
      = [] ++ [.onBlock id block.kind (.moved (s.graph.parent? id) (some previous))] := by
    rw [same, Graph.emit, Graph.push, EventQueue.toList_push]
    congr 1
    split
    · rw [Graph.pending_link, Graph.pending_appendChain, Graph.pending_detach, rested.idle]
    · rw [Graph.pending_link, Graph.pending_detach, rested.idle]
  exact rested.connected sectioned (rested.sound.tree.rehung_next linked) (rested.sound.connectNext linked)
    (.connectNext linked) found waiting (List.forall_mem_nil _) (by decide)

/-- What a block displaces from a value socket hung from an argument, so no rule binds it. -/
theorem Rested.connectSocket {parent id : BlockId} {socket : String} {h : Graph} (rested : s.Rested)
    (sectioned : s.graph.Sectioned) (linked : s.graph.connectSocket parent socket id = .ok h) :
    (s.withGraph h).graph.Sectioned ↔ ∀ follower ∈ s.graph.stack id, follower ≠ id →
      s.graph.Admits (some (parent, socket)) follower := by
  obtain ⟨kind, owner, socketKind, vacated, checked, ownerFound, offered, -, same, made⟩ :=
    Graph.connectSocket_cases linked
  obtain ⟨-, ⟨block, found, rfl⟩, -⟩ := Graph.checkLink_eq_ok.mp checked
  obtain ⟨before, waiting, unbound, few⟩ : ∃ before, vacated.pending.toList = before ∧
      (∀ event ∈ before, Graph.Unbound event) ∧ before.length < eventLimit := by
    have idle : (s.graph.detach id false).pending.toList = [] := by rw [Graph.pending_detach, rested.idle]
    cases taken : (s.graph.detach id false).plugged? parent socket with
    | none =>
      simp only [taken] at made
      exact ⟨[], by rw [made, idle], List.forall_mem_nil _, by decide⟩
    | some occupant =>
      simp only [taken] at made
      cases socketKind with
      | statement =>
        simp only at made
        exact ⟨[], by rw [made, Graph.pending_appendChain, idle], List.forall_mem_nil _, by decide⟩
      | value =>
        have linked := (rested.sound.tree.detach id false).child?_eq_some.mp taken
        have up : (s.graph.detach id false).parent? occupant = some parent := Graph.up_of_parentLink linked
        simp only [Graph.unplug, bind_eq_ok, Graph.get_eq_ok, up, pure_eq_ok] at made
        obtain ⟨held, there, rfl⟩ := made
        refine ⟨[.onBlock occupant held.kind (.moved (some parent) none)], ?_, fun event member => ?_,
          by simp [eventLimit]⟩
        · rw [Graph.emit, Graph.push, EventQueue.toList_push, Graph.pending_detach, idle, List.nil_append]
        · rw [Graph.parentLink?_detach] at linked
          rw [(Graph.Moves.detach ..).blocks] at there
          split at linked
          · cases linked
          · exact ⟨occupant, held.kind, _, _, List.mem_singleton.mp member,
              sectioned.unbound_of_value rested.sound there linked ownerFound offered⟩
  have waiting : h.pending.toList
      = before ++ [.onBlock id block.kind (.moved (s.graph.parent? id) (some parent))] := by
    rw [same, Graph.emit, Graph.push, EventQueue.toList_push, Graph.pending_link, waiting]
  exact rested.connected sectioned (rested.sound.tree.rehung_socket linked) (rested.sound.connectSocket linked)
    (.connectSocket linked) found waiting unbound few

end Session

/-! Runs. -/

/-- The statements that come along with a block fit where an operation puts it. -/
def SessionEdit.Fits (g : Graph) : SessionEdit → Prop
  | connectNext previous id => ∀ follower ∈ g.stack id, follower ≠ id →
    g.Admits (g.enclosingSocket previous) follower
  | connectSocket parent socket child => ∀ follower ∈ g.stack child, follower ≠ child →
    g.Admits (some (parent, socket)) follower
  | _ => True

namespace Session

variable {s s' : Session}

/-- One operation on a session whose sections are in order. -/
theorem Rested.run {edit : SessionEdit} (rested : s.Rested) (ran : edit.run s = .ok s') :
    s'.Rested ∧ (s.graph.Sectioned → (s'.graph.Sectioned ↔ edit.Fits s.graph)) := by
  have opened : ∀ {g : Graph}, Open { s with graph := g } :=
    ⟨rested.opened.registry, rested.opened.phase⟩
  have settles : ∀ {g : Graph}, g.Sound → (s.graph.Sectioned → g.Sectioned) →
      (s.withGraph g).Rested ∧ (s.graph.Sectioned → ((s.withGraph g).graph.Sectioned ↔ True)) :=
    fun sound keeps => ⟨rested_settled opened sound, fun sectioned =>
      iff_true_intro (opened.sectioned sound (keeps sectioned) none eventLimit)⟩
  have stays : ∀ {g : Graph}, g.Sound → s.graph.Stays g →
      (s.withGraph g).Rested ∧ (s.graph.Sectioned → ((s.withGraph g).graph.Sectioned ↔ True)) :=
    fun sound stays => settles sound fun sectioned => sectioned.stays stays sound.tree
  cases SessionEdit.performs ran with
  | create kind extra => exact settles (rested.sound.addBlock kind extra) (Graph.Sectioned.addBlock rested.sound)
  | @createCallTo _ call _ g asked named =>
    have added := rested.sound.addBlock .methodCall (.call call)
    exact settles (added.setField named) fun sectioned =>
      (Graph.Sectioned.addBlock rested.sound sectioned).stays (added.stays_setField named) (added.setField named).tree
  | same => exact ⟨rested, iff_true_intro⟩
  | setField found accepted differs set => exact stays (rested.sound.setField set) (rested.sound.stays_setField set)
  | connectNext linked =>
    exact ⟨rested_settled opened (rested.sound.connectNext linked), fun sectioned =>
      rested.connectNext sectioned linked⟩
  | connectSocket linked =>
    exact ⟨rested_settled opened (rested.sound.connectSocket linked), fun sectioned =>
      rested.connectSocket sectioned linked⟩
  | unplug freed => exact stays (rested.sound.unplug freed) (rested.sound.stays_unplug freed)
  | delete deleted => exact stays (rested.sound.deleteBlock deleted) (rested.sound.stays_deleteBlock deleted)
  | applyEditor set => exact stays (rested.sound.setSignature set) (rested.sound.stays_setSignature set)
  | setScope scope =>
    have sound : (s.graph.reconcileAll scope).2.Sound := (Graph.Evolves.reconcileEach ..).sound rested.sound
    have opened : Open { s with scope, graph := (s.graph.reconcileAll scope).2 } :=
      ⟨rested.opened.registry, rested.opened.phase⟩
    refine ⟨rested_settled opened sound, fun sectioned => iff_true_intro ?_⟩
    exact opened.sectioned sound
      (sectioned.stays (rested.sound.stays_reconcileEach ..) sound.tree) none eventLimit

theorem Rested.edit (rested : s.Rested) (edit : SessionEdit) : (s.edit edit).Rested := by
  rw [Session.edit_eq]
  cases ran : edit.run s with
  | error error => exact rested
  | ok edited => exact (rested.run ran).1

/-- A refused operation leaves the sections as they are. -/
theorem Rested.sectioned_edit {edit : SessionEdit} (rested : s.Rested)
    (sectioned : s.graph.Sectioned) :
    (s.edit edit).graph.Sectioned ↔ ((edit.run s).toBool = true → edit.Fits s.graph) := by
  rw [Session.edit_eq]
  cases ran : edit.run s with
  | error error => simpa [Except.toBool] using sectioned
  | ok edited => simpa [Except.toBool] using (rested.run ran).2 sectioned

theorem rested_new (scope : Scope) : Rested { scope } := ⟨⟨rfl, rfl⟩, .empty, rfl⟩

theorem rested_foldl (scope : Scope) (edits : List SessionEdit) :
    (edits.foldl Session.edit { scope }).Rested := by
  induction edits using List.reverseRecOn with
  | nil => exact rested_new scope
  | append_singleton edits edit ih =>
    rw [List.foldl_append]
    exact ih.edit edit

theorem sectioned_new (scope : Scope) : (Session.graph { scope }).Sectioned := by
  intro id block rule place found
  simp [Graph.block?, Graph.node?, Graph.empty] at found

/-- After each operation all blocks that are bound to a section hang from it or from no socket, exactly if
the statements that came along with a connected block always fitted where it was put. -/
theorem sectioned_iff_fits (scope : Scope) (edits : List SessionEdit) :
    (∀ before, before <+: edits → (before.foldl Session.edit { scope }).graph.Sectioned) ↔
      ∀ before edit, before ++ [edit] <+: edits →
        (edit.run (before.foldl Session.edit { scope })).toBool = true →
          edit.Fits (before.foldl Session.edit { scope }).graph := by
  exact foldl_prefixes_iff (P := fun s : Session => s.graph.Sectioned)
    (Q := fun s edit => (edit.run s).toBool = true → edit.Fits s.graph) (sectioned_new scope)
    (fun before _ sectioned => (rested_foldl scope before).sectioned_edit sectioned) edits

/-- An event that follows another one goes with it into the section of the components. -/
theorem sectioned_iff_fits_follower :
    let edits : List SessionEdit :=
      [.create .componentHolder .none, .create .event (.event []), .create .event (.event []),
        .connectSocket ⟨0⟩ Socket.events ⟨1⟩, .connectNext ⟨1⟩ ⟨2⟩, .unplug ⟨1⟩ false,
        .connectSocket ⟨0⟩ Socket.components ⟨1⟩]
    (edits.foldl Session.edit {}).graph.enclosingSocket ⟨2⟩ = some (⟨0⟩, Socket.components) ∧
      ¬ ∀ before, before <+: edits → (before.foldl Session.edit {}).graph.Sectioned := by
  intro edits
  refine ⟨by decide +kernel, fun kept => ?_⟩
  have fits := (sectioned_iff_fits {} edits).mp kept (edits.take 6) _ (List.prefix_refl _) (by decide +kernel)
  have named := fits ⟨2⟩ (by decide +kernel) (by decide) (.create ⟨2⟩ .event (.event [])) _ _
    (by decide +kernel) rfl rfl
  exact absurd named (by decide +kernel)

end Session
end RobotBlocks
