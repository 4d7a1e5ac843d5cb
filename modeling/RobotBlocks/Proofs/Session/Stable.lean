import RobotBlocks.Proofs.Session.Reconcile
import RobotBlocks.Proofs.Session.Trimmed

/-! References that are in line stay as they are. A reference that had its turn names its declaration
by the declaring block, so it resolves to the same declaration again, provided that the block tells
which declaration is meant; then another round of turns changes nothing but warnings. -/
namespace RobotBlocks

/-- Where keys differ, an entry is found under its key. -/
theorem find?_key {α κ : Type} [DecidableEq κ] {key : α → κ} {entries : List α} {entry : α}
    (unique : ∀ {other}, other ∈ entries → key other = key entry → other = entry) (member : entry ∈ entries) :
    entries.find? (fun other => key other = key entry) = some entry := by
  obtain ⟨found, first⟩ : ∃ found, entries.find? (fun other => key other = key entry) = some found :=
    Option.isSome_iff_exists.mp (List.find?_isSome.mpr ⟨entry, member, by simp⟩)
  have same : key found = key entry := by simpa using List.find?_some first
  rw [first, unique (List.mem_of_find?_eq_some first) same]

namespace Declarations

variable {known : Declarations}

/-- No block declares two events or two methods. -/
structure Distinct (known : Declarations) : Prop where
  events : (known.events.map (·.block)).Nodup
  methods : (known.methods.map (·.block)).Nodup

/-- The declaring block tells which declaration is meant, though it may be listed twice. -/
structure Unambiguous (known : Declarations) : Prop where
  events : ∀ {a b}, a ∈ known.events → b ∈ known.events → a.block = b.block → a = b
  methods : ∀ {a b}, a ∈ known.methods → b ∈ known.methods → a.block = b.block → a = b

theorem Distinct.unambiguous (distinct : known.Distinct) : known.Unambiguous where
  events one other same := List.inj_on_of_nodup_map distinct.events one other same
  methods one other same := List.inj_on_of_nodup_map distinct.methods one other same

/-- Declarations of the graph's own are determined by their blocks. -/
theorem unambiguous_collect (g : Graph) : (collect g).Unambiguous := by
  constructor
  · intro a b one other same
    obtain ⟨block, found, declares⟩ := event_of_collect one
    obtain ⟨twin, found', declares'⟩ := event_of_collect other
    cases found.symm.trans (same ▸ found')
    exact Option.some.inj (declares.symm.trans declares')
  · intro a b one other same
    obtain ⟨block, found, declares⟩ := method_of_collect one
    obtain ⟨twin, found', declares'⟩ := method_of_collect other
    cases found.symm.trans (same ▸ found')
    exact Option.some.inj (declares.symm.trans declares')

/-- A declaration is found under its own block. -/
theorem Unambiguous.findEvent? (unambiguous : known.Unambiguous) {event : EventDecl}
    (member : event ∈ known.events) (name : String) :
    known.findEvent? (some event.block) name = some event := by
  simp [Declarations.findEvent?, find?_key (unambiguous.events · member) member]

theorem Unambiguous.findMethod? (unambiguous : known.Unambiguous) {method : MethodDecl}
    (member : method ∈ known.methods) (name : String) :
    known.findMethod? (some method.block) name = some method := by
  simp [Declarations.findMethod?, find?_key (unambiguous.methods · member) member]

end Declarations

namespace Scope

variable {scope : Scope} {own : Declarations} {block : Block}

/-- In every module of the scope the declarations come from different blocks. -/
structure Distinct (scope : Scope) : Prop where
  robot : ∀ known, scope.robot = some known → known.Distinct
  mechanisms : ∀ name known, (name, known) ∈ scope.mechanisms → known.Distinct

/-- In every module of the scope the declaring block tells which declaration is meant. -/
structure Clear (scope : Scope) : Prop where
  robot : ∀ known, scope.robot = some known → known.Unambiguous
  mechanisms : ∀ name known, (name, known) ∈ scope.mechanisms → known.Unambiguous

theorem Distinct.clear (distinct : scope.Distinct) : scope.Clear where
  robot known held := (distinct.robot known held).unambiguous
  mechanisms name known member := (distinct.mechanisms name known member).unambiguous

theorem Clear.owner? {target : CallTarget} {owner : Declarations} (clear : scope.Clear)
    (unambiguous : own.Unambiguous) (owned : scope.owner? own target = some owner) :
    owner.Unambiguous := by
  cases target with
  | selfModule | fireEvent =>
    cases owned
    exact unambiguous
  | robot => exact clear.robot _ owned
  | mechanism name module => exact clear.mechanisms _ _ (Labelled.mem_of_get? owned)
  | component name => cases owned
  | moduleFunction name => cases owned

/-- A call that shows the declaration to which it resolved resolves to it again. -/
theorem lookup_again {kind : Kind} {call : CallState} {signature : Signature}
    (clear : scope.Clear) (unambiguous : own.Unambiguous)
    (found : scope.lookup own kind call = .found signature) :
    scope.lookup own kind (signature.call call.target) = .found signature := by
  obtain ⟨owner, owned, declares⟩ := lookup_eq_found.mp found
  have unique : owner.Unambiguous := clear.owner? unambiguous owned
  have wants : wantsEvent kind (signature.call call.target) = wantsEvent kind call := rfl
  refine lookup_eq_found.mpr ⟨owner, owned, ?_⟩
  rw [wants]
  split at declares
  · next event =>
    obtain ⟨declared, listed, rfl⟩ := declares
    rw [if_pos event]
    exact ⟨declared, unique.findEvent? (Declarations.findEvent?_mem listed) _, rfl⟩
  · next method =>
    obtain ⟨declared, listed, rfl⟩ := declares
    rw [if_neg method]
    exact ⟨declared, unique.findMethod? (Declarations.findMethod?_mem listed) _, rfl⟩

/-- A call that resolves shows the declaration to which it resolves. -/
def Current (scope : Scope) (own : Declarations) (block : Block) : Prop :=
  ∀ call signature, block.extra.call? = some call →
    scope.lookup own block.kind call = .found signature → call = signature.call call.target

theorem Current.congr {other : Block} (current : scope.Current own block)
    (kind : other.kind = block.kind) (extra : other.extra = block.extra) : scope.Current own other := by
  intro call signature carried resolved
  exact current call signature (extra ▸ carried) (kind ▸ resolved)

/-- A turn changes the warning of a reference that is in line and the call of any other. -/
theorem settle_cases (scope : Scope) (own : Declarations) (block : Block) :
    (scope.Current own block ∧ ∃ warning, scope.settle own block = { block with warning }) ∨
      ∃ call signature, block.extra.call? = some call ∧
        scope.lookup own block.kind call = .found signature ∧ call ≠ signature.call call.target ∧
        scope.settle own block
          = { Graph.callBlock block (signature.call call.target) with warning := none } := by
  unfold settle
  cases carried : block.extra.call? with
  | none => exact .inl ⟨fun call _ carried' => (nomatch carried.symm.trans carried'), block.warning, rfl⟩
  | some call =>
    have unfound : ∀ result, scope.lookup own block.kind call = result →
        (∀ signature, result ≠ .found signature) → scope.Current own block := by
      intro result resolved other call' signature carried' found
      cases carried.symm.trans carried'
      exact absurd (resolved.symm.trans found) (other signature)
    cases resolved : scope.lookup own block.kind call with
    | found signature =>
      by_cases shows : call = signature.call call.target
      · refine .inl ⟨?_, none, by simp only [resolved, if_pos shows]⟩
        intro call' signature' carried' found
        cases carried.symm.trans carried'
        cases resolved.symm.trans found
        exact shows
      · exact .inr ⟨call, signature, rfl, resolved, shows, by simp only [resolved, if_neg shows]⟩
    | missing => exact .inl ⟨unfound _ resolved (fun _ => nofun), _, by simp only [resolved]; rfl⟩
    | unresolvable =>
      exact .inl ⟨unfound _ resolved (fun _ => nofun), block.warning, by simp only [resolved]⟩

/-- A reference is in line after its turn. -/
theorem current_settle (scope : Scope) (clear : scope.Clear) (unambiguous : own.Unambiguous)
    (block : Block) : scope.Current own (scope.settle own block) := by
  rcases scope.settle_cases own block with
    ⟨current, warning, settles⟩ | ⟨call, signature, -, resolved, -, settles⟩
  · exact settles ▸ current.congr rfl rfl
  · rw [settles]
    intro shown signature' carried resolved'
    cases carried
    cases (lookup_again clear unambiguous resolved).symm.trans resolved'
    rfl

namespace Current

variable (current : scope.Current own block)
include current

theorem settle_cleared : (scope.settle own block).cleared = block.cleared := by
  rcases scope.settle_cases own block with
    ⟨-, warning, settles⟩ | ⟨call, signature, carried, resolved, differs, -⟩
  · rw [settles]
    rfl
  · exact absurd (current call signature carried resolved) differs

theorem reshape?_none : scope.reshape? own block = none := by
  unfold reshape?
  split
  · rfl
  · next call carried =>
    split
    · next signature resolved => exact if_pos (congrArg CallState.args (current call signature carried resolved))
    · rfl

end Current
end Scope

namespace Graph

variable {g h : Graph} {own : Declarations} {scope : Scope} {done : List BlockId}

/-- A reference that is left is what its turn made of it. -/
theorem Settled.turned {r : BlockId} {block : Block} (settled : Settled own scope g.references g h)
    (sound : g.Sound) (found : h.block? r = some block) (reference : block.kind.isReference = true) :
    ∃ before, g.block? r = some before ∧ block = scope.settle own before := by
  rw [settled.block (settled.kept_of_contains (contains_iff_block.mpr ⟨block, found⟩))] at found
  split at found
  · obtain ⟨before, there, same⟩ := Option.map_eq_some_iff.mp found
    exact ⟨before, there, same.symm⟩
  · next other => exact absurd (sound.mem_references.mpr ⟨block, found, reference⟩) other

/-- All references are in line after their turns. -/
theorem Settled.current_of_clear {r : BlockId} {block : Block}
    (settled : Settled own scope g.references g h) (sound : g.Sound) (clear : scope.Clear)
    (unambiguous : own.Unambiguous) (found : h.block? r = some block)
    (reference : block.kind.isReference = true) : scope.Current own block := by
  obtain ⟨before, -, rfl⟩ := settled.turned sound found reference
  exact scope.current_settle clear unambiguous before

theorem Settled.current {r : BlockId} {block : Block} (settled : Settled own scope g.references g h)
    (sound : g.Sound) (distinct : scope.Distinct) (unambiguous : own.Unambiguous)
    (found : h.block? r = some block) (reference : block.kind.isReference = true) :
    scope.Current own block :=
  settled.current_of_clear sound distinct.clear unambiguous found reference

/-- Turns of references that are in line change warnings alone. -/
theorem Settled.mirrors (settled : Settled own scope done g h) (tree : g.Tree)
    (current : ∀ r ∈ done, ∀ block, g.block? r = some block → scope.Current own block) : g.Mirrors h := by
  have steady : ∀ r ∈ done, (g.block? r).bind (scope.reshape? own) = none := by
    intro r member
    cases found : g.block? r with
    | none => rfl
    | some block => exact (current r member block found).reshape?_none
  have kept : ∀ id, ¬ g.Dropped own scope done id := by
    rintro id ⟨r, member, value, unused, -⟩
    simp [(seating_of_steady (steady r member)).2, argumentBlocks] at unused
  have blocks : ∀ id, (h.block? id).map Block.cleared = (g.block? id).map Block.cleared := by
    intro id
    rw [settled.block (kept id)]
    split
    · next member =>
      cases found : g.block? id with
      | none => rfl
      | some block => exact congrArg some (current id member block found).settle_cleared
    · rfl
  refine ⟨tree.ids_eq settled.sound.tree fun id => ?_, blocks, fun id => ?_⟩
  · have same := congrArg Option.isSome (blocks id)
    simpa [contains_iff_block, Option.isSome_map, ← Option.isSome_iff_exists] using same
  · rw [settled.link (kept id)]
    cases linked : g.parentLink? id with
    | none => rfl
    | some link =>
      rw [Option.bind_some]
      split
      · next member =>
        simp [relinked, (seating_of_steady (steady link.1 member)).1, argumentBlocks]
      · rfl

end Graph
end RobotBlocks
