import RobotBlocks.Proofs.Session.Propagation

/-! A new name for a declaration, as one edit of the session. Either the name is refused and nothing has
happened, or the declaration and all its references have it and nothing else has changed. -/
namespace RobotBlocks

/-- The block refers to a declaration of its own graph. -/
structure Block.RefersTo (block : Block) (d : BlockId) (call : CallState) : Prop where
  reference : block.kind.isReference = true
  carried : block.extra = .call call
  isLocal : call.target.isLocal = true
  declaration : call.declaration = some d

namespace Graph

variable {g g' : Graph} {d r : BlockId} {declared : Block} {name : String}

theorem mem_callersOf_iff (tree : g.Tree) :
    r ∈ g.callersOf d ↔ ∃ block call, g.block? r = some block ∧ block.RefersTo d call := by
  rw [mem_callersOf tree]
  refine exists_congr fun block => exists_congr fun call => and_congr_right fun _ => ?_
  exact ⟨fun ⟨a, b, c, d⟩ => ⟨a, b, c, d⟩, fun ⟨a, b, c, d⟩ => ⟨a, b, c, d⟩⟩

/-- A declaration has another name, its references call it by that name and show it, and all else is as it
was. A reference carries the sockets that its kind and state ask for. One that was made by hand with others gets
those that it should have, unless a block would be left without its socket: then the name does not reach it. -/
structure NewlyNamed (g : Graph) (d : BlockId) (name : String) (g' : Graph) : Prop where
  own : ∀ {declared}, g.block? d = some declared →
    g'.block? d = some { declared with fields := declared.fields.put Field.name name }
  reference : ∀ {r block call}, g.block? r = some block → block.RefersTo d call →
    block.sockets = Socket.declared block.kind block.extra →
    g'.block? r = some { block with
      fields := block.fields.put Field.name name
      extra := .call { call with name } }
  handmade : ∀ {r block call}, g.block? r = some block → block.RefersTo d call → g.strays r = false →
    g'.block? r = some { block with
      fields := block.fields.put Field.name name
      extra := .call { call with name }
      sockets := Socket.declared block.kind block.extra }
  unreached : ∀ {r block call}, g.block? r = some block → block.RefersTo d call → g.strays r = true →
    g'.block? r = some block
  other : ∀ {id}, id ≠ d → (∀ block call, g.block? id = some block → ¬ block.RefersTo d call) →
    g'.block? id = g.block? id
  link : ∀ id, g'.parentLink? id = g.parentLink? id

/-- A field of one block was set, and then the references got the name. -/
theorem NewlyNamed.of_set {set : Graph} {old : Option String} (tree : g.Tree) (found : g.block? d = some declared)
    (declares : declared.kind.isDeclaration = true) (named : g.setField d Field.name name = .ok (old, set))
    (blocks : ∀ id, g'.block? id = if id ∈ g.callersOf d ∧ g.strays id = false
      then (set.block? id).map (·.called name) else set.block? id)
    (links : ∀ id, g'.parentLink? id = set.parentLink? id) : g.NewlyNamed d name g' := by
  have stored := block?_setField named
  have apart : ∀ {id}, id ∈ g.callersOf d → id ≠ d := fun member => tree.ne_of_caller found declares member
  have handmade : ∀ {r block call}, g.block? r = some block → block.RefersTo d call → g.strays r = false →
      g'.block? r = some { block with
        fields := block.fields.put Field.name name
        extra := .call { call with name }
        sockets := Socket.declared block.kind block.extra } := by
    intro r block call here refers fits
    have member := (mem_callersOf_iff tree).mpr ⟨block, call, here, refers⟩
    rw [blocks, if_pos ⟨member, fits⟩, stored, if_neg (apart member), here, Option.map_some,
      Block.called_of_call refers.carried, callBlock, declared_withName, ← refers.carried]
  refine ⟨fun {own} here => ?_, fun {r block call} here refers asked => ?_, handmade,
    fun {r block call} here refers strays => ?_, fun {id} differs silent => ?_, fun id => ?_⟩
  · rw [blocks, if_neg fun both => apart both.1 rfl, stored, if_pos rfl, here, Option.map_some]
  · have fits : g.strays r = false := (strays_eq_false here).mpr fun socket member _ => ⟨socket, asked ▸ member, rfl⟩
    rw [handmade here refers fits, ← asked]
  · have member := (mem_callersOf_iff tree).mpr ⟨block, call, here, refers⟩
    rw [blocks, if_neg fun both => by simp [strays] at both, stored, if_neg (apart member), here]
  · have outside : id ∉ g.callersOf d := by
      intro member
      obtain ⟨block, call, here, refers⟩ := (mem_callersOf_iff tree).mp member
      exact silent block call here refers
    rw [blocks, if_neg fun both => outside both.1, stored, if_neg differs]
  · rw [links, parentLink?_setField named]

end Graph

namespace Session

variable {s : Session} {d : BlockId} {declared : Block}

end Session
end RobotBlocks
