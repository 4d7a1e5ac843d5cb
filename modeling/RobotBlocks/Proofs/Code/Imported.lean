import RobotBlocks.Proofs.Code.Receivers
import RobotBlocks.Proofs.Text.Sorted

/-! The names that a file imports. Every symbol stands under its module, but a class takes a name by itself: from the
last line that imports it, and from none if the name is its own. A name is imported once unless components take
classes of one name from several modules. -/
namespace RobotBlocks.Code

open RobotBlocks.Graph

/-! Lines of imports. -/

namespace Imports

variable {imports : Imports} {uses : List Use} {module name other : String} {names : List String}
  {symbols : List (String × List String)}

/-- The modules of the lines that import a name, from above. -/
def providers (imports : Imports) (name : String) : List String :=
  (imports.symbols.filter fun line => line.2.contains name).map (·.1)

theorem mem_providers :
    module ∈ imports.providers name ↔ ∃ names, (module, names) ∈ imports.symbols ∧ name ∈ names := by
  simp [providers]

/-- A symbol is put under its module, and the others stay. -/
theorem mem_insertSymbol {symbol : String} :
    (∃ names, (other, names) ∈ insertSymbol module name symbols ∧ symbol ∈ names) ↔
      other = module ∧ symbol = name ∨ ∃ names, (other, names) ∈ symbols ∧ symbol ∈ names := by
  induction symbols with
  | nil => simp [insertSymbol]
  | cons line rest ih =>
    obtain ⟨first, listed⟩ := line
    unfold insertSymbol
    split
    · next same =>
      subst same
      simp only [List.mem_cons, Prod.mk.injEq, or_and_right, exists_or, and_assoc, exists_and_left, exists_eq_left,
        Text.mem_insertName]
      rw [and_or_left, or_assoc]
    · split
      · simp [or_and_right, exists_or]
      · simp only [List.mem_cons, or_and_right, exists_or, ih]
        rw [or_left_comm]

theorem map_insertSymbol (module name : String) (symbols : List (String × List String)) :
    (insertSymbol module name symbols).map (·.1) = Text.insertName module (symbols.map (·.1)) := by
  induction symbols with
  | nil => rfl
  | cons line rest ih =>
    simp only [insertSymbol, Text.insertName, List.map_cons]
    split
    · rfl
    · split
      · rfl
      · exact congrArg _ ih

/-- A name is imported from the modules for which it is used. -/
theorem mem_providers_ofUses : module ∈ (ofUses uses).providers name ↔ .symbol module name ∈ uses := by
  have gathered : ∀ (uses : List Use) (imports : Imports), module ∈ (uses.foldl add imports).providers name ↔
      .symbol module name ∈ uses ∨ module ∈ imports.providers name := by
    intro uses
    induction uses with
    | nil => simp
    | cons what rest ih =>
      intro imports
      rw [List.foldl_cons, ih, List.mem_cons]
      cases what with
      | module other => simp [add, mem_providers]
      | symbol other name =>
        simp only [add, mem_providers, mem_insertSymbol, Use.symbol.injEq]
        rw [or_left_comm, or_assoc]
  simpa [ofUses, providers] using gathered uses {}

/-- The lines stand in the order of their modules. -/
theorem ofUses_sorted (uses : List Use) : ((ofUses uses).symbols.map (·.1)).Pairwise (· < ·) := by
  have gathered : ∀ (uses : List Use) (imports : Imports), (imports.symbols.map (·.1)).Pairwise (· < ·) →
      ((uses.foldl add imports).symbols.map (·.1)).Pairwise (· < ·) := by
    intro uses
    induction uses with
    | nil => exact fun _ sorted => sorted
    | cons what rest ih =>
      intro imports sorted
      refine ih _ ?_
      cases what with
      | module => exact sorted
      | symbol module name =>
        rw [add, map_insertSymbol]
        exact Text.insertName_sorted module sorted
  exact gathered uses {} .nil

theorem providers_sorted (uses : List Use) (name : String) : ((ofUses uses).providers name).Pairwise (· < ·) :=
  (ofUses_sorted uses).sublist (List.filter_sublist.map _)

end Imports

/-! Modules in ascending order. -/

section

variable {name : String} {names : List String}

theorem getLast?_of_sorted (sorted : names.Pairwise (· < ·)) :
    names.getLast? = some name ↔ name ∈ names ∧ ∀ other ∈ names, other ≤ name := by
  have greatest : ∀ {last}, names.getLast? = some last → last ∈ names ∧ ∀ other ∈ names, other ≤ last := by
    intro last is
    obtain ⟨front, rfl⟩ := List.getLast?_eq_some_iff.mp is
    refine ⟨by simp, fun other member => ?_⟩
    rcases List.mem_append.mp member with before | same
    · exact Std.le_of_lt ((List.pairwise_append.mp sorted).2.2 other before last (List.mem_singleton_self _))
    · exact List.mem_singleton.mp same ▸ String.le_refl _
  refine ⟨greatest, fun ⟨member, above⟩ => ?_⟩
  obtain ⟨last, is⟩ := Option.isSome_iff_exists.mp (List.getLast?_isSome.mpr (List.ne_nil_of_mem member))
  obtain ⟨listed, below⟩ := greatest is
  rw [is, String.le_antisymm (above last listed) (below name member)]

theorem length_le_one_of_sorted (sorted : names.Pairwise (· < ·)) :
    names.length ≤ 1 ↔ ∀ one ∈ names, ∀ other ∈ names, one = other := by
  cases sorted with
  | nil => simp
  | @cons first rest above _ =>
    cases rest with
    | nil => simp
    | cons second rest =>
      refine iff_of_false (by simp) fun same => ?_
      have differ := String.ne_of_lt (above second (List.mem_cons_self ..))
      exact differ (same first (by simp) second (by simp))

end

/-! What a class needs. -/

variable {g : Graph} {own : Declarations} {scope : Scope} {id : BlockId} {type : ModuleType}
  {name module symbol : String} {options : Options} {outline : Outline} {what : Use} {component : ComponentDecl}

theorem resolveCall_needs {call : CallState} (noted : .needs what ∈ (resolveCall own scope id call).2.2) : False := by
  unfold resolveCall at noted
  split at noted
  · dsimp only at noted
    split at noted
    · cases noted
    · cases List.mem_singleton.mp noted
  · cases List.mem_singleton.mp noted
  · cases noted

/-- What is written for a value needs nothing. -/
theorem Leaf.needs {block : Block} {noted : Noted Expr} (leaf : Leaf id block noted)
    (member : .needs what ∈ noted.2) : False := by
  cases leaf with
  | refused | none => cases List.mem_singleton.mp member
  | _ => cases member

/-- A component that a class builds, from a class that it imports. -/
structure Built (type : ModuleType) (own : Declarations) (component : ComponentDecl) : Prop where
  exports : type.exports = true
  declared : component ∈ own.components
  named : (Text.trim component.className).isEmpty = false
  imported : component.importModule ≠ ""

theorem hardwareLine_needs : .needs what ∈ (hardwareLine component).2 ↔
    (Text.trim component.className).isEmpty = false ∧ component.importModule ≠ "" ∧
      what = .symbol component.importModule component.className := by
  unfold hardwareLine
  split
  · next unnamed => simp [unnamed, Note.complain]
  · next named =>
    dsimp only
    split
    · next inside =>
      have blank : component.importModule = "" := by simpa using inside
      simp [blank]
    · next imported =>
      have imported : component.importModule ≠ "" := by simpa using imported
      simp [named, imported]

/-- The symbols that a class needs: its base, its decorators and the classes of its components. -/
inductive Outline.Needs (outline : Outline) : String → String → Prop where
  | base : Needs outline (baseOf outline.type).1 (baseOf outline.type).2
  | mark {symbol args : String} (listed : (symbol, args) ∈ outline.opMode.elim [] decorators) :
      Needs outline baseClasses symbol
  | component {component : ComponentDecl} (built : Built outline.type outline.declarations component) :
      Needs outline component.importModule component.className

/-- Bodies need whole modules alone. -/
theorem taken_needs : Taken g scope outline (.needs (.symbol module symbol)) ↔ outline.Needs module symbol := by
  constructor
  · intro taken
    generalize is : Note.needs (.symbol module symbol) = note at taken
    cases taken with
    | head listed =>
      rcases List.mem_cons.mp listed with same | listed
      · cases is.trans same
        exact .base
      · obtain ⟨⟨mark, args⟩, listed, same⟩ := List.mem_map.mp listed
        cases is.trans same.symm
        exact .mark listed
    | component exports declared noted =>
      subst is
      obtain ⟨named, imported, same⟩ := hardwareLine_needs.mp noted
      cases same
      exact .component ⟨exports, declared, named, imported⟩
    | statement => cases is
    | value emitted found other noted => exact ((expression_leaf found other).needs (is ▸ noted)).elim
    | call emitted found kind carried noted => exact (resolveCall_needs (is ▸ noted)).elim
    | library => cases is
  · intro needs
    cases needs with
    | base => exact .head (List.mem_cons_self ..)
    | mark listed => exact .head (List.mem_cons_of_mem _ (List.mem_map.mpr ⟨_, listed, rfl⟩))
    | component built =>
      exact .component built.exports built.declared (hardwareLine_needs.mpr ⟨built.named, built.imported, rfl⟩)

/-- The imports of a class. -/
def importsOf (g : Graph) (scope : Scope) (outline : Outline) : Imports :=
  .ofUses ((written g scope outline).2.filterMap Note.use?)

theorem mem_providers_importsOf (tree : g.Tree) (collected : Outline.collect? type name g = some outline) :
    module ∈ (importsOf g scope outline).providers symbol ↔ outline.Needs module symbol := by
  rw [importsOf, Imports.mem_providers_ofUses, mem_uses_written tree collected, taken_needs]

theorem decorators_symbol {details : OpModeDetails} {args : String} (listed : (symbol, args) ∈ decorators details) :
    symbol ∈ [details.kind.title, "Name", "Group"] := by
  have named : ∀ {mark text : String}, (symbol, args) ∈ (if (Text.trim text).isEmpty = true then []
      else [(mark, "(" ++ Text.quoted (Text.trim text) ++ ")")]) → symbol = mark := by
    intro mark text listed
    split at listed
    · cases listed
    · cases List.mem_singleton.mp listed
      rfl
  unfold decorators at listed
  rcases List.mem_append.mp listed with listed | group
  · rcases List.mem_append.mp listed with kind | name
    · split at kind
      · cases List.mem_singleton.mp kind
        exact List.mem_cons_self ..
      · cases kind
    · simp [named name]
  · simp [named group]

/-- Decorators are those of opmodes, and none is named like their base class. -/
theorem Outline.mark_opMode (collected : Outline.collect? type name g = some outline) {args : String}
    (listed : (symbol, args) ∈ outline.opMode.elim [] decorators) :
    outline.type.exports = false ∧ symbol ≠ (baseOf outline.type).2 := by
  obtain ⟨className, -, rfl⟩ := Option.map_eq_some_iff.mp collected
  dsimp only at listed ⊢
  split at listed
  · next opMode =>
    subst opMode
    cases details : OpModeDetails.ofGraph? g with
    | none =>
      rw [details] at listed
      cases listed
    | some details' =>
      rw [details] at listed
      have among := decorators_symbol listed
      refine ⟨rfl, fun base => ?_⟩
      rw [base] at among
      revert among
      cases details'.kind <;> decide
  · cases listed

/-- The class of a component is imported from its module, from those of all components with a class of the
name, and from that of the base class if it is called like that. -/
theorem mem_providers_built (tree : g.Tree) (collected : Outline.collect? type name g = some outline)
    (built : Built outline.type outline.declarations component) :
    module ∈ (importsOf g scope outline).providers component.className ↔
      (∃ other, Built outline.type outline.declarations other ∧ other.className = component.className ∧
        other.importModule = module) ∨
      component.className = (baseOf outline.type).2 ∧ (baseOf outline.type).1 = module := by
  rw [mem_providers_importsOf tree collected]
  constructor
  · intro needs
    generalize same : component.className = symbol at needs
    cases needs with
    | base => exact .inr ⟨rfl, rfl⟩
    | mark listed =>
      have inside := (Outline.mark_opMode collected listed).1
      cases inside.symm.trans built.exports
    | component built => exact .inl ⟨_, built, rfl, rfl⟩
  · rintro (⟨other, built, same, rfl⟩ | ⟨same, rfl⟩)
    · exact same ▸ .component built
    · exact same ▸ .base

/-! Names. -/

/-- The module from which a class takes a name while it runs: none if it is its own, and otherwise the last one
that provides it. -/
def Class.source? (c : Class) (imports : Imports) (name : String) : Option String :=
  if name = c.name then none else (imports.providers name).getLast?

theorem source?_built (tree : g.Tree) (collected : Outline.collect? type name g = some outline)
    (built : Built outline.type outline.declarations component) :
    (written g scope outline).1.source? (importsOf g scope outline) component.className
        = some component.importModule ↔
      component.className ≠ outline.className ∧
      (∀ other, Built outline.type outline.declarations other → other.className = component.className →
        other.importModule ≤ component.importModule) ∧
      (component.className = (baseOf outline.type).2 → (baseOf outline.type).1 ≤ component.importModule) := by
  have sorted : ((importsOf g scope outline).providers component.className).Pairwise (· < ·) :=
    Imports.providers_sorted _ _
  have among : component.importModule ∈ (importsOf g scope outline).providers component.className :=
    (mem_providers_built tree collected built).mpr (.inl ⟨component, built, rfl, rfl⟩)
  rw [Class.source?, Option.ite_none_left_eq_some, getLast?_of_sorted sorted]
  refine and_congr_right fun _ => (and_iff_right among).trans ?_
  simp only [mem_providers_built tree collected built]
  constructor
  · exact fun above => ⟨fun other built same => above _ (.inl ⟨other, built, same, rfl⟩),
      fun same => above _ (.inr ⟨same, rfl⟩)⟩
  · rintro ⟨others, base⟩ module (⟨other, built, same, rfl⟩ | ⟨same, rfl⟩)
    · exact others other built same
    · exact base same

/-- No name is imported twice if the components agree on the modules of their classes, also with the base class. -/
theorem providers_once_iff (tree : g.Tree) (collected : Outline.collect? type name g = some outline) :
    (∀ symbol, ((importsOf g scope outline).providers symbol).length ≤ 1) ↔
      (∀ one other, Built outline.type outline.declarations one → Built outline.type outline.declarations other →
        one.className = other.className → one.importModule = other.importModule) ∧
      ∀ component, Built outline.type outline.declarations component →
        component.className = (baseOf outline.type).2 → component.importModule = (baseOf outline.type).1 := by
  have single : ∀ symbol, ((importsOf g scope outline).providers symbol).length ≤ 1 ↔
      ∀ one, outline.Needs one symbol → ∀ other, outline.Needs other symbol → one = other := by
    intro symbol
    have sorted : ((importsOf g scope outline).providers symbol).Pairwise (· < ·) := Imports.providers_sorted _ _
    rw [length_le_one_of_sorted sorted]
    simp only [mem_providers_importsOf tree collected]
  simp only [single]
  constructor
  · intro same
    refine ⟨fun one other built built' named => ?_, fun component built named => ?_⟩
    · exact same _ _ (.component built) _ (named ▸ .component built')
    · exact same _ _ (.component built) _ (named ▸ .base)
  · rintro ⟨agree, base⟩ symbol one needs other needs'
    have marked : ∀ {symbol args component}, (symbol, args) ∈ outline.opMode.elim [] decorators →
        Built outline.type outline.declarations component → False := fun listed built =>
      Bool.eq_false_iff.mp (Outline.mark_opMode collected listed).1 built.exports
    cases needs with
    | base =>
      generalize same : (baseOf outline.type).2 = symbol at needs'
      cases needs' with
      | base => rfl
      | mark listed => exact absurd same.symm (Outline.mark_opMode collected listed).2
      | component built => exact (base _ built same.symm).symm
    | mark listed =>
      cases needs' with
      | base => exact absurd rfl (Outline.mark_opMode collected listed).2
      | mark => rfl
      | component built => exact (marked listed built).elim
    | @component component built =>
      generalize same : component.className = symbol at needs'
      cases needs' with
      | base => exact base _ built same
      | mark listed => exact (marked listed built).elim
      | component built' => exact agree _ _ built built' same

/-- The components whose classes come from other modules are built under the names of these classes. Such a name is
that of the intended class unless the class itself has it, or a module that is further down in the imports
provides it too. No name is imported twice exactly if all components of one class name import from the same
module, and a class that is named like the base class from the module of that. -/
theorem imported_once_iff (reached : g.Reachable) (supported : type ≠ .unknown) (valid : options.isValid = true)
    (name : String) (scope : Scope) :
    ∃ generated imports c, generate type name g scope options = .ok generated ∧
      generated.code = fileText options imports c ∧ c.name = generated.className ∧
      (∀ component, Built type (.collect g) component →
        (∃ method ∈ c.methods, method.name = "define_hardware" ∧ ∃ port,
          "self." ++ Text.identifier component.name ++ " = " ++ (component.className ++ "(" ++ port ++ ")")
            ∈ method.body) ∧
        (c.source? imports component.className = some component.importModule ↔
          component.className ≠ generated.className ∧
          (∀ other, Built type (.collect g) other → other.className = component.className →
            other.importModule ≤ component.importModule) ∧
          (component.className = (baseOf type).2 → (baseOf type).1 ≤ component.importModule))) ∧
      ((∀ symbol, (imports.providers symbol).length ≤ 1) ↔
        (∀ one other, Built type (.collect g) one → Built type (.collect g) other →
          one.className = other.className → one.importModule = other.importModule) ∧
        ∀ component, Built type (.collect g) component → component.className = (baseOf type).2 →
          component.importModule = (baseOf type).1) := by
  have sound := reached.sound
  obtain ⟨generated, made⟩ : ∃ generated, generate type name g scope options = .ok generated :=
    (generate_ok_iff sound scope).mpr ⟨valid, supported⟩
  obtain ⟨outline, collected, rfl⟩ := generate_eq sound made
  have own : outline.declarations = .collect g := Outline.declarations_eq collected
  obtain rfl : outline.type = type := Outline.type_eq collected
  rw [← own]
  refine ⟨_, importsOf g scope outline, (written g scope outline).1, made, rfl, rfl, fun component built => ?_,
    providers_once_iff sound collected⟩
  obtain ⟨method, listed, named, line⟩ :=
    hardware_line scope collected built.exports (own ▸ built.declared) built.named
  exact ⟨⟨method, listed, named, _, line⟩, source?_built sound collected built⟩

/-- Two motors are of classes with one name in two modules. The file imports the name from both, so the motor on the
left is not built from the class that it names. -/
theorem imported_once_iff_motors :
    let motor (module : String) : ExtraState := .component { className := "Motor", importModule := module }
    let g := [Mutation.add .componentHolder .none, .add .component (motor "a"), .add .component (motor "b"),
      .setField ⟨1⟩ Field.name "left", .setField ⟨2⟩ Field.name "right", .connectSocket ⟨0⟩ Socket.components ⟨1⟩,
      .connectNext ⟨1⟩ ⟨2⟩].foldl Graph.mutate Graph.empty
    ∃ generated imports c, generate .mechanism "Arm" g {} {} = .ok generated ∧
      generated.code = fileText {} imports c ∧
      (∃ method ∈ c.methods, method.name = "define_hardware" ∧ ∃ port,
        "self." ++ "left" ++ " = " ++ ("Motor" ++ "(" ++ port ++ ")") ∈ method.body) ∧
      c.source? imports "Motor" ≠ some "a" ∧ ¬ ∀ symbol, (imports.providers symbol).length ≤ 1 := by
  intro motor g
  have reached : g.Reachable := Reachable.empty.foldl_mutate _
  have declared : (Declarations.collect g).components =
      [⟨⟨1⟩, "left", .component, "Motor", "a", none⟩, ⟨⟨2⟩, "right", .component, "Motor", "b", none⟩] := by
    decide +kernel
  have left : Built .mechanism (.collect g) ⟨⟨1⟩, "left", .component, "Motor", "a", none⟩ :=
    ⟨rfl, by rw [declared]; simp, by decide +kernel, by decide⟩
  have right : Built .mechanism (.collect g) ⟨⟨2⟩, "right", .component, "Motor", "b", none⟩ :=
    ⟨rfl, by rw [declared]; simp, by decide +kernel, by decide⟩
  have supported : ModuleType.mechanism ≠ .unknown := by decide
  have valid : ({} : Options).isValid = true := by decide
  obtain ⟨generated, imports, c, made, text, -, lines, once⟩ := imported_once_iff reached supported valid "Arm" {}
  obtain ⟨line, source⟩ := lines _ left
  have name : Text.identifier "left" = "left" := by decide +kernel
  rw [name] at line
  refine ⟨generated, imports, c, made, text, line, fun intended => ?_, fun single => ?_⟩
  · have below : "b" ≤ "a" := (source.mp intended).2.1 _ right rfl
    exact absurd below (by decide)
  · have same : "a" = "b" := (once.mp single).1 _ _ left right rfl
    exact absurd same (by decide)

end RobotBlocks.Code
