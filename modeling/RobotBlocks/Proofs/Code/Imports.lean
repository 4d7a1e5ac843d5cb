import Mathlib.Data.List.Sort
import RobotBlocks.Proofs.Code.File
import RobotBlocks.Proofs.Code.Imported

/-! A file imports what its class uses: the libraries whose functions are called, the base of the class, its decorators
and the classes of its components. The lines are in ascending order without repetitions, and there is only one such
order, so they tell nothing of the order in which a class is written. -/
namespace RobotBlocks.Code

open RobotBlocks.Graph

/-! Imports in order. -/

namespace Imports

variable {imports other : Imports} {uses : List Use} {module name : String} {symbols : List (String × List String)}

/-- Imports as they are written: every module once, with its symbols, and all in ascending order. -/
structure Ordered (imports : Imports) : Prop where
  modules : imports.modules.Pairwise (· < ·)
  lines : (imports.symbols.map (·.1)).Pairwise (· < ·)
  symbols : ∀ line ∈ imports.symbols, line.2 ≠ [] ∧ line.2.Pairwise (· < ·)

theorem insertSymbol_symbols (kept : ∀ line ∈ symbols, line.2 ≠ [] ∧ line.2.Pairwise (· < ·)) :
    ∀ line ∈ insertSymbol module name symbols, line.2 ≠ [] ∧ line.2.Pairwise (· < ·) := by
  have single : [name] ≠ [] ∧ [name].Pairwise (· < ·) := ⟨by simp, List.pairwise_singleton ..⟩
  induction symbols with
  | nil => exact List.forall_mem_singleton.mpr single
  | cons first rest ih =>
    obtain ⟨listed, names⟩ := first
    obtain ⟨here, later⟩ := List.forall_mem_cons.mp kept
    unfold insertSymbol
    split
    · refine List.forall_mem_cons.mpr ⟨⟨?_, Text.insertName_sorted name here.2⟩, later⟩
      exact List.ne_nil_of_mem ((Text.mem_insertName name name names).mpr (.inl rfl))
    · split
      · exact List.forall_mem_cons.mpr ⟨single, kept⟩
      · exact List.forall_mem_cons.mpr ⟨here, ih later⟩

theorem Ordered.add (ordered : imports.Ordered) (what : Use) : (imports.add what).Ordered := by
  cases what with
  | module name => exact ⟨Text.insertName_sorted name ordered.modules, ordered.lines, ordered.symbols⟩
  | symbol module name =>
    refine ⟨ordered.modules, ?_, insertSymbol_symbols ordered.symbols⟩
    rw [Imports.add, map_insertSymbol]
    exact Text.insertName_sorted module ordered.lines

theorem ordered_ofUses (uses : List Use) : (ofUses uses).Ordered := by
  have gathered : ∀ (uses : List Use) (imports : Imports), imports.Ordered →
      (uses.foldl Imports.add imports).Ordered := by
    intro uses
    induction uses with
    | nil => exact fun _ ordered => ordered
    | cons what rest ih => exact fun _ ordered => ih _ (ordered.add what)
  exact gathered uses {} ⟨.nil, .nil, nofun⟩

theorem mem_modules_ofUses : module ∈ (ofUses uses).modules ↔ .module module ∈ uses := by
  have gathered : ∀ (uses : List Use) (imports : Imports), module ∈ (uses.foldl Imports.add imports).modules ↔
      .module module ∈ uses ∨ module ∈ imports.modules := by
    intro uses
    induction uses with
    | nil => simp
    | cons what rest ih =>
      intro imports
      rw [List.foldl_cons, ih, List.mem_cons]
      cases what with
      | module name =>
        simp only [Imports.add, Text.mem_insertName, Use.module.injEq]
        rw [or_left_comm, or_assoc]
      | symbol => simp [Imports.add]
  simpa [ofUses] using gathered uses {}

/-- A module is in one line. -/
theorem Ordered.line_unique (ordered : imports.Ordered) {names names' : List String}
    (listed : (module, names) ∈ imports.symbols) (listed' : (module, names') ∈ imports.symbols) : names = names' := by
  have distinct : (imports.symbols.map (·.1)).Nodup := ordered.lines.imp fun before => String.ne_of_lt before
  exact congrArg Prod.snd (List.inj_on_of_nodup_map distinct listed listed' rfl)

/-- Imports in order are the same if they import the same. -/
theorem Ordered.eq (ordered : imports.Ordered) (ordered' : other.Ordered)
    (modules : ∀ module, module ∈ imports.modules ↔ module ∈ other.modules)
    (symbols : ∀ module name, module ∈ imports.providers name ↔ module ∈ other.providers name) : imports = other := by
  have onward : ∀ {one another : Imports}, one.Ordered → another.Ordered →
      (∀ module name, module ∈ one.providers name ↔ module ∈ another.providers name) →
      ∀ line ∈ one.symbols, line ∈ another.symbols := by
    rintro one another sorted sorted' same ⟨module, names⟩ listed
    obtain ⟨some, ascending⟩ := sorted.symbols _ listed
    obtain ⟨first, member⟩ := List.exists_mem_of_ne_nil names some
    obtain ⟨names', listed', -⟩ := mem_providers.mp ((same module first).mp (mem_providers.mpr ⟨names, listed, member⟩))
    have agree : ∀ name, name ∈ names ↔ name ∈ names' := by
      intro name
      constructor
      · intro member
        obtain ⟨found, there, inside⟩ :=
          mem_providers.mp ((same module name).mp (mem_providers.mpr ⟨names, listed, member⟩))
        exact sorted'.line_unique there listed' ▸ inside
      · intro member
        obtain ⟨found, there, inside⟩ :=
          mem_providers.mp ((same module name).mpr (mem_providers.mpr ⟨names', listed', member⟩))
        exact sorted.line_unique there listed ▸ inside
    have equal : names = names' := ascending.eq_of_mem_iff (sorted'.symbols _ listed').2 agree
    exact equal ▸ listed'
  have lines : imports.symbols = other.symbols := by
    refine Text.eq_of_ascending (List.pairwise_map.mp ordered.lines) (List.pairwise_map.mp ordered'.lines)
      fun line => ?_
    exact ⟨onward ordered ordered' symbols line,
      onward ordered' ordered (fun module name => (symbols module name).symm) line⟩
  have whole := ordered.modules.eq_of_mem_iff ordered'.modules modules
  cases imports
  cases other
  cases whole
  cases lines
  rfl

end Imports

/-! What a class uses. -/

variable {g : Graph} {scope : Scope} {type : ModuleType} {name module symbol : String} {options : Options}
  {outline : Outline}

/-- Whatever makes a class import something has its code in it: calls, the base, decorators and components. -/
structure Exhibits (g : Graph) (scope : Scope) (outline : Outline) (c : Class) : Prop where
  calls : ∀ id call, Refers g scope id .methodCall call → Coded g scope c id .methodCall call
  base : c.base = (baseOf outline.type).2
  decorators : c.decorators = (outline.opMode.elim [] decorators).map fun (symbol, args) => "@" ++ symbol ++ args
  components : ∀ component, Built outline.type outline.declarations component →
    ∃ method ∈ c.methods, method.name = "define_hardware" ∧ ∃ port,
      "self." ++ Text.identifier component.name ++ " = " ++ (component.className ++ "(" ++ port ++ ")") ∈ method.body

theorem exhibits_written (tree : g.Tree) (collected : Outline.collect? type name g = some outline) :
    Exhibits g scope outline (written g scope outline).1 := by
  refine ⟨fun id call refers => refers.coded tree collected, rfl, rfl, fun component built => ?_⟩
  rw [Outline.type_eq collected, Outline.declarations_eq collected] at built
  obtain ⟨method, listed, named, line⟩ := hardware_line scope collected built.exports built.declared built.named
  exact ⟨method, listed, named, _, line⟩

/-- Libraries are needed for calls alone. -/
theorem taken_library (collected : Outline.collect? type name g = some outline) :
    Taken g scope outline (.needs (.module module)) ↔
      ∃ id call, Refers g scope id .methodCall call ∧ call.target = .moduleFunction module := by
  have own : outline.declarations = .collect g := Outline.declarations_eq collected
  constructor
  · intro taken
    generalize is : Note.needs (.module module) = note at taken
    cases taken with
    | head listed =>
      rcases List.mem_cons.mp listed with same | listed
      · cases is.trans same
      · obtain ⟨mark, -, same⟩ := List.mem_map.mp listed
        cases is.trans same.symm
    | component exports declared noted =>
      subst is
      obtain ⟨-, -, same⟩ := hardwareLine_needs.mp noted
      cases same
    | statement => cases is
    | value emitted found other noted => exact ((expression_leaf found other).needs (is ▸ noted)).elim
    | call emitted found kind carried noted => exact (resolveCall_needs (is ▸ noted)).elim
    | library emitted found kind carried target =>
      cases is
      exact ⟨_, _, .call (own ▸ emitted) found kind (call?_eq_some.mp carried), target⟩
  · rintro ⟨id, call, refers, target⟩
    cases refers with
    | call emitted found kind carried =>
      exact .library (own.symm ▸ emitted) found kind (call?_eq_some.mpr carried) target

/-- The import lines of the file stand in ascending order: first the libraries that the class calls, then the symbols
that it takes from modules. A library is imported exactly if a function of it is called in the class, a symbol exactly
if it is the base, a decorator or the class of a component that names the module. Whatever uses give these imports, in
whatever order, they give the same ones. -/
theorem imports_exact (reached : g.Assembled) (supported : type ≠ .unknown) (valid : options.isValid = true)
    (name : String) (scope : Scope) :
    ∃ generated, ∃ imports : Imports, ∃ outline c, generate type name g scope options = .ok generated ∧
      Prints options (imports.modules.map (fun module => "import " ++ module) ++
        imports.symbols.map (fun line => "from " ++ line.1 ++ " import " ++ ", ".intercalate line.2))
        c generated.code ∧
      Outline.collect? type name g = some outline ∧ Exhibits g scope outline c ∧ imports.Ordered ∧
      (∀ module, module ∈ imports.modules ↔
        ∃ id call, Refers g scope id .methodCall call ∧ call.target = .moduleFunction module) ∧
      (∀ module symbol, (∃ names, (module, names) ∈ imports.symbols ∧ symbol ∈ names) ↔
        outline.Needs module symbol) ∧
      ∀ uses, (∀ module, .module module ∈ uses ↔ module ∈ imports.modules) →
        (∀ module symbol, .symbol module symbol ∈ uses ↔
          ∃ names, (module, names) ∈ imports.symbols ∧ symbol ∈ names) →
        Imports.ofUses uses = imports := by
  have tree := reached.tree
  obtain ⟨generated, made⟩ : ∃ generated, generate type name g scope options = .ok generated :=
    (generate_ok_iff tree scope).mpr ⟨valid, supported⟩
  obtain ⟨outline, collected, -⟩ := generate_eq tree made
  have ordered : (importsOf g scope outline).Ordered := Imports.ordered_ofUses _
  have modules : ∀ module, module ∈ (importsOf g scope outline).modules ↔
      ∃ id call, Refers g scope id .methodCall call ∧ call.target = .moduleFunction module := by
    intro module
    rw [importsOf, Imports.mem_modules_ofUses, mem_uses_written tree collected, taken_library collected]
  have symbols : ∀ module symbol,
      (∃ names, (module, names) ∈ (importsOf g scope outline).symbols ∧ symbol ∈ names) ↔
        outline.Needs module symbol := by
    intro module symbol
    rw [← Imports.mem_providers, mem_providers_importsOf tree collected]
  refine ⟨generated, importsOf g scope outline, outline, _, made, generate_prints tree made collected, collected,
    exhibits_written tree collected, ordered, modules, symbols, fun uses same same' => ?_⟩
  refine (Imports.ordered_ofUses uses).eq ordered (fun module => ?_) fun module symbol => ?_
  · rw [Imports.mem_modules_ofUses, same]
  · rw [Imports.mem_providers_ofUses, same', Imports.mem_providers]

/-- A function of one library is called for the argument of a function of another one, beside a motor. -/
theorem imports_exact_nested :
    let library (module function : String) (args : List Parameter) : CallState :=
      { target := .moduleFunction module, name := function, args }
    let g := [Mutation.add .methodDef (.method {}),
      .add .methodCall (.call (library "time" "sleep" [⟨"seconds", none⟩])),
      .add .methodCall (.call (library "math" "sqrt" [])), .add .componentHolder .none,
      .add .component (.component { className := "Motor", importModule := "motors" }),
      .connectSocket ⟨0⟩ Socket.stack ⟨1⟩, .connectSocket ⟨1⟩ "ARG0" ⟨2⟩,
      .connectSocket ⟨3⟩ Socket.components ⟨4⟩].foldl Graph.mutate Graph.empty
    ∃ generated, ∃ imports : Imports, ∃ c, generate .mechanism "Arm" g {} {} = .ok generated ∧
      Prints {} (imports.modules.map (fun module => "import " ++ module) ++
        imports.symbols.map (fun line => "from " ++ line.1 ++ " import " ++ ", ".intercalate line.2))
        c generated.code ∧ imports.Ordered ∧ "time" ∈ imports.modules ∧ "math" ∈ imports.modules ∧
      ∃ names, ("motors", names) ∈ imports.symbols ∧ "Motor" ∈ names := by
  intro library g
  have reached : g.Assembled := Assembled.empty.foldl_mutate _
  have supported : ModuleType.mechanism ≠ .unknown := by decide
  have valid : ({} : Options).isValid = true := by decide
  have shows : (g.topBlocks = [⟨0⟩, ⟨3⟩] ∧ g.statementStack ⟨0⟩ Socket.stack = [⟨1⟩] ∧
        g.plugged? ⟨1⟩ (Socket.arg 0) = some ⟨2⟩) ∧
      (g.block? ⟨0⟩).map (·.kind) = some .methodDef ∧
      (g.block? ⟨1⟩).map (fun block => (block.kind, block.extra))
        = some (.methodCall, .call (library "time" "sleep" [⟨"seconds", none⟩])) ∧
      (g.block? ⟨2⟩).map (fun block => (block.kind, block.extra))
        = some (.methodCall, .call (library "math" "sqrt" [])) ∧
      (Declarations.collect g).components = [⟨⟨4⟩, "", .component, "Motor", "motors", none⟩] := by
    decide +kernel
  obtain ⟨⟨tops, stack, plugged⟩, head, outer, inner, declared⟩ := shows
  obtain ⟨owner, ownerFound, ownerKind⟩ := Option.map_eq_some_iff.mp head
  obtain ⟨block, found, is⟩ := Option.map_eq_some_iff.mp outer
  obtain ⟨kind, carried⟩ := Prod.mk.inj is
  obtain ⟨argument, found', is'⟩ := Option.map_eq_some_iff.mp inner
  obtain ⟨kind', carried'⟩ := Prod.mk.inj is'
  obtain ⟨generated, imports, outline, c, made, prints, collected, -, ordered, modules, symbols, -⟩ :=
    imports_exact reached supported valid "Arm" {}
  have stated : Emitted g (.collect g) {} ⟨1⟩ :=
    .stated (.definition (by rw [tops]; simp) ownerFound ownerKind) (by rw [stack]; simp) found (by rw [kind]; rfl)
  have passed : Emitted g (.collect g) {} ⟨2⟩ :=
    .passed stated found kind (call?_eq_some.mpr carried) Nat.zero_lt_one Nat.zero_lt_one plugged
  have built : Built .mechanism (.collect g) ⟨⟨4⟩, "", .component, "Motor", "motors", none⟩ :=
    ⟨rfl, by rw [declared]; simp, by decide +kernel, by decide⟩
  rw [← Outline.declarations_eq collected, ← Outline.type_eq collected] at built
  exact ⟨generated, imports, c, made, prints, ordered,
    (modules "time").mpr ⟨⟨1⟩, _, .call stated found kind carried, rfl⟩,
    (modules "math").mpr ⟨⟨2⟩, _, .call passed found' kind' carried', rfl⟩,
    (symbols "motors" "Motor").mpr (.component built)⟩

end RobotBlocks.Code
