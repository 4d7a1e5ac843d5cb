import RobotBlocks.Proofs.Code.File
import RobotBlocks.Proofs.Code.Names
import RobotBlocks.Proofs.Code.References
import RobotBlocks.Proofs.Graph.Loop
import RobotBlocks.Proofs.Text.Identifiers

/-! The handlers of a class. Each top block that handles an event gets a method of its own and a line that registers
it, unless a library module should send the event; then it is reported once. The name of the method is searched
among all numbers behind a base name until it is free, so no two handlers share one, whatever their events are
called. -/
namespace RobotBlocks.Code

open RobotBlocks.Graph

variable {g : Graph} {own : Declarations} {scope : Scope} {id : BlockId} {block : Block} {call : CallState}
  {base : String} {used : List String} {blocks : List Block} {handler : Handler} {diagnostic : Diagnostic}
  {type : ModuleType} {name : String} {options : Options} {outline : Outline} {generated : Generated}

namespace Handler

/-! The search for a name. -/

/-- The loop of the search: the name to try, and the number behind the next one. -/
def searchStep (base : String) (used : List String) : String × Nat → Option (String × Nat)
  | (name, n) => if used.contains name then some (base ++ "_" ++ toString n, n + 1) else none

theorem searchStep_reverse (base : String) (used : List String) :
    searchStep base used.reverse = searchStep base used := by
  funext ⟨name, n⟩
  simp [searchStep]

/-- From a name in use the search goes from number to number. -/
theorem search_ends {first last : Nat} (later : first ≤ last)
    (passed : ∀ n, first ≤ n → n < last → base ++ "_" ++ toString n ∈ used)
    (free : base ++ "_" ++ toString last ∉ used) :
    Ends (searchStep base used) (base ++ "_" ++ toString first, first + 1)
      (base ++ "_" ++ toString last, last + 1) := by
  obtain ⟨distance, rfl⟩ := Nat.exists_eq_add_of_le later
  induction distance generalizing first with
  | zero => exact .stop (by simpa [searchStep] using free)
  | succ distance ih =>
    have taken := passed first (Nat.le_refl first) (by omega)
    have shift : first + (distance + 1) = first + 1 + distance := by omega
    rw [shift] at passed free ⊢
    refine .again (if_pos (List.contains_iff_mem.mpr taken)) (ih (by omega) (fun n after => ?_) free)
    exact passed n (by omega)

/-- The search ends on the name of the handler. -/
theorem uniqueName_ends (base : String) (used : List String) :
    ∃ n, Ends (searchStep base used) (base, 2) (uniqueName base used, n) := by
  have free : uniqueName base used ∉ used := uniqueName_not_mem
  unfold uniqueName at free ⊢
  split at free
  · next taken =>
    obtain ⟨n, later, is, passed⟩ :=
      @Text.firstUnused_least (fun n => base ++ "_" ++ toString n) used used.length 2
    rw [is] at free
    rw [if_pos taken, is]
    exact ⟨n + 1, .again (if_pos taken) (search_ends later passed free)⟩
  · next fresh =>
    rw [if_neg fresh]
    exact ⟨2, .stop (if_neg fresh)⟩

/-- The name of a handler is searched among those of the handlers before it. -/
theorem collect_at {before after : List Handler} (split : (collect blocks used).1 = before ++ handler :: after) :
    ∃ call base, handler.StandsFor handler.block call ∧ baseName? call = some base ∧
      handler.methodName = uniqueName base ((before.map (·.methodName)).reverse ++ used) := by
  induction blocks generalizing used before with
  | nil => simp [collect] at split
  | cons first rest ih =>
    unfold collect at split
    split at split
    · next call _ _ =>
      split at split
      · exact ih split
      · next base named =>
        cases before with
        | nil =>
          obtain ⟨rfl, -⟩ := List.cons.inj split
          exact ⟨call, base, ⟨rfl, rfl, rfl, rfl⟩, named, rfl⟩
        | cons earlier before =>
          obtain ⟨rfl, later⟩ := List.cons.inj split
          obtain ⟨call, base, stands, named, is⟩ := ih later
          exact ⟨call, base, stands, named, by simpa using is⟩
    · exact ih split

/-! Which blocks are collected. -/

/-- A handler of an event that something sends. -/
def isSent (block : Block) : Bool :=
  block.kind = .eventHandler && block.extra.call?.any fun call => (baseName? call).isSome

/-- A handler of a library module, which sends no events. -/
def isUnsent (block : Block) : Bool :=
  block.kind = .eventHandler && block.extra.call?.any fun call => (baseName? call).isNone

theorem isSent_iff (kind : block.kind = .eventHandler) (carried : block.extra = .call call) :
    isSent block = true ↔ ∀ module, call.target ≠ .moduleFunction module := by
  rw [← baseName?_isSome]
  simp [isSent, kind, ExtraState.call?, carried]

theorem isUnsent_iff (kind : block.kind = .eventHandler) (carried : block.extra = .call call) :
    isUnsent block = true ↔ isSent block = false := by
  simp [isSent, isUnsent, kind, ExtraState.call?, carried]

/-- Blocks are collected in their order, and those that are not sent are reported in theirs. -/
theorem collect_blocks (blocks : List Block) (used : List String) :
    (collect blocks used).1.map (·.block) = (blocks.filter isSent).map (·.id) ∧
      (collect blocks used).2 = (blocks.filter isUnsent).map fun block => ⟨block.id, .noSender⟩ := by
  induction blocks generalizing used with
  | nil => exact ⟨rfl, rfl⟩
  | cons first rest ih =>
    unfold collect
    split
    · next call kind carried =>
      split
      · next unsent =>
        have sent : isSent first = false := by simp [isSent, carried, ExtraState.call?, unsent]
        have reported : isUnsent first = true := by simp [isUnsent, kind, carried, ExtraState.call?, unsent]
        simp [sent, reported, ih]
      · next base named =>
        have sent : isSent first = true := by simp [isSent, kind, carried, ExtraState.call?, named]
        have silent : isUnsent first = false := by simp [isUnsent, carried, ExtraState.call?, named]
        simp [sent, silent, ih]
    · next other =>
      have apart : ∀ test : CallState → Bool,
          (decide (first.kind = .eventHandler) && first.extra.call?.any test) = false := by
        intro test
        by_contra handles
        simp only [Bool.not_eq_false, Bool.and_eq_true, decide_eq_true_eq, Option.any_eq_true] at handles
        obtain ⟨kind, call, carried, -⟩ := handles
        exact other call kind (call?_eq_some.mp carried)
      have sent : isSent first = false := apart _
      have silent : isUnsent first = false := apart _
      simp [sent, silent, ih]

/-! What a name is made of. -/

theorem words_append {left right : String} :
    (∀ c ∈ (left ++ right).toList, Text.isWordChar c = true) ↔
      (∀ c ∈ left.toList, Text.isWordChar c = true) ∧ ∀ c ∈ right.toList, Text.isWordChar c = true := by
  rw [String.toList_append, List.forall_mem_append]

theorem words_baseName? (named : baseName? call = some base) : ∀ c ∈ base.toList, Text.isWordChar c = true := by
  have words : ∀ stem, ∀ c ∈ (Text.identifier stem).toList, Text.isWordChar c = true :=
    fun stem c => Text.isWordChar_of_mem_identifier
  have mark : ∀ c ∈ "_handle_".toList, Text.isWordChar c = true := List.all_eq_true.mp (by decide)
  have bar : ∀ c ∈ "_".toList, Text.isWordChar c = true := List.all_eq_true.mp (by decide)
  unfold baseName? at named
  cases target : call.target with
  | moduleFunction module => simp [target] at named
  | selfModule | fireEvent =>
    simp only [target, Option.some.injEq] at named
    exact named ▸ words_append.mpr ⟨mark, words _⟩
  | robot | component | mechanism =>
    simp only [target, Option.some.injEq] at named
    exact named ▸ words_append.mpr ⟨words_append.mpr ⟨words_append.mpr ⟨mark, words _⟩, bar⟩, words _⟩

theorem words_uniqueName (words : ∀ c ∈ base.toList, Text.isWordChar c = true) :
    ∀ c ∈ (uniqueName base used).toList, Text.isWordChar c = true := by
  rcases uniqueName_cases base used with is | ⟨n, is⟩
  · rwa [is]
  · have digits : toString n = String.ofList (Nat.toDigits 10 n) := Nat.toString_eq_ofList_toDigits
    rw [is]
    have bar : ∀ c ∈ "_".toList, Text.isWordChar c = true := List.all_eq_true.mp (by decide)
    refine words_append.mpr ⟨words_append.mpr ⟨words, bar⟩, fun c member => ?_⟩
    rw [digits, String.toList_ofList] at member
    exact Text.isWordChar_iff.mpr (.inr (.inl (Nat.isDigit_of_mem_toDigits (by decide) (by decide) member)))

theorem words_collect (member : handler ∈ (collect blocks used).1) :
    ∀ c ∈ handler.methodName.toList, Text.isWordChar c = true := by
  obtain ⟨call, base, used, named, is⟩ := collect_named member
  exact is ▸ words_uniqueName (words_baseName? named)

/-- Between the last dot and the last bracket of a registration stands the name of the method. -/
theorem registration_end (words : ∀ c ∈ handler.methodName.toList, Text.isWordChar c = true) :
    handler.registration.toList.reverse.takeWhile (· ≠ '.') = ')' :: handler.methodName.toList.reverse := by
  have list : commaSeparated [Text.quoted handler.event, "self." ++ handler.methodName]
      = Text.quoted handler.event ++ ", " ++ ("self" ++ "." ++ handler.methodName) := rfl
  have dot : ".".toList.reverse = ['.'] := rfl
  have bracket : ")".toList.reverse = [')'] := rfl
  have undotted : ∀ c ∈ handler.methodName.toList.reverse, decide (c ≠ '.') = true := by
    intro c member
    refine decide_eq_true fun is => ?_
    cases (is ▸ words c (List.mem_reverse.mp member) : Text.isWordChar '.' = true)
  have stops : ∀ rest : List Char, ('.' :: rest).takeWhile (· ≠ '.') = [] := fun _ => rfl
  rw [registration, list]
  simp only [String.toList_append, List.reverse_append, dot, bracket, List.append_assoc, List.cons_append,
    List.nil_append]
  rw [List.takeWhile_cons_of_pos (by decide), List.takeWhile_append_of_pos undotted, stops, List.append_nil]

/-- Lines that register handlers differ if the names of their methods do. -/
theorem registration_inj {other : Handler} (words : ∀ c ∈ handler.methodName.toList, Text.isWordChar c = true)
    (words' : ∀ c ∈ other.methodName.toList, Text.isWordChar c = true)
    (same : handler.registration = other.registration) : handler.methodName = other.methodName := by
  have ends := congrArg (fun line : String => line.toList.reverse.takeWhile (· ≠ '.')) same
  simp only [registration_end words, registration_end words', List.cons.injEq, true_and, List.reverse_inj] at ends
  exact String.toList_inj.mp ends

end Handler

/-! The handlers of an outline. -/

/-- Among entries that differ by a key, those of one key are a single one. -/
theorem filter_eq_singleton {α β : Type} [DecidableEq β] {key : α → β} {entries : List α} {entry : α}
    (distinct : (entries.map key).Nodup) (member : entry ∈ entries) :
    entries.filter (fun other => key other = key entry) = [entry] := by
  induction entries with
  | nil => cases member
  | cons first rest ih =>
    obtain ⟨fresh, distinct⟩ := List.nodup_cons.mp distinct
    rcases List.mem_cons.mp member with rfl | member
    · have none : rest.filter (fun other => key other = key entry) = [] := by
        refine List.filter_eq_nil_iff.mpr fun other later same => fresh ?_
        exact of_decide_eq_true same ▸ List.mem_map_of_mem later
      simp [none]
    · have apart : key first ≠ key entry := fun same => fresh (same ▸ List.mem_map_of_mem member)
      simp [apart, ih distinct member]

theorem Outline.handlers_blocks (collected : Outline.collect? type name g = some outline) :
    outline.handlers.map (·.block) = g.topBlocks.filter fun id => (g.block? id).any Handler.isSent := by
  obtain ⟨className, -, rfl⟩ := Option.map_eq_some_iff.mp collected
  dsimp only
  rw [(Handler.collect_blocks _ _).1, map_id_filter_blocks]

theorem Outline.diagnostics_eq (collected : Outline.collect? type name g = some outline) :
    outline.diagnostics =
      (g.topBlocks.filter fun id => (g.block? id).any Handler.isUnsent).map fun id => ⟨id, .noSender⟩ := by
  obtain ⟨className, -, rfl⟩ := Option.map_eq_some_iff.mp collected
  dsimp only
  rw [(Handler.collect_blocks _ _).2, ← map_id_filter_blocks, List.map_map]
  rfl

theorem Outline.words_methodName (collected : Outline.collect? type name g = some outline)
    (member : handler ∈ outline.handlers) : ∀ c ∈ handler.methodName.toList, Text.isWordChar c = true := by
  obtain ⟨className, -, rfl⟩ := Option.map_eq_some_iff.mp collected
  exact Handler.words_collect member

theorem Outline.handler_at (collected : Outline.collect? type name g = some outline) {before after : List Handler}
    (split : outline.handlers = before ++ handler :: after) :
    ∃ call base n, handler.StandsFor handler.block call ∧ Handler.baseName? call = some base ∧
      Ends (Handler.searchStep base (before.map (·.methodName))) (base, 2) (handler.methodName, n) := by
  obtain ⟨className, -, rfl⟩ := Option.map_eq_some_iff.mp collected
  obtain ⟨call, base, stands, named, is⟩ := Handler.collect_at split
  obtain ⟨n, ends⟩ := Handler.uniqueName_ends base (before.map (·.methodName)).reverse
  rw [List.append_nil] at is
  rw [← is, Handler.searchStep_reverse] at ends
  exact ⟨call, base, n, stands, named, ends⟩

/-- Each line that registers a handler comes up once. -/
theorem count_registration (collected : Outline.collect? type name g = some outline)
    (member : handler ∈ outline.handlers) : (registerMethod outline.handlers).body.count handler.registration = 1 := by
  have distinct := Outline.handlers_nodup collected
  refine List.count_eq_one_of_mem (distinct.of_map.map_on fun one left other right same => ?_)
    (List.mem_map.mpr ⟨handler, member, rfl⟩)
  exact List.inj_on_of_nodup_map distinct left right (Handler.registration_inj
    (Outline.words_methodName collected left) (Outline.words_methodName collected right) same)

/-- The name of a handler is that of one method, and of the definitions that are called like it. -/
theorem count_methodName (collected : Outline.collect? type name g = some outline)
    (member : handler ∈ outline.handlers) :
    ((written g scope outline).1.methods.map (·.name)).count handler.methodName
      = (outline.methods.map (definedName g)).count handler.methodName + 1 := by
  have furnished : handler.methodName ∉ (furniture outline).map (·.name) := fun listed =>
    not_marked_of_furniture listed (Outline.handlers_marked collected member)
  have once : (outline.handlers.map (·.methodName)).count handler.methodName = 1 :=
    List.count_eq_one_of_mem (Outline.handlers_nodup collected) (List.mem_map_of_mem member)
  rw [written_names, List.count_append, List.count_append, once, List.count_eq_zero_of_not_mem furnished,
    Nat.zero_add]

/-! What is reported of a handler that nothing sends. -/

theorem resolveCall_silent (noted : .found diagnostic ∈ (resolveCall own scope id call).2.2) :
    diagnostic.complaint ≠ .noSender := by
  unfold resolveCall at noted
  split at noted
  · dsimp only at noted
    split at noted
    · cases noted
    · cases List.mem_singleton.mp noted
      exact nofun
  · cases List.mem_singleton.mp noted
    exact nofun
  · cases noted

/-- Nothing that is noted on a class lacks a sender. -/
theorem Taken.silent (taken : Taken g scope outline (.found diagnostic)) : diagnostic.complaint ≠ .noSender := by
  generalize is : Note.found diagnostic = note at taken
  cases taken with
  | head listed =>
    have none : diagnostic ∈ (headUses outline).filterMap Note.diagnostic? :=
      List.mem_filterMap.mpr ⟨_, is ▸ listed, rfl⟩
    rw [headUses_diagnostics] at none
    cases none
  | component exports declared noted =>
    subst is
    unfold hardwareLine at noted
    split at noted
    · cases List.mem_singleton.mp noted
      exact nofun
    · dsimp only at noted
      split at noted
      · cases noted
      · cases List.mem_singleton.mp noted
  | statement =>
    cases is
    exact nofun
  | value emitted found other noted =>
    subst is
    have leaf : Leaf _ _ (expression g outline.declarations scope _) := expression_leaf found other
    generalize expression g outline.declarations scope _ = written at leaf noted
    cases leaf with
    | refused | none =>
      cases List.mem_singleton.mp noted
      exact nofun
    | _ => cases noted
  | call emitted found kind carried noted => exact resolveCall_silent (is ▸ noted)
  | library => cases is

/-- A handler that nothing sends is reported once, and nothing else is said of it. -/
theorem reported_once {module : String} (tree : g.Tree) (made : generate type name g scope options = .ok generated)
    (top : id ∈ g.topBlocks) (found : g.block? id = some block) (kind : block.kind = .eventHandler)
    (carried : block.extra = .call call) (library : call.target = .moduleFunction module) :
    generated.diagnostics.filter (·.block = id) = [⟨id, .noSender⟩] := by
  have causes : ∀ diagnostic ∈ generated.diagnostics, Cause g (.collect g) scope diagnostic :=
    fun diagnostic => generate_cause tree made
  obtain ⟨outline, collected, rfl⟩ := generate_eq tree made
  have unsent : (g.block? id).any Handler.isUnsent = true := by
    rw [found, Option.any_some, Handler.isUnsent_iff kind carried, Bool.eq_false_iff]
    exact fun sent => (Handler.isSent_iff kind carried).mp sent module library
  have noted : ((written g scope outline).2.filterMap Note.diagnostic?).filter (·.block = id) = [] := by
    refine List.filter_eq_nil_iff.mpr fun diagnostic member names => ?_
    obtain rfl := of_decide_eq_true names
    have loose := tree.not_up_of_top top
    have silent := ((mem_diagnostics_written tree collected).mp member).silent
    cases causes _ (List.mem_append_right _ member) with
    | noSender => exact silent rfl
    | noClass declared =>
      obtain ⟨other, there, none⟩ := Declarations.component_of_collect declared
      cases found.symm.trans there
      cases none.symm.trans (call?_eq_some.mpr carried)
    | notStatement up => exact loose _ up
    | notNumber up => exact loose _ up
    | notValue up => exact loose _ up
    | call up => exact loose _ up
  have listed : ⟨id, .noSender⟩ ∈ outline.diagnostics := by
    rw [Outline.diagnostics_eq collected]
    exact List.mem_map_of_mem (List.mem_filter.mpr ⟨top, unsent⟩)
  have distinct : (outline.diagnostics.map (·.block)).Nodup := by
    rw [Outline.diagnostics_eq collected, List.map_map]
    exact (List.map_id _).symm ▸ tree.topBlocks_nodup.filter _
  rw [List.filter_append, noted, List.append_nil]
  exact filter_eq_singleton distinct listed

/-! The code of a handler. -/

/-- A class handles the event of a block in one method. The block has one handler. Its line is among those that
register handlers once, the method has the body of the block, and only definitions can have the name as well. -/
structure Handles (g : Graph) (scope : Scope) (outline : Outline) (c : Class) (id : BlockId) (call : CallState)
    (handler : Handler) : Prop where
  only : outline.handlers.filter (fun other => other.block = id) = [handler]
  stands : handler.StandsFor id call
  registered : ∃ method ∈ c.methods, method.name = "register_event_handlers" ∧ method.params = [] ∧
    method.body = outline.handlers.map Handler.registration ∧ method.body.count handler.registration = 1
  defined : ∃ method ∈ c.methods, method.name = handler.methodName ∧ method.params = paramNames call.args ∧
    ∃ notes, bodyOf g (.collect g) scope id = .ok (method.body, notes)
  once : (c.methods.map (·.name)).count handler.methodName
    = (outline.methods.map (definedName g)).count handler.methodName + 1

/-- The registration of a handler and its method are lines of the file. -/
theorem Handles.lines {imports : List String} {c : Class} {code : String}
    (handles : Handles g scope outline c id call handler) (prints : Prints options imports c code) :
    Text.HasLines code [indented (2 * options.indent) handler.registration] ∧
      ∃ body notes, bodyOf g (.collect g) scope id = .ok (body, notes) ∧ Text.HasLines code
        (Method.rows options.indent { name := handler.methodName, params := paramNames call.args, body }) := by
  constructor
  · obtain ⟨register, listed, -, -, -, once⟩ := handles.registered
    exact prints.statement listed (List.one_le_count_iff.mp (Nat.le_of_eq once.symm))
  · obtain ⟨⟨methodName, params, body⟩, listed, rfl, rfl, notes, made⟩ := handles.defined
    exact ⟨body, notes, made, prints.method listed⟩

theorem handles_of_sent (tree : g.Tree) (collected : Outline.collect? type name g = some outline)
    (top : id ∈ g.topBlocks) (found : g.block? id = some block) (kind : block.kind = .eventHandler)
    (carried : block.extra = .call call) (sent : ∀ module, call.target ≠ .moduleFunction module) :
    ∃ handler, Handles g scope outline (written g scope outline).1 id call handler := by
  obtain ⟨handler, member, rfl⟩ := (Outline.mem_handlers collected).mpr ⟨top, _, _, found, kind, carried, sent⟩
  have distinct : (outline.handlers.map (·.block)).Nodup := by
    rw [Outline.handlers_blocks collected]
    exact tree.topBlocks_nodup.filter _
  have stands := Outline.standsFor collected member found carried
  refine ⟨handler, filter_eq_singleton distinct member, stands, ?_, ?_, count_methodName collected member⟩
  · refine ⟨registerMethod outline.handlers, ?_, rfl, rfl, rfl, count_registration collected member⟩
    refine List.mem_append_left _ (List.mem_append_right _ ?_)
    rw [if_neg (by simpa using List.ne_nil_of_mem member)]
    exact List.mem_singleton_self _
  · refine ⟨(handling g outline.declarations scope handler).1, ?_, rfl, congrArg paramNames stands.params,
      (body g (.collect g) scope handler.block).2, ?_⟩
    · refine List.mem_append_right _ (List.mem_map_of_mem (List.mem_append_right _ ?_))
      exact List.mem_map_of_mem member
    · rw [bodyOf_eq tree, handling, Outline.declarations_eq collected]

/-- Handlers are collected in the order of their blocks, under names that differ. Each name is that on which the
search ends among the names before it. A top block that handles an event of an object has one handler, one line that
registers it and one method, which are lines of the file; one that handles an event of a library module has none of
these, and is reported once. -/
theorem handlers_emitted (reached : g.Assembled) (usual : g.Usual) (supported : type ≠ .unknown)
    (valid : options.isValid = true) (name : String) (scope : Scope) :
    ∃ generated imports outline c, generate type name g scope options = .ok generated ∧
      Prints options imports c generated.code ∧ Outline.collect? type name g = some outline ∧
      c.methods = furniture outline
        ++ outline.methods.map (fun id => (definition g outline.declarations scope id).1)
        ++ outline.handlers.map (fun handler => (handling g outline.declarations scope handler).1) ∧
      (outline.handlers.map (·.block)).Pairwise (·.number < ·.number) ∧
      (outline.handlers.map (·.methodName)).Nodup ∧
      (∀ before handler after, outline.handlers = before ++ handler :: after →
        ∃ call base n, handler.StandsFor handler.block call ∧ Handler.baseName? call = some base ∧
          Ends (Handler.searchStep base (before.map (·.methodName))) (base, 2) (handler.methodName, n)) ∧
      ∀ id block, id ∈ g.topBlocks → g.block? id = some block → block.kind = .eventHandler →
        ∃ call, block.extra = .call call ∧
          ((∀ module, call.target ≠ .moduleFunction module) → ∃ handler, Handles g scope outline c id call handler ∧
            Text.HasLines generated.code [indented (2 * options.indent) handler.registration] ∧
            ∃ body notes, bodyOf g (.collect g) scope id = .ok (body, notes) ∧ Text.HasLines generated.code
              (Method.rows options.indent { name := handler.methodName, params := paramNames call.args, body })) ∧
          ∀ module, call.target = .moduleFunction module →
            (∀ handler ∈ outline.handlers, handler.block ≠ id) ∧
            generated.diagnostics.filter (·.block = id) = [⟨id, .noSender⟩] := by
  have tree := reached.tree
  obtain ⟨generated, made⟩ : ∃ generated, generate type name g scope options = .ok generated :=
    (generate_ok_iff tree scope).mpr ⟨valid, supported⟩
  obtain ⟨outline, collected, -⟩ := generate_eq tree made
  have methods : (written g scope outline).1.methods = furniture outline
      ++ outline.methods.map (fun id => (definition g outline.declarations scope id).1)
      ++ outline.handlers.map (fun handler => (handling g outline.declarations scope handler).1) := by
    simp only [written, bodies, List.map_append, List.map_map, List.append_assoc]
    rfl
  have ascending : (outline.handlers.map (·.block)).Pairwise (·.number < ·.number) := by
    rw [Outline.handlers_blocks collected]
    exact tree.topBlocks_ascending.filter _
  have prints := generate_prints tree made collected
  refine ⟨generated, _, outline, _, made, prints, collected, methods, ascending,
    Outline.handlers_nodup collected, fun _ _ _ => Outline.handler_at collected, ?_⟩
  intro id block top found kind
  obtain ⟨call, carried⟩ := ExtraState.call_of_handler (kind ▸ usual.like found)
  refine ⟨call, carried, fun sent => ?_, fun module library => ⟨?_, ?_⟩⟩
  · obtain ⟨handler, handles⟩ := handles_of_sent tree collected top found kind carried sent
    exact ⟨handler, handles, handles.lines prints⟩
  · intro handler member same
    obtain ⟨-, other, state, there, -, carried', sent⟩ := (Outline.mem_handlers collected).mp ⟨handler, member, same⟩
    cases found.symm.trans there
    cases carried.symm.trans carried'
    exact sent module library
  · exact reported_once tree made top found kind carried library

/-- The second handler takes the name that the third one would get by its own; a fourth one handles an event of
a library module. -/
theorem handlers_emitted_taken :
    let robot (event : String) : Mutation := .add .eventHandler (.call { target := .robot, name := event })
    let g := [robot "shoot", robot "shoot", robot "shoot 2",
      .add .eventHandler (.call { target := .moduleFunction "time", name := "tick" })].foldl Graph.mutate Graph.empty
    ∃ generated imports outline c, generate .opMode "M" g {} {} = .ok generated ∧
      Prints {} imports c generated.code ∧ Outline.collect? .opMode "M" g = some outline ∧
      outline.handlers.map (·.methodName)
        = ["_handle_robot_shoot", "_handle_robot_shoot_2", "_handle_robot_shoot_2_2"] ∧
      (∃ handler, Handles g {} outline c ⟨2⟩ { target := .robot, name := "shoot 2" } handler ∧
        Text.HasLines generated.code [indented 8 handler.registration]) ∧
      generated.diagnostics.filter (·.block = ⟨3⟩) = [⟨⟨3⟩, .noSender⟩] := by
  intro robot g
  have reached : g.Assembled := Assembled.empty.foldl_mutate _
  have usual : g.Usual := by decide +kernel
  have supported : ModuleType.opMode ≠ .unknown := by decide
  have valid : ({} : Options).isValid = true := by decide
  have shows : g.topBlocks = [⟨0⟩, ⟨1⟩, ⟨2⟩, ⟨3⟩] ∧
      (g.block? ⟨2⟩).map (fun block => (block.kind, block.extra))
        = some (.eventHandler, .call { target := .robot, name := "shoot 2" }) ∧
      (g.block? ⟨3⟩).map (fun block => (block.kind, block.extra))
        = some (.eventHandler, .call { target := .moduleFunction "time", name := "tick" }) := by
    decide +kernel
  have names : (Outline.collect? .opMode "M" g).map (fun outline => outline.handlers.map (·.methodName))
      = some ["_handle_robot_shoot", "_handle_robot_shoot_2", "_handle_robot_shoot_2_2"] := by
    decide +kernel
  obtain ⟨tops, third, fourth⟩ := shows
  obtain ⟨block, found, is⟩ := Option.map_eq_some_iff.mp third
  obtain ⟨kind, carried⟩ := Prod.mk.inj is
  obtain ⟨other, found', is'⟩ := Option.map_eq_some_iff.mp fourth
  obtain ⟨kind', carried'⟩ := Prod.mk.inj is'
  obtain ⟨generated, imports, outline, c, made, prints, collected, -, -, -, -, each⟩ :=
    handlers_emitted reached usual supported valid "M" {}
  rw [collected, Option.map_some, Option.some.injEq] at names
  obtain ⟨call, state, handled, -⟩ := each ⟨2⟩ block (by rw [tops]; simp) found kind
  obtain ⟨call', state', -, unsent⟩ := each ⟨3⟩ other (by rw [tops]; simp) found' kind'
  cases carried.symm.trans state
  cases carried'.symm.trans state'
  obtain ⟨handler, handles, registers, -⟩ := handled nofun
  exact ⟨generated, imports, outline, c, made, prints, collected, names, ⟨handler, handles, registers⟩,
    (unsent "time" rfl).2⟩

end RobotBlocks.Code
