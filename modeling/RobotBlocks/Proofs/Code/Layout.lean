import RobotBlocks.Proofs.Code.Names
import RobotBlocks.Proofs.Code.Numerals
import RobotBlocks.Proofs.Text.Keywords
import RobotBlocks.Proofs.Text.Lines
import RobotBlocks.Proofs.Text.Quoted

/-! The layout of a class. Whatever names and texts the blocks of a module hold, each statement is one line, and the
lines of the class and its methods are those of blocks. The classes of components and the names of library
modules go into the code as they are; they must not hold blanks. -/
namespace RobotBlocks.Code

open RobotBlocks.Graph

/-! Code without line breaks. -/

/-- Code that goes on one line. -/
def Inline (code : String) : Prop := '\n' ∉ code.toList ∧ '\r' ∉ code.toList

instance (code : String) : Decidable (Inline code) :=
  inferInstanceAs (Decidable ('\n' ∉ code.toList ∧ '\r' ∉ code.toList))

variable {code front : String} {items : List String}

@[simp] theorem inline_append : Inline (front ++ code) ↔ Inline front ∧ Inline code := by
  simp only [Inline, String.toList_append, List.mem_append, not_or, and_and_and_comm]

theorem inline_of_solid (solid : ∀ c ∈ code.toList, Text.isBlank c = false) : Inline code :=
  ⟨fun member => absurd (solid _ member) (by decide), fun member => absurd (solid _ member) (by decide)⟩

theorem inline_commaSeparated (each : ∀ item ∈ items, Inline item) : Inline (commaSeparated items) := by
  have chars : (commaSeparated items).toList = ", ".toList.intercalate (items.map String.toList) :=
    String.toList_intercalate
  have apart : ∀ {c : Char}, c ∉ ", ".toList → (∀ item ∈ items, c ∉ item.toList) →
      c ∉ (commaSeparated items).toList := by
    intro c outside inside member
    rw [chars] at member
    rcases Text.mem_intercalate member with comma | ⟨part, listed, there⟩
    · exact outside comma
    · obtain ⟨item, among, rfl⟩ := List.mem_map.mp listed
      exact inside item among there
  exact ⟨apart (by decide) fun item listed => (each item listed).1,
    apart (by decide) fun item listed => (each item listed).2⟩

theorem inline_identifier (name : String) : Inline (Text.identifier name) :=
  inline_of_solid fun _ member => Text.not_isBlank_of_isWordChar (Text.isWordChar_of_mem_identifier member)

/-- The breaks in a text are escaped. -/
theorem inline_quoted (text : String) : Inline (Text.quoted text) :=
  ⟨fun member => Text.notMem_of_mem_quoted member (by decide),
    fun member => Text.notMem_of_mem_quoted member (by decide)⟩

/-! Statements. -/

/-- A line of code that starts without blanks and opens no block. -/
structure Statement (code : String) : Prop where
  starts : Text.Starts code.toList
  inline : Inline code
  closed : ¬ Text.Opens code.toList

theorem Statement.of_solid (some : code ≠ "") (solid : ∀ c ∈ code.toList, Text.isBlank c = false ∧ c ≠ ':') :
    Statement code where
  starts := by
    obtain ⟨first, rest, is⟩ := List.exists_cons_of_ne_nil (String.toList_eq_nil_iff.not.mpr some)
    exact ⟨first, rest, is, (solid first (by simp [is])).1⟩
  inline := inline_of_solid fun c member => (solid c member).1
  closed opens := (solid ':' (List.mem_of_getLast? opens)).2 rfl

theorem Statement.of_check (check : code.toList.head?.any (fun c => !Text.isBlank c) = true ∧ Inline code ∧
    code.toList.getLast? ≠ some ':') : Statement code where
  starts := by
    obtain ⟨first, is, solid⟩ := (Option.any_eq_true ..).mp check.1
    obtain ⟨rest, is⟩ := List.head?_eq_some_iff.mp is
    exact ⟨first, rest, is, by simpa using solid⟩
  inline := check.2.1
  closed := check.2.2

theorem starts_append (starts : Text.Starts front.toList) (code : String) : Text.Starts (front ++ code).toList := by
  obtain ⟨first, rest, is, solid⟩ := starts
  exact ⟨first, rest ++ code.toList, by rw [String.toList_append, is]; rfl, solid⟩

/-- What starts a statement goes on to a closing bracket. -/
theorem Statement.of_call {args : String} (starts : Text.Starts front.toList) (inline : Inline front)
    (inside : Inline args) : Statement (front ++ "(" ++ args ++ ")") where
  starts := starts_append (starts_append (starts_append starts _) _) _
  inline := by
    simp only [inline_append]
    exact ⟨⟨⟨inline, by decide⟩, inside⟩, by decide⟩
  closed opens := by
    rw [Text.Opens, String.toList_append, List.getLast?_append] at opens
    cases opens

/-- A line of code that starts without blanks and opens a block. -/
structure Head (code : String) : Prop where
  starts : Text.Starts code.toList
  inline : Inline code
  opens : Text.Opens code.toList

theorem Head.of_brackets {inside : String} (starts : Text.Starts front.toList) (inline : Inline front)
    (names : Inline inside) : Head (front ++ "(" ++ inside ++ "):") where
  starts := starts_append (starts_append (starts_append starts _) _) _
  inline := by
    simp only [inline_append]
    exact ⟨⟨⟨inline, by decide⟩, names⟩, by decide⟩
  opens := by
    rw [Text.Opens, String.toList_append, List.getLast?_append]
    rfl

theorem statement_identifier (name : String) : Statement (Text.identifier name) := by
  refine .of_solid (fun none => ?_) fun c member => ?_
  · obtain ⟨first, rest, is, -⟩ := Text.isIdentifier_identifier name
    rw [none] at is
    cases is
  · have word := Text.isWordChar_of_mem_identifier member
    exact ⟨Text.not_isBlank_of_isWordChar word, by rintro rfl; cases word⟩

theorem statement_numeral {text : String} (read : numeral? text = some code) : Statement code := by
  obtain ⟨rfl, d, is, -⟩ := numeral?_eq_some.mp read
  refine .of_solid (fun none => ?_) fun c member => ?_
  · rw [none] at is
    cases is
  · rcases mem_of_read is member with digit | mark
    · exact ⟨Text.not_isBlank_of_isDigit digit, by rintro rfl; cases digit⟩
    · simp only [List.mem_cons, List.not_mem_nil, or_false] at mark
      rcases mark with rfl | rfl | rfl | rfl | rfl <;> decide

theorem statement_quoted (text : String) : Statement (Text.quoted text) where
  starts := ⟨'"', Text.quoteChars text.toList ++ ['"'], by rw [Text.quoted, String.toList_ofList]; rfl, by decide⟩
  inline := inline_quoted text
  closed opens := by
    rw [Text.Opens, Text.quoted, String.toList_ofList, List.getLast?_append] at opens
    cases opens

/-! Expressions. -/

variable {g : Graph} {own : Declarations} {scope : Scope} {id : BlockId} {type : ModuleType} {name : String}
  {options : Options} {outline : Outline}

/-- A receiver whose name, if it has one, can stand on a line. -/
def Receiver.Plain : Receiver → Prop
  | .self => True
  | .attribute name => Inline name
  | .module name => ∀ c ∈ name.toList, Text.isBlank c = false

theorem Receiver.Plain.starts {receiver : Receiver} (plain : receiver.Plain) :
    Text.Starts (receiver.code ++ ".").toList := by
  obtain _ | name | name := receiver
  · exact ⟨'s', "elf.".toList, by decide, by decide⟩
  · exact ⟨'s', "elf.".toList ++ (name.toList ++ ['.']), by simp [Receiver.code], by decide⟩
  · cases is : name.toList with
    | nil => exact ⟨'.', [], by simp [Receiver.code, is], by decide⟩
    | cons first rest => exact ⟨first, rest ++ ['.'], by simp [Receiver.code, is], plain first (by simp [is])⟩

theorem Receiver.Plain.inline {receiver : Receiver} (plain : receiver.Plain) : Inline receiver.code := by
  obtain _ | name | name := receiver
  · decide
  · exact inline_append.mpr ⟨by decide, plain⟩
  · exact inline_of_solid plain

theorem statement_callExpr {target : CallTarget} {args : List Expr}
    (library : ∀ module, target = .moduleFunction module → ∀ c ∈ module.toList, Text.isBlank c = false)
    (each : ∀ arg ∈ args, Statement arg.code) : Statement (callExpr target name args).1.code := by
  have inside : ∀ item ∈ args.map Expr.code, Inline item := by
    intro item member
    obtain ⟨arg, listed, rfl⟩ := List.mem_map.mp member
    exact (each arg listed).inline
  have called : ∀ receiver : Receiver, receiver.Plain →
      Statement (Expr.call receiver (Text.identifier name) args).code := by
    intro receiver plain
    rw [Expr.code_call]
    exact .of_call (starts_append plain.starts _) (by simp [plain.inline, inline_identifier]; decide)
      (inline_commaSeparated inside)
  cases target with
  | selfModule => exact called .self trivial
  | robot => exact called (.attribute "robot") (by decide : Inline "robot")
  | component inst | mechanism inst module => exact called (.attribute _) (inline_identifier inst)
  | moduleFunction module => exact called (.module module) (library module rfl)
  | fireEvent =>
    have fires : (Expr.fire name args).code =
        "self.fire_event" ++ "(" ++ commaSeparated (Text.quoted name :: args.map Expr.code) ++ ")" := by
      rw [Expr.code_fire]
      rfl
    change Statement (Expr.fire name args).code
    rw [fires]
    exact .of_call ⟨'s', "elf.fire_event".toList, by decide, by decide⟩ (by decide)
      (inline_commaSeparated (List.forall_mem_cons.mpr ⟨inline_quoted name, inside⟩))

/-- The names of the library modules whose functions blocks of the graph call have no blanks. -/
def Libraries (g : Graph) : Prop := ∀ id block call module, g.block? id = some block →
  block.extra.call? = some call → call.target = .moduleFunction module →
    ∀ c ∈ module.toList, Text.isBlank c = false

/-- The names stand in the targets of calls. -/
theorem Libraries.of_targets {targets : List (Option CallTarget)}
    (is : g.nodes.map (fun node => node.block.extra.call?.map (·.target)) = targets)
    (plain : ∀ module, some (.moduleFunction module) ∈ targets → module.toList.all (!Text.isBlank ·) = true) :
    Libraries g := by
  intro id block call module found carried target c member
  obtain ⟨node, listed, rfl⟩ := Option.map_eq_some_iff.mp found
  have among : some (CallTarget.moduleFunction module) ∈ targets := by
    rw [← is]
    exact List.mem_map.mpr ⟨node, Graph.node?_mem listed, by rw [carried, Option.map_some, target]⟩
  simpa using List.all_eq_true.mp (plain module among) c member

theorem statement_expression (sound : g.Sound) (libraries : Libraries g) (present : g.contains id = true) :
    Statement (expression g own scope id).1.code := by
  have none : Statement (Expr.code .none) := .of_check (by decide)
  have zero : Statement (Expr.code (.number "0")) := .of_check (by decide)
  refine expression_induct sound (fun noted => Statement noted.1.code) none ?_ ?_ present
  · intro id block noted leaf
    cases leaf with
    | number _ read => exact statement_numeral read
    | refused => exact zero
    | text => exact statement_quoted _
    | bool _ value => cases value <;> exact .of_check (by decide)
    | get => exact statement_identifier _
    | none => exact none
  · intro id block call args found carried inside
    refine statement_callExpr (fun module is => libraries id block call module found carried is) fun arg member => ?_
    obtain ⟨noted, listed, rfl⟩ := List.mem_map.mp member
    exact inside noted listed

/-! Methods. -/

/-- A method whose head goes on one line, with statements for its body. -/
structure Method.Plain (method : Method) : Prop where
  name : Inline method.name
  params : ∀ param ∈ method.params, Inline param
  body : ∀ code ∈ method.body, Statement code

/-- The spaces for one level. -/
def unitOf (indent : Nat) : String := String.ofList (List.replicate indent ' ')

theorem inline_unitOf (indent : Nat) : Inline (unitOf indent) := by
  have spaces : ∀ c ∈ (unitOf indent).toList, c = ' ' := fun c member => by
    rw [unitOf, String.toList_ofList] at member
    exact List.eq_of_mem_replicate member
  exact ⟨fun member => absurd (spaces _ member) (by decide), fun member => absurd (spaces _ member) (by decide)⟩

theorem Method.Plain.header {method : Method} (plain : method.Plain) : Head method.header := by
  refine .of_brackets ⟨'d', "ef ".toList ++ method.name.toList, by simp, by decide⟩
    (inline_append.mpr ⟨by decide, plain.name⟩) (inline_commaSeparated ?_)
  exact List.forall_mem_cons.mpr ⟨by decide, plain.params⟩

/-- The lines of a method are its head and its statements, or `pass` if it has none. -/
theorem Method.Plain.lines {method : Method} (plain : method.Plain) (indent : Nat) :
    Text.Piece indent ((method.lines (unitOf indent)).map String.toList) ∧
      ∀ line ∈ method.lines (unitOf indent), Inline line ∧ line.toList.all Text.isBlank = false := by
  obtain ⟨body, some, statements, is⟩ : ∃ body, body ≠ [] ∧ (∀ code ∈ body, Statement code) ∧
      method.lines (unitOf indent) = (unitOf indent ++ method.header) ::
        body.map fun statement => unitOf indent ++ unitOf indent ++ statement := by
    -- a method without statements has a line below its head all the same
    by_cases none : method.body = []
    · exact ⟨["pass"], by simp, by simpa using .of_check (by decide), by simp [Method.lines, none]⟩
    · exact ⟨method.body, none, plain.body, by simp [Method.lines, none]⟩
  have head := plain.header
  have first : (unitOf indent ++ method.header).toList = List.replicate indent ' ' ++ method.header.toList := by
    simp [unitOf]
  have later : ∀ code : String, (unitOf indent ++ unitOf indent ++ code).toList =
      List.replicate (2 * indent) ' ' ++ code.toList := by
    intro code
    simp [unitOf, Nat.two_mul]
  rw [is]
  constructor
  · rw [List.map_cons, List.map_map]
    refine .block ?_ ?_ (by simpa using some) fun line member => ?_
    · rw [first, Text.opens_append head.starts]
      exact head.opens
    · rw [first, Text.margin_append head.starts]
    · obtain ⟨code, listed, rfl⟩ := List.mem_map.mp member
      have statement := statements code listed
      rw [Function.comp_apply, later, Text.margin_append statement.starts, Text.opens_append statement.starts]
      exact ⟨rfl, statement.closed⟩
  · refine List.forall_mem_cons.mpr ⟨⟨?_, ?_⟩, fun line member => ?_⟩
    · exact inline_append.mpr ⟨inline_unitOf indent, head.inline⟩
    · rw [first, Text.not_all_blank head.starts]
    · obtain ⟨code, listed, rfl⟩ := List.mem_map.mp member
      have statement := statements code listed
      rw [inline_append, inline_append, later, Text.not_all_blank statement.starts]
      exact ⟨⟨⟨inline_unitOf indent, inline_unitOf indent⟩, statement.inline⟩, rfl⟩

/-! The methods of a class. -/

theorem inline_baseName? {call : CallState} {base : String} (named : Handler.baseName? call = some base) :
    Inline base := by
  have handle : ∀ {rest : String}, Inline rest → Inline ("_handle_" ++ rest) := fun inline =>
    inline_append.mpr ⟨by decide, inline⟩
  have sent : ∀ stem : String, Inline (Text.identifier stem ++ ("_" ++ Text.identifier call.name)) := fun stem =>
    inline_append.mpr ⟨inline_identifier stem, inline_append.mpr ⟨by decide, inline_identifier _⟩⟩
  unfold Handler.baseName? at named
  cases target : call.target with
  | moduleFunction module => simp [target] at named
  | selfModule | fireEvent =>
    simp only [target, Option.some.injEq] at named
    exact named ▸ handle (inline_identifier _)
  | robot | component | mechanism =>
    simp only [target, Option.some.injEq, String.append_assoc] at named
    exact named ▸ handle (sent _)

theorem inline_uniqueName {base : String} (inline : Inline base) (used : List String) :
    Inline (Handler.uniqueName base used) := by
  rcases Handler.uniqueName_cases base used with is | ⟨n, is⟩
  · rwa [is]
  · have digits : toString n = String.ofList (Nat.toDigits 10 n) := Nat.toString_eq_ofList_toDigits
    rw [is, inline_append, inline_append]
    refine ⟨⟨inline, by decide⟩, inline_of_solid fun c member => Text.not_isBlank_of_isDigit ?_⟩
    rw [digits, String.toList_ofList] at member
    exact Nat.isDigit_of_mem_toDigits (by decide) (by decide) member

theorem Outline.inline_methodName {handler : Handler} (collected : Outline.collect? type name g = some outline)
    (member : handler ∈ outline.handlers) : Inline handler.methodName := by
  obtain ⟨className, -, rfl⟩ := Option.map_eq_some_iff.mp collected
  obtain ⟨call, base, used, named, is⟩ := Handler.collect_named member
  rw [is]
  exact inline_uniqueName (inline_baseName? named) used

theorem plain_initMethod (outline : Outline) : (initMethod outline).Plain := by
  have register : ∀ code ∈ (if outline.handlers.isEmpty then [] else ["self.register_event_handlers()"]),
      Statement code := by
    split
    · exact nofun
    · simpa using .of_check (by decide)
  have name : Inline "__init__" := by decide
  have robot : Inline "robot" := by decide
  unfold initMethod
  dsimp only
  split
  · refine ⟨name, by simpa using robot, List.forall_mem_append.mpr ⟨?_, register⟩⟩
    simpa using ⟨.of_check (by decide), .of_check (by decide)⟩
  · refine ⟨name, nofun, List.forall_mem_append.mpr ⟨?_, register⟩⟩
    simpa using ⟨.of_check (by decide), .of_check (by decide)⟩

theorem inline_portCode (port : String) : Inline (portCode port) := by
  unfold portCode
  split
  · next digits =>
    rw [Bool.and_eq_true, List.all_eq_true] at digits
    exact inline_of_solid fun c member => Text.not_isBlank_of_isDigit (digits.2 c member)
  · exact inline_quoted port

/-- The classes of components have names without blanks. -/
def Classes (own : Declarations) : Prop :=
  ∀ component ∈ own.components, ∀ c ∈ component.className.toList, Text.isBlank c = false

theorem plain_hardwareMethod (classes : Classes own) : (hardwareMethod own).1.Plain := by
  refine ⟨(by decide : Inline "define_hardware"), nofun, fun code member => ?_⟩
  obtain ⟨line, listed, is⟩ := List.mem_filterMap.mp member
  obtain ⟨component, declared, rfl⟩ := List.mem_map.mp listed
  rw [hardwareLine_code] at is
  split at is
  · cases is
  · have port : Inline (component.port.elim "" portCode) := by
      cases component.port with
      | none => exact (by decide : Inline "")
      | some port => exact inline_portCode port
    rw [← String.append_assoc, ← String.append_assoc, ← String.append_assoc] at is
    rw [← Option.some.inj is]
    refine .of_call ⟨'s', _, by simp; rfl, by decide⟩ ?_ port
    simp only [inline_append]
    exact ⟨⟨⟨by decide, inline_identifier _⟩, by decide⟩, inline_of_solid (classes component declared)⟩

theorem plain_registerMethod {handlers : List Handler} (named : ∀ handler ∈ handlers, Inline handler.methodName) :
    (registerMethod handlers).Plain := by
  refine ⟨(by decide : Inline "register_event_handlers"), nofun, fun code member => ?_⟩
  obtain ⟨handler, listed, rfl⟩ := List.mem_map.mp member
  have receiver : handler.receiver.Plain := by
    unfold Handler.receiver
    split
    · exact (by decide : Inline "robot")
    · exact inline_identifier _
    · exact inline_identifier _
    all_goals exact trivial
  -- a receiver starts a line together with its dot
  have opening : ".register_event_handler(" = "." ++ ("register_event_handler" ++ "(") := rfl
  have inside : ∀ item ∈ [Text.quoted handler.event, "self." ++ handler.methodName], Inline item :=
    List.forall_mem_cons.mpr ⟨inline_quoted _, by simpa using ⟨(by decide : Inline "self."), named handler listed⟩⟩
  rw [opening, ← String.append_assoc, ← String.append_assoc]
  refine .of_call (starts_append receiver.starts _) ?_ (inline_commaSeparated inside)
  simp only [inline_append]
  exact ⟨⟨receiver.inline, by decide⟩, by decide⟩

theorem statement_body (sound : g.Sound) (libraries : Libraries g) :
    ∀ code ∈ (body g own scope id).1, Statement code := by
  intro code member
  obtain ⟨part, listed, is⟩ := List.mem_filterMap.mp member
  obtain ⟨root, stacked, rfl⟩ := List.mem_map.mp listed
  unfold statement at is
  split at is
  · cases is
  · split at is
    · cases is
      exact statement_expression sound libraries (sound.tree.contains_of_mem_statementStack stacked)
    · cases is

theorem inline_paramNames (params : List Parameter) : ∀ param ∈ paramNames params, Inline param := by
  intro param member
  obtain ⟨parameter, -, rfl⟩ := List.mem_map.mp member
  exact inline_identifier _

theorem plain_written (scope : Scope) (sound : g.Sound) (libraries : Libraries g)
    (classes : Classes (.collect g)) (collected : Outline.collect? type name g = some outline) :
    ∀ method ∈ (written g scope outline).1.methods, method.Plain := by
  intro method member
  rcases List.mem_append.mp member with member | member
  · rcases List.mem_append.mp member with member | registers
    · rcases List.mem_cons.mp member with rfl | builds
      · exact plain_initMethod outline
      · unfold hardware at builds
        split at builds
        · cases List.mem_singleton.mp builds
          exact plain_hardwareMethod (Outline.declarations_eq collected ▸ classes)
        · cases builds
    · split at registers
      · cases registers
      · cases List.mem_singleton.mp registers
        exact plain_registerMethod fun handler listed => Outline.inline_methodName collected listed
  · obtain ⟨noted, listed, rfl⟩ := List.mem_map.mp member
    rcases List.mem_append.mp listed with defined | handled
    · obtain ⟨owner, -, rfl⟩ := List.mem_map.mp defined
      exact ⟨inline_identifier _, inline_paramNames _, statement_body sound libraries⟩
    · obtain ⟨handler, stands, rfl⟩ := List.mem_map.mp handled
      exact ⟨Outline.inline_methodName collected stands, inline_paramNames _, statement_body sound libraries⟩

/-! The class. -/

/-- What stands above the line of the class. -/
def preamble (options : Options) (imports : Imports) (c : Class) : List String :=
  (if options.header then [headerLine, ""] else []) ++ imports.lines ++ ["", ""] ++ c.decorators

/-- The line of the class and its methods. -/
def Class.block (unit : String) (c : Class) : List String :=
  ("class " ++ c.name ++ "(" ++ c.base ++ "):") :: [""].intercalate (c.methods.map fun method => method.lines unit)

theorem fileText_eq (options : Options) (imports : Imports) (c : Class) : fileText options imports c =
    "\n".intercalate (preamble options imports c) ++ "\n"
      ++ ("\n".intercalate (c.block (unitOf options.indent)) ++ "\n") := by
  have lines : (if options.header then [headerLine, ""] else []) ++ imports.lines ++ ["", ""]
      ++ c.lines (unitOf options.indent) = preamble options imports c ++ c.block (unitOf options.indent) := by
    simp [Class.lines, preamble, Class.block]
  have above : preamble options imports c ≠ [] := by simp [preamble]
  have below : c.block (unitOf options.indent) ≠ [] := by simp [Class.block]
  rw [fileText]
  change "\n".intercalate (_ ++ c.lines (unitOf options.indent)) ++ "\n" = _
  rw [lines, String.intercalate_append_of_ne_nil above below, String.append_assoc]

theorem first_line (first : String) (rest : List String) :
    (first ++ "\n").toList <+: ("\n".intercalate (first :: rest) ++ "\n").toList := by
  cases rest with
  | nil => exact ⟨[], by rw [String.intercalate_singleton, List.append_nil]⟩
  | cons next others =>
    rw [String.intercalate_cons_cons, String.append_assoc]
    exact ⟨_, String.toList_append.symm⟩

theorem Outline.inline_className (collected : Outline.collect? type name g = some outline) :
    Inline outline.className := by
  have inline : ∀ {s : String}, Text.IsIdentifier s → Inline s := by
    rintro s ⟨first, rest, is, start, later⟩
    refine inline_of_solid fun c member => Text.not_isBlank_of_isWordChar (Text.isWordChar_iff.mpr ?_)
    rw [is] at member
    rcases List.mem_cons.mp member with rfl | member
    · exact start.imp_right .inr
    · exact later c member
  obtain ⟨className, named, rfl⟩ := Option.map_eq_some_iff.mp collected
  cases type with
  | robot =>
    cases named
    exact (by decide : Inline "Robot")
  | mechanism | opMode =>
    cases named
    exact inline (Text.isIdentifier_className name)
  | unknown => cases named

/-- The methods of a class follow one another below its line. -/
theorem Class.structured {c : Class} (name : Inline c.name) (base : Inline c.base) (some : c.methods ≠ [])
    (plain : ∀ method ∈ c.methods, method.Plain) (indent : Nat) :
    (∀ line ∈ c.block (unitOf indent), Inline line) ∧ Text.BlockStructured indent
      (Text.textLines ("\n".intercalate (c.block (unitOf indent)) ++ "\n")) := by
  have head : Head ("class " ++ c.name ++ "(" ++ c.base ++ "):") :=
    .of_brackets ⟨'c', "lass ".toList ++ c.name.toList, by simp, by decide⟩
      (inline_append.mpr ⟨by decide, name⟩) base
  let parts := c.methods.map fun method => method.lines (unitOf indent)
  have inside : ∀ line ∈ parts.flatten, Inline line ∧ line.toList.all Text.isBlank = false := by
    intro line member
    obtain ⟨part, listed, inside⟩ := List.mem_flatten.mp member
    obtain ⟨method, own, rfl⟩ := List.mem_map.mp listed
    exact ((plain method own).lines indent).2 line inside
  have single : ∀ line ∈ c.block (unitOf indent), Inline line := by
    refine List.forall_mem_cons.mpr ⟨head.inline, fun line member => ?_⟩
    rcases Text.mem_intercalate member with apart | ⟨part, listed, here⟩
    · rw [List.mem_singleton.mp apart]
      decide
    · exact (inside line (List.mem_flatten.mpr ⟨part, listed, here⟩)).1
  refine ⟨single, ?_⟩
  have lines : Text.textLines ("\n".intercalate (c.block (unitOf indent)) ++ "\n") =
      ("class " ++ c.name ++ "(" ++ c.base ++ "):").toList :: (parts.map (·.map String.toList)).flatten := by
    have solid : ("class " ++ c.name ++ "(" ++ c.base ++ "):").toList.all Text.isBlank = false :=
      Text.not_all_blank head.starts []
    have kept : parts.flatten.filter ((fun line : List Char => !line.all Text.isBlank) ∘ String.toList) =
        parts.flatten :=
      List.filter_eq_self.mpr fun line member => by simp [(inside line member).2]
    rw [Text.textLines_intercalate (by simp [Class.block]) fun line member => (single line member).1, Class.block,
      List.map_cons, List.filter_cons_of_pos (by rw [solid]; rfl), List.filter_map, Text.filter_intercalate rfl, kept,
      List.map_flatten]
  have piece : Text.Piece indent (parts.map (·.map String.toList)).flatten := by
    refine .flatten fun piece listed => ?_
    obtain ⟨part, written, rfl⟩ := List.mem_map.mp listed
    obtain ⟨method, own, rfl⟩ := List.mem_map.mp written
    exact ((plain method own).lines indent).1
  rw [lines]
  refine .of_piece head.opens ?_ ?_ piece
  · exact Text.margin_append head.starts 0
  · obtain ⟨method, rest, is⟩ := List.exists_cons_of_ne_nil some
    simp [parts, is, Method.lines]

/-- From its line on a class is in blocks, whatever stands in the fields of the blocks of its module, if no blanks
stand in the names of the classes that it builds its hardware from and of the library modules that it uses. -/
theorem class_structured (reached : g.Reachable) (classes : Classes (.collect g)) (libraries : Libraries g)
    (supported : type ≠ .unknown) (valid : options.isValid = true) (name : String) (scope : Scope) :
    ∃ generated imports c text, generate type name g scope options = .ok generated ∧
      generated.code = fileText options imports c ∧
      generated.code = "\n".intercalate (preamble options imports c) ++ "\n" ++ text ∧
      ("class " ++ generated.className ++ "(" ++ (baseOf type).2 ++ "):\n").toList <+: text.toList ∧
      '\r' ∉ text.toList ∧ Text.BlockStructured options.indent (Text.textLines text) := by
  have sound := reached.sound
  obtain ⟨generated, made⟩ : ∃ generated, generate type name g scope options = .ok generated :=
    (generate_ok_iff sound scope).mpr ⟨valid, supported⟩
  obtain ⟨outline, collected, rfl⟩ := generate_eq sound made
  obtain rfl : outline.type = type := Outline.type_eq collected
  have plain := plain_written scope sound libraries classes collected
  have base : Inline (baseOf outline.type).2 := by
    cases outline.type <;> decide
  have some : (written g scope outline).1.methods ≠ [] := by
    simp [written, furniture]
  obtain ⟨single, structured⟩ := Class.structured (Outline.inline_className collected) base some plain options.indent
  refine ⟨_, _, (written g scope outline).1, _, made, rfl, fileText_eq .., ?_, ?_, structured⟩
  · have ending : "):\n" = "):" ++ "\n" := rfl
    rw [ending, ← String.append_assoc]
    exact first_line ..
  · intro member
    rw [String.toList_append, String.toList_intercalate] at member
    rcases List.mem_append.mp member with member | last
    · rcases Text.mem_intercalate member with apart | ⟨part, listed, inside⟩
      · exact absurd apart (by decide)
      · obtain ⟨line, own, rfl⟩ := List.mem_map.mp listed
        exact (single line own).2 inside
    · exact absurd last (by decide)

/-- A method calls a function of a library with a text that has a break and ends in a colon. The call goes on one
line, and the class is in blocks of two spaces. -/
theorem class_structured_escaped :
    let call : CallState := { target := .moduleFunction "time", name := "sleep", args := [⟨"note", none⟩] }
    let g := [Mutation.add .componentHolder .none,
      .add .component (.component { className := "Motor", importModule := "arm" }),
      .connectSocket ⟨0⟩ Socket.components ⟨1⟩, .add .methodDef (.method {}), .add .methodCall (.call call),
      .add .text .none, .setField ⟨4⟩ Field.text "if x:\n  y:", .connectSocket ⟨2⟩ Socket.stack ⟨3⟩,
      .connectSocket ⟨3⟩ (Socket.arg 0) ⟨4⟩].foldl Graph.mutate Graph.empty
    ∃ generated imports c text, generate .mechanism "Arm" g {} { indent := 2 } = .ok generated ∧
      generated.code = "\n".intercalate (preamble { indent := 2 } imports c) ++ "\n" ++ text ∧
      Text.BlockStructured 2 (Text.textLines text) := by
  intro call g
  have reached : g.Reachable := Reachable.empty.foldl_mutate _
  have classes : Classes (.collect g) := by
    have own : (Declarations.collect g).components.map (·.className) = ["Motor"] := by decide +kernel
    intro component declared c member
    have named : component.className = "Motor" := by
      simpa [own] using (List.mem_map_of_mem declared : component.className ∈ _)
    have plain : "Motor".toList.all (!Text.isBlank ·) = true := by decide
    simpa using List.all_eq_true.mp plain c (named ▸ member)
  have targets : g.nodes.map (fun node => node.block.extra.call?.map (·.target)) =
      [none, none, none, some (.moduleFunction "time"), none] := by decide +kernel
  have libraries : Libraries g := .of_targets targets fun module among => by
    have named : module = "time" := by simpa using among
    rw [named]
    decide
  obtain ⟨generated, imports, c, text, made, -, code, -, -, structured⟩ := class_structured reached classes libraries
    (by decide : ModuleType.mechanism ≠ .unknown) (by decide : Options.isValid { indent := 2 } = true) "Arm" {}
  exact ⟨generated, imports, c, text, made, code, structured⟩

end RobotBlocks.Code
