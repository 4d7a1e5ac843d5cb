import RobotBlocks.Proofs.Code.Emitted
import RobotBlocks.Proofs.Text.Lines

/-! The lines of a generated file. Its text is told line by line, without the functions that print it: the
imports, and one class with a head and a body for each of its methods. What is shown of a class and its
methods is thereby shown of lines of the text. -/
namespace RobotBlocks.Code

/-- Code behind so many spaces. -/
def indented (count : Nat) (code : String) : String := String.ofList (List.replicate count ' ') ++ code

/-- The line that opens a function. -/
def defLine (name : String) (params : List String) : String :=
  "def " ++ name ++ "(" ++ ", ".intercalate ("self" :: params) ++ "):"

/-- The lines of a method in its class: one that opens it, and its statements one level further in. -/
def Method.rows (indent : Nat) (method : Method) : List String :=
  indented indent (defLine method.name method.params)
    :: (if method.body = [] then ["pass"] else method.body).map (indented (2 * indent))

/-- The lines of a file: its header if it has one, the imports, two empty lines, and the class under its
decorators with an empty line between its methods. -/
def Prints (options : Options) (imports : List String) (c : Class) (code : String) : Prop :=
  code = Text.ofLines ((if options.header then ["# Generated by blockbot. Do not edit.", ""] else [])
    ++ imports ++ ["", ""] ++ c.decorators ++ ["class " ++ c.name ++ "(" ++ c.base ++ "):"]
    ++ [""].intercalate (c.methods.map (Method.rows options.indent)))

variable {options : Options} {imports : List String} {c : Class} {code : String}

theorem Method.lines_eq (indent : Nat) (method : Method) :
    method.lines (String.ofList (List.replicate indent ' ')) = method.rows indent := by
  obtain ⟨name, params, body⟩ := method
  have twice : ∀ code, String.ofList (List.replicate indent ' ') ++ String.ofList (List.replicate indent ' ') ++ code
      = indented (2 * indent) code := by
    intro code
    rw [indented, ← String.ofList_append, List.replicate_append_replicate, Nat.two_mul]
  cases body with
  | nil => simp [Method.lines, Method.rows, Method.header, defLine, commaSeparated, indented, twice]
  | cons first rest => simp [Method.lines, Method.rows, Method.header, defLine, commaSeparated, indented, twice]

theorem prints_fileText (options : Options) (imports : Imports) (c : Class) :
    Prints options imports.lines c (fileText options imports c) := by
  have methods : c.methods.map (fun method => method.lines (String.ofList (List.replicate options.indent ' ')))
      = c.methods.map (Method.rows options.indent) :=
    List.map_congr_left fun method _ => method.lines_eq options.indent
  rw [Prints, fileText, Class.lines, methods, Text.ofLines_eq (by simp)]
  simp [headerLine]

/-- What is generated is the file of the class of its outline. -/
theorem generate_prints {g : Graph} {scope : Scope} {type : ModuleType} {name : String} {outline : Outline}
    {generated : Generated} (tree : g.Tree) (made : generate type name g scope options = .ok generated)
    (collected : Outline.collect? type name g = some outline) :
    Prints options (Imports.ofUses ((written g scope outline).2.filterMap Note.use?)).lines
      (written g scope outline).1 generated.code := by
  obtain ⟨same, again, rfl⟩ := generate_eq tree made
  obtain rfl := Option.some.inj (again.symm.trans collected)
  exact prints_fileText ..

namespace Prints

theorem method {method : Method} (prints : Prints options imports c code) (member : method ∈ c.methods) :
    Text.HasLines code (method.rows options.indent) := by
  have whole : Text.HasLines code ([""].intercalate (c.methods.map (Method.rows options.indent))) :=
    ⟨_, [], by rw [List.append_nil]; exact prints⟩
  exact whole.narrow (Text.infix_intercalate (List.mem_map_of_mem member))

theorem head {method : Method} (prints : Prints options imports c code) (member : method ∈ c.methods) :
    Text.HasLines code [indented options.indent (defLine method.name method.params)] :=
  (prints.method member).narrow ⟨[], _, rfl⟩

theorem statement {method : Method} {statement : String} (prints : Prints options imports c code)
    (member : method ∈ c.methods) (listed : statement ∈ method.body) :
    Text.HasLines code [indented (2 * options.indent) statement] := by
  refine (prints.method member).narrow (.trans ?_ (List.suffix_cons ..).isInfix)
  rw [if_neg (List.ne_nil_of_mem listed)]
  obtain ⟨front, back, is⟩ := List.append_of_mem (List.mem_map_of_mem listed : indented _ _ ∈ _)
  exact ⟨front, back, by rw [is, List.append_assoc]; rfl⟩

end Prints

/-! Expressions in lines. -/

theorem Expr.codes_eq_map (args : List Expr) : Expr.codes args = args.map Expr.code := by
  induction args with
  | nil => rfl
  | cons arg args ih => rw [Expr.codes, ih, List.map_cons]

theorem Expr.code_call (receiver : Receiver) (function : String) (args : List Expr) :
    (Expr.call receiver function args).code
      = receiver.code ++ "." ++ function ++ "(" ++ commaSeparated (args.map Expr.code) ++ ")" := by
  rw [← codes_eq_map]
  rfl

theorem Expr.code_fire (event : String) (args : List Expr) :
    (Expr.fire event args).code
      = "self.fire_event(" ++ commaSeparated (Text.quoted event :: args.map Expr.code) ++ ")" := by
  rw [← codes_eq_map]
  rfl

/-- One code stands somewhere in the other. -/
def Inside (inner outer : String) : Prop := ∃ front back, outer = front ++ inner ++ back

theorem Inside.trans {inner code outer : String} (first : Inside inner code) (second : Inside code outer) :
    Inside inner outer := by
  obtain ⟨front, back, rfl⟩ := first
  obtain ⟨before, after, rfl⟩ := second
  exact ⟨before ++ front, back ++ after, by simp [String.append_assoc]⟩

theorem inside_commaSeparated {item : String} {items : List String} (member : item ∈ items) :
    Inside item (commaSeparated items) := by
  have chars : (commaSeparated items).toList = ", ".toList.intercalate (items.map String.toList) :=
    String.toList_intercalate
  obtain ⟨front, back, is⟩ : item.toList <:+: ", ".toList.intercalate (items.map String.toList) :=
    Text.infix_intercalate (List.mem_map_of_mem member)
  refine ⟨String.ofList front, String.ofList back, String.toList_inj.mp ?_⟩
  rw [chars, ← is]
  simp

/-- What stands in an expression stands in its code. -/
theorem Expr.Within.inside {inner outer : Expr} (within : inner.Within outer) : Inside inner.code outer.code := by
  induction within with
  | refl => exact ⟨"", "", by simp⟩
  | @arg expr outer member within ih =>
    refine ih.trans ?_
    cases outer with
    | call receiver function args =>
      have listed : Inside expr.code (commaSeparated (args.map Expr.code)) :=
        inside_commaSeparated (List.mem_map_of_mem member)
      exact listed.trans ⟨receiver.code ++ "." ++ function ++ "(", ")", code_call ..⟩
    | fire event args =>
      have listed : Inside expr.code (commaSeparated (Text.quoted event :: args.map Expr.code)) :=
        inside_commaSeparated (List.mem_cons_of_mem _ (List.mem_map_of_mem member))
      exact listed.trans ⟨"self.fire_event(", ")", code_fire ..⟩
    | _ => cases member

end RobotBlocks.Code
