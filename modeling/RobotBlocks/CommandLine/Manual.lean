import RobotBlocks.Module.Type

/-! The commands and the pages that describe them. A page says what a command does, how it is
called and what its operands and options mean, each in a column of its own. -/
namespace RobotBlocks.CommandLine

def programName : String := "blockbot"

/-- The name of a command, what it does and what it takes. -/
structure Form where
  name : String
  about : String
  operands : List String := []
  withType : Bool := false
  deriving DecidableEq, Repr

def forms : List Form :=
  [{ name := "list", about := "List projects with their modules" },
   { name := "new-project", about := "Create a project holding an empty robot"
     operands := ["NAME"] },
   { name := "new-module", about := "Create a mechanism or opmode in an existing project"
     operands := ["WORKSPACE", "NAME"], withType := true },
   { name := "generate", operands := ["PATH"]
     about := "Print the python generated for a module, e.g. `Alpha/auto.blk`" },
   { name := "check", about := "Report block warnings and generation diagnostics of a module"
     operands := ["PATH"] },
   { name := "rename-module", about := "Rename a mechanism or opmode within its project"
     operands := ["PATH", "NEW_NAME"] },
   { name := "copy-module", about := "Copy a mechanism or opmode under a new name in its project"
     operands := ["PATH", "NEW_NAME"] },
   { name := "delete-module", about := "Delete a mechanism or opmode", operands := ["PATH"] },
   { name := "copy-workspace", about := "Copy every module of a workspace under a new name"
     operands := ["FROM", "TO"] },
   { name := "rename-workspace", about := "Rename a workspace and all of its modules"
     operands := ["FROM", "TO"] },
   { name := "delete-workspace", about := "Delete a workspace and all of its modules"
     operands := ["NAME"] }]

def Form.ofName? (name : String) : Option Form := forms.find? fun form => form.name = name

/-- Rows of two columns under a heading. -/
structure Table where
  heading : String
  rows : List (String × String)
  deriving DecidableEq, Repr

namespace Table

def width (table : Table) : Nat :=
  table.rows.foldl (fun width row => max width row.1.length) 0

/-- The lines of a table. The second column begins two places behind the widest first one. -/
def lines (table : Table) : List String :=
  (table.heading ++ ":") :: table.rows.map fun (first, second) =>
    "  " ++ first ++ String.ofList (List.replicate (table.width + 2 - first.length) ' ') ++ second

end Table

/-- What the program says about itself or about one command. -/
structure Page where
  about : String
  usage : String
  tables : List Table
  deriving DecidableEq, Repr

def Page.lines (page : Page) : List String :=
  page.about :: "" :: ("Usage: " ++ page.usage) ::
    page.tables.flatMap fun table => "" :: table.lines

/-- The options of the program, or those of a command. -/
def optionTable (withType : Bool) : Table where
  heading := "Options"
  rows :=
    [("    --db <DB>", "Path to the module database file")]
    ++ (if withType then
        [("-t, --type <MODULE_TYPE>", "Module type: mechanism or opmode [default: "
          ++ ModuleType.opMode.name ++ "]")]
      else [])
    ++ [("    --indent <INDENT>", "Spaces per indentation level of generated python"),
      ("-h, --help", "Print help")]

def Form.page (form : Form) : Page :=
  let operands := form.operands.map fun operand => "<" ++ operand ++ ">"
  { about := form.about
    usage := " ".intercalate ([programName, form.name, "[OPTIONS]"] ++ operands)
    tables := (if operands.isEmpty then [] else [⟨"Arguments", operands.map fun o => (o, "")⟩])
      ++ [optionTable form.withType] }

/-- The page of the command that shows pages. -/
def helpPage : Page where
  about := "Print this message or the help of the given subcommand(s)"
  usage := programName ++ " help [COMMAND]..."
  tables := [⟨"Arguments", [("[COMMAND]...", "Print help for the subcommand(s)")]⟩]

def programPage : Page where
  about := "Robot block programs and their python"
  usage := programName ++ " [OPTIONS] <COMMAND>"
  tables := [⟨"Commands", forms.map (fun form => (form.name, form.about))
    ++ [("help", helpPage.about)]⟩, optionTable false]

end RobotBlocks.CommandLine
