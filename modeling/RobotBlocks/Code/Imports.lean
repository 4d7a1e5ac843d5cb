import RobotBlocks.Text.Sorted

/-! Imports in ascending order: whole modules first, then the symbols of each module. -/
namespace RobotBlocks.Code

/-- What a piece of code needs. -/
inductive Use where
  | module (name : String)
  | symbol (module : String) (name : String)
  deriving DecidableEq, Repr

structure Imports where
  modules : List String := []
  symbols : List (String × List String) := []
  deriving DecidableEq, Repr

namespace Imports

/-- Puts a symbol under its module, both in ascending order. -/
def insertSymbol (module name : String) : List (String × List String) → List (String × List String)
  | [] => [(module, [name])]
  | (other, names) :: rest =>
    if module = other then (other, Text.insertName name names) :: rest
    else if module < other then (module, [name]) :: (other, names) :: rest
    else (other, names) :: insertSymbol module name rest

def add (imports : Imports) : Use → Imports
  | .module name => { imports with modules := Text.insertName name imports.modules }
  | .symbol module name => { imports with symbols := insertSymbol module name imports.symbols }

def ofUses (uses : List Use) : Imports := uses.foldl add {}

def isEmpty (imports : Imports) : Bool := imports.modules.isEmpty && imports.symbols.isEmpty

def lines (imports : Imports) : List String :=
  imports.modules.map (fun module => "import " ++ module) ++
    imports.symbols.map fun (module, names) =>
      "from " ++ module ++ " import " ++ ", ".intercalate names

end Imports
end RobotBlocks.Code
