import SqlQuery.Dialect
import SqlQuery.Text.Class

/-!
The dialects that are known by name.
-/

namespace SqlQuery

inductive Preset where
  | generic
  | mysql
  | sqlserver
  | sqlite
  deriving DecidableEq, Repr

namespace Preset

def name : Preset → String
  | generic => "generic"
  | mysql => "mysql"
  | sqlserver => "sqlserver"
  | sqlite => "sqlite"

def quotes : Preset → Quotes
  | generic | sqlite => ⟨"\"", "\""⟩
  | mysql => ⟨"`", "`"⟩
  | sqlserver => ⟨"[", "]"⟩

def parameterSymbol : Preset → String
  | generic | mysql => ":"
  | sqlserver => "@"
  | sqlite => "$"

def parameterStyle : Preset → ParameterStyle
  | mysql => .anonymous
  | _ => .named

def dialect (p : Preset) : Dialect := ⟨p.quotes, p.parameterSymbol, p.parameterStyle, .whenNeeded⟩

def names : List (String × Preset) :=
  [("generic", generic), ("postgres", generic), ("postgresql", generic), ("mysql", mysql),
   ("mariadb", mysql), ("sqlserver", sqlserver), ("mssql", sqlserver), ("sqlite", sqlite)]

/-- Looks a preset up by one of its names, in any case. -/
def named? (name : String) : Option Preset := names.lookup (Text.lower name)

end Preset

end SqlQuery
