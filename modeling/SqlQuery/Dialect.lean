/-!
Dialects: how names are quoted and how parameters are marked in written queries.
-/

namespace SqlQuery

/-- The marks around a quoted name. The closing one is doubled inside. -/
structure Quotes where
  opening : String
  closing : String
  deriving DecidableEq, Repr

inductive ParameterStyle where
  | named
  | anonymous
  deriving DecidableEq, Repr

inductive QuotePolicy where
  | whenNeeded
  | always
  deriving DecidableEq, Repr

structure Dialect where
  quotes : Quotes
  parameterSymbol : String
  parameterStyle : ParameterStyle
  quotePolicy : QuotePolicy
  deriving DecidableEq, Repr

def Dialect.standard : Dialect := ⟨⟨"\"", "\""⟩, ":", .named, .whenNeeded⟩

def Dialect.quoteAll (d : Dialect) : Dialect := { d with quotePolicy := .always }

end SqlQuery
