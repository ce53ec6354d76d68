import SqlQuery.Dialect
import SqlQuery.Json
import SqlQuery.Json.Decoder

/-!
Dialects in JSON. A dialect is read from an object that may leave settings out, or from an array
that gives the first ones in order.
-/

namespace SqlQuery

def ParameterStyle.name : ParameterStyle → String
  | .named => "named"
  | .anonymous => "anonymous"

def QuotePolicy.name : QuotePolicy → String
  | .whenNeeded => "when_needed"
  | .always => "always"

def Quotes.toJson (q : Quotes) : Json :=
  .object [("start", .string q.opening), ("end", .string q.closing)]

def Dialect.toJson (d : Dialect) : Json :=
  .object
    [("identifier_escape", d.quotes.toJson), ("parameter_symbol", .string d.parameterSymbol),
     ("parameter_style", .string d.parameterStyle.name),
     ("quote_policy", .string d.quotePolicy.name)]

open Json Json.Decoder

def ParameterStyle.decoder : Decoder ParameterStyle :=
  choice ([.named, .anonymous].map fun style => (style.name, style))

def QuotePolicy.decoder : Decoder QuotePolicy :=
  choice ([.whenNeeded, .always].map fun policy => (policy.name, policy))

/-- The one value that is given. -/
def theOnly {α : Type} : List α → Decoder α
  | [a] => return a
  | _ => failure

/-- The one value that is given, or the default. -/
def theOnlyOr {α : Type} (default : α) : List α → Decoder α
  | [] => return default
  | as => theOnly as

namespace Quotes

inductive Field where
  | opening (mark : String)
  | closing (mark : String)
  | unknown

def Field.opening? : Field → Option String
  | opening mark => some mark
  | _ => none

def Field.closing? : Field → Option String
  | closing mark => some mark
  | _ => none

def Field.decoder (name : String) : Decoder Field :=
  if name == "start" then opening <$> string
  else if name == "end" then closing <$> string
  else do
    ignore
    return unknown

def decoder : Decoder Quotes := do
  if ← eat '[' then
    let opening ← elementOr true failure string
    let closing ← elementOr false failure string
    require ']'
    return ⟨opening, closing⟩
  else
    let given ← fields Field.decoder
    return ⟨← theOnly (given.filterMap Field.opening?), ← theOnly (given.filterMap Field.closing?)⟩

end Quotes

namespace Dialect

inductive Field where
  | quotes (quotes : Quotes)
  | symbol (symbol : String)
  | style (style : ParameterStyle)
  | policy (policy : QuotePolicy)
  | unknown

namespace Field

def quotes? : Field → Option Quotes
  | quotes q => some q
  | _ => none

def symbol? : Field → Option String
  | symbol s => some s
  | _ => none

def style? : Field → Option ParameterStyle
  | style s => some s
  | _ => none

def policy? : Field → Option QuotePolicy
  | policy p => some p
  | _ => none

def decoder (name : String) : Decoder Field :=
  if name == "identifier_escape" then quotes <$> Quotes.decoder
  else if name == "parameter_symbol" then symbol <$> string
  else if name == "parameter_style" then style <$> ParameterStyle.decoder
  else if name == "quote_policy" then policy <$> QuotePolicy.decoder
  else do
    ignore
    return unknown

end Field

def decoder : Decoder Dialect := do
  if ← eat '[' then
    let quotes ← elementOr true (pure standard.quotes) Quotes.decoder
    let symbol ← elementOr false (pure standard.parameterSymbol) string
    let style ← elementOr false (pure standard.parameterStyle) ParameterStyle.decoder
    let policy ← elementOr false (pure standard.quotePolicy) QuotePolicy.decoder
    require ']'
    return ⟨quotes, symbol, style, policy⟩
  else
    let given ← fields Field.decoder
    let quotes ← theOnlyOr standard.quotes (given.filterMap Field.quotes?)
    let symbol ← theOnlyOr standard.parameterSymbol (given.filterMap Field.symbol?)
    let style ← theOnlyOr standard.parameterStyle (given.filterMap Field.style?)
    let policy ← theOnlyOr standard.quotePolicy (given.filterMap Field.policy?)
    return ⟨quotes, symbol, style, policy⟩

/-- Reads a dialect from a text that holds nothing else. -/
def ofJson? (text : String) : Option Dialect := document decoder text

end Dialect

end SqlQuery
