/-!
JSON values and their indented text. Fields keep the order in which they are given.
-/

namespace SqlQuery

inductive Json where
  | null
  | boolean (value : Bool)
  | string (value : String)
  | array (items : List Json)
  | object (fields : List (String × Json))

namespace Json

def hexDigit (n : Nat) : Char := "0123456789abcdef".toList.getD n '0'

/-- A character inside a string. Only quotes, backslashes and control characters are escaped. -/
def escapeChar (c : Char) : List Char :=
  if c == '"' then ['\\', '"']
  else if c == '\\' then ['\\', '\\']
  else if c == '\x08' then ['\\', 'b']
  else if c == '\x0c' then ['\\', 'f']
  else if c == '\n' then ['\\', 'n']
  else if c == '\r' then ['\\', 'r']
  else if c == '\t' then ['\\', 't']
  else if c.toNat < 0x20 then
    ['\\', 'u', '0', '0', hexDigit (c.toNat / 16), hexDigit (c.toNat % 16)]
  else [c]

def quoteString (s : String) : String :=
  "\"" ++ String.ofList (s.toList.flatMap escapeChar) ++ "\""

/-- What each further level is indented by. -/
def indentStep : String := "  "

/-- Puts each item on a line of its own between the brackets. -/
def block (opening closing indent : String) (items : List String) : String :=
  if items.isEmpty then opening ++ closing
  else
    let lines := items.map fun item => indent ++ indentStep ++ item
    opening ++ "\n" ++ String.intercalate ",\n" lines ++ "\n" ++ indent ++ closing

mutual

/-- The text of a value that starts on a line with this indentation. -/
def pretty (indent : String) : Json → String
  | .null => "null"
  | .boolean true => "true"
  | .boolean false => "false"
  | .string s => quoteString s
  | .array items => block "[" "]" indent (prettyItems (indent ++ indentStep) items)
  | .object fields => block "\x7b" "\x7d" indent (prettyFields (indent ++ indentStep) fields)

def prettyItems (indent : String) : List Json → List String
  | [] => []
  | item :: items => pretty indent item :: prettyItems indent items

def prettyFields (indent : String) : List (String × Json) → List String
  | [] => []
  | (key, value) :: fields =>
    (quoteString key ++ ": " ++ pretty indent value) :: prettyFields indent fields

end

end Json

end SqlQuery
