/-!
Decoding JSON text of a known shape. Values that are not asked for are passed over, and there a
string may hold escapes that spell no character.
-/

namespace SqlQuery.Json

/-- A character of a string, or a 16-bit code unit that is written as an escape. -/
inductive StringPart where
  | char (c : Char)
  | unit (code : Nat)
  deriving DecidableEq, Repr

namespace StringPart

def hexValue? (c : Char) : Option Nat :=
  if c.isDigit then some (c.toNat - '0'.toNat)
  else if 'a' ≤ c && c ≤ 'f' then some (c.toNat - 'a'.toNat + 10)
  else if 'A' ≤ c && c ≤ 'F' then some (c.toNat - 'A'.toNat + 10)
  else none

def codeUnit? (digits : List Char) : Option Nat :=
  digits.foldlM (fun code c => (hexValue? c).map (code * 16 + ·)) 0

def escapes : List (Char × Char) :=
  [('"', '"'), ('\\', '\\'), ('/', '/'), ('b', '\x08'), ('f', '\x0c'), ('n', '\n'), ('r', '\r'),
   ('t', '\t')]

/-- The parts of a string after its opening quote, and the text after the closing one. -/
def read? : List Char → Option (List StringPart × List Char)
  | [] => none
  | '"' :: cs => some ([], cs)
  | '\\' :: 'u' :: a :: b :: c :: d :: cs => do
    let code ← codeUnit? [a, b, c, d]
    let (parts, rest) ← read? cs
    some (.unit code :: parts, rest)
  | '\\' :: e :: cs => do
    let c ← escapes.lookup e
    let (parts, rest) ← read? cs
    some (.char c :: parts, rest)
  | c :: cs =>
    if c.toNat < 0x20 then none
    else (read? cs).map fun (parts, rest) => (.char c :: parts, rest)

def isHighSurrogate (n : Nat) : Bool := 0xD800 ≤ n && n < 0xDC00

def isLowSurrogate (n : Nat) : Bool := 0xDC00 ≤ n && n < 0xE000

/-- The characters that the parts spell. A surrogate without its partner spells none. -/
def spell? : List StringPart → Option (List Char)
  | [] => some []
  | .char c :: parts => (spell? parts).map (c :: ·)
  | .unit high :: .unit low :: parts =>
    if isHighSurrogate high then
      if isLowSurrogate low then
        let code := 0x10000 + (high - 0xD800) * 0x400 + (low - 0xDC00)
        (spell? parts).map (Char.ofNat code :: ·)
      else none
    else if isLowSurrogate high then none
    else (spell? (.unit low :: parts)).map (Char.ofNat high :: ·)
  | .unit code :: parts =>
    if isHighSurrogate code || isLowSurrogate code then none
    else (spell? parts).map (Char.ofNat code :: ·)

end StringPart

/-- Decodes something off the front of a text, or refuses the text. -/
abbrev Decoder := StateT (List Char) Option

namespace Decoder

variable {α : Type}

def isSpace (c : Char) : Bool := c == ' ' || c == '\n' || c == '\t' || c == '\r'

def spaces : Decoder Unit := modify (List.dropWhile isSpace)

/-- The next character, left where it is. -/
def peek : Decoder (Option Char) := fun cs => some (cs.head?, cs)

/-- Takes the next character if it belongs to the class. -/
def eatIf (p : Char → Bool) : Decoder Bool := fun cs =>
  if cs.head?.any p then some (true, cs.tail) else some (false, cs)

/-- Takes the character if it comes next after spaces. -/
def eat (c : Char) : Decoder Bool := do
  spaces
  eatIf (· == c)

def require (c : Char) : Decoder Unit := do
  if ← eat c then return () else failure

/-- Takes exactly this text. -/
def exactly (text : List Char) : Decoder Unit := fun cs =>
  if text.isPrefixOf cs then some ((), cs.drop text.length) else none

/-- Decodes at most `n` items, until there are no more. -/
def upTo (item : Decoder (Option α)) : Nat → Decoder (List α)
  | 0 => return []
  | n + 1 => do
    match ← item with
    | none => return []
    | some a => return a :: (← upTo item n)

/-- Decodes what stands after an opening bracket, with commas between. Each item takes text. -/
def separated (closing : Char) (item : Decoder α) : Decoder (List α) := do
  if ← eat closing then return []
  else
    let first ← item
    let further : Decoder (Option α) := do
      if ← eat ',' then some <$> item else return none
    let others ← upTo further (← get).length
    require closing
    return first :: others

def stringParts : Decoder (List StringPart) := do
  require '"'
  StringPart.read?

def string : Decoder String := do
  match StringPart.spell? (← stringParts) with
  | some cs => return String.ofList cs
  | none => failure

def digits : Decoder (List Char) := fun cs =>
  let found := cs.takeWhile Char.isDigit
  if found.isEmpty then none else some (found, cs.dropWhile Char.isDigit)

def number : Decoder Unit := do
  let _ ← eatIf (· == '-')
  let whole ← digits
  if whole.head? == some '0' && whole.length ≠ 1 then failure
  if ← eatIf (· == '.') then
    let _ ← digits
  if ← eatIf fun c => c == 'e' || c == 'E' then
    let _ ← eatIf fun c => c == '+' || c == '-'
    let _ ← digits

/-- Passes over a value with fewer than `n` values around its innermost ones. -/
def skip : Nat → Decoder Unit
  | 0 => failure
  | n + 1 => do
    spaces
    match ← peek with
    | some '"' => let _ ← stringParts
    | some '[' =>
      require '['
      let _ ← separated ']' (skip n)
    | some '\x7b' =>
      require '\x7b'
      let _ ← separated '\x7d' do
        let _ ← stringParts
        require ':'
        skip n
    | some 'n' => exactly "null".toList
    | some 't' => exactly "true".toList
    | some 'f' => exactly "false".toList
    | _ => number

/-- Passes over a value. It nests no deeper than its text is long. -/
def ignore : Decoder Unit := do
  skip ((← get).length + 1)

/-- A field of an object under its name. -/
def field (content : String → Decoder α) : Decoder α := do
  let name ← string
  require ':'
  content name

/-- The fields of an object. -/
def fields (content : String → Decoder α) : Decoder (List α) := do
  require '\x7b'
  separated '\x7d' (field content)

/-- An element of an array after its opening bracket, or the default if the array ends here. -/
def elementOr (isFirst : Bool) (default : Decoder α) (item : Decoder α) : Decoder α := do
  spaces
  if (← peek) == some ']' then default
  else
    if !isFirst then require ','
    item

/-- One of several names, alone or as the only field of an object with the content null. -/
def choice (options : List (String × α)) : Decoder α := do
  let inObject ← eat '\x7b'
  let name ← string
  if inObject then
    require ':'
    spaces
    exactly "null".toList
    require '\x7d'
  match options.lookup name with
  | some a => return a
  | none => failure

/-- Decodes a whole text with nothing else in it. -/
def document (value : Decoder α) (text : String) : Option α := do
  let (a, rest) ← (do let a ← value; spaces; return a : Decoder α) text.toList
  if rest.isEmpty then some a else none

end Decoder

end SqlQuery.Json
