/-
# Tokens of a JSON text

A JSON text is a row of tokens with blanks between them.  The tokens are found by a machine that
reads one character at a time.  Between tokens it passes over blanks; inside quotes it undoes
escapes; any other run of characters is an atom, which has to be a number or one of the three
names once it is complete.
-/
import WordPacking.Json.Number

namespace WordPacking.Json

/-- A token of a JSON text. -/
inductive Token where
  /-- The bracket that begins an array. -/
  | openArray
  /-- The bracket that ends an array. -/
  | closeArray
  /-- The brace that begins an object. -/
  | openObject
  /-- The brace that ends an object. -/
  | closeObject
  /-- The mark between items or fields. -/
  | comma
  /-- The mark between a key and its value. -/
  | colon
  /-- The name `null`. -/
  | null
  /-- One of the names `true` and `false`. -/
  | bool (b : Bool)
  /-- A number, by its text. -/
  | number (text : String)
  /-- A string, by the text that it stands for. -/
  | string (text : String)
deriving DecidableEq, Repr

/-! ## Writing -/

/-- The escape of a control character: a letter where there is one, and else four digits. -/
def escapeControl (c : Char) : List Char :=
  if c = '\x08' then ['\\', 'b']
  else if c = '\t' then ['\\', 't']
  else if c = '\n' then ['\\', 'n']
  else if c = '\x0c' then ['\\', 'f']
  else if c = '\r' then ['\\', 'r']
  else ['\\', 'u', '0', '0', Nat.digitChar (c.toNat / 16), Nat.digitChar (c.toNat % 16)]

/-- A character as it stands inside quotes. -/
def escapeChar (c : Char) : List Char :=
  if c = '"' then ['\\', '"']
  else if c = '\\' then ['\\', '\\']
  else if c < ' ' then escapeControl c
  else [c]

namespace Token

/-- The text of a token. -/
def chars : Token → List Char
  | openArray => ['[']
  | closeArray => [']']
  | openObject => ['{']
  | closeObject => ['}']
  | comma => [',']
  | colon => [':']
  | null => ['n', 'u', 'l', 'l']
  | bool true => ['t', 'r', 'u', 'e']
  | bool false => ['f', 'a', 'l', 's', 'e']
  | number text => text.toList
  | string text => '"' :: (text.toList.flatMap escapeChar ++ ['"'])

/-! ## Reading -/

/-- The blanks that may stand between tokens. -/
def isSpace (c : Char) : Bool := c = ' ' || c = '\t' || c = '\n' || c = '\r'

/-- The token of a character that is a token by itself. -/
def ofPunctuation? : Char → Option Token
  | '[' => some openArray
  | ']' => some closeArray
  | '{' => some openObject
  | '}' => some closeObject
  | ',' => some comma
  | ':' => some colon
  | _ => none

/-- The token of a run of other characters. -/
def ofAtom? (cs : List Char) : Option Token :=
  if cs = null.chars then some null
  else if cs = (bool true).chars then some (bool true)
  else if cs = (bool false).chars then some (bool false)
  else if isNumber cs then some (number (String.ofList cs))
  else none

/-- What the machine is reading.  Characters that are read are kept last first. -/
inductive Mode where
  /-- Nothing: the next character begins a token, or is blank. -/
  | between
  /-- An atom. -/
  | atom (read : List Char)
  /-- A string. -/
  | string (read : List Char)
  /-- A string, after a backslash. -/
  | escape (read : List Char)
  /-- A string, inside an escape by code unit: the digits so far and their value.  A high
  surrogate before it waits for its low half. -/
  | unit (read : List Char) (high : Option Nat) (digits value : Nat)
  /-- A string, after a high surrogate, which the escape of a low one has to follow. -/
  | pair (read : List Char) (high : Nat)
  /-- The same, after the backslash of that escape. -/
  | pairEscape (read : List Char) (high : Nat)
deriving DecidableEq, Repr

/-- The machine: the tokens that are complete, last first, and what it is reading. -/
structure Scan where
  /-- The tokens so far, last first. -/
  tokens : List Token
  /-- What is being read. -/
  mode : Mode
deriving DecidableEq, Repr

/-- The character of a one-letter escape. -/
def unescape? : Char → Option Char
  | '"' => some '"'
  | '\\' => some '\\'
  | '/' => some '/'
  | 'b' => some '\x08'
  | 'f' => some '\x0c'
  | 'n' => some '\n'
  | 'r' => some '\r'
  | 't' => some '\t'
  | _ => none

/-- What is being read after an escape by code unit is complete.  A high surrogate waits for a
low one, and together they are one character; neither may stand alone. -/
def afterUnit (read : List Char) (high : Option Nat) (unit : Nat) : Option Mode :=
  match high with
  | none =>
    if unit < 0xd800 ∨ 0xdfff < unit then some (.string (Char.ofNat unit :: read))
    else if unit < 0xdc00 then some (.pair read unit)
    else none
  | some high =>
    if 0xdc00 ≤ unit ∧ unit ≤ 0xdfff then
      some (.string (Char.ofNat (0x10000 + (high - 0xd800) * 0x400 + (unit - 0xdc00)) :: read))
    else none

namespace Scan

/-- The machine before it has read anything. -/
def start : Scan := ⟨[], .between⟩

/-- Begins the next token, or passes over a blank. -/
def begin (tokens : List Token) (c : Char) : Scan :=
  if isSpace c then ⟨tokens, .between⟩
  else match ofPunctuation? c with
    | some token => ⟨token :: tokens, .between⟩
    | none => if c = '"' then ⟨tokens, .string []⟩ else ⟨tokens, .atom [c]⟩

/-- Whether a character ends the atom before it. -/
def endsAtom (c : Char) : Bool := isSpace c || (ofPunctuation? c).isSome || c = '"'

/-- Reads one character. -/
def step (s : Scan) (c : Char) : Option Scan :=
  match s.mode with
  | .between => some (begin s.tokens c)
  | .atom read =>
    if endsAtom c then (ofAtom? read.reverse).map fun token => begin (token :: s.tokens) c
    else some ⟨s.tokens, .atom (c :: read)⟩
  | .string read =>
    if c = '"' then some ⟨.string (String.ofList read.reverse) :: s.tokens, .between⟩
    else if c = '\\' then some ⟨s.tokens, .escape read⟩
    else if c < ' ' then none
    else some ⟨s.tokens, .string (c :: read)⟩
  | .escape read =>
    if c = 'u' then some ⟨s.tokens, .unit read none 0 0⟩
    else (unescape? c).map fun c => ⟨s.tokens, .string (c :: read)⟩
  | .unit read high digits value =>
    (Text.hexDigit? c).bind fun d =>
      if digits = 3 then (afterUnit read high (16 * value + d)).map fun mode => ⟨s.tokens, mode⟩
      else some ⟨s.tokens, .unit read high (digits + 1) (16 * value + d)⟩
  | .pair read high => if c = '\\' then some ⟨s.tokens, .pairEscape read high⟩ else none
  | .pairEscape read high =>
    if c = 'u' then some ⟨s.tokens, .unit read (some high) 0 0⟩ else none

/-- The tokens of a text that has been read to its end. -/
def finish (s : Scan) : Option (List Token) :=
  match s.mode with
  | .between => some s.tokens.reverse
  | .atom read => (ofAtom? read.reverse).map fun token => (token :: s.tokens).reverse
  | _ => none

end Scan

/-- The tokens of a text. -/
def scan? (cs : List Char) : Option (List Token) := (cs.foldlM Scan.step .start).bind Scan.finish

end Token

end WordPacking.Json
