/-
  Json.Reader — reading a text of the exchange format.

  Two automata: one turns characters into tokens, one turns tokens into a value with the open containers on a
  stack. Each consumes one item per step, so reading is a fold.
-/

import Lowering.Json.Numeral

namespace Lowering.Json

def word? : List Char → Option Json
  | ['n', 'u', 'l', 'l'] => some .null
  | ['t', 'r', 'u', 'e'] => some (.bool true)
  | ['f', 'a', 'l', 's', 'e'] => some (.bool false)
  | '-' :: cs => magnitude? true cs
  | cs => magnitude? false cs

/-! ## Tokens -/

inductive Token where
  | openArray
  | closeArray
  | openObject
  | closeObject
  | colon
  | comma
  | string (s : Option String)
  | word (value : Json)

/-- An item of a string: a character, or a code unit given by its number. -/
inductive Written where
  | char (c : Char)
  | unit (value : Nat)

/-- What the characters since the last token belong to. Lists hold them last first. -/
inductive Lexing where
  | between
  | word (read : List Char)
  | string (read : List Written)
  | escape (read : List Written)
  /-- Inside the hexadecimal digits of a code unit. -/
  | unit (read : List Written) (value digits : Nat)

structure LexState where
  mode : Lexing
  tokens : List Token

def isSpace (c : Char) : Bool := c == ' ' || c == '\t' || c == '\n' || c == '\r'

def isWordChar (c : Char) : Bool := c.isAlphanum || c == '+' || c == '-' || c == '.'

/-- A character outside of strings and words. -/
def lexBetween (tokens : List Token) (c : Char) : Option LexState :=
  if isSpace c then some ⟨.between, tokens⟩
  else if c == '[' then some ⟨.between, .openArray :: tokens⟩
  else if c == ']' then some ⟨.between, .closeArray :: tokens⟩
  else if c == '\x7b' then some ⟨.between, .openObject :: tokens⟩
  else if c == '\x7d' then some ⟨.between, .closeObject :: tokens⟩
  else if c == ':' then some ⟨.between, .colon :: tokens⟩
  else if c == ',' then some ⟨.between, .comma :: tokens⟩
  else if c == '"' then some ⟨.string [], tokens⟩
  else if isWordChar c then some ⟨.word [c], tokens⟩
  else none

def isHigh (unit : Nat) : Bool := 0xd800 ≤ unit && unit < 0xdc00

def isLow (unit : Nat) : Bool := 0xdc00 ≤ unit && unit < 0xe000

/-- The characters of the end of a string, and the second half of a pair before them. -/
structure Joined where
  low : Option Nat
  chars : List Char

/-- Puts the item before them. -/
def Joined.add (j : Joined) (item : Written) : Option Joined :=
  match item, j.low with
  | .char c, none => some { j with chars := c :: j.chars }
  | .char _, some _ => none
  | .unit u, none =>
    if isLow u then some { j with low := some u }
    else if isHigh u then none
    else some { j with chars := Char.ofNat u :: j.chars }
  | .unit u, some low =>
    if isHigh u then some ⟨none, Char.ofNat (0x10000 + (u - 0xd800) * 0x400 + (low - 0xdc00)) :: j.chars⟩
    else none

/-- The string of items held last first. Each half of a pair needs the other. -/
def stringOf (read : List Written) : Option String := do
  let j ← read.foldlM Joined.add ⟨none, []⟩
  if j.low.isSome then none else some (String.ofList j.chars)

def escaped? (c : Char) : Option Char :=
  if c == '"' || c == '\\' || c == '/' then some c
  else if c == 'b' then some '\x08'
  else if c == 'f' then some '\x0c'
  else if c == 'n' then some '\n'
  else if c == 'r' then some '\r'
  else if c == 't' then some '\t'
  else none

def lexStep (s : LexState) (c : Char) : Option LexState :=
  match s.mode with
  | .between => lexBetween s.tokens c
  | .word read =>
    if isWordChar c then some { s with mode := .word (c :: read) }
    else do
      let value ← word? read.reverse
      lexBetween (.word value :: s.tokens) c
  | .string read =>
    if c == '"' then some ⟨.between, .string (stringOf read) :: s.tokens⟩
    else if c == '\\' then some { s with mode := .escape read }
    else if c.toNat < 0x20 then none
    else some { s with mode := .string (.char c :: read) }
  | .escape read =>
    if c == 'u' then some { s with mode := .unit read 0 0 }
    else (escaped? c).map fun e => { s with mode := .string (.char e :: read) }
  | .unit read value digits => do
    let d ← Word.hexDigit? c
    let value := value * 16 + d
    if digits == 3 then some { s with mode := .string (.unit value :: read) }
    else some { s with mode := .unit read value (digits + 1) }

def tokens? (text : String) : Option (List Token) := do
  let s ← text.toList.foldlM lexStep ⟨.between, []⟩
  match s.mode with
  | .between => some s.tokens.reverse
  | .word read => do
    let value ← word? read.reverse
    some (Token.word value :: s.tokens).reverse
  | _ => none

/-! ## Values -/

/-- An open container; its items so far, last first. An object is sound while all of its keys
    can be read. -/
inductive Open where
  | array (items : List Json)
  | object (members : List (String × Json)) (key : String) (sound : Bool)

/-- What may come next. -/
inductive Expect where
  | value
  /-- The first item of an array, or its end. -/
  | item
  /-- The first key of an object, or its end. -/
  | member
  | key
  | colon
  | next
  | nothing

structure ParseState where
  expect : Expect
  stack : List Open
  depth : Nat
  result : Json

namespace ParseState

/-- A value is complete: it goes into the innermost open container. -/
def complete (stack : List Open) (depth : Nat) (j : Json) : ParseState :=
  match stack with
  | [] => ⟨.nothing, [], depth, j⟩
  | .array items :: outer => ⟨.next, .array (j :: items) :: outer, depth, .null⟩
  | .object members key sound :: outer => ⟨.next, .object ((key, j) :: members) "" sound :: outer, depth, .null⟩

def closeArray (limit : Nat) (s : ParseState) : Option ParseState :=
  match s.stack with
  | .array items :: outer =>
    some (complete outer (s.depth - 1) (if s.depth ≤ limit then .array items.reverse else .unreadable))
  | _ => none

def closeObject (limit : Nat) (s : ParseState) : Option ParseState :=
  match s.stack with
  | .object members _ sound :: outer =>
    some (complete outer (s.depth - 1) (if sound && s.depth ≤ limit then .object members.reverse else .unreadable))
  | _ => none

def openValue (s : ParseState) : Token → Option ParseState
  | .word value => some (complete s.stack s.depth value)
  | .string text => some (complete s.stack s.depth ((text.map Json.string).getD .unreadable))
  | .openArray => some ⟨.item, .array [] :: s.stack, s.depth + 1, .null⟩
  | .openObject => some ⟨.member, .object [] "" true :: s.stack, s.depth + 1, .null⟩
  | _ => none

def setKey (s : ParseState) (key : Option String) : Option ParseState :=
  match s.stack with
  | .object members _ sound :: outer =>
    some { s with expect := .colon, stack := .object members (key.getD "") (sound && key.isSome) :: outer }
  | _ => none

def step (limit : Nat) (s : ParseState) (t : Token) : Option ParseState :=
  match s.expect, t with
  | .value, t => s.openValue t
  | .item, .closeArray => s.closeArray limit
  | .item, t => s.openValue t
  | .member, .closeObject => s.closeObject limit
  | .member, .string key => s.setKey key
  | .key, .string key => s.setKey key
  | .colon, .colon => some { s with expect := .value }
  | .next, .closeArray => s.closeArray limit
  | .next, .closeObject => s.closeObject limit
  | .next, .comma =>
    match s.stack with
    | .array _ :: _ => some { s with expect := .value }
    | .object _ _ _ :: _ => some { s with expect := .key }
    | [] => none
  | _, _ => none

end ParseState

/-- The value a text describes, `none` when it is malformed. Containers are readable down to
    the given level. -/
def parse? (limit : Nat) (text : String) : Option Json := do
  let tokens ← tokens? text
  let s ← tokens.foldlM (ParseState.step limit) ⟨.value, [], 0, .null⟩
  match s.expect with
  | .nothing => some s.result
  | _ => none

/-- How deep the values of a file can be read. -/
def fileDepth : Nat := 127

def ofFile? (text : String) : Option Json := parse? fileDepth text

end Lowering.Json
