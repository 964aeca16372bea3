import ClassForge.Json.Number

namespace ClassForge

inductive JsonToken where
  | openObject | closeObject | openArray | closeArray | comma | colon
  | string (value : String)
  /-- A string with a surrogate that is not part of a pair. -/
  | unpaired
  | literal (value : Json)
  | number (numeral : Numeral)

/-- The parts of a text that are wanted. -/
inductive JsonShape where
  | skipped
  | whole
  /-- An object of which only some fields are wanted. -/
  | fields (known : List (String × JsonShape))
  | items (each : JsonShape)
  | values (each : JsonShape)

namespace JsonShape

def isSkipped : JsonShape → Bool
  | .skipped => true
  | _ => false

def field (shape : JsonShape) (key : String) : JsonShape :=
  match shape with
  | .skipped => .skipped
  | .fields known => (known.lookup key).getD .skipped
  | .values each => each
  | .whole | .items _ => .whole

def item : JsonShape → JsonShape
  | .skipped => .skipped
  | .items each => each
  | .whole | .fields _ | .values _ => .whole

end JsonShape

namespace JsonLexer

/-- What the characters read last belong to; characters of strings and words are kept last
first. -/
inductive Mode where
  | between
  | word (taken : List Char)
  | text (taken : List Char)
  | escape (taken : List Char)
  /-- Inside the four digits of a code unit, after a leading surrogate if `high` is given. -/
  | unit (taken : List Char) (high : Option Nat) (left value : Nat)
  /-- After a leading surrogate, where a backslash should follow. -/
  | awaitBackslash (taken : List Char) (high : Nat)
  /-- After a leading surrogate and a backslash, where `u` should follow. -/
  | awaitUnit (taken : List Char) (high : Nat)

/-- Tokens read so far, last first, and the mode. -/
structure State where
  tokens : List JsonToken
  mode : Mode
  /-- All surrogates of the string that is being read are paired. -/
  paired : Bool

def isBlank (c : Char) : Bool := c == ' ' || c == '\n' || c == '\t' || c == '\r'

def punctuation? : Char → Option JsonToken
  | '{' => some .openObject
  | '}' => some .closeObject
  | '[' => some .openArray
  | ']' => some .closeArray
  | ',' => some .comma
  | ':' => some .colon
  | _ => none

def word? (chars : List Char) : Option JsonToken :=
  if chars = "null".toList then some (.literal .null)
  else if chars = "true".toList then some (.literal (.bool true))
  else if chars = "false".toList then some (.literal (.bool false))
  else (Numeral.parse? chars).map .number

def hexDigit? (c : Char) : Option Nat :=
  if '0' ≤ c && c ≤ '9' then some (c.toNat - '0'.toNat)
  else if 'a' ≤ c && c ≤ 'f' then some (c.toNat - 'a'.toNat + 10)
  else if 'A' ≤ c && c ≤ 'F' then some (c.toNat - 'A'.toNat + 10)
  else none

def escaped? : Char → Option Char
  | '"' => some '"'
  | '\\' => some '\\'
  | '/' => some '/'
  | 'b' => some '\x08'
  | 'f' => some '\x0c'
  | 'n' => some '\n'
  | 'r' => some '\r'
  | 't' => some '\t'
  | _ => none

def stepBetween (tokens : List JsonToken) (c : Char) : State :=
  if isBlank c then ⟨tokens, .between, true⟩
  else if c == '"' then ⟨tokens, .text [], true⟩
  else
    match punctuation? c with
    | some token => ⟨token :: tokens, .between, true⟩
    | none => ⟨tokens, .word [c], true⟩

def stepText (s : State) (taken : List Char) (c : Char) : Option State :=
  if c == '"' then
    let token := if s.paired then .string (String.ofList taken.reverse) else .unpaired
    some ⟨token :: s.tokens, .between, true⟩
  else if c == '\\' then some { s with mode := .escape taken }
  else if c.toNat < 0x20 then none
  else some { s with mode := .text (c :: taken) }

def stepEscape (s : State) (taken : List Char) (c : Char) : Option State :=
  if c == 'u' then some { s with mode := .unit taken none 4 0 }
  else (escaped? c).map fun plain => { s with mode := .text (plain :: taken) }

def stepUnit (s : State) (taken : List Char) (high : Option Nat) (value : Nat) : State :=
  let leading := 0xD800 ≤ value && value < 0xDC00
  let trailing := 0xDC00 ≤ value && value < 0xE000
  match high with
  | some first =>
    if trailing then
      let code := 0x10000 + (first - 0xD800) * 0x400 + (value - 0xDC00)
      { s with mode := .text (Char.ofNat code :: taken) }
    else { s with mode := .text taken, paired := false }
  | none =>
    if leading then { s with mode := .awaitBackslash taken value }
    else if trailing then { s with mode := .text taken, paired := false }
    else { s with mode := .text (Char.ofNat value :: taken) }

def step (s : State) (c : Char) : Option State :=
  match s.mode with
  | .between => some (stepBetween s.tokens c)
  | .word taken =>
    if isBlank c || c == '"' || (punctuation? c).isSome then
      (word? taken.reverse).map fun token => stepBetween (token :: s.tokens) c
    else some { s with mode := .word (c :: taken) }
  | .text taken => stepText s taken c
  | .escape taken => stepEscape s taken c
  | .unit taken high left value =>
    match hexDigit? c with
    | none => none
    | some d =>
      if left ≤ 1 then some (stepUnit s taken high (value * 16 + d))
      else some { s with mode := .unit taken high (left - 1) (value * 16 + d) }
  | .awaitBackslash taken high =>
    if c == '\\' then some { s with mode := .awaitUnit taken high }
    else stepText { s with paired := false } taken c
  | .awaitUnit taken high =>
    if c == 'u' then some { s with mode := .unit taken (some high) 4 0 }
    else stepEscape { s with paired := false } taken c

def tokens? (text : String) : Option (List JsonToken) := do
  let last ← text.toList.foldlM step ⟨[], .between, true⟩
  match last.mode with
  | .between => some last.tokens.reverse
  | .word taken => (word? taken.reverse).map fun token => (token :: last.tokens).reverse
  | _ => none

end JsonLexer

namespace JsonAssembler

/-- An array or object that is still open, with its parts last first. -/
inductive Opened where
  | array (shape : JsonShape) (items : List Json)
  | object (shape : JsonShape) (fields : List (String × Json)) (key : String)

inductive Expected where
  | value
  /-- Right after `[`. -/
  | valueOrClose
  /-- Right after `{`. -/
  | keyOrClose
  | key
  | colon (key : String)
  | commaOrClose
  | nothing (result : Json)

structure State where
  opened : List Opened
  depth : Nat
  expected : Expected
  /-- What is wanted of the value that comes next, or of the object whose key comes next. -/
  shape : JsonShape
  /-- Fields of the innermost object, kept while its next key is awaited. -/
  fields : List (String × Json)

def finish (opened : List Opened) (depth : Nat) (value : Json) : State :=
  match opened with
  | [] => ⟨[], depth, .nothing value, .whole, []⟩
  | .array shape items :: outer =>
    ⟨.array shape (value :: items) :: outer, depth, .commaOrClose, .whole, []⟩
  | .object shape fields key :: outer =>
    ⟨.object shape ((key, value) :: fields) key :: outer, depth, .commaOrClose, .whole, []⟩

def value? (shape : JsonShape) : JsonToken → Option Json
  | .literal value => some value
  | .string text => some (.string text)
  | .number numeral => if shape.isSkipped then some .null else numeral.number?.map .number
  | .unpaired => if shape.isSkipped then some .null else none
  | _ => none

def key? (shape : JsonShape) : JsonToken → Option String
  | .string key => some key
  | .unpaired => if shape.isSkipped then some "" else none
  | _ => none

def stepValue (limit : Nat) (s : State) (token : JsonToken) : Option State :=
  let hasRoom := s.shape.isSkipped || s.depth < limit
  match token with
  | .openArray =>
    if hasRoom then
      some ⟨.array s.shape [] :: s.opened, s.depth + 1, .valueOrClose, s.shape.item, []⟩
    else none
  | .openObject =>
    if hasRoom then some ⟨s.opened, s.depth + 1, .keyOrClose, s.shape, []⟩ else none
  | token => (value? s.shape token).map (finish s.opened s.depth)

def step (limit : Nat) (s : State) (token : JsonToken) : Option State :=
  match s.expected, token with
  | .valueOrClose, .closeArray =>
    match s.opened with
    | .array _ _ :: outer => some (finish outer (s.depth - 1) (.array []))
    | _ => none
  | .value, token | .valueOrClose, token => stepValue limit s token
  | .keyOrClose, .closeObject => some (finish s.opened (s.depth - 1) (.object []))
  | .keyOrClose, token | .key, token =>
    (key? s.shape token).map fun key => { s with expected := .colon key }
  | .colon key, .colon =>
    some ⟨.object s.shape s.fields key :: s.opened, s.depth, .value, s.shape.field key, []⟩
  | .commaOrClose, .comma =>
    match s.opened with
    | .array shape _ :: _ => some { s with expected := .value, shape := shape.item }
    | .object shape fields _ :: outer => some ⟨outer, s.depth, .key, shape, fields⟩
    | [] => none
  | .commaOrClose, .closeArray =>
    match s.opened with
    | .array _ items :: outer => some (finish outer (s.depth - 1) (.array items.reverse))
    | _ => none
  | .commaOrClose, .closeObject =>
    match s.opened with
    | .object _ fields _ :: outer => some (finish outer (s.depth - 1) (.object fields.reverse))
    | _ => none
  | _, _ => none

end JsonAssembler

def Json.parse? (limit : Nat) (shape : JsonShape) (text : String) : Option Json := do
  let tokens ← JsonLexer.tokens? text
  let last ← tokens.foldlM (JsonAssembler.step limit) ⟨[], 0, .value, shape, []⟩
  match last.expected with
  | .nothing result => some result
  | _ => none

end ClassForge
