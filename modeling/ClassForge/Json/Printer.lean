import ClassForge.Json
import ClassForge.Text.Decimal

namespace ClassForge

namespace JsonPrinter

def hexDigit (n : Nat) : Char := (Nat.toDigits 16 n).headD '0'

def escape (out : String) (c : Char) : String :=
  match c with
  | '"' => out ++ "\\\""
  | '\\' => out ++ "\\\\"
  | '\x08' => out ++ "\\b"
  | '\t' => out ++ "\\t"
  | '\n' => out ++ "\\n"
  | '\x0c' => out ++ "\\f"
  | '\r' => out ++ "\\r"
  | c =>
    if c.toNat < 0x20 then
      ((out ++ "\\u00").push (hexDigit (c.toNat / 16))).push (hexDigit (c.toNat % 16))
    else out.push c

def quote (out : String) (s : String) : String := (s.foldl escape (out.push '"')).push '"'

def number : JsonNumber → String
  | .integer n => toString n
  | .fraction x => (renderDouble? Decimal.jsonStyle x.toBits).getD "null"

mutual

def value (out : String) : Json → String
  | .null => out ++ "null"
  | .bool true => out ++ "true"
  | .bool false => out ++ "false"
  | .number n => out ++ number n
  | .string s => quote out s
  | .array list => (items (out.push '[') true list).push ']'
  | .object list => (fields (out.push '{') true list).push '}'

def items (out : String) (first : Bool) : List Json → String
  | [] => out
  | j :: rest => items (value (if first then out else out.push ',') j) false rest

def fields (out : String) (first : Bool) : List (String × Json) → String
  | [] => out
  | (key, j) :: rest =>
    fields (value ((quote (if first then out else out.push ',') key).push ':') j) false rest

end

end JsonPrinter

def Json.render (j : Json) : String := JsonPrinter.value "" j

end ClassForge
