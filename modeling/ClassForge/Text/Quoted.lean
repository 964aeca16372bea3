import ClassForge.Text.Printable

namespace ClassForge

namespace Quoted

def escape (out : String) (c : Char) : String :=
  match c with
  | '\x00' => out ++ "\\0"
  | '\t' => out ++ "\\t"
  | '\r' => out ++ "\\r"
  | '\n' => out ++ "\\n"
  | '"' => out ++ "\\\""
  | '\\' => out ++ "\\\\"
  | c =>
    if isPrintable c then out.push c
    else out ++ "\\u\x7b" ++ String.ofList (Nat.toDigits 16 c.toNat) ++ "\x7d"

end Quoted

def quoted (text : String) : String := (text.foldl Quoted.escape "\"").push '"'

end ClassForge
