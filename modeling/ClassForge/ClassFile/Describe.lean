import ClassForge.ClassFile.Constant
import ClassForge.Text.Decimal
import ClassForge.Text.Quoted

namespace ClassForge

namespace Constant

def describeIndex (kind : String) (index : UInt16) : String :=
  s!"{kind}ConstantIndex(ConstantIndex({index}))"

def describe : Constant → String
  | .utf8 text => s!"Utf8({quoted text})"
  | .integer value => s!"Integer({value.toInt})"
  | .float bits => s!"Float({listSingle bits})"
  | .long value => s!"Long({value.toInt})"
  | .double bits => s!"Double({listDouble bits})"
  | .classRef name =>
    let name := describeIndex "Utf8" name
    s!"Class({name})"
  | .string text =>
    let text := describeIndex "Utf8" text
    s!"String({text})"
  | .fieldRef owner member =>
    let owner := describeIndex "Class" owner
    let member := describeIndex "NameAndType" member
    s!"FieldRef({owner}, {member})"
  | .methodRef owner member ownerIsInterface =>
    let owner := describeIndex "Class" owner
    let member := describeIndex "NameAndType" member
    s!"MethodRef \x7b class: {owner}, name_and_type: {member}, is_interface: {ownerIsInterface} \x7d"
  | .nameAndType name descriptor =>
    let name := describeIndex "Utf8" name
    let descriptor := describeIndex "Utf8" descriptor
    s!"NameAndType \x7b name: {name}, descriptor: {descriptor} \x7d"

end Constant

end ClassForge
