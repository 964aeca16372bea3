import ClassForge.Descriptor

namespace ClassForge

structure FieldRef where
  owner : BinaryName
  name : UnqualifiedName
  descriptor : FieldType
  isStatic : Bool
  deriving DecidableEq, Hashable, Repr

structure MethodRef where
  owner : BinaryName
  name : UnqualifiedName
  descriptor : MethodDescriptor
  isStatic : Bool
  ownerIsInterface : Bool
  isPrivate : Bool
  deriving DecidableEq, Hashable, Repr

namespace FieldRef

def describe (field : FieldRef) : String :=
  s!"FieldRef \x7b owner: {field.owner}, name: {field.name}, descriptor: {field.descriptor.describe}, is_static: {field.isStatic} \x7d"

end FieldRef

namespace MethodRef

def instanceMethod (owner : BinaryName) (name : UnqualifiedName)
    (descriptor : MethodDescriptor) : MethodRef :=
  ⟨owner, name, descriptor, false, false, false⟩

def constructor (owner : BinaryName) (parameters : List FieldType) : MethodRef :=
  instanceMethod owner .init ⟨parameters, none⟩

def isConstructor (method : MethodRef) : Bool := method.name == .init

def describe (method : MethodRef) : String :=
  s!"MethodRef \x7b owner: {method.owner}, name: {method.name}, descriptor: {method.descriptor.describe}, is_static: {method.isStatic}, owner_is_interface: {method.ownerIsInterface}, is_private: {method.isPrivate} \x7d"

end MethodRef

end ClassForge
