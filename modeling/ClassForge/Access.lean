namespace ClassForge

inductive Declared where
  | ofClass | ofMethod | ofField | ofInner
  deriving DecidableEq, Repr

def Declared.known : Declared → UInt16
  | .ofClass => 0xF631
  | .ofMethod => 0x1DFF
  | .ofField => 0x50DF
  | .ofInner => 0x761F

structure AccessFlags (kind : Declared) where
  bits : UInt16
  deriving DecidableEq, Repr

namespace AccessFlags

variable {kind : Declared}

def none : AccessFlags kind := ⟨0⟩

def ofBits? (kind : Declared) (bits : UInt16) : Option (AccessFlags kind) :=
  if bits &&& kind.known = bits then some ⟨bits⟩ else Option.none

def ofKnownBits (kind : Declared) (bits : UInt16) : AccessFlags kind := ⟨bits &&& kind.known⟩

def has (flags : AccessFlags kind) (mask : UInt16) : Bool := flags.bits &&& mask == mask

def without (flags : AccessFlags kind) (mask : UInt16) : AccessFlags kind :=
  ⟨flags.bits &&& ~~~mask⟩

def staticBit : UInt16 := 0x0008
def finalBit : UInt16 := 0x0010
def superBit : UInt16 := 0x0020
def interfaceBit : UInt16 := 0x0200

end AccessFlags

end ClassForge
