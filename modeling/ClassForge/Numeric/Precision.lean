namespace ClassForge

open Float.Model

def nearest (format : Format) : UnpackedFloat → UnpackedFloat
  | .finite sign mantissa exponent _ => .round format sign mantissa exponent
  | other => other

def widen (bits : UInt32) : UInt64 :=
  ⟨(nearest .binary64 (.unpack .binary32 bits.toBitVec)).pack .binary64⟩

def narrow (bits : UInt64) : UInt32 :=
  ⟨(nearest .binary32 (.unpack .binary64 bits.toBitVec)).pack .binary32⟩

end ClassForge
