import ClassForge.Assembly.Buffer
import ClassForge.ClassFile

namespace ClassForge

abbrev Build := EStateM Error Pool

namespace Build

def pool {α : Type} (action : PoolM α) : Build α := fun pool =>
  match action pool with
  | .ok a pool => .ok a pool
  | .error e pool => .error (.pool e) pool

def attributeOf (payload : Payload) : Build Attribute := do
  let name ← pool (Pool.utf8 payload.name)
  match payload.encode with
  | .ok info => return ⟨name, info⟩
  | .error cause => throw (.format cause)

def assemble {α : Type} (context : Context) (action : Asm α) : Build α := fun pool =>
  match action context (.empty pool) with
  | .ok a buffer => .ok a buffer.pool
  | .error e buffer => .error e buffer.pool

end Build

namespace Asm

def build {α : Type} (action : Build α) : Asm α := fun _ buffer =>
  match action buffer.pool with
  | .ok a pool => .ok a { buffer with pool }
  | .error e pool => .error e { buffer with pool }

end Asm

end ClassForge
