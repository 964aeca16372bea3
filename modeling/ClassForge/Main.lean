import ClassForge.Command.Run

namespace ClassForge

def FileError.ofError (e : IO.Error) : FileError :=
  match e with
  | .noFileOrDirectory .. => .notFound
  | .inappropriateType _ code _ =>
    if code == 20 then .notDirectory
    else if code == 21 then .isDirectory
    else .other e.toString
  | .illegalOperation code _ => if code == 21 then .isDirectory else .other e.toString
  | .alreadyExists .. => .exists
  | .invalidArgument _ code _ => if code == 36 then .nameTooLong else .other e.toString
  | _ => .other e.toString

def parentPath? (path : String) : Option String :=
  match (FileTree.steps path).dropLast with
  | [] => none
  | parents => some (String.intercalate "/" parents)

def systemFiles : FileAccess IO where
  read path := do
    try
      let bytes ← IO.FS.readBinFile path
      return .ok bytes.toList
    catch e => return .error (.ofError e)
  save path bytes := do
    try
      match parentPath? path with
      | some parent => IO.FS.createDirAll parent
      | none => pure ()
    catch e => return .error (.ofError e)
    try
      IO.FS.writeBinFile path (ByteArray.mk bytes.toArray)
      return .ok ()
    catch e =>
      try IO.FS.removeFile path catch _ => pure ()
      return .error (.ofError e)

end ClassForge

def main (args : List String) : IO UInt32 := do
  let outcome ← ClassForge.Command.run ClassForge.systemFiles args
  IO.print outcome.out
  IO.eprint outcome.err
  return outcome.exit
