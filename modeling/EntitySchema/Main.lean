import EntitySchema.CommandLine
/-!
  The validator on the files of the system.
-/

namespace EntitySchema

/-- A fault of the system, as the validator tells it. -/
def FileError.ofSystem : IO.Error → FileError
  | .noFileOrDirectory .. => .notFound
  | .inappropriateType _ 20 _ => .notDirectory
  | .inappropriateType .. => .isDirectory
  | .invalidArgument _ 36 _ => .nameTooLong
  | e => .other (toString e)

/-- The files of the system. -/
instance : FileStore IO where
  read path := do
    try return .ok (← IO.FS.readBinFile path)
    catch e => return .error (.ofSystem e)
  write path bytes := do
    try
      IO.FS.writeBinFile path bytes
      return .ok ()
    catch e => return .error (.ofSystem e)

end EntitySchema

/-- The validator, called with the arguments after its name. -/
def main (arguments : List String) : IO UInt32 := do
  let terminal ← (← IO.getStderr).isTty
  let run : EntitySchema.ProgramRun ← EntitySchema.CommandLine.run arguments terminal
  IO.print run.stdout
  IO.eprint run.stderr
  return run.code.toUInt32
