import TablePack.Command.Run

/-!
# The program

Reads the files that the arguments name, runs the command, and writes back what has changed.
-/

namespace TablePack

namespace Main

/-- The number of a system error, which is reported as it is or negated. -/
def errorNumber (code : UInt32) : UInt32 := min code (0 - code)

/-- Why the system could not read a file. -/
def readError : IO.Error → ReadError
  | .noFileOrDirectory .. => .notFound
  | .permissionDenied .. => .denied
  | .inappropriateType _ code _ =>
    if errorNumber code = 21 then .isDirectory else .notDirectory
  | .invalidArgument _ code details =>
    if errorNumber code = 36 then .nameTooLong else .other details
  | e => .other (toString e)

/-- The content of the file at a path. -/
def readContent (path : String) : IO Content := do
  try
    return .ok (← IO.FS.readBinFile path)
  catch e => return .error (readError e)

/-- The paths that a request reads. -/
def pathsOf : Except UsageError Request → List String
  | .ok (.compact paths _ _) => paths
  | _ => []

/-- The environment variables that the command looks at. -/
def settingNames : List String :=
  ["RAGEL_BITMAP_NAMESPACE", "RAGEL_BITMAP_PREFIX", "RAGEL_BITMAP_NO_OFFSET"]

end Main

end TablePack

open TablePack in
/-- The program. -/
def main (args : List String) : IO UInt32 := do
  let settings ← Main.settingNames.mapM fun name => return (name, ← IO.getEnv name)
  let env := fun name => (settings.lookup name).join
  let contents ← (Main.pathsOf (Request.ofArguments args env)).mapM fun path =>
    return (Path.ofString path, ← Main.readContent path)
  let outcome := Command.run Report.json args env fun path =>
    (contents.lookup path).getD (.error .notFound)
  for (path, text) in outcome.writes do
    IO.FS.writeBinFile path.display (File.encode text)
  IO.print outcome.output
  IO.eprint outcome.errors
  return outcome.code.toUInt32
