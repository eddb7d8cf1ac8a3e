import TablePack.Command
import TablePack.File
import TablePack.Report

/-!
# Running a command

The outcome of a command is its exit code, what it prints, and the texts that it writes. Files may
be processed in any order; what is printed follows the order of the arguments. The report of a dry
run is the work of a writer. When the writer fails, the command does so too, and prints no report.
-/

namespace TablePack

namespace Command

/-- What a command does. -/
structure Outcome where
  code : Nat
  output : String
  errors : String
  /-- The paths that are written, with their new texts. -/
  writes : List (Path × Text)
deriving DecidableEq

/-- The answer to a request for the version. -/
def version : String := "ragel-bitmap 0.1.0\n"

/-- How the command is used. -/
def usage : String :=
  "Usage: ragel-bitmap [OPTIONS] <PATH>...\n\n"
    ++ "Arguments:\n"
    ++ "  <PATH>...  Ruby files to compact in place\n\n"
    ++ "Options:\n"
    ++ "      --namespace <NAMESPACE>  Constant path of the packed classes\n"
    ++ "      --prefix <PREFIX>        First character of table field names\n"
    ++ "      --no-offset              Always use byte planes\n"
    ++ "      --dry-run                Print a JSON report instead of writing files\n"
    ++ "  -h, --help                   Print help\n"
    ++ "  -V, --version                Print version\n"

/-- The wording of a failure on a path. A read failure names its cause twice when the file was to
be written. -/
def failure (dryRun : Bool) (path : Path) : FileError → String
  | .unreadable reason =>
    if dryRun then "error: reading " ++ path.display ++ ": " ++ reason.message ++ "\n"
    else
      "error: rewriting " ++ path.display ++ ": io error on " ++ path.display ++ ": "
        ++ reason.message ++ ": " ++ reason.message ++ "\n"
  | .source e => "error: rewriting " ++ path.display ++ ": " ++ e.message ++ "\n"

/-- The files that were compacted, with their paths. -/
def successes (results : List File.Result) : List (Path × Compaction) :=
  results.filterMap fun r =>
    match r.outcome with
    | .ok c => some (r.path, c)
    | .error _ => none

/-- The wordings of all failures. -/
def failures (dryRun : Bool) (results : List File.Result) : List String :=
  results.filterMap fun r =>
    match r.outcome with
    | .ok _ => none
    | .error e => some (failure dryRun r.path e)

/-- The line on a file that was compacted. -/
def summary (path : Path) (c : Compaction) : String :=
  path.display ++ ": " ++ toString c.packed.length ++ " replaced, " ++ toString c.kept.length
    ++ " skipped\n"

/-- What is printed about the files that were compacted, or why it cannot be. -/
def report (write : Report.Writer) (dryRun : Bool) (done : List (Path × Compaction)) :
    Except String String :=
  if dryRun then (write (done.map fun file => .ofFile file.1 file.2)).map (· ++ "\n")
  else .ok (String.join (done.map fun file => summary file.1 file.2))

/-- The line on how many files failed, out of `total`. -/
def tally (failed total : Nat) : String :=
  "Error: " ++ toString failed ++ " of " ++ toString total ++ " files failed\n"

/-- The line on a report that cannot be written. -/
def unreported (reason : String) : String := "Error: " ++ reason ++ "\n"

/-- The results for the given paths, in their order. -/
def arrange (paths : List Path) (results : List File.Result) : List File.Result :=
  paths.filterMap fun path => results.find? fun r => r.path == path

/-- Compacts the files at some paths, processing them in the given order. -/
def compactIn (write : Report.Writer) (order paths : List Path) (opts : Options) (dryRun : Bool)
    (disk : Disk) : Outcome :=
  let processed := File.processAll opts dryRun disk order
  let results := arrange paths processed
  let failed := failures dryRun results
  let writes := processed.filterMap fun r => r.written.map fun t => (r.path, t)
  match report write dryRun (successes results) with
  | .error reason => ⟨1, "", String.join failed ++ unreported reason, writes⟩
  | .ok output =>
    if failed.isEmpty then ⟨0, output, "", writes⟩
    else ⟨1, output, String.join failed ++ tally failed.length paths.length, writes⟩

/-- Compacts the files at some paths. -/
def compact (write : Report.Writer) (paths : List Path) (opts : Options) (dryRun : Bool)
    (disk : Disk) : Outcome :=
  compactIn write paths paths opts dryRun disk

/-- Runs a command. -/
def run (write : Report.Writer) (args : List String) (env : String → Option String)
    (disk : Disk) : Outcome :=
  match Request.ofArguments args env with
  | .error e => ⟨2, "", "error: " ++ e.message ++ "\n\n" ++ usage, []⟩
  | .ok .version => ⟨0, version, "", []⟩
  | .ok .help => ⟨0, usage, "", []⟩
  | .ok (.compact paths opts dryRun) => compact write (paths.map .ofString) opts dryRun disk

end Command

end TablePack
