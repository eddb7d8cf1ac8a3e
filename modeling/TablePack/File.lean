import TablePack.Compaction
import TablePack.Path

/-!
# Files

Compacting a file in place. Reading may fail, and the content may be no text; otherwise the file is
written when its text changes.

* `Disk` is the content of every path;
* `File.process` compacts one file of a disk, and `File.processAll` one file after another.
-/

namespace TablePack

/-- Why a file cannot be read as text. -/
inductive ReadError where
  | notFound
  | notDirectory
  | isDirectory
  | nameTooLong
  | denied
  | notText
  /-- Any other reason, in the words of the system. -/
  | other (reason : String)
deriving Repr, DecidableEq

/-- The wording of the error. -/
def ReadError.message : ReadError → String
  | notFound => "No such file or directory (os error 2)"
  | notDirectory => "Not a directory (os error 20)"
  | isDirectory => "Is a directory (os error 21)"
  | nameTooLong => "File name too long (os error 36)"
  | denied => "Permission denied (os error 13)"
  | notText => "stream did not contain valid UTF-8"
  | other reason => reason

/-- What reading a path gives. -/
abbrev Content := Except ReadError ByteArray

/-- Why a file is not compacted. -/
inductive FileError where
  | unreadable (reason : ReadError)
  | source (error : Error)
deriving Repr, DecidableEq

namespace File

/-- The text in some bytes. -/
def decode (bytes : ByteArray) : Except ReadError Text :=
  match String.fromUTF8? bytes with
  | some s => .ok s.toList
  | none => .error .notText

/-- The bytes of a text. -/
def encode (t : Text) : ByteArray := (String.ofList t).toUTF8

/-- The text of a file. -/
def text (content : Content) : Except ReadError Text :=
  match content with
  | .error reason => .error reason
  | .ok bytes => decode bytes

/-- Compacts the text of a file. -/
def compaction (opts : Options) (content : Content) : Except FileError Compaction :=
  match text content with
  | .error reason => .error (.unreadable reason)
  | .ok source =>
    match Compaction.ofText opts source with
    | .error e => .error (.source e)
    | .ok c => .ok c

/-- The text to be written back, if it is another one. -/
def changed? (content : Content) (result : Except FileError Compaction) : Option Text :=
  match text content, result with
  | .ok source, .ok c => if c.source = source then none else some c.source
  | _, _ => none

end File

/-! ## Disks -/

/-- The content of every path. -/
abbrev Disk := Path → Content

/-- The disk after a text is written to a path. -/
def Disk.write (disk : Disk) (path : Path) (t : Text) : Disk :=
  fun other => if other = path then .ok (File.encode t) else disk other

namespace File

/-- What became of one file. -/
structure Result where
  path : Path
  outcome : Except FileError Compaction
  /-- The text that is written to the file, if any is. -/
  written : Option Text

/-- The disk after a file is processed. -/
def Result.apply (r : Result) (disk : Disk) : Disk :=
  match r.written with
  | some t => disk.write r.path t
  | none => disk

/-- Compacts the file at a path. A dry run writes nothing. -/
def process (opts : Options) (dryRun : Bool) (disk : Disk) (path : Path) : Result :=
  let outcome := compaction opts (disk path)
  ⟨path, outcome, if dryRun then none else changed? (disk path) outcome⟩

/-- Compacts the files at some paths, one after another. -/
def processAll (opts : Options) (dryRun : Bool) : Disk → List Path → List Result
  | _, [] => []
  | disk, path :: paths =>
    let r := process opts dryRun disk path
    r :: processAll opts dryRun (r.apply disk) paths

end File

end TablePack
