import TablePack.Options

/-!
# The command line

Arguments are read in order. Options may stand between paths, a value may follow its option or be
joined to it by an equals sign, and two dashes end the options. No option may be given twice. What
the arguments leave open is taken from the environment, and then from the defaults.

`Request.ofArguments` reads arguments and environment.
-/

namespace TablePack

/-- What is wrong with the arguments or the environment. -/
inductive UsageError where
  | unknownOption (argument : String)
  | missingValue (option : String)
  | repeatedOption (option : String)
  | unexpectedValue (option : String)
  | invalidValue (option value : String)
  | missingPath
deriving Repr, DecidableEq

/-- The wording of the error. -/
def UsageError.message : UsageError → String
  | unknownOption argument => "unexpected argument '" ++ argument ++ "' found"
  | missingValue option => "a value is required for '" ++ option ++ "' but none was supplied"
  | repeatedOption option => "the argument '" ++ option ++ "' cannot be used multiple times"
  | unexpectedValue option => "unexpected value for '" ++ option ++ "' found; no more were expected"
  | invalidValue option value => "invalid value '" ++ value ++ "' for '" ++ option ++ "'"
  | missingPath => "the following required arguments were not provided: <PATH>..."

/-- What the user asks for. -/
inductive Request where
  | version
  | help
  | compact (paths : List String) (opts : Options) (dryRun : Bool)
deriving Repr, DecidableEq

namespace Request

/-- The arguments read so far. -/
structure Draft where
  classPath : Option String := none
  marker : Option Char := none
  noOffset : Option Bool := none
  dryRun : Bool := false
  /-- The paths, newest first. -/
  paths : List String := []
deriving Repr, DecidableEq

/-- What one argument leads to. -/
inductive Progress where
  /-- More arguments may follow. -/
  | next (draft : Draft)
  /-- An answer that needs no further arguments. -/
  | done (request : Request)
deriving Repr, DecidableEq

/-- The single character that a value spells. -/
def marker? (option value : String) : Except UsageError Char :=
  match value.toList with
  | [c] => .ok c
  | _ => .error (.invalidValue option value)

/-- The truth value that a value spells. -/
def flag? (option value : String) : Except UsageError Bool :=
  if value = "true" then .ok true
  else if value = "false" then .ok false
  else .error (.invalidValue option value)

/-- Adds a path. -/
def addPath (d : Draft) (path : String) : Except UsageError Draft :=
  if path.isEmpty then .error (.invalidValue "PATH" path)
  else .ok { d with paths := path :: d.paths }

/-- Whether an option takes a value. -/
def takesValue (option : String) : Bool := option == "--namespace" || option == "--prefix"

/-- Gives a value to an option that takes one. -/
def setValue (d : Draft) (option value : String) : Except UsageError Draft :=
  if option = "--namespace" then
    if d.classPath.isSome then .error (.repeatedOption option)
    else .ok { d with classPath := some value }
  else
    if d.marker.isSome then .error (.repeatedOption option)
    else (marker? option value).map fun c => { d with marker := some c }

/-- Sets an option that takes no value. -/
def setFlag (d : Draft) (option : String) : Except UsageError Progress :=
  if option = "--version" then .ok (.done .version)
  else if option = "--help" then .ok (.done .help)
  else if option = "--no-offset" then
    if d.noOffset.isSome then .error (.repeatedOption option)
    else .ok (.next { d with noOffset := some true })
  else if option = "--dry-run" then
    if d.dryRun then .error (.repeatedOption option) else .ok (.next { d with dryRun := true })
  else .error (.unknownOption option)

/-- The flags that exist. -/
def isFlag (option : String) : Bool :=
  option == "--version" || option == "--help" || option == "--no-offset" || option == "--dry-run"

/-- An argument of a single dash and letters. Only its first letter counts, since each letter that
exists ends the reading of arguments. -/
def shortFlags (argument : String) : Except UsageError Request :=
  match argument.toList with
  | _ :: 'V' :: _ => .ok .version
  | _ :: 'h' :: _ => .ok .help
  | _ => .error (.unknownOption argument)

/-- Whether an argument starts with a dash and is more than a dash. -/
def looksLikeOption (argument : String) : Bool :=
  argument.startsWith "-" && argument != "-"

/-- A long option before its equals sign, and the value after it, if there is one. -/
def splitValue (argument : String) : String × Option String :=
  let chars := argument.toList
  let option := chars.takeWhile (· != '=')
  match chars.drop option.length with
  | [] => (argument, none)
  | _ :: value => (String.ofList option, some (String.ofList value))

/-- Adds all paths of a list. -/
def addPaths (d : Draft) : List String → Except UsageError Draft
  | [] => .ok d
  | path :: paths =>
    match addPath d path with
    | .error e => .error e
    | .ok d' => addPaths d' paths

/-- Reads a long option that stands alone or has its value joined to it. -/
def readLong (d : Draft) (option : String) (value : Option String) : Except UsageError Progress :=
  match value with
  | some value =>
    if takesValue option then (setValue d option value).map .next
    else if isFlag option then .error (.unexpectedValue option)
    else .error (.unknownOption option)
  | none => setFlag d option

/-- Reads the arguments onto a draft. -/
def read (d : Draft) : List String → Except UsageError Progress
  | [] => .ok (.next d)
  | "--" :: paths => (addPaths d paths).map .next
  | argument :: rest =>
    if argument.startsWith "--" then
      match splitValue argument, rest with
      | (option, none), value :: after =>
        if takesValue option then
          if looksLikeOption value then .error (.missingValue option)
          else
            match setValue d option value with
            | .error e => .error e
            | .ok d' => read d' after
        else
          match readLong d option none with
          | .ok (.next d') => read d' (value :: after)
          | other => other
      | (option, none), [] =>
        if takesValue option then .error (.missingValue option) else readLong d option none
      | (option, some value), after =>
        match readLong d option (some value) with
        | .ok (.next d') => read d' after
        | other => other
    else if looksLikeOption argument then (shortFlags argument).map .done
    else
      match addPath d argument with
      | .error e => .error e
      | .ok d' => read d' rest

/-- Takes from the environment what the arguments leave open. -/
def complete (d : Draft) (env : String → Option String) : Except UsageError Draft := do
  let classPath := d.classPath <|> env "RAGEL_BITMAP_NAMESPACE"
  let marker ←
    match d.marker, env "RAGEL_BITMAP_PREFIX" with
    | none, some value => some <$> marker? "--prefix" value
    | given, _ => pure given
  let noOffset ←
    match d.noOffset, env "RAGEL_BITMAP_NO_OFFSET" with
    | none, some value => some <$> flag? "--no-offset" value
    | given, _ => pure given
  return { d with classPath, marker, noOffset }

/-- The options that a draft stands for. -/
def options (d : Draft) : Options :=
  let defaults : Options := {}
  ⟨(d.classPath.map String.toList).getD defaults.classPath, d.marker.getD defaults.marker,
    if d.noOffset = some true then false else defaults.flatOffsets⟩

/-- The request that the arguments and the environment make. -/
def ofArguments (args : List String) (env : String → Option String) :
    Except UsageError Request := do
  match ← read {} args with
  | .done request => return request
  | .next draft =>
    let d ← complete draft env
    if d.paths.isEmpty then throw .missingPath
    return .compact d.paths.reverse (options d) d.dryRun

end Request

end TablePack
