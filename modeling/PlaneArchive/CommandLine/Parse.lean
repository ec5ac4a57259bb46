import PlaneArchive.CommandLine.Command

/-! # Reading the command line

Arguments are read from left to right. Values wait until the next option, the next path of another
kind or the end before they are looked at, so a mistake in a value is reported only if no mistake
in the form of an argument comes before that point.
-/
namespace PlaneArchive.CommandLine

/-- What waiting values belong to. -/
inductive Slot where
  | option (opt : Opt)
  | archive
  | inputs
  deriving DecidableEq, Repr

/-- How far the arguments of `add` have been read. -/
structure Progress where
  command : AddCommand := { archive := [], inputs := [] }
  seen : List Opt := []
  archiveSeen : Bool := false
  inputsSeen : Bool := false
  /-- Values that have not been looked at. -/
  waiting? : Option (Slot × List Bytes) := none
  /-- Is the next argument the value of the waiting option? -/
  wantsValue : Bool := false
  onlyPaths : Bool := false
  deriving Repr

namespace Progress

def setOption (progress : Progress) (opt : Opt) (value : Bytes) : Except UsageFault Progress :=
  if progress.seen.contains opt then .error .argumentConflict
  else
    match Utf8.decode? value with
    | none => .error .invalidUtf8
    | some text =>
      match progress.command.set? opt text with
      | none => .error .valueValidation
      | some command => .ok { progress with command, seen := opt :: progress.seen }

def settle (progress : Progress) : Except UsageFault Progress :=
  let settled := { progress with waiting? := none, wantsValue := false }
  match progress.waiting? with
  | none => .ok settled
  | some (.option opt, [value]) => settled.setOption opt value
  | some (.option _, _) => .error .invalidValue
  | some (.archive, paths) =>
    if paths.contains [] then .error .invalidValue
    else
      let command := { settled.command with archive := paths.headD [] }
      .ok { settled with command, archiveSeen := true }
  | some (.inputs, paths) =>
    if paths.contains [] then .error .invalidValue
    else
      let command := { settled.command with inputs := settled.command.inputs ++ paths }
      .ok { settled with command, inputsSeen := true }

def takeFlag (progress : Progress) (opt : Opt) : Except UsageFault Progress := do
  let progress ← progress.settle
  if opt = .help then throw .displayHelp
  if progress.seen.contains opt then throw .argumentConflict
  return { progress with command := progress.command.raise opt, seen := opt :: progress.seen }

/-- Takes an option with its value, or lets it wait for the next argument. -/
def takeOption (progress : Progress) (opt : Opt) (value? : Option Bytes) :
    Except UsageFault Progress := do
  let progress ← progress.settle
  match value? with
  | some value => progress.setOption opt value
  | none => return { progress with waiting? := some (.option opt, []), wantsValue := true }

def takeLong (progress : Progress) (name : Bytes) (value? : Option Bytes) :
    Except UsageFault Progress :=
  match Opt.ofLong? name with
  | none => .error .unknownArgument
  | some opt =>
    if opt.takesValue then progress.takeOption opt value?
    else if value?.isSome then .error .tooManyValues
    else progress.takeFlag opt

/-- Takes letters after a hyphen. What follows the letter of an option with a value is the value,
without an equals sign at its front. -/
def takeShort (progress : Progress) : (letters : Bytes) → Except UsageFault Progress
  | [] => .ok progress
  | letter :: letters =>
    match Opt.ofShort? letter with
    | none => .error .unknownArgument
    | some opt =>
      if opt.takesValue then
        match letters with
        | [] => progress.takeOption opt none
        | first :: rest =>
          progress.takeOption opt (some (if first = equalsSign then rest else letters))
      else
        match progress.takeFlag opt with
        | .error fault => .error fault
        | .ok progress => progress.takeShort letters

def takePath (progress : Progress) (path : Bytes) : Except UsageFault Progress :=
  match progress.waiting? with
  | some (.inputs, paths) =>
    .ok { progress with waiting? := some (.inputs, paths ++ [path]) }
  | _ => do
    let progress ← progress.settle
    let slot := if progress.archiveSeen then Slot.inputs else Slot.archive
    return { progress with waiting? := some (slot, [path]) }

/-- Takes a word that is not an option: the value that is wanted, or else a path. -/
def takeWord (progress : Progress) (word : Bytes) : Except UsageFault Progress :=
  match progress.waiting? with
  | some (.option opt, []) =>
    if progress.wantsValue then
      .ok { progress with waiting? := some (.option opt, [word]), wantsValue := false }
    else progress.takePath word
  | _ => progress.takePath word

def takeArgument (progress : Progress) (argument : Bytes) : Except UsageFault Progress :=
  if progress.onlyPaths then progress.takePath argument
  else
    match Shape.ofArgument argument with
    | .endOfOptions => .ok { progress with onlyPaths := true }
    | .long name value? => progress.takeLong name value?
    | .short letters => progress.takeShort letters
    | .word word => progress.takeWord word

def finish (progress : Progress) : Except UsageFault AddCommand := do
  let progress ← progress.settle
  if progress.archiveSeen ∧ progress.inputsSeen then return progress.command
  else throw .missingRequiredArgument

end Progress

def parseAdd (arguments : List Bytes) : Except UsageFault AddCommand := do
  let progress ← arguments.foldlM Progress.takeArgument {}
  progress.finish

/-- Is the word a name of the command that adds? -/
def isAddName (word : Bytes) : Bool := word == Utf8.encode "add" || word == Utf8.encode "a"

def isHelpName (word : Bytes) : Bool := word == Utf8.encode "help"

/-- Reads the arguments after `help`: nothing, or one subcommand. -/
def parseHelp : (arguments : List Bytes) → UsageFault
  | [] => .displayHelp
  | [name] => if isAddName name || isHelpName name then .displayHelp else .invalidSubcommand
  | _ => .invalidSubcommand

def parseTopOption (name : Bytes) (value? : Option Bytes) : UsageFault :=
  let help := name == Utf8.encode "help"
  let version := name == Utf8.encode "version"
  if !(help || version) then .unknownArgument
  else if value?.isSome then .tooManyValues
  else if help then .displayHelp
  else .displayVersion

/-- Reads letters before the subcommand; the first one decides. -/
def parseTopLetters (letters : Bytes) : UsageFault :=
  if letters.head? = some 'h'.toUInt8 then .displayHelp
  else if letters.head? = some 'V'.toUInt8 then .displayVersion
  else .unknownArgument

/-- Reads a command line, without the name of the program. -/
def parse (arguments : List Bytes) : Except UsageFault AddCommand :=
  match arguments with
  | [] => .error .displayHelpOnMissingArgumentOrSubcommand
  | first :: rest =>
    match Shape.ofArgument first with
    | .endOfOptions =>
      match rest with
      | [] => .error .displayHelpOnMissingArgumentOrSubcommand
      | word :: _ =>
        .error (if isAddName word || isHelpName word then .unknownArgument else .invalidSubcommand)
    | .long name value? => .error (parseTopOption name value?)
    | .short letters => .error (parseTopLetters letters)
    | .word word =>
      if isAddName word then parseAdd rest
      else if isHelpName word then .error (parseHelp rest)
      else .error .invalidSubcommand

end PlaneArchive.CommandLine
