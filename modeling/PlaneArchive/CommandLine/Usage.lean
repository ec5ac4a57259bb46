import PlaneArchive.Text.Utf8

/-! # The command line as a language

One subcommand, `add` (or `a`), takes the archive, the inputs, and options in any order. This
module names the options, their spellings, and the ways in which a command line can be wrong.
-/
namespace PlaneArchive.CommandLine

/-- Why a command line is not carried out as a command. -/
inductive UsageFault where
  | missingRequiredArgument
  | unknownArgument
  | invalidSubcommand
  /-- A path that is empty, or an option without its value. -/
  | invalidValue
  /-- A value that is not a number of its type. -/
  | valueValidation
  | invalidUtf8
  | argumentConflict
  | tooManyValues
  | displayHelp
  | displayHelpOnMissingArgumentOrSubcommand
  | displayVersion
  deriving DecidableEq, Repr

def versionLine : String := "lc0ar 0.1.0\n"

inductive Opt where
  | structSize
  | append
  | plain
  | level
  | zstdThreads
  | blockSizeMib
  | scanWorkers
  | gunzipWorkers
  | transposeWorkers
  | tileSize
  | quiet
  | help
  deriving DecidableEq, Repr

namespace Opt

def all : List Opt :=
  [structSize, append, plain, level, zstdThreads, blockSizeMib, scanWorkers, gunzipWorkers,
    transposeWorkers, tileSize, quiet, help]

def long : Opt → String
  | structSize => "struct-size"
  | append => "append"
  | plain => "plain"
  | level => "level"
  | zstdThreads => "zstd-threads"
  | blockSizeMib => "block-size-mib"
  | scanWorkers => "scan-workers"
  | gunzipWorkers => "gunzip-workers"
  | transposeWorkers => "transpose-workers"
  | tileSize => "tile-size"
  | quiet => "quiet"
  | help => "help"

/-- The letter after one hyphen, for the few that have one. -/
def short? : Opt → Option Char
  | structSize => some 's'
  | quiet => some 'q'
  | help => some 'h'
  | _ => none

def takesValue : Opt → Bool
  | append | plain | quiet | help => false
  | _ => true

def ofLong? (name : Bytes) : Option Opt := all.find? fun opt => Utf8.encode opt.long == name

def ofShort? (letter : UInt8) : Option Opt :=
  all.find? fun opt => opt.short?.any fun char => char.toNat == letter.toNat

end Opt

inductive Shape where
  /-- Two hyphens: everything after them is a path. -/
  | endOfOptions
  /-- A long option, with the value that is attached by an equals sign. -/
  | long (name : Bytes) (value? : Option Bytes)
  /-- One or more letters after a hyphen, the last perhaps with its value. -/
  | short (letters : Bytes)
  | word (text : Bytes)
  deriving DecidableEq, Repr

def hyphen : UInt8 := '-'.toUInt8

def equalsSign : UInt8 := '='.toUInt8

def splitValue (text : Bytes) : Bytes × Option Bytes :=
  let name := text.takeWhile (· != equalsSign)
  match text.drop name.length with
  | _ :: value => (name, some value)
  | [] => (name, none)

def Shape.ofArgument (argument : Bytes) : Shape :=
  match argument with
  | [] => .word []
  | first :: rest =>
    if first ≠ hyphen ∨ rest.isEmpty then .word argument
    else if rest = [hyphen] then .endOfOptions
    else if rest.head? = some hyphen then
      let (name, value?) := splitValue rest.tail
      .long name value?
    else .short rest

end PlaneArchive.CommandLine
