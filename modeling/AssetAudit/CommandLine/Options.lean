/-!
# Command line options

Options are written `--name`, or `-n` where an option has a short name, and short names may be
written together behind one hyphen.  The value of an option is the next argument, or is attached:
behind `=`, or directly behind a short name.  An argument that starts with a hyphen is no value, a
hyphen alone is one.  The argument `--` ends the options.

`Options.readAll` reads arguments up to the first one that is neither an option nor a value.
-/

namespace AssetAudit
namespace CommandLine

/-- Whether an option takes a value. -/
inductive Arity where
  | flag
  | value
  | optionalValue
  deriving DecidableEq, Repr

/-- An option that a command knows. -/
structure OptionSpec where
  name : String
  short : Option Char := none
  arity : Arity
  /-- May the option be given more than once? -/
  repeatable : Bool := false
  deriving DecidableEq, Repr

/-- Why arguments are refused. -/
inductive UsageError where
  | missingCommand
  | unknownCommand (name : String)
  | unexpectedArgument (argument : String)
  | unknownOption (argument : String)
  | missingValue (option : String)
  | unexpectedValue (option : String)
  | repeatedOption (option : String)
  | invalidNumber (option text : String)
  deriving DecidableEq, Repr

namespace UsageError

/-- What there is to tell the user. -/
def message : UsageError → String
  | .missingCommand => "a command is required: scan, init or patterns"
  | .unknownCommand name => "unknown command '" ++ name ++ "'"
  | .unexpectedArgument argument => "unexpected argument '" ++ argument ++ "'"
  | .unknownOption argument => "unknown option '" ++ argument ++ "'"
  | .missingValue option => "the option '--" ++ option ++ "' needs a value"
  | .unexpectedValue option => "the option '--" ++ option ++ "' takes no value"
  | .repeatedOption option => "the option '--" ++ option ++ "' cannot be used more than once"
  | .invalidNumber option text =>
      "'" ++ text ++ "' is no number for the option '--" ++ option ++ "'"

end UsageError

/-- An option that has been given, with its value. -/
structure GivenOption where
  name : String
  value : Option String
  deriving DecidableEq, Repr

namespace Options

/-- Can the argument be a value? -/
def isValue (argument : String) : Bool :=
  argument == "-" || argument.toList.head? != some '-'

/-- What is given when no value follows an option that waits for one. -/
def settle : Option OptionSpec → Except UsageError (List GivenOption)
  | none => .ok []
  | some spec =>
      if spec.arity = .optionalValue then .ok [⟨spec.name, none⟩]
      else .error (.missingValue spec.name)

/-- Reads a long option, without its two hyphens.  The result is what is given, and the option that
waits for a value. -/
def readLong (specs : List OptionSpec) (argument : List Char) :
    Except UsageError (List GivenOption × Option OptionSpec) :=
  let name := String.ofList (argument.takeWhile (· != '='))
  let attached := (argument.dropWhile (· != '=')).tail?.map String.ofList
  match specs.find? (·.name == name) with
  | none => .error (.unknownOption ("--" ++ String.ofList argument))
  | some spec =>
      match spec.arity, attached with
      | .flag, none => .ok ([⟨name, none⟩], none)
      | .flag, some _ => .error (.unexpectedValue name)
      | _, none => .ok ([], some spec)
      | _, some value => .ok ([⟨name, some value⟩], none)

/-- Reads short options, without their hyphen. -/
def readShort (specs : List OptionSpec) :
    List Char → Except UsageError (List GivenOption × Option OptionSpec)
  | [] => .ok ([], none)
  | c :: rest =>
      match specs.find? (·.short == some c) with
      | none => .error (.unknownOption ("-" ++ c.toString))
      | some spec =>
          if spec.arity = .flag then do
            let (given, pending) ← readShort specs rest
            return (⟨spec.name, none⟩ :: given, pending)
          else
            match rest with
            | [] => .ok ([], some spec)
            | '=' :: value => .ok ([⟨spec.name, some (String.ofList value)⟩], none)
            | value => .ok ([⟨spec.name, some (String.ofList value)⟩], none)

/-- Reads an argument that starts with a hyphen. -/
def readOne (specs : List OptionSpec) (argument : String) :
    Except UsageError (List GivenOption × Option OptionSpec) :=
  match argument.toList with
  | '-' :: '-' :: long => readLong specs long
  | _ :: short => readShort specs short
  | [] => .ok ([], none)

/-- Reads arguments; `pending` is an option that waits for its value.  The result is what is given,
and the arguments from the first one that belongs to no option. -/
def readFrom (specs : List OptionSpec) (pending : Option OptionSpec) :
    List String → Except UsageError (List GivenOption × List String)
  | [] => do return (← settle pending, [])
  | argument :: rest =>
      if argument = "--" then do
        let given ← settle pending
        match rest with
        | [] => return (given, [])
        | next :: _ => throw (.unexpectedArgument next)
      else if isValue argument then
        match pending with
        | none => .ok ([], argument :: rest)
        | some spec => do
            let (given, remaining) ← readFrom specs none rest
            return (⟨spec.name, some argument⟩ :: given, remaining)
      else do
        let before ← settle pending
        let (here, next) ← readOne specs argument
        let (given, remaining) ← readFrom specs next rest
        return (before ++ here ++ given, remaining)

/-- Refuses options that are given more often than they may be. -/
def checkRepetition (specs : List OptionSpec) (given : List GivenOption) :
    Except UsageError Unit :=
  match specs.find? fun spec => !spec.repeatable && 1 < given.countP (·.name == spec.name) with
  | none => .ok ()
  | some spec => .error (.repeatedOption spec.name)

/-- Reads arguments up to the first one that belongs to no option. -/
def readAll (specs : List OptionSpec) (arguments : List String) :
    Except UsageError (List GivenOption × List String) := do
  let (given, remaining) ← readFrom specs none arguments
  checkRepetition specs given
  return (given, remaining)

/-- Is an option given? -/
def isGiven (given : List GivenOption) (name : String) : Bool :=
  given.any (·.name == name)

/-- The values that are given for an option, in order. -/
def valuesOf (given : List GivenOption) (name : String) : List String :=
  (given.filter (·.name == name)).filterMap GivenOption.value

end Options

end CommandLine
end AssetAudit
