import EntitySchema.HostTypes
/-!
  The command line of the validator.

  An argument is a flag behind one hyphen or two.  A switch is on by itself and can be given a truth value
  behind an equals sign; a setting takes its value from behind an equals sign or else from the argument
  after it, whatever that is.  The last occurrence of a switch, of the protocol file and of the output
  file counts; types of the host add up.  A call for help counts as soon as it is met, before anything
  wrong in the arguments after it.
-/

namespace EntitySchema

/-- Flags that are on or off. -/
inductive Switch where
  | verbose
  | color
  | beautify
  | json
deriving DecidableEq, Repr

/-- Flags that take a value. -/
inductive Setting where
  | protocol
  | output
  | allow
  | allowField
deriving DecidableEq, Repr

/-- What an argument can be about. -/
inductive Flag where
  | help
  | switch (s : Switch)
  | setting (s : Setting)
deriving DecidableEq, Repr

/-- The flag with a name. -/
def Flag.ofName? (name : String) : Option Flag :=
  match name with
  | "help" | "h" => some .help
  | "verbose" => some (.switch .verbose)
  | "color" => some (.switch .color)
  | "beautify" => some (.switch .beautify)
  | "json" => some (.switch .json)
  | "protocol" => some (.setting .protocol)
  | "output" => some (.setting .output)
  | "allow" => some (.setting .allow)
  | "allow-field" => some (.setting .allowField)
  | _ => none

/-- What is wrong with a command line. -/
inductive OptionsError where
  | unknownFlag (name : String)
  | missingValue (name : String)
  | invalidSwitch (name value : String)
  | unexpectedArgument (argument : String)
  | emptyProtocol
deriving DecidableEq, Repr

/-- The fault in words. -/
def OptionsError.message : OptionsError → String
  | unknownFlag name => "flag provided but not defined: -" ++ name
  | missingValue name => "flag needs an argument: -" ++ name
  | invalidSwitch name value => "invalid boolean value \x22" ++ value ++ "\x22 for -" ++ name
  | unexpectedArgument argument => "unexpected argument: " ++ argument
  | emptyProtocol => "must specify a protocol file"

/-! ## Single arguments -/

/-- An argument behind its hyphens: a name, and a value behind an equals sign. -/
structure Argument where
  name : String
  value? : Option String
deriving DecidableEq, Repr

namespace Argument

/-- The characters behind one hyphen or two. -/
def body? : List Char → Option (List Char)
  | '-' :: '-' :: cs => some cs
  | '-' :: cs => some cs
  | _ => none

/-- A name, and what follows the first equals sign. -/
def split (cs : List Char) : Argument :=
  ⟨String.ofList (cs.takeWhile (· ≠ '=')),
    match cs.dropWhile (· ≠ '=') with
    | [] => none
    | _ :: value => some (String.ofList value)⟩

/-- An argument that starts with a hyphen. -/
def ofString? (argument : String) : Option Argument := (body? argument.toList).map split

/-- The truth value of a switch; one without a value is on. -/
def truth (a : Argument) : Except OptionsError Bool :=
  match a.value? with
  | none => .ok true
  | some value =>
    if value ∈ ["1", "t", "T", "true", "TRUE", "True"] then .ok true
    else if value ∈ ["0", "f", "F", "false", "FALSE", "False"] then .ok false
    else .error (.invalidSwitch a.name value)

end Argument

/-! ## Whole command lines -/

/-- What one run of the validator is to do. -/
structure Options where
  /-- The file that holds the description. -/
  protocol : String
  /-- The file for the canonical form, if it is another one. -/
  output? : Option String
  /-- A summary is printed. -/
  verbose : Bool
  /-- Colors are used whatever the output is. -/
  color : Bool
  /-- The canonical form is written. -/
  beautify : Bool
  /-- The protocol is printed as JSON. -/
  json : Bool
  /-- The types that the host provides for archetypes, as they were given. -/
  componentTypes : List String
  /-- The types that the host provides for fields, as they were given. -/
  fieldTypes : List String
deriving DecidableEq, Repr

/-- What a command line asks for. -/
inductive Invocation where
  | help
  | validate (options : Options)
deriving DecidableEq, Repr

namespace Options

/-- What holds before any argument. -/
def initial : Options := ⟨"protocol.txt", none, false, false, false, false, [], []⟩

/-- The types of the host if none are given. -/
def defaultComponentTypes : List String := ["WorldPosition"]

/-- The file that the canonical form is written to. -/
def outputPath (o : Options) : String := o.output?.getD o.protocol

/-- The types of the host. -/
def hostTypes (o : Options) : HostTypes :=
  (HostTypes.empty.withComponents o.componentTypes).withFields o.fieldTypes

/-- The options with a switch on or off. -/
def setSwitch (o : Options) (on : Bool) : Switch → Options
  | .verbose => { o with verbose := on }
  | .color => { o with color := on }
  | .beautify => { o with beautify := on }
  | .json => { o with json := on }

/-- The options with a value given.  An empty output file is none. -/
def set (o : Options) (value : String) : Setting → Options
  | .protocol => { o with protocol := value }
  | .output => { o with output? := if value.isEmpty then none else some value }
  | .allow => { o with componentTypes := o.componentTypes ++ [value] }
  | .allowField => { o with fieldTypes := o.fieldTypes ++ [value] }

/-- The options at the end of the command line. -/
def finish (o : Options) : Except OptionsError Invocation :=
  if o.protocol.isEmpty then .error .emptyProtocol
  else .ok (.validate
    { o with componentTypes :=
        if o.componentTypes.isEmpty then defaultComponentTypes else o.componentTypes })

/-- What the arguments ask for, after those that led to `o`. -/
def readFrom (o : Options) : List String → Except OptionsError Invocation
  | [] => o.finish
  | argument :: rest =>
    match Argument.ofString? argument with
    | none => .error (.unexpectedArgument argument)
    | some a =>
      match Flag.ofName? a.name with
      | none => .error (.unknownFlag a.name)
      | some .help => .ok .help
      | some (.switch s) =>
        match a.truth with
        | .error e => .error e
        | .ok on => (o.setSwitch on s).readFrom rest
      | some (.setting s) =>
        match a.value? with
        | some value => (o.set value s).readFrom rest
        -- The argument after it is a value even if it looks like a flag.
        | none =>
          match rest with
          | [] => .error (.missingValue a.name)
          | value :: rest => (o.set value s).readFrom rest

/-- What a command line asks for. -/
def read (arguments : List String) : Except OptionsError Invocation := initial.readFrom arguments

example : read ["-json", "--output=a=b"] = .ok (.validate
    ⟨"protocol.txt", some "a=b", false, false, false, true, ["WorldPosition"], []⟩) := rfl
example : read ["-allow"] = .error (.missingValue "allow") := rfl
example : read ["-fast", "-help"] = .error (.unknownFlag "fast") := rfl
example : read ["-help", "-fast"] = .ok .help := rfl

end Options

end EntitySchema
