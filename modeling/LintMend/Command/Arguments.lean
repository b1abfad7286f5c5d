import LintMend.Text.Search

/-!
# Command-line arguments

The first argument names a command. After it come flags, options with a value, and at most as many
other arguments as the command takes. Two dashes alone end the flags and options.
-/

namespace LintMend

/-- Why arguments are not accepted. A request for help is no mistake, but nothing is run either. -/
inductive ArgumentError where
  | help
  | missingCommand
  | unknownCommand (name : String)
  | unknownOption (text : String)
  | unexpectedValue (option : String)
  | missingValue (option : String)
  | repeated (option : String)
  | unexpected (text : String)
  | emptyPath
deriving DecidableEq, Repr

namespace ArgumentError

/-- The exit code of a program that was called in this way. -/
def exitCode : ArgumentError → Nat
  | .help => 0
  | _ => 2

def message : ArgumentError → String
  | .help =>
    "usage: checkfix check [PATH] [--fix] [--mode MODE] [--format FORMAT] [--strict]" ++
      " | rules | config [--show] [--init]"
  | .missingCommand => "error: a command is needed: check, rules or config"
  | .unknownCommand name => s!"error: unrecognized command '{name}'"
  | .unknownOption text => s!"error: unexpected argument '{text}' found"
  | .unexpectedValue option => s!"error: '--{option}' takes no value"
  | .missingValue option => s!"error: a value is required for '--{option}'"
  | .repeated option => s!"error: '--{option}' cannot be used multiple times"
  | .unexpected text => s!"error: unexpected argument '{text}' found"
  | .emptyPath => "error: a value is required for the path"

end ArgumentError

/-- How an argument is written. -/
inductive Argument where
  | escape
  | long (name : String) (value : Option String)
  | short (letters : List Char)
  | plain (text : String)
deriving DecidableEq, Repr

namespace Argument

/-- An argument as it is written. One dash alone is no flag. -/
def ofText (s : String) : Argument :=
  match s.toList with
  | ['-', '-'] => .escape
  | '-' :: '-' :: cs =>
    let name := String.ofList (cs.takeWhile (· != '='))
    match cs.dropWhile (· != '=') with
    | [] => .long name none
    | _ :: value => .long name (some (String.ofList value))
  | '-' :: c :: cs => .short (c :: cs)
  | _ => .plain s

end Argument

/-- What a command takes: flags with their short forms, options that have a value, and how many
other arguments. -/
structure Usage where
  flags : List (String × Option Char) := []
  options : List String := []
  places : Nat := 0

/-- The arguments of a command. -/
structure Given where
  flags : List String := []
  options : List (String × String) := []
  plain : List String := []

namespace Usage

/-- Adds a flag, which may be given once. -/
def addFlag (g : Given) (name : String) : Except ArgumentError Given :=
  if g.flags.contains name then .error (.repeated name)
  else .ok { g with flags := g.flags ++ [name] }

/-- Adds an option, which may be given once. -/
def addOption (g : Given) (name value : String) : Except ArgumentError Given :=
  if g.options.any (·.1 == name) then .error (.repeated name)
  else .ok { g with options := g.options ++ [(name, value)] }

/-- Adds another argument. -/
def addPlain (u : Usage) (g : Given) (text : String) : Except ArgumentError Given :=
  if u.places ≤ g.plain.length then .error (.unexpected text)
  else if text == "" then .error .emptyPath
  else .ok { g with plain := g.plain ++ [text] }

/-- Adds flags in their short forms. -/
def addShort (u : Usage) (g : Given) : List Char → Except ArgumentError Given
  | [] => .ok g
  | c :: cs =>
    if c == 'h' then .error .help
    else
      match u.flags.find? (·.2 == some c) with
      | some (name, _) => do u.addShort (← addFlag g name) cs
      | none => .error (.unknownOption (String.ofList ['-', c]))

/-- Reads the arguments of a command; `escaped` says that two dashes were read. -/
def read (u : Usage) (escaped : Bool) (g : Given) : List String → Except ArgumentError Given
  | [] => .ok g
  | s :: rest =>
    if escaped then do u.read true (← u.addPlain g s) rest
    else
      match Argument.ofText s with
      | .escape => u.read true g rest
      | .plain text => do u.read false (← u.addPlain g text) rest
      | .short letters => do u.read false (← u.addShort g letters) rest
      | .long name (some value) =>
        if u.options.contains name then do u.read false (← addOption g name value) rest
        else if name == "help" || u.flags.any (·.1 == name) then .error (.unexpectedValue name)
        else .error (.unknownOption s)
      | .long name none =>
        if name == "help" then .error .help
        else if u.flags.any (·.1 == name) then do u.read false (← addFlag g name) rest
        else if u.options.contains name then
          match rest with
          | [] => .error (.missingValue name)
          | value :: rest =>
            match Argument.ofText value with
            | .plain value => do u.read false (← addOption g name value) rest
            | _ => .error (.missingValue name)
        else .error (.unknownOption s)

end Usage

/-- What is to be checked, and how. -/
structure CheckOptions where
  path : String := "."
  fix : Bool := false
  mode : Option String := none
  format : String := "default"
  strict : Bool := false
deriving DecidableEq, Repr

/-- What the program is asked to do. -/
inductive Command where
  | check (options : CheckOptions)
  | rules
  | config (display create : Bool)
deriving DecidableEq, Repr

namespace Command

def checkUsage : Usage where
  flags := [("fix", some 'f'), ("strict", none)]
  options := ["mode", "format"]
  places := 1

def configUsage : Usage where
  flags := [("show", none), ("init", none)]

/-- The options of a check. -/
def checkOptions (g : Given) : CheckOptions :=
  let option? (name : String) : Option String := (g.options.find? (·.1 == name)).map (·.2)
  { path := g.plain.headD "."
    fix := g.flags.contains "fix"
    mode := option? "mode"
    format := (option? "format").getD "default"
    strict := g.flags.contains "strict" }

/-- What follows a request for help: nothing, or a command. -/
def helpOn : List String → ArgumentError
  | [] => .help
  | name :: rest =>
    if !(["check", "rules", "config", "help"].contains name) then .unknownCommand name
    else
      match rest with
      | [] => .help
      | other :: _ => .unknownCommand other

/-- The command that arguments ask for. -/
def ofArguments : List String → Except ArgumentError Command
  | [] => .error .missingCommand
  | "check" :: rest => do return .check (checkOptions (← checkUsage.read false {} rest))
  | "rules" :: rest => do
    let _ ← Usage.read {} false {} rest
    return .rules
  | "config" :: rest => do
    let g ← configUsage.read false {} rest
    return .config (g.flags.contains "show") (g.flags.contains "init")
  | "help" :: rest => .error (helpOn rest)
  | s :: _ =>
    match Argument.ofText s with
    | .escape => .error .missingCommand
    | .plain text => .error (.unknownCommand text)
    | .short ('h' :: _) => .error .help
    | .long "help" none => .error .help
    | _ => .error (.unknownOption s)

end Command

end LintMend
