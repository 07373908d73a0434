import ExpandTree.Json.Printer
import ExpandTree.Request

/-!
The command line: one of three commands on a tree given as an argument or on standard input. Flags
may stand before or after the tree; after a double dash everything is taken as a value.
-/
namespace ExpandTree.CommandLine

inductive Command where
  | check
  | render
  | dump
  deriving DecidableEq

namespace Command

def all : List Command := [.check, .render, .dump]

def word : Command → String
  | .check => "check"
  | .render => "render"
  | .dump => "dump"

end Command

inductive Flag where
  | normalize
  | explicitAscending
  | pretty
  deriving DecidableEq

def Flag.long : Flag → String
  | .normalize => "--normalize"
  | .explicitAscending => "--explicit-asc"
  | .pretty => "--pretty"

def Flag.short? : Flag → Option Char
  | .pretty => some 'p'
  | _ => none

/-- The flags that a command knows. -/
def Command.flags : Command → List Flag
  | .check => [.normalize]
  | .render => [.normalize, .explicitAscending]
  | .dump => [.normalize, .pretty]

/-- Why arguments do not lead to a run of a command. -/
inductive Stop where
  | version
  | help
  | missingCommand
  | unknownCommand (word : String)
  | unknownFlag (argument : String)
  | repeatedFlag (flag : Flag)
  | extraValue (argument : String)
  deriving DecidableEq

structure Invocation where
  command : Command
  tree : Option String := none
  flags : List Flag := []
  verbosity : Nat := 0
  deriving DecidableEq

namespace Invocation

def raise (i : Invocation) (flag : Flag) : Except Stop Invocation :=
  if i.flags.contains flag then .error (.repeatedFlag flag)
  else .ok { i with flags := i.flags ++ [flag] }

def value (i : Invocation) (argument : String) : Except Stop Invocation :=
  match i.tree with
  | none => .ok { i with tree := some argument }
  | some _ => .error (.extraValue argument)

def letter (i : Invocation) (c : Char) : Except Stop Invocation :=
  if c = 'v' then .ok { i with verbosity := i.verbosity + 1 }
  else if c = 'h' then .error .help
  else match i.command.flags.find? (·.short? == some c) with
    | some flag => i.raise flag
    | none => .error (.unknownFlag (String.ofList ['-', c]))

/-- A single dash is a value; letters behind a dash are flags one by one. -/
def argument (i : Invocation) (arg : String) : Except Stop Invocation :=
  match arg.toList with
  | '-' :: '-' :: _ =>
      if arg = "--verbose" then .ok { i with verbosity := i.verbosity + 1 }
      else if arg = "--help" then .error .help
      else match i.command.flags.find? (·.long = arg) with
        | some flag => i.raise flag
        | none => .error (.unknownFlag arg)
  | '-' :: c :: letters => (c :: letters).foldlM letter i
  | _ => i.value arg

end Invocation

def commandArguments (i : Invocation) : List String → Except Stop Invocation
  | [] => .ok i
  | arg :: rest => do
      if arg = "--" then rest.foldlM Invocation.value i
      else commandArguments (← i.argument arg) rest

/-- A flag in front of the command raises the verbosity or ends the parse. -/
def leadingLetter (verbosity : Nat) (c : Char) : Except Stop Nat :=
  if c = 'v' then .ok (verbosity + 1)
  else if c = 'V' then .error .version
  else if c = 'h' then .error .help
  else .error (.unknownFlag (String.ofList ['-', c]))

/-- The command that tells about the program may name one command, itself included, and takes all
that follows it as names. -/
def helpStop : List String → Stop
  | [] => .help
  | word :: rest =>
      if word = "help" ∨ Command.all.any (·.word = word) then
        match rest with
        | [] => .help
        | extra :: _ => .unknownCommand extra
      else .unknownCommand word

def parseFrom (verbosity : Nat) : List String → Except Stop Invocation
  | [] => .error .missingCommand
  | arg :: rest =>
      match arg.toList with
      | '-' :: '-' :: _ =>
          if arg = "--verbose" then parseFrom (verbosity + 1) rest
          else if arg = "--version" then .error .version
          else if arg = "--help" then .error .help
          else .error (.unknownFlag arg)
      | '-' :: c :: letters => do parseFrom (← (c :: letters).foldlM leadingLetter verbosity) rest
      | _ =>
          match Command.all.find? (·.word = arg) with
          | some command => commandArguments { command, verbosity } rest
          | none => .error (if arg = "help" then helpStop rest else .unknownCommand arg)

def parse (args : List String) : Except Stop Invocation := parseFrom 0 args

/-- What a run leaves behind. -/
structure Outcome where
  code : Nat := 0
  stdout : String := ""
  stderr : String := ""
  deriving DecidableEq

def usage : String :=
  "Usage: odata-expand [-v]... <check|render|dump> [--normalize] [--explicit-asc] [--pretty] [TREE]\n"

def Stop.outcome : Stop → Outcome
  | .version => { stdout := "odata-expand 0.2.0\n" }
  | .help => { stdout := usage }
  | .missingCommand => { code := 2, stderr := usage }
  | .unknownCommand word =>
      { code := 2, stderr := "error: unrecognized subcommand '" ++ word ++ "'\n" ++ usage }
  | .unknownFlag arg =>
      { code := 2, stderr := "error: unexpected argument '" ++ arg ++ "' found\n" ++ usage }
  | .repeatedFlag flag =>
      { code := 2
        stderr :=
          "error: the argument '" ++ flag.long ++ "' cannot be used multiple times\n" ++ usage }
  | .extraValue arg =>
      { code := 2, stderr := "error: unexpected argument '" ++ arg ++ "' found\n" ++ usage }

namespace Invocation

def request (i : Invocation) (tree : String) : Request where
  tree := tree.toList
  normalize := i.flags.contains .normalize
  style := { explicitAscending := i.flags.contains .explicitAscending }

/-- The tree description: the argument, or else what standard input holds. -/
def input (i : Invocation) (stdin : ByteArray) : Except TreeError String :=
  match i.tree with
  | some tree => .ok tree
  | none =>
      match String.fromUTF8? stdin with
      | some tree => .ok tree
      | none => .error .notUtf8

def summaryLine (s : Summary) : String :=
  "Expand tree is valid (" ++ toString s.terms ++ " term(s), depth " ++ toString s.depth ++ ")"

def answer (i : Invocation) (r : Request) : Except TreeError String :=
  match i.command with
  | .check => r.check.map summaryLine
  | .render => r.render.map String.ofList
  | .dump =>
      let layout := if i.flags.contains .pretty then Json.Layout.indented else .compact
      r.dump.map fun v => String.ofList (v.text layout)

/-- The records that the verbosity asks for: none, those for debugging, or all. -/
def shownRecords (i : Invocation) (records : List Record) : List Record :=
  match i.verbosity with
  | 0 => []
  | 1 => records.filter (·.level = .debug)
  | _ => records

def outcome (i : Invocation) (stdin : ByteArray) : Outcome :=
  match i.input stdin with
  | .error e => { code := 1, stderr := e.message ++ "\n" }
  | .ok tree =>
      let r := i.request tree
      let log := String.join ((i.shownRecords r.records).map fun record =>
        String.ofList record.text ++ "\n")
      match i.answer r with
      | .ok text => { stdout := text ++ "\n", stderr := log }
      | .error e => { code := 1, stderr := log ++ e.message ++ "\n" }

end Invocation

/-- A whole run, given all of standard input. -/
def run (args : List String) (stdin : ByteArray) : Outcome :=
  match parse args with
  | .ok invocation => invocation.outcome stdin
  | .error stop => stop.outcome

end ExpandTree.CommandLine
