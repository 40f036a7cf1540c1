/-
  MuxHoist.CommandLine

  The command line: what a list of arguments asks for, and the answer to it as
  an exit status and two texts. Files come in as an argument, so the answer is
  a function; so do the texts that are not the program's own (`Words`).
-/
import MuxHoist.Decision.Guarded
import MuxHoist.Hoist
import MuxHoist.Interchange.Decode
import MuxHoist.Interchange.Encode

namespace MuxHoist

namespace CommandLine

/-! ## Requests -/

/-- How a tree is printed. -/
inductive Format where
  | json | text
  deriving Repr, DecidableEq, Inhabited

/-- The format of an exact name. -/
def Format.ofName? : String → Option Format
  | "json" => some .json
  | "text" => some .text
  | _ => none

/-- What a command does with the tree in a file. -/
inductive Command where
  | hoist (format : Format)
  | leaves
  deriving Repr, DecidableEq, Inhabited

/-- The name that calls a command. -/
def Command.name : Command → String
  | .hoist _ => "reorder"
  | .leaves => "guarded-leaves"

/-- What a list of arguments asks for. -/
inductive Request where
  /-- A command on a file. -/
  | run (command : Command) (file : String)
  /-- The bare version number. -/
  | version
  /-- The program's name and version. -/
  | about
  | usage
  /-- Nothing was asked for. -/
  | idle
  /-- The arguments do not make sense. -/
  | refused
  deriving Repr, DecidableEq, Inhabited

/-! ## Arguments -/

/-- Tells whether a text starts with another. -/
def startsWith (word text : String) : Bool :=
  word.toList.isPrefixOf text.toList

/-- An argument that is neither a file nor a name: a minus and something more. -/
def isFlag (arg : String) : Bool := startsWith "-" arg && arg != "-"

/-- A flag for help: the long form, or letters that start with `h`. -/
def isHelp (arg : String) : Bool := arg = "--help" || startsWith "-h" arg

/-- The flag for the version: the long form, or letters that start with `V`. -/
def isAbout (arg : String) : Bool := arg = "--version" || startsWith "-V" arg

/-- What an argument says about the format, if it is the option for it. The
    value may be joined to the option, else it is the next argument. -/
inductive FormatFlag where
  | joined (value : String)
  | next
  deriving Repr, DecidableEq, Inhabited

/-- Recognises the option for the format. -/
def formatFlag? (arg : String) : Option FormatFlag :=
  if arg = "--format" then some .next
  else if startsWith "--format=" arg then
    some (.joined (String.ofList (arg.toList.drop 9)))
  else none

/-- What is known of a command while its arguments are read. -/
structure Draft where
  /-- Builds the command from the format; none if it has no format. -/
  command : Option Format → Command
  takesFormat : Bool
  format : Option Format
  file : Option String

namespace Draft

/-- Takes a file; there may be one only. -/
def withFile? (d : Draft) (file : String) : Option Draft :=
  if d.file.isSome then none else some { d with file := some file }

/-- Takes the name of a format; there may be one only. -/
def withFormat? (d : Draft) (name : String) : Option Draft :=
  if d.format.isSome then none
  else (Format.ofName? name).map fun format => { d with format := some format }

/-- The request, once all arguments are read: a file must be among them. -/
def finish (d : Draft) : Request :=
  match d.file with
  | some file => .run (d.command d.format) file
  | none => .refused

/-- Reads arguments that can only be files. -/
def files (d : Draft) : List String → Request
  | [] => d.finish
  | arg :: rest =>
    match d.withFile? arg with
    | some d => d.files rest
    | none => .refused

/-- Reads the arguments of a command. -/
def arguments (d : Draft) : List String → Request
  | [] => d.finish
  | arg :: rest =>
    -- Two minus signs end the options.
    if arg = "--" then d.files rest
    else if isHelp arg then .usage
    else if isFlag arg then
      match if d.takesFormat then formatFlag? arg else none with
      | some (.joined name) =>
        match d.withFormat? name with
        | some d => d.arguments rest
        | none => .refused
      | some .next =>
        match rest with
        | [] => .refused
        | name :: rest =>
          match d.withFormat? name with
          | some d => d.arguments rest
          | none => .refused
      | none => .refused
    else
      match d.withFile? arg with
      | some d => d.arguments rest
      | none => .refused

end Draft

/-- The command that prints the hoisted tree; the document form is the default. -/
def hoistDraft : Draft :=
  { command := fun format => .hoist (format.getD .json)
    takesFormat := true
    format := none
    file := none }

/-- The command that prints the guarded leaves. -/
def leavesDraft : Draft :=
  { command := fun _ => .leaves
    takesFormat := false
    format := none
    file := none }

/-- Reads the arguments after `version`: there are none. -/
def versionArguments : List String → Request
  | [] => .version
  | ["--"] => .version
  | arg :: _ => if isHelp arg then .usage else .refused

/-- Reads the arguments after `help`: at most the name of a command. -/
def helpArguments : List String → Request
  | [] => .usage
  | [name] =>
    if name ∈ ["version", "reorder", "guarded-leaves", "help"] then .usage else .refused
  | _ => .refused

/-- What the arguments ask for. -/
def Request.ofArguments : List String → Request
  | [] => .idle
  | ["--"] => .idle
  | "version" :: rest => versionArguments rest
  | "reorder" :: rest => hoistDraft.arguments rest
  | "guarded-leaves" :: rest => leavesDraft.arguments rest
  | "help" :: rest => helpArguments rest
  | arg :: _ =>
    if isAbout arg then .about
    else if isHelp arg then .usage
    else .refused

/-- The file that a request needs. -/
def Request.file? : Request → Option String
  | .run _ file => some file
  | _ => none

/-! ## Answers -/

/-- Why a file cannot be read: the system's description and number. -/
structure ReadFailure where
  description : String
  number : Nat
  deriving Repr, DecidableEq, Inhabited

/-- The failure of a number, in the system's words where they are known. -/
def ReadFailure.ofNumber (number : Nat) (details : String) : ReadFailure :=
  let description := match number with
    | 2 => "No such file or directory"
    | 13 => "Permission denied"
    | 20 => "Not a directory"
    | 21 => "Is a directory"
    | 36 => "File name too long"
    | 40 => "Too many levels of symbolic links"
    | _ => details
  ⟨description, number⟩

/-- The system's message. -/
def ReadFailure.text (f : ReadFailure) : String :=
  f.description ++ " (os error " ++ toString f.number ++ ")"

/-- An exit status and what is printed. -/
structure Outcome where
  status : Nat
  stdout : String
  stderr : String
  deriving Repr, DecidableEq, Inhabited

/-- The program's name. -/
def programName : String := "dataflow-reorder-driver"

/-- The program's version. -/
def programVersion : String := "0.1.0"

/-- The texts that libraries supply: what is printed to arguments that ask for
    help, what is said of arguments that do not make sense, and what is wrong
    with a document. -/
structure Words where
  help : List String → String
  complaint : List String → String
  diagnosis : Interchange.Diagnosis

/-- No such text at all. -/
def Words.silent : Words := ⟨fun _ => "", fun _ => "", .silent⟩

/-- The answer of a success. -/
def success (stdout : String) : Outcome := ⟨0, stdout, ""⟩

/-- The answer of a failure, on lines of its own. -/
def failure (lines : List String) : Outcome :=
  ⟨1, "", String.join (lines.map (· ++ "\n"))⟩

/-- A command's output for a hoisted tree. -/
def Command.output : Command → Option Expr → String
  | .hoist .json, tree => Interchange.write tree ++ "\n"
  | .hoist .text, tree => Expr.armText tree ++ "\n"
  | .leaves, tree =>
    String.join ((Expr.armLeaves tree).map fun l => l.text ++ "\n")

/-- Reads a text and hoists the tree in it. -/
def hoistText (d : Interchange.Diagnosis) (text : String) : Except TreeError (Option Expr) := do
  let tree ← Interchange.read d text
  Expr.hoist? tree

/-- The answer to a command on a text. -/
def Command.answer (c : Command) (d : Interchange.Diagnosis) (file text : String) : Outcome :=
  match hoistText d text with
  | .ok tree => success (c.output tree)
  | .error fault =>
    failure [programName ++ ": " ++ c.name ++ ": " ++ fault.display, "  input: " ++ file]

/-- The answer to a command on a file that cannot be read. -/
def Command.unread (c : Command) (file reason : String) : Outcome :=
  failure [programName ++ ": " ++ c.name ++ ": Failed to read " ++ file ++ ": " ++ reason]

/-- The answer to a command on the bytes of a file. -/
def Command.answerBytes (c : Command) (d : Interchange.Diagnosis) (file : String)
    (bytes : ByteArray) : Outcome :=
  match String.fromUTF8? bytes with
  | some text => c.answer d file text
  | none => c.unread file "stream did not contain valid UTF-8"

/-- The answer to a list of arguments, given what reading a file yields. -/
def answer (w : Words) (files : String → Except ReadFailure ByteArray) (args : List String) :
    Outcome :=
  match Request.ofArguments args with
  | .run c file =>
    match files file with
    | .ok bytes => c.answerBytes w.diagnosis file bytes
    | .error reason => c.unread file reason.text
  | .version => success (programVersion ++ "\n")
  | .about => success (programName ++ " " ++ programVersion ++ "\n")
  | .usage => success (w.help args)
  | .idle => failure [programName ++ ": No valid subcommand provided."]
  | .refused => ⟨2, "", w.complaint args⟩

end CommandLine

end MuxHoist
