import Microcomputer.Assembly.Assembler
import Microcomputer.Cli.Files
import Microcomputer.Cli.Options
import Microcomputer.Machine.Emulator

/-!
# Commands and sessions

A session is one call of the program in a directory of files. The output file is created before the
command reads anything.

* `Command` : what the program can be asked to do, by name or abbreviation;
* `Request` : a command with its options and arguments;
* `Request.source` : the text that a request needs;
* `Request.execute` : the output of a request and what it logs;
* `Session` : what a session leaves behind;
* `Session.run` : the session with given arguments, input and files.
-/

namespace Microcomputer.Cli

/-! ## Commands -/

inductive Command where
  /-- Prints the machine code of a program. -/
  | assemble
  /-- Prints the contents of the ROM chips. -/
  | roms
  /-- Runs a program and prints the registers. -/
  | run
deriving DecidableEq, Repr

namespace Command

def table : List (String × Command) := [("assemble", .assemble), ("roms", .roms), ("run", .run)]

/-- The command that a name or an abbreviation asks for. -/
def find (name : String) : Except LookupError Command :=
  match Text.findKey (table.map Prod.fst) name with
  | .error e => .error e
  | .ok i =>
    match table[i]? with
    | some entry => .ok entry.2
    | none => .error .notFound

end Command

/-- A command with its options and arguments. -/
structure Request where
  command : Command
  options : Options
  arguments : List String
deriving DecidableEq, Repr

inductive Source where
  /-- Nothing is read. -/
  | nothing
  | standardInput
  | file (name : String)
deriving DecidableEq, Repr

/-- The output of a command or the complaint, and the log before it. -/
structure Report where
  log : List String
  result : Except String String

def outputLines (lines : List String) : String := String.join (lines.map (· ++ "\n"))

namespace Request

def ofOptions (options : Options) : Except Options.Stop (Except String Request) :=
  match options.arguments with
  | [] => .error .noCommand
  | name :: arguments =>
    .ok <| match Command.find name with
      | .ok command => .ok ⟨command, options, arguments⟩
      | .error e => .error (programName ++ ": " ++ name ++ ": " ++ e.message)

def source (request : Request) : Except String Source :=
  match request.command, request.arguments with
  | .roms, [] => .ok .nothing
  | .roms, arguments =>
    .error ("unexpected arguments: [" ++ String.intercalate " " arguments ++ "]")
  | _, [name] => .ok (if name = "-" then .standardInput else .file name)
  | _, arguments =>
    .error ("expected one source file, got " ++ toString arguments.length)

def assembler (request : Request) : Assembler := ⟨Operation.all, request.options.offset⟩

/-- What an assembler logs for a request. -/
def assemblyLog (request : Request) (text : String) : List String :=
  if request.options.verbose then request.assembler.textTranscript text else []

def sourceName (request : Request) : String := request.arguments.headD "-"

/-- The program in a text, or the complaint that names the text. -/
def program (request : Request) (text : String) : Except String Program :=
  (request.assembler.assemble text).mapError fun failure =>
    request.sourceName ++ ": " ++ failure.message

def roms (request : Request) : Report where
  log := if request.options.verbose then Rom.transcript Operation.all else []
  result :=
    match Rom.build Operation.all with
    | .error failure => .error failure.message
    | .ok rom =>
      match Rom.chips rom with
      | .error e => .error e.message
      | .ok chips => .ok (outputLines (Rom.chipListing 0 chips))

/-- The machine code of a program. -/
def assemble (request : Request) (text : String) : Report where
  log := request.assemblyLog text
  result := (request.program text).map fun program =>
    outputLines (program.machineCode.map BitField.text)

def emulator (request : Request) (program : Program) : Except String Emulator :=
  match Microcode.standard with
  | .error failure => .error failure.message
  | .ok microcode =>
    let emu : Emulator := { microcode := microcode, verbose := request.options.verbose }
    (emu.load program).mapError Error.message

/-- The registers after a program has run. -/
def run (request : Request) (text : String) : Report :=
  match (request.program text).bind request.emulator with
  | .error complaint => ⟨request.assemblyLog text, .error complaint⟩
  | .ok emu =>
    { log := request.assemblyLog text ++ (if request.options.verbose then emu.runLog else [])
      result :=
        match emu.run with
        | (_, some failure) => .error failure.message
        | (emu, none) => .ok (outputLines [emu.cpu.text]) }

/-- The output of a request whose text has been read. -/
def execute (request : Request) (text : String) : Report :=
  match request.command with
  | .assemble => request.assemble text
  | .roms => request.roms
  | .run => request.run text

end Request

/-! ## Sessions -/

structure Session where
  exitCode : UInt8
  output : String
  /-- The complaints and the log, a line each. -/
  messages : List String
  files : Files

namespace Session

def failed (files : Files) (log : List String) (complaint : String) : Session :=
  ⟨1, "", log ++ [complaint], files⟩

def readSource (input : String) (files : Files) : Source → Except String String
  | .nothing => .ok ""
  | .standardInput => .ok input
  | .file name => files.read name

/-- Carries out a request. The output goes to a file that has been created, or to standard output. -/
def perform (request : Request) (input : String) (files : Files) (target : Option Place) :
    Session :=
  match request.source.bind (readSource input files) with
  | .error complaint => failed files [] complaint
  | .ok text =>
    let report := request.execute text
    match report.result, target with
    | .error complaint, _ => failed files report.log complaint
    | .ok output, none => ⟨0, output, report.log, files⟩
    | .ok output, some place => ⟨0, "", report.log, files.write place output⟩

def serve (request : Request) (input : String) (files : Files) : Session :=
  let name := request.options.output
  if name = "-" then perform request input files none
  else
    match files.create name with
    | .error e => failed files [] (name ++ ": open " ++ name ++ ": " ++ e.message)
    | .ok place => perform request input (files.write place "") (some place)

/-- The session with the arguments of the program, its standard input and the files it finds. -/
def run (args : List String) (input : String) (files : Files) : Session :=
  match (Options.parse args).bind Request.ofOptions with
  | .error stop => ⟨stop.exitCode, "", stop.lines, files⟩
  | .ok (.error complaint) => failed files [] complaint
  | .ok (.ok request) => serve request input files

end Session

end Microcomputer.Cli
