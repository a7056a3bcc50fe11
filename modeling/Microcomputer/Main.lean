import Microcomputer.Cli.Session

/-!
# The program

Reads what a session needs, carries it out and writes what it leaves behind.
-/

namespace Microcomputer.Cli

/-- Reads the rest of standard input. -/
partial def readInput (stream : IO.FS.Stream) (lines : List String) : IO String := do
  let line ← stream.getLine
  if line.isEmpty then return String.join lines.reverse
  readInput stream (line :: lines)

/-- What the system says about a file that it refuses. -/
def reason : IO.Error → String
  | .noFileOrDirectory _ _ details => details.decapitalize
  | .inappropriateType _ _ details => details.decapitalize
  | .invalidArgument _ _ details => details.decapitalize
  | .permissionDenied _ _ details => details.decapitalize
  | e => toString e

def openFile (name : String) (mode : IO.FS.Mode) : IO (Except String IO.FS.Handle) := do
  try
    return .ok (← IO.FS.Handle.mk name mode)
  catch e => return .error ("open " ++ name ++ ": " ++ reason e)

def readText (name : String) : IO (Except String String) := do
  match ← openFile name .read with
  | .error complaint => return .error complaint
  | .ok handle =>
    try
      return .ok (← handle.readToEnd)
    catch e => return .error (name ++ ": read " ++ name ++ ": " ++ reason e)

def writeText (name text : String) : IO (Except String Unit) := do
  match ← openFile name .write with
  | .error complaint => return .error complaint
  | .ok handle =>
    try
      handle.putStr text
      return .ok ()
    catch e => return .error ("write " ++ name ++ ": " ++ reason e)

def tell (lines : List String) : IO Unit := do
  for line in lines do
    IO.eprintln line

def readSource : Source → IO (Except String String)
  | .nothing => return .ok ""
  | .standardInput => return .ok (← readInput (← IO.getStdin) [])
  | .file name => readText name

/-- Carries out a request; gives the exit code. -/
def serve (request : Request) : IO UInt32 := do
  let target := request.options.output
  if target != "-" then
    if let .error complaint ← writeText target "" then
      tell [target ++ ": " ++ complaint]
      return 1
  match request.source with
  | .error complaint =>
    tell [complaint]
    return 1
  | .ok source =>
    match ← readSource source with
    | .error complaint =>
      tell [complaint]
      return 1
    | .ok text =>
      let report := request.execute text
      tell report.log
      match report.result with
      | .error complaint =>
        tell [complaint]
        return 1
      | .ok output =>
        if target = "-" then
          IO.print output
          return 0
        match ← writeText target output with
        | .error complaint =>
          tell [complaint]
          return 1
        | .ok _ => return 0

end Microcomputer.Cli

open Microcomputer.Cli in
/-- The program: reads the options and serves the request. -/
def main (args : List String) : IO UInt32 := do
  match (Options.parse args).bind Request.ofOptions with
  | .error stop =>
    tell stop.lines
    return stop.exitCode.toUInt32
  | .ok (.error complaint) =>
    tell [complaint]
    return 1
  | .ok (.ok request) => serve request
