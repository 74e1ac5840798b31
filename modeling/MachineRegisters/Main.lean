import MachineRegisters.Command

/-! # Command line

Reads the description from the file that is named, or else from standard input, and
prints the listing; what is said about a fault goes to standard error. -/
set_option autoImplicit false
namespace MachineRegisters.Arguments

def usage : String :=
  "usage: machine-registers [--log FILTER] [--gdb] [--bits N] [--big-endian] [--covered] [DESCRIPTION]"

partial def readAll (input : IO.FS.Stream) (soFar : String) : IO String := do
  let line ← input.getLine
  if line.isEmpty then return soFar
  readAll input (soFar ++ line)

def readDescription (a : Arguments) : IO String := do
  match a.input with
  | none => readAll (← IO.getStdin) ""
  | some path => IO.FS.readFile path

def printFault (text : String) : IO Unit := do
  (← IO.getStderr).putStrLn ("Error: " ++ text)

def serve (texts : List String) : IO UInt32 := do
  match read? {} texts with
  | none =>
      (← IO.getStderr).putStrLn usage
      return 2
  | some a =>
      try
        let result := a.command.run (← a.readDescription)
        (← IO.getStdout).putStr result.output
        match result.message with
        | none => pure ()
        | some text => printFault text
        return UInt32.ofNat result.status
      catch e =>
        printFault (toString e)
        return 1

end MachineRegisters.Arguments

def main (texts : List String) : IO UInt32 := MachineRegisters.Arguments.serve texts
