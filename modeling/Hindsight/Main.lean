import Hindsight.CommandLine.Report

/-!
# The command
-/

open Hindsight

/-- Reads the source file, runs it and prints the report. -/
def main (arguments : List String) : IO UInt32 := do
  match Options.ofArguments? arguments with
  | none =>
    IO.eprintln ("usage: hindsight FILE [--step-cap N] [--step K | --end] [--input WORD]... " ++
      "[--full-scan]")
    return Outcome.usage.exitCode.toUInt32
  | some options =>
    let source ← IO.FS.readFile options.file
    let outcome := options.execute plainWording source
    outcome.output.forM IO.println
    outcome.errors.forM IO.eprintln
    return outcome.exitCode.toUInt32
