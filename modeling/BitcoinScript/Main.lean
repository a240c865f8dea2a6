import BitcoinScript.Cli.Report

/-!
# The command line program
-/

/-- Prints the answer to the command line and exits with its code. -/
def main (args : List String) : IO UInt32 := do
  let report := BitcoinScript.Cli.report args
  IO.print report.out
  IO.eprint report.err
  return UInt32.ofNat report.exitCode
