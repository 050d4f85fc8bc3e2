import TraceGloss.CommandLine.Program

/-
  The command line itself: reads the files that the arguments name, runs the program, and prints.
-/
namespace TraceGloss.CommandLine

/-- The content of a file, if it can be read and is text. -/
def contentOf (path : String) : IO (Option String) := do
  try
    return String.fromUTF8? (← IO.FS.readBinFile path)
  catch _ => return none

/-- Whether an environment variable is set to anything but nought. -/
def isEnabled (name : String) : IO (Option Bool) := do
  return (← IO.getEnv name).map (· != "0")

/-- Whether colours are wanted: as the environment says, or else on a terminal. -/
def wantsColour : IO Bool := do
  if (← isEnabled "CLICOLOR_FORCE") == some true then return true
  if (← IO.getEnv "NO_COLOR").isSome then return false
  return (← isEnabled "CLICOLOR") != some false && (← (← IO.getStdout).isTty)

end TraceGloss.CommandLine

open TraceGloss.CommandLine in
def main (arguments : List String) : IO UInt32 := do
  let paths := match parse arguments with
    | .ok flags => flags.paths
    | .error _ => []
  let contents ← paths.mapM fun path => return (path, ← contentOf path)
  let files (path : String) : Option String := (contents.lookup path).bind id
  let exit := run files (← wantsColour) arguments
  IO.print exit.output
  IO.eprint exit.complaint
  return exit.code.toUInt32
