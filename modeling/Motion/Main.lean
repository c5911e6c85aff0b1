import Motion.CommandLine.Reply

/-!
The program. It reads the settings from the environment and the file that the command line names,
and writes the reply: a text to the output, all else to the error output.
-/

set_option autoImplicit false
set_option relaxedAutoImplicit false

namespace Motion

/-- The environment variables of settings that are set. -/
def settingVariables : IO (List (String × String)) :=
  Settings.names.filterMapM fun setting => do
    let name := (String.ofList Settings.Lookup.defaultFront ++ setting).toUpper
    return (← IO.getEnv name).map fun value => (name, value)

/-- The bytes of a file, or none if it cannot be read. -/
def bytesOf? (file : String) : IO (Option ByteArray) := do
  try
    return some (← IO.FS.readBinFile file)
  catch _ =>
    return none

/-- The reply to the arguments of the program. -/
def replyTo (arguments : List String) : IO Reply := do
  match Settings.read [] (← settingVariables) with
  | .error fault => return .failed fault
  | .ok settings =>
    match Request.ofArguments arguments with
    | .error usage => return .refused usage.message
    | .ok .help => return .ofRequest settings none .help
    | .ok (.run command file) =>
      return .ofRequest settings (← bytesOf? file) (.run command file)

end Motion

/-- Runs the command line. -/
def main (arguments : List String) : IO UInt32 := do
  let reply ← Motion.replyTo arguments
  match reply with
  | .text output => IO.print output
  | _ => IO.eprintln ((reply.complaint?).getD "")
  return reply.status.toUInt32
