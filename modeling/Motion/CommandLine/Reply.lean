import Motion.CommandLine.Request
import Motion.Document.Optimize
import Motion.Easing.Compile
import Motion.Json.Printer
import Motion.Json.Reader
import Motion.Lax.Record
import Motion.Lax.Settings

/-!
Replies of the command line. A file that cannot be read or is no JSON is refused like a wrong
command line; a file whose bytes are no text, an integer with too many digits, and a fault of the
conversion make the command fail.
-/

set_option autoImplicit false
set_option relaxedAutoImplicit false

namespace Motion

/-- What the command line ends in. -/
inductive Reply where
  /-- A text on the output. -/
  | text (output : String)
  | refused (message : String)
  /-- The bytes of the file are no text. -/
  | notText
  | failed (fault : Fault)
deriving DecidableEq, Repr

namespace Reply

/-- The status that the program ends with. -/
def status : Reply → Nat
  | text _ => 0
  | notText | failed _ => 1
  | refused _ => 2

/-- How the program is used. -/
def usage : String :=
  "Usage: motion [--verbose] COMMAND\n\n" ++
  "  collapse FILE [--no-combine]  Clean a document and collapse its groups.\n" ++
  "  compile FILE [--multiple]     Compile a keyframed property.\n"

/-- The text of a written document, with the end of its last line. -/
def ofResult : Except Fault Data → Reply
  | .ok document =>
    if Json.isWritable document then .text (Json.print document ++ "\n") else .failed .badValue
  | .error fault => .failed fault

/-- The compiled values of a property, with the resources that they use. -/
def compiled (settings : Settings) (multiple : Bool) (property : Data) (path : String) :
    Except Fault Data :=
  let values : Compile (List Scalar) :=
    if multiple then compileMultipleData property path
    else do return [← compileSingleData property false path]
  match values.run.run (EasingTable.empty settings.listPrecision.toNat) with
  | (.ok values, table) =>
    .ok (.obj [("values", .list (values.map Scalar.embed)), ("resources", table.resources)])
  | (.error fault, _) => .error fault

/-- What a command makes of the document in a file. -/
def ofDocument (settings : Settings) (file : String) (document : Data) : Command → Reply
  | .collapse combine =>
    let table := EasingTable.empty settings.listPrecision.toNat
    ofResult (optimize { settings with combineProps := combine } table document).result
  | .compile multiple => ofResult (compiled settings multiple document (fileStem file))

/-- The reply to a request. The bytes are those of the file that the request names, if it can be
read. -/
def ofRequest (settings : Settings) (bytes? : Option ByteArray) : Request → Reply
  | .help => .text usage
  | .run command file =>
    match bytes? with
    | none => .refused ("Cannot read " ++ file)
    | some bytes =>
      match String.fromUTF8? bytes with
      | none => .notText
      | some content =>
        match Json.read content.toList with
        | .error .malformed => .refused ("Cannot read " ++ file)
        | .error .tooLong => .failed .badValue
        | .ok document => ofDocument settings file document command

/-- The text that goes with a reply that is no output. -/
def complaint? : Reply → Option String
  | text _ => none
  | refused message => some message
  | notText => some "The file is no UTF-8 text"
  | failed fault => some (fault.message?.getD "The input cannot be converted")

end Reply

end Motion
