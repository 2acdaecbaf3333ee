import DeskCalculator.Terminal.Console
import Std.Time.Zoned
/-!
The program: a console on standard input and output, with its store in a file.
-/
namespace DeskCalculator.Program

/-- The seconds that a time is ahead where the program runs, none if the zone is not known there. -/
def zoneOffset (time : Std.Time.Timestamp) : IO Int := do
  try
    let rules ← Std.Time.Database.defaultGetLocalZoneRules
    return (rules.findLocalTimeTypeForTimestamp time).getTimeZone.offset.second.val
  catch _ => return 0

/-- The day of a time where the program runs. -/
def localDate (time : Std.Time.Timestamp) : IO Date := do
  match Date.ofMillis? (time.toMillisecondsSinceUnixEpoch.val + (← zoneOffset time) * 1000) with
  | some date => return date
  | none => throw (IO.userError "the clock shows a day that no calendar has")

def now : IO Clock := do
  let time ← Std.Time.Timestamp.now
  let steady ← IO.monoMsNow
  let today ← localDate time
  return { wall := time.toMillisecondsSinceUnixEpoch.val.toNat, steady, today }

/-- The times of the keys of a line, of which there are no more than characters. -/
def times (line : String) : IO (Nat → Clock) := do
  let first ← now
  let later ← line.toList.mapM fun _ => now
  return fun i => (first :: later).getD i first

def home? : IO (Option Path) := do
  let data? ← IO.getEnv "XDG_DATA_HOME"
  let user? ← IO.getEnv "HOME"
  let data? := data?.filter (·.startsWith "/") <|> user?.map (· ++ "/.local/share")
  return data?.bind fun data => ((Path.ofText data).map Backing.home).toOption

/-- The disk as far as the store goes: the file where it is kept, if there is one. A directory stands
for what is there and cannot be read. -/
def diskWith (path : Path) : IO Disk := do
  try
    let content ← IO.FS.readBinFile path.render
    let disk := Disk.empty.makeDirectories path.parent
    return (disk.write? path content).getD disk
  catch
    | .noFileOrDirectory .. => return Disk.empty
    | _ => return Disk.empty.makeDirectories path

/-- Writes the store's file anew if it is to hold another document. A write that fails is given up. -/
def keep (before after : Backing) : IO Unit := do
  if before.document? = after.document? then pure ()
  else
    match after.document? with
    | none => pure ()
    | some (path, document) =>
      try
        let directory := path.parent.render
        if directory != "" then IO.FS.createDirAll directory
        IO.FS.writeFile path.render document
      catch _ => pure ()

partial def loop (console : Console Backing) : IO Unit := do
  if console.running then
    IO.print "> "
    (← IO.getStdout).flush
    let text ← (← IO.getStdin).getLine
    let (waited, redrawn) := console.handle (.timeout (← IO.monoMsNow))
    if text = "" then pure ()
    else
      let line := Completion.expand (text.dropEndWhile fun c => c == '\n' || c == '\r').toString
      let (next, written) := waited.handle (.line (← times line) line)
      IO.print (Writing.textOf (redrawn ++ written))
      keep console.desk.store next.desk.store
      loop next

def session (options : Options) : IO Unit := do
  let home ← home?
  let disk ← match options.noSave, Backing.path options home with
    | false, .ok path => diskWith path
    | _, _ => pure Disk.empty
  let (console, screen) := Console.start (Backing.ofOptions options disk home) (← now) options
  IO.print (Writing.textOf screen)
  loop console

end DeskCalculator.Program

def main (arguments : List String) : IO UInt32 := do
  match DeskCalculator.Invocation.ofArguments arguments with
  | .run options => DeskCalculator.Program.session options; return 0
  | invocation =>
    IO.print invocation.answer
    return UInt32.ofNat invocation.exitCode
