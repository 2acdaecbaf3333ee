import DeskCalculator.Session.Step
import DeskCalculator.Store.File
import DeskCalculator.Terminal.Completion
import DeskCalculator.Terminal.Options
import DeskCalculator.Terminal.Screen
/-!
The console: a session that is driven by lines and writes its screen after each of them. A line that
cannot be read writes only why, and a line that ends the session does not draw it again.
-/
namespace DeskCalculator

inductive Writing where
  | notice (fault : Fault)
  | help
  | screen (drawn : String)
deriving DecidableEq, Repr

namespace Writing

def text : Writing → String
  | notice fault => Screen.notice fault
  | help => Screen.help
  | screen drawn => drawn

def textOf (writings : List Writing) : String := "".intercalate (writings.map text)

end Writing

structure Console (σ : Type) where
  desk : Desk σ
  running : Bool := true

namespace Console

variable {σ : Type} [Store σ]

def screen (console : Console σ) : Writing := .screen (Screen.draw console.desk.session)

def announcements : Event → List Writing
  | .failed fault => [.notice fault]
  | _ => []

/-- Presses keys one after the other, each at its time, then draws the screen; quitting leaves out what
is left. -/
def press (console : Console σ) : List (Clock × Key) → Console σ × List Writing
  | [] => (console, [console.screen])
  | (_, .help) :: rest =>
    let (console, writings) := console.press rest
    (console, .help :: writings)
  | (_, .quit) :: _ => ({ console with running := false }, [])
  | (clock, .input input) :: rest =>
    let (desk, event) := console.desk.enter clock input
    let (console, writings) := press { console with desk } rest
    (console, announcements event ++ writings)

/-- The keys of a line at the times at which they are pressed. -/
def timed (clocks : Nat → Clock) (keys : List Key) : List (Clock × Key) :=
  keys.mapIdx fun i key => (clocks i, key)

def line (console : Console σ) (clocks : Nat → Clock) (text : String) : Console σ × List Writing :=
  match Key.ofLine text with
  | .ok keys => console.press (timed clocks keys)
  | .error fault => (console, [.notice fault])

/-- An interrupt gives up the line that was being typed, and clears the session. -/
def interrupt (console : Console σ) (clock : Clock) : Console σ × List Writing :=
  console.press [(clock, .input .clear)]

def endOfInput (console : Console σ) : Console σ := { console with running := false }

/-- Time passes while the console waits: if a failure goes off the display, the screen is drawn. -/
def wait (console : Console σ) (steady : Nat) : Console σ × List Writing :=
  let (desk, event) := console.desk.tick steady
  let console := { console with desk }
  (console, if event = .reset then [console.screen] else [])

def start (store : σ) (clock : Clock) (options : Options) : Console σ × List Writing :=
  press ⟨Desk.start store, true⟩ [(clock, .input (.setMode (options.mode.getD .standard)))]

/-- What comes to a console: a line, whose keys have their own times, an interrupt, the time at which it
has waited long enough, or the end. -/
inductive Signal where
  | line (clocks : Nat → Clock) (text : String)
  | interrupt (clock : Clock)
  | timeout (steady : Nat)
  | endOfInput

def handle (console : Console σ) : Signal → Console σ × List Writing
  | .line clocks text => console.line clocks text
  | .interrupt clock => console.interrupt clock
  | .timeout steady => console.wait steady
  | .endOfInput => (console.endOfInput, [])

/-- Handles signals one after the other until the console has ended, with all that is written on the way. -/
def serve (console : Console σ) : List Signal → Console σ × List Writing
  | [] => (console, [])
  | signal :: rest =>
    if console.running then
      let (next, written) := console.handle signal
      let (last, later) := next.serve rest
      (last, written ++ later)
    else (console, [])

end Console

namespace Backing

def path (options : Options) (home : Option Path) : Except Fault Path :=
  match options.store, home with
  | some text, _ => Path.ofText text
  | none, some home => .ok home
  | none, none => .error Fault.storage

/-- The store that options ask for on a disk. A file that cannot be opened, or nowhere to keep one, means
a store in memory. -/
def ofOptions (options : Options) (disk : Disk) (home : Option Path) : Backing :=
  if options.noSave then memory {}
  else
    match path options home >>= FileStore.openAt disk with
    | .ok store => file store
    | .error _ => memory {}

def home (data : Path) : Path := (data.child "multicalc").child "store.json"

end Backing

end DeskCalculator
