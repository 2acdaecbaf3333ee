import DeskCalculator.Session.State
/-!
The screen: what is written for a session, in colours of the theme.
-/
namespace DeskCalculator.Screen

abbrev Style := String

def paint (style : Style) (text : String) : String := "\x1b[" ++ style ++ "m" ++ text ++ "\x1b[0m"

def bold : Style := "1"

structure Palette where
  display : Style
  accent : Style
  muted : Style

structure Colour where
  red : Nat
  green : Nat
  blue : Nat

namespace Colour

def foreground (c : Colour) : String := s!"38;2;{c.red};{c.green};{c.blue}"

def background (c : Colour) : String := s!"48;2;{c.red};{c.green};{c.blue}"

def cream : Colour := ⟨0xda, 0xd7, 0xc5⟩

def teal : Colour := ⟨0x24, 0x47, 0x47⟩

def sage : Colour := ⟨0x7b, 0x9c, 0x92⟩

def slate : Colour := ⟨0x4e, 0x70, 0x6b⟩

def boldOn (letters ground : Colour) : Style := "1;" ++ ground.background ++ ";" ++ letters.foreground

def dimmed (c : Colour) : Style := "2;" ++ c.foreground

end Colour

def palette : Theme → Palette
  | .dark => ⟨Colour.cream.boldOn Colour.teal, Colour.sage.foreground, Colour.slate.dimmed⟩
  | .light => ⟨Colour.teal.boldOn Colour.cream, Colour.slate.foreground, Colour.sage.dimmed⟩

/-- The mode in capitals, with the setting that it goes by. -/
def indicators (s : Session) : String :=
  let mode := s.mode.render.toUpper
  match s.mode with
  | .scientific => mode ++ " " ++ s.angle.render
  | .programmer => mode ++ " " ++ s.base.render
  | .standard | .date => mode

def dateLine (dates : DateFields) : String :=
  "start " ++ dates.start ++ " | end " ++ dates.stop ++ " | birth " ++ dates.birth

def historyLine (p : Palette) (entry : History.Entry) : String :=
  paint p.muted (entry.expression ++ " =") ++ " " ++ paint p.accent entry.result

def historyLines (p : Palette) (s : Session) : List String :=
  if !s.showHistory then []
  else if s.history.isEmpty then [paint p.muted "no history"]
  else s.history.entries.map (historyLine p)

def lines (s : Session) : List String :=
  let p := palette s.theme
  [paint p.accent (indicators s)]
    ++ (if s.mode = .date then [paint p.muted (dateLine s.dates)] else [])
    ++ (if s.expression = "" then [] else [paint p.muted s.expression])
    ++ [paint p.display (" " ++ s.display ++ " ")]
    ++ s.binaryPreview?.toList.map (fun bits => paint p.muted ("BIN " ++ bits))
    ++ historyLines p s

def ended (line : String) : String := line ++ "\n"

def draw (s : Session) : String := "".intercalate ((lines s).map ended)

def notice (fault : Fault) : String := ended (paint bold fault.render)

def help : String := "Keys are typed and entered as a line: 0-9 a-f . + - * / ( ) =
Commands start with a colon:
  :clear :back                clear entry, delete last character
  :std :sci :prog :date       switch mode
  :angle                      toggle DEG/RAD (scientific)
  :sin :cos :tan :log :ln     functions (scientific)
  :sqrt :sq :exp :fact
  :bin :oct :dec :hex         switch base (programmer)
  :not :shl :shr              bitwise (programmer)
  :and :or :xor               bitwise, then = with the second operand
  :start=DATE :end=DATE :diff difference between dates (date)
  :birth=DATE :age            age today (date)
  :theme :history             toggle theme, toggle history list
  :help :quit
"

end DeskCalculator.Screen
