import DeskCalculator.Main
import DeskCalculator.Proofs.Expression.Grammar
import DeskCalculator.Proofs.Expression.Lexing
import DeskCalculator.Proofs.Expression.Columns
import DeskCalculator.Proofs.Expression.StackEvaluation
import DeskCalculator.Proofs.Number.Bits
import DeskCalculator.Proofs.Number.Sums
import DeskCalculator.Proofs.Number.Decimals
import DeskCalculator.Proofs.Number.Spelling
import DeskCalculator.Proofs.Expression.Shown
import DeskCalculator.Proofs.Expression.Exponent
import DeskCalculator.Proofs.Programmer.Integers
import DeskCalculator.Proofs.Session.Equals
import DeskCalculator.Proofs.Session.Repeat
import DeskCalculator.Proofs.Session.Formula
import DeskCalculator.Proofs.Terminal.Lines
import DeskCalculator.Proofs.Session.Typing
import DeskCalculator.Proofs.Session.Changes
import DeskCalculator.Proofs.Programmer.Canonical
import DeskCalculator.Proofs.Session.Programmer
import DeskCalculator.Proofs.Number.Layout
import DeskCalculator.Proofs.Calendar.Lines
import DeskCalculator.Proofs.Session.Numerals
import DeskCalculator.Proofs.Session.Display
import DeskCalculator.Proofs.Session.Failure
import DeskCalculator.Proofs.Session.Epochs
import DeskCalculator.Proofs.Expression.Faults
import DeskCalculator.Proofs.Session.Faults
import DeskCalculator.Proofs.Programmer.Conversion
import DeskCalculator.Proofs.Session.Chain
import DeskCalculator.Proofs.Session.Recorded
import DeskCalculator.Proofs.Text.Grammar
import DeskCalculator.Proofs.Text.Json
import DeskCalculator.Proofs.History
import DeskCalculator.Proofs.Store.Disk
import DeskCalculator.Proofs.Store.File
import DeskCalculator.Proofs.Store.Opening
import DeskCalculator.Proofs.Session.Restart
import DeskCalculator.Proofs.Session.Confinement
import DeskCalculator.Proofs.Session.Width
import DeskCalculator.Proofs.Number.Width
import DeskCalculator.Proofs.Calendar.Width
import DeskCalculator.Proofs.Session.Toggles
import DeskCalculator.Proofs.Session.Saving
import DeskCalculator.Proofs.Session.Log
import DeskCalculator.Proofs.Terminal.Freshness
import DeskCalculator.Proofs.Store.Persistence
import DeskCalculator.Proofs.Calendar.Age
import DeskCalculator.Proofs.Calendar.Walk
import DeskCalculator.Proofs.Programmer.Leading
import DeskCalculator.Proofs.Programmer.Reading
import DeskCalculator.Proofs.Programmer.LowWord
import DeskCalculator.Proofs.Session.Folding
import DeskCalculator.Proofs.Session.Switches
import DeskCalculator.Proofs.Session.Refusal
import DeskCalculator.Proofs.Session.Functions
import DeskCalculator.Proofs.Number.Cursor
import DeskCalculator.Proofs.Number.Infinity
import DeskCalculator.Proofs.Expression.Finiteness
import DeskCalculator.Proofs.Expression.Climbing
import DeskCalculator.Proofs.Terminal.Keys
import DeskCalculator.Proofs.Calendar.Difference
import DeskCalculator.Proofs.Session.Backspace
