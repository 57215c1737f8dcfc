import JsonEvents.Bytes
import JsonEvents.Bytes.Cut
import JsonEvents.Digits
import JsonEvents.Draw
import JsonEvents.Event
import JsonEvents.Excerpt
import JsonEvents.Fault
import JsonEvents.FileTree
import JsonEvents.Listing
import JsonEvents.Location
import JsonEvents.Log
import JsonEvents.Main
import JsonEvents.Numeral.Binary64
import JsonEvents.Numeral.Decimal
import JsonEvents.Numeral.Grouped
import JsonEvents.Numeral.Integer
import JsonEvents.Numeral.Printer
import JsonEvents.Numeral.Scanner
import JsonEvents.Options
import JsonEvents.Reader
import JsonEvents.Replay
import JsonEvents.Status.Basic
import JsonEvents.Status.Parts
import JsonEvents.Status.Sharing
import JsonEvents.Tokenizer.Basic
import JsonEvents.Tokenizer.Move
import JsonEvents.Tokenizer.Progress
import JsonEvents.Tokenizer.Reaches
import JsonEvents.Tokenizer.Recognizers
import JsonEvents.Tokenizer.Run
import JsonEvents.Window.Basic
import JsonEvents.Window.Command
import JsonEvents.Window.Segment
import JsonEvents.Proofs.Scan
import JsonEvents.Proofs.Window.Recognized
import JsonEvents.Proofs.Reading
import JsonEvents.Proofs.Tokenizer.Follows
import JsonEvents.Proofs.Reading.Run
import JsonEvents.Proofs.Tokenizer.Delivery
import JsonEvents.Proofs.Grammar.Basic
import JsonEvents.Proofs.Grammar.Scanned
import JsonEvents.Proofs.Grammar.Accepted
import JsonEvents.Proofs.Grammar.Sound
import JsonEvents.Proofs.Tokenizer.Texts
import JsonEvents.Proofs.Tokenizer.Layout
import JsonEvents.Proofs.Brackets
import JsonEvents.Proofs.Tokenizer.Calls
import JsonEvents.Proofs.Tokenizer.Stack
import JsonEvents.Proofs.Scan.Looks
import JsonEvents.Proofs.Window.Watched
import JsonEvents.Proofs.Reading.Looks
import JsonEvents.Proofs.Tokenizer.Looked
import JsonEvents.Proofs.Tokenizer.Capacity
import JsonEvents.Proofs.Scan.Extended
import JsonEvents.Proofs.Scan.Cut
import JsonEvents.Proofs.Reading.Extended
import JsonEvents.Proofs.Reading.Beyond
import JsonEvents.Proofs.Tokenizer.Failure
import JsonEvents.Proofs.Tokenizer.LastRead
import JsonEvents.Proofs.Tokenizer.Stopped
import JsonEvents.Proofs.Window.Requests
import JsonEvents.Proofs.Window.Bounds
import JsonEvents.Proofs.Window.Mirror
import JsonEvents.Proofs.Tokenizer.InStep
import JsonEvents.Proofs.Tokenizer.Pauses
import JsonEvents.Proofs.Tokenizer.Finality
import JsonEvents.Proofs.Tokenizer.Policies
import JsonEvents.Proofs.Lines
import JsonEvents.Proofs.Excerpt
import JsonEvents.Proofs.Location
import JsonEvents.Proofs.Location.Context
import JsonEvents.Proofs.Location.Delivery
import JsonEvents.Proofs.Reading.Places
import JsonEvents.Proofs.Window.Along
import JsonEvents.Proofs.Tokenizer.Blame
import JsonEvents.Proofs.Tokenizer.Refusals
import JsonEvents.Proofs.Status.Sharing
import JsonEvents.Proofs.Listing
import JsonEvents.Proofs.Grammar.Longest
import JsonEvents.Proofs.Window.Within
import JsonEvents.Proofs.Window.Numbers
import JsonEvents.Proofs.Window.Strings
import JsonEvents.Proofs.Numeral.Integer
import JsonEvents.Proofs.Numeral.Grouped
import JsonEvents.Proofs.Numeral.Grouping
import JsonEvents.Proofs.Numeral.Nearest
import JsonEvents.Proofs.Numeral.Rounding
import JsonEvents.Proofs.Numeral.Scanned
import JsonEvents.Proofs.Numeral.Digits
import JsonEvents.Proofs.Numeral.Value
import JsonEvents.Proofs.Numeral.Figures
import JsonEvents.Proofs.Numeral.Printed
import JsonEvents.Proofs.Numeral.Shortest
import JsonEvents.Proofs.Tokenizer.Numbers
import JsonEvents.Proofs.Numeral.Closest
import JsonEvents.Proofs.Numeral.Forms
import JsonEvents.Proofs.Numeral.Fixed
import JsonEvents.Proofs.Numeral.Scaled
import JsonEvents.Proofs.Numeral.Written
import JsonEvents.Proofs.Draw
