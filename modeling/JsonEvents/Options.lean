import JsonEvents.Bytes

/-!
# Options of a tokenizer

`Options.sanitize` brings the sizes of the window into their bounds and names a
log file when none is named.  Whether that file can be opened is not for the
options to say, so its outcome goes along with its name.
-/

namespace JsonEvents

/-- What becomes of a comma that no element or member follows. -/
inductive TrailingComma
  | reject
  | allow
  deriving DecidableEq

inductive LogLevel
  | trace
  | debug
  | info
  | warn
  | error
  | off
  | other (code : Int)
  deriving DecidableEq

inductive LogTarget
  | stdout
  | stderr
  | stdoutColor
  | stderrColor
  | file
  | other (code : Int)
  deriving DecidableEq

namespace LogLevel

def ofCode : Int → LogLevel
  | 0 => .trace
  | 1 => .debug
  | 2 => .info
  | 3 => .warn
  | 4 => .error
  | 5 => .off
  | code => .other code

def code : LogLevel → Int
  | .trace => 0
  | .debug => 1
  | .info => 2
  | .warn => 3
  | .error => 4
  | .off => 5
  | .other code => code

theorem code_ofCode (n : Int) : (ofCode n).code = n := by
  unfold ofCode; split <;> rfl

end LogLevel

namespace LogTarget

def ofCode : Int → LogTarget
  | 0 => .stdout
  | 1 => .stderr
  | 2 => .stdoutColor
  | 3 => .stderrColor
  | 4 => .file
  | code => .other code

def code : LogTarget → Int
  | .stdout => 0
  | .stderr => 1
  | .stdoutColor => 2
  | .stderrColor => 3
  | .file => 4
  | .other code => code

theorem code_ofCode (n : Int) : (ofCode n).code = n := by
  unfold ofCode; split <;> rfl

end LogTarget

structure Options where
  minBufferSize : Nat := 1024
  maxBufferSize : Nat := 4096
  trailingComma : TrailingComma := .reject
  logLevel : LogLevel := .off
  logTarget : LogTarget := .stderrColor
  logFilename : Option Bytes := some (Bytes.ofString "pulljson.log")
  /-- What the system says of the log file if it cannot be opened. -/
  logFailure : Option Bytes := none

namespace Options

def smallestBuffer : Nat := 4

def largestBuffer : Nat := 1048576

def clamp (low high n : Nat) : Nat := max low (min high n)

/-- The options within their bounds; a file name ends at its first NUL. -/
def sanitize (o : Options) : Options :=
  let most := clamp smallestBuffer largestBuffer o.maxBufferSize
  { o with
    maxBufferSize := most
    minBufferSize := clamp smallestBuffer most o.minBufferSize
    logFilename := match o.logFilename.map Bytes.untilNul with
      | none | some [] => ({} : Options).logFilename
      | named => named }

theorem sanitize_max_bounds (o : Options) :
    smallestBuffer ≤ o.sanitize.maxBufferSize ∧ o.sanitize.maxBufferSize ≤ largestBuffer := by
  simp only [sanitize, clamp, smallestBuffer, largestBuffer]; omega

theorem sanitize_min_bounds (o : Options) :
    smallestBuffer ≤ o.sanitize.minBufferSize ∧
      o.sanitize.minBufferSize ≤ o.sanitize.maxBufferSize := by
  simp only [sanitize, clamp, smallestBuffer, largestBuffer]; omega

theorem sanitize_min_pos (o : Options) : 0 < o.sanitize.minBufferSize :=
  Nat.lt_of_lt_of_le (by decide) (sanitize_min_bounds o).1

end Options

end JsonEvents
