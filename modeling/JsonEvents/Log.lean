import JsonEvents.Options
import JsonEvents.Status.Basic

/-!
# Log records

A log keeps the records at or above its threshold.  A log without a threshold
keeps none.
-/

namespace JsonEvents

inductive Level
  | trace
  | debug
  | info
  | warn
  | error
  | critical
  | off
  deriving DecidableEq

namespace Level

def rank : Level → Nat
  | .trace => 0
  | .debug => 1
  | .info => 2
  | .warn => 3
  | .error => 4
  | .critical => 5
  | .off => 6

def name : Level → String
  | .trace => "trace"
  | .debug => "debug"
  | .info => "info"
  | .warn => "warn"
  | .error => "error"
  | .critical => "critical"
  | .off => "off"

/-- The levels that a record is written at. -/
def writable : List Level := [.trace, .debug, .info, .warn, .error, .critical]

end Level

/-- The level from which records are kept; none for every level that is not listed. -/
def LogLevel.threshold? : LogLevel → Option Level
  | .trace => some .trace
  | .debug => some .debug
  | .info => some .info
  | .warn => some .warn
  | .error => some .error
  | .off | .other _ => none

structure Log where
  threshold : Option Level
  records : Array (Level × Bytes) := #[]

namespace Log

/-- A log that keeps nothing. -/
def silent : Log := { threshold := none }

def keeps (log : Log) (level : Level) : Bool :=
  match log.threshold with
  | none => false
  | some least => least.rank ≤ level.rank

def record (log : Log) (level : Level) (text : Bytes) : Log :=
  if log.keeps level then { log with records := log.records.push (level, text) } else log

/-- A log that is off is never opened, so its target does not matter. -/
def opened (o : Options) : Status × Log :=
  match o.logLevel.threshold? with
  | none => (.ok, silent)
  | some least =>
      match o.logTarget, o.logFailure with
      | .other _, _ =>
          (.withText .invalidArgument .unspecified (Bytes.ofString "unrecognized log target"), silent)
      | .file, some what =>
          (.withText .ioError .unspecified
            (Bytes.ofString "cannot create log sink: " ++ what.untilNul), silent)
      | _, _ => (.ok, { threshold := some least })

/-- A log that was not opened keeps nothing. -/
theorem opened_of_failed {o : Options} (failed : (opened o).1.isOk = false) :
    (opened o).2 = silent := by
  revert failed
  unfold opened
  split
  · exact fun _ => rfl
  · split
    · exact fun _ => rfl
    · exact fun _ => rfl
    · exact nofun

end Log

/-- A message in up to three parts, written as primary: detail (hint). -/
structure Message where
  primary : Bytes
  detail : Bytes := []
  hint : Bytes := []

namespace Message

def text (m : Message) : Bytes :=
  let detail := if m.detail.isEmpty then [] else Bytes.ofString ": " ++ m.detail
  let hint := if m.hint.isEmpty then [] else Bytes.ofString " (" ++ m.hint ++ Bytes.ofString ")"
  m.primary ++ detail ++ hint

/-- Write the message to the log and make it the text of a refusal. -/
def refuse (m : Message) (reason : Reason) (level : Level) (log : Log) : Status × Log :=
  (.withText .corruption reason m.text, log.record level m.text)

end Message

end JsonEvents
