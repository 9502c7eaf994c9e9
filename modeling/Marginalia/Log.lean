import Marginalia.Text.Basic

/-!
Log messages. Each has a level, and a log shows the messages down to a chosen level.
-/

namespace Marginalia

inductive LogLevel where
  | error
  | warning
  | debug
  deriving DecidableEq, Repr

namespace LogLevel

def rank : LogLevel → Nat
  | error => 0
  | warning => 1
  | debug => 2

def label : LogLevel → Text
  | error => Text.lit "ERROR"
  | warning => Text.lit "WARN"
  | debug => Text.lit "DEBUG"

end LogLevel

structure LogEntry where
  level : LogLevel
  message : Text
  deriving DecidableEq, Repr

namespace LogEntry

def line (entry : LogEntry) : Text := entry.level.label ++ ' ' :: entry.message

def warning (message : Text) : LogEntry := ⟨.warning, message⟩

def error (message : Text) : LogEntry := ⟨.error, message⟩

def debug (message : Text) : LogEntry := ⟨.debug, message⟩

end LogEntry

end Marginalia
