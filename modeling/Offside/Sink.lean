/-!
# Output sinks

Where printed text goes. A sink may hold a limited number of bytes, and may accept a limited number
of flushes; what fits into it stays in it also when a write fails. A sink refuses in words of its
own, which are passed on as they are.
-/

namespace Offside

/-- Why a sink refuses, with its words for the reason. -/
inductive SinkFault where
  /-- A write does not fit. -/
  | full (message : String)
  /-- No further flush is accepted. -/
  | closed (message : String)
  deriving DecidableEq, Repr

/-- The words of a refusal. -/
def SinkFault.message : SinkFault → String
  | full message | closed message => message

/-- How a sink words its refusals. -/
structure Wording where
  /-- A write does not fit. -/
  full : String := ""
  /-- No further flush is accepted. -/
  closed : String := ""

/-- A sink and what it has accepted. -/
structure Sink where
  /-- All bytes accepted so far. -/
  written : ByteArray := .empty
  /-- The number of bytes it can hold, if that is limited. -/
  capacity : Option Nat := none
  /-- The number of flushes still accepted, if that is limited. -/
  flushes : Option Nat := none
  wording : Wording := {}

namespace Sink

/-- The number of bytes that still fit out of `wanted` ones. -/
def room (s : Sink) (wanted : Nat) : Nat :=
  match s.capacity with
  | none => wanted
  | some capacity => min wanted (capacity - s.written.size)

/-- Accepts the bytes that fit, and tells whether all of them did. -/
def write (s : Sink) (bytes : ByteArray) : Except SinkFault Unit × Sink :=
  let accepted := s.room bytes.size
  if accepted = bytes.size then (.ok (), { s with written := s.written ++ bytes })
  else (.error (.full s.wording.full), { s with written := s.written ++ bytes.extract 0 accepted })

/-- Accepts a flush, if another one is accepted. -/
def flush (s : Sink) : Except SinkFault Unit × Sink :=
  match s.flushes with
  | none => (.ok (), s)
  | some 0 => (.error (.closed s.wording.closed), s)
  | some (n + 1) => (.ok (), { s with flushes := some n })

/-- Writes a line and flushes it. A line that does not fit is not flushed. -/
def writeLine (s : Sink) (line : String) : Except SinkFault Unit × Sink :=
  match s.write (line ++ "\n").toUTF8 with
  | (.ok (), s) => s.flush
  | failed => failed

/-- Bytes read as text. Bytes that stand for no character, because a sink was full in the middle of
one, are read as one replacement character. -/
def decode (bytes : ByteArray) : String :=
  let attempt (missing : Nat) : Option String :=
    (String.fromUTF8? (bytes.extract 0 (bytes.size - missing))).map fun s =>
      if missing = 0 then s else s ++ "\uFFFD"
  ((attempt 0).or ((attempt 1).or ((attempt 2).or (attempt 3)))).getD "\uFFFD"

/-- The text accepted since the sink held `start` bytes. -/
def textFrom (s : Sink) (start : Nat) : String := decode (s.written.extract start s.written.size)

end Sink

end Offside
