import Std.Time.DateTime.Timestamp
import Telemetry.Service.Configuration

/-!
# The program

A service on standard input: its settings come from the JSON file that the first argument names,
each line of the input is a datagram for its listener, and what its outlet takes is added to files.
The end of the input stops the service.
-/

namespace Telemetry.Program

/-- Seconds since the start of 1970. -/
def now : IO UInt64 :=
  return UInt64.ofNat (← Std.Time.Timestamp.now).toSecondsSinceUnixEpoch.val.toNat

/-- A path or a message as the system takes it; empty if it is no UTF-8. -/
def path (s : Bytes) : String := (String.fromUTF8? ⟨s.toArray⟩).getD ""

/-- The content of a file that can be read. -/
def content? (file : Bytes) : IO (Option Bytes) := do
  match ← (IO.FS.readBinFile (path file)).toBaseIO with
  | .ok bytes => return some bytes.toList
  | .error _ => return none

/-- Adds a text to the end of a file. -/
def addTo (file text : Bytes) : IO Unit := do
  let handle ← IO.FS.Handle.mk (path file) .append
  handle.write ⟨text.toArray⟩
  handle.flush

/-- Whether something can be added to a file. -/
def opens (file : Bytes) : IO Bool := return (← (addTo file []).toBaseIO).isOk

/-- The place of an output file. -/
def place (settings : Service.Settings) (name : Bytes) : Bytes :=
  if settings.processing then settings.topicDirectory ++ byte '/' :: name else name

/-- Adds to the output files what the outlet has taken. -/
def writeOut (settings : Service.Settings) (s : Service) : IO Service := do
  for (name, file) in s.files settings do
    unless file.text.isEmpty do addTo (place settings name) file.text
  let flush := { s.relay.flush with outlet := s.relay.flush.outlet.withoutTexts }
  return { s with relay := { s.relay with flush } }

/-- A round of the flush if one is due; the time of the last one is kept. -/
def tickIfDue (settings : Service.Settings) (time : UInt64) (s : Service) (last : UInt64) :
    IO (Service × UInt64) := do
  if time < last + settings.aggregator.interval then return (s, last)
  else return (← writeOut settings (s.tick time).2, time)

/-- Takes in lines until the input ends.  The clock is read once for a line. -/
partial def serve (settings : Service.Settings) (input : IO.FS.Stream) (s : Service)
    (last : UInt64) : IO Service := do
  let line ← input.getLine
  if line.isEmpty then return s
  let time ← now
  match s.receive [⟨line.toUTF8.toList, time, .still time⟩] with
  | .ok s =>
    let (s, last) ← tickIfDue settings time s last
    serve settings input s last
  | .error _ => serve settings input s last

/-- Ends the program with a message. -/
def fail (message : Bytes) : IO UInt32 := do
  IO.eprintln (path (ascii "Fatal error: " ++ message))
  return 1

/-- Sets the service up, serves it and stops it. -/
def run (settings : Service.Settings) : IO UInt32 := do
  let outputOpens ← if settings.processing then pure true else opens settings.outputPath
  let around : Service.Surroundings := ⟨← content? settings.projectPath, outputOpens, false⟩
  match (Service.setUp settings around).bind (Service.start around) with
  | .error fault => fail (fault.message?.getD (ascii "unexpected JSON value"))
  | .ok s =>
    let s ← serve settings (← IO.getStdin) s (← now)
    let _ ← writeOut settings s.stop.2
    return 0

end Telemetry.Program

open Telemetry in
def main (args : List String) : IO UInt32 := do
  let file := (args.head?.getD "config/config.json").toUTF8.toList
  match (← Program.content? file).bind Json.parse? with
  | none => Program.fail (ascii "Could not read the configuration: " ++ file)
  | some j => match Service.Settings.read j with
    | .ok settings => Program.run settings
    | .error _ => Program.fail (ascii "Faulty configuration: " ++ file)
