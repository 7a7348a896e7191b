import Telemetry.Listener
import Telemetry.Relay

/-!
# The service

A relay as it is configured: the outlet is a file for the next relay or, on a processing relay, the
files of topics; projects come from a file, without which there are none; listening is optional.
Setting up fails with the first fault in a fixed order: the aggregator, the outlet, the flush, the
projects.  A faulty address is found when the service starts.
-/

namespace Telemetry

namespace Service

/-- How and where to listen. -/
structure Listening where
  host : Bytes := ascii "127.0.0.1"
  buffer : Nat := 65536
  deriving DecidableEq

structure Settings where
  aggregator : Aggregator.Settings := {}
  partitions : Option UInt64 := none
  workers : Nat := 4
  /-- Write to topics and not for another relay. -/
  processing : Bool := false
  topic : Topic := { name := ascii "ingest-metrics" }
  /-- Where the files of topics are. -/
  topicDirectory : Bytes := ascii "data/topics"
  /-- The file for the next relay. -/
  outputPath : Bytes := ascii "data/batches.jsonl"
  projectPath : Bytes := ascii "config/projects.json"
  listening : Option Listening := none
  /-- Whose data arrives by datagram. -/
  listenerScope : Scope := ⟨0, 0⟩

/-- What the service finds around it. -/
structure Surroundings where
  /-- The content of the project file, if it can be read. -/
  projectFile : Option Bytes := none
  /-- The output file can be opened. -/
  outputOpens : Bool := true
  addressTaken : Bool := false

/-- The service cannot be set up or started. -/
inductive Fault where
  | aggregator (fault : Aggregator.SettingsError)
  | outlet (fault : Outlet.Fault)
  | flush (fault : Flush.Fault)
  | projects (fault : Project.FileFault)
  | listener (fault : Listener.Fault)
  deriving DecidableEq

/-- The wording of a fault; a misuse of JSON has none of its own. -/
def Fault.message? : Fault → Option Bytes
  | .aggregator fault => some fault.message
  | .outlet fault => some fault.message
  | .flush fault => some fault.message
  | .projects fault => fault.message?
  | .listener fault => some fault.message

/-- The outlet of the settings. -/
def outlet (s : Settings) (around : Surroundings) : Except Outlet.Fault Outlet :=
  if s.processing then
    (Topic.Router.ofTopic s.topic).map (fun r => .topics r { directory := s.topicDirectory })
      |>.mapError .topic
  else if around.outputOpens then .ok (.file {})
  else .error .cannotOpenFile

/-- The milliseconds between two rounds of the flush, one per time slot, in a signed word. -/
def tickInterval (s : Settings) : Int := (s.aggregator.interval.toInt64 * 1000).toInt

/-- The projects of the file; a file that cannot be read as projects has none, unless a part of it
is of the wrong JSON kind. -/
def loadProjects (s : Settings) (around : Surroundings) :
    Except Project.FileFault (Entries UInt64 Project) :=
  match Project.ofFile s.projectPath around.projectFile with
  | .ok projects => .ok projects
  | .error (.project (.misuse m)) => .error (.project (.misuse m))
  | .error _ => .ok []

/-- The project whose data arrives by datagram: as loaded, in the configured scope. -/
def listenerProject (s : Settings) (projects : Entries UInt64 Project) : Project :=
  { (Ordered.get? s.listenerScope.project projects).getD {} with scope := s.listenerScope }

end Service

structure Service where
  relay : Relay Outlet
  projects : Entries UInt64 Project
  listener : Option Listener
  /-- The periodic flush is on. -/
  ticking : Bool := false

namespace Service

/-- Sets the service up. -/
def setUp (s : Settings) (around : Surroundings) : Except Fault Service := do
  let aggregator ← (Aggregator.create s.aggregator).mapError .aggregator
  let outlet ← (outlet s around).mapError .outlet
  let flush ← (Flush.create s.workers (tickInterval s) (some outlet)).mapError .flush
  let projects ← (loadProjects s around).mapError .projects
  let listener := s.listening.map fun l =>
    Listener.create l.host l.buffer (listenerProject s projects)
  return ⟨⟨{ aggregator }, flush, s.partitions, .running, false⟩, projects, listener, false⟩

/-- Starts the periodic flush and the listener. -/
def start (around : Surroundings) (s : Service) : Except Fault Service :=
  match s.listener.bind fun l => l.fault? around.addressTaken with
  | some fault => .error (.listener fault)
  | none => .ok { s with ticking := true }

/-- The project of an id; one that is not loaded is the default one. -/
def project (s : Service) (id : UInt64) : Project := (Ordered.get? id s.projects).getD {}

/-- Takes in an envelope for the project of an id. -/
def process (clock : Intake.Clock) (envelope : Envelope) (id : UInt64) (s : Service) :
    Except Extraction.EncodingError (Intake.Report × Service) :=
  (s.relay.process clock envelope (s.project id)).map fun (report, relay) =>
    (report, { s with relay })

/-- One round of the periodic flush; tells how many buckets left. -/
def tick (now : UInt64) (s : Service) : Nat × Service :=
  let (n, relay) := s.relay.tick Outlet.sink now
  (n, { s with relay })

/-- Takes in datagrams that have arrived. -/
def receive (datagrams : List Listener.Datagram) (s : Service) :
    Except Extraction.EncodingError Service :=
  match s.listener with
  | none => .ok s
  | some l => (l.receiveAll s.relay.phase datagrams s.relay.intake).map fun (l, intake) =>
    { s with listener := some l, relay := { s.relay with intake } }

/-- Stops listening and shuts the relay down. -/
def stop (s : Service) : Relay.ShutdownReport × Service :=
  let (report, relay) := s.relay.shutdown Outlet.sink
  (report, { s with relay, ticking := false })

/-- The output files by name. -/
def files (settings : Settings) (s : Service) : Entries Bytes TextFile :=
  s.relay.flush.outlet.files settings.outputPath

/-! ## Brief runs -/

/-- How a run of the program ended, and the files it left. -/
structure Run where
  failed : Bool
  files : Entries Bytes TextFile

/-- The output files that exist although a fault ended the run: those of the outlet, which is set up
second. -/
def filesAfter (s : Settings) (around : Surroundings) : Fault → Entries Bytes TextFile
  | .aggregator _ => []
  | _ => ((outlet s around).toOption.map fun o => o.files s.outputPath).getD []

/-- A run that is told to stop as soon as everything has started. -/
def runBriefly (s : Settings) (around : Surroundings) : Run :=
  match (setUp s around).bind (start around) with
  | .ok service => ⟨false, service.stop.2.files s⟩
  | .error fault => ⟨true, filesAfter s around fault⟩

end Service

end Telemetry
