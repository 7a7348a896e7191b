import Telemetry.Event
import Telemetry.Bucket

/-!
# Metrics of sessions

A session with a release and a readable start time counts once, and its user, if one is named, is a
member of the set of users.  Both points carry the start of the session as their time.
-/

namespace Telemetry.Session

/-- The counter of sessions. -/
def counterName : Bytes := ascii "c:sessions/session@none"

/-- The set of users. -/
def userName : Bytes := ascii "s:sessions/user@none"

/-- A string that is not empty. -/
def nonEmpty (s : Option Bytes) : Option Bytes := s.filter fun s => !s.isEmpty

/-- The attributes of a session, empty if it has none. -/
def attributes (session : Json) : Json := (session.get? (ascii "attrs")).getD (.object [])

/-- The state of a session: its first report, or the status it gives. -/
def status (session : Json) : Bytes :=
  if (session.get? (ascii "init")).bind Json.bool? = some true then ascii "init"
  else (session.text? "status").getD (ascii "ok")

/-- The points of a session sent by a client library; `none` if it has no release or no start. -/
def points? (session : Json) (sdk : Option Bytes) : Option (List (Point Float)) := do
  let release ← nonEmpty ((attributes session).text? "release")
  let started ← Event.timeAt? session "started"
  let timestamp := Binary64.toWord started
  let tags : Tags := Ordered.insert (ascii "release") release <|
    Ordered.insertSome (ascii "environment") ((attributes session).text? "environment") <|
      Ordered.insertSome (ascii "sdk") sdk []
  let counted : Point Float :=
    ⟨counterName, .counter 1, timestamp,
      Ordered.insert (ascii "session.status") (status session) tags⟩
  let users := match nonEmpty (session.text? "did") with
    | some user =>
      [⟨userName, .set (Members.ofList [Fnv.hash32 user]), timestamp, tags⟩]
    | none => []
  return counted :: users

end Telemetry.Session
