import Overhear.Host.Node
import Overhear.Report.Packets

/-! Reports of what forwarding decided, of what a host has to do, and of the state behind it. -/
namespace Overhear.Report

def reason : SuppressReason → Document
  | .duplicate => .text "Duplicate"
  | .hopLimit => .text "HopLimit"
  | .noProgress => .text "NoProgress"
  | .noCandidates => .text "NoCandidates"

/-- What every decision tells, and then what only its kind does. -/
def decision (decision : Decision) : Document :=
  .record
    ([("immediate", .bool decision.isImmediate), ("deferred", .bool decision.isDeferred),
      ("suppress", .bool decision.isSuppressed), ("targets", list faceId decision.targets),
      ("reason", option reason decision.reason?), ("delay", option nanos decision.delay?)] ++
      match decision with
      | .send _ sent => [("request", request sent)]
      | .deferred _ _ armed => [("handle", handle armed)]
      | .suppress _ rejectPending => [("reject_pending", .bool rejectPending)])

def responseDecision (decision : ResponseDecision) : Document :=
  .record
    [("faces", list faceId decision.faces), ("response", response decision.response),
      ("cancelled_pending", .bool decision.cancelledPending)]

def event : Event → Document
  | .forward target => .list [.text "forward", name target]
  | .decay target face => .list [.text "decay", name target, faceId face]
  | .refresh => .list [.text "refresh"]

def outcome : TimerOutcome → Document
  | .sendRequest face sent => .record [("send", faceId face), ("request", request sent)]
  | .upkeep => .text "maintenance"
  | .stale => .text "stale"

def delivery {ρ : Type} (report : ρ → Document) (delivery : Delivery ρ) : Document :=
  .list
    [handle delivery.handle, nanos delivery.time, event delivery.event,
      .bool delivery.event.isUpkeep, report delivery.outcome]

def action : Action → Document
  | .sendRequest faces sent =>
      .record [("send_request", list faceId faces), ("request", request sent)]
  | .sendResponse faces sent =>
      .record [("send_response", list faceId faces), ("response", response sent)]
  | .rejectPending target => .record [("reject_pending", name target)]

def nextAction : Node.NextAction → Document
  | .action next => action next
  | .timeout => .text "timeout"
  | .closed => .text "closed"

def stats (stats : Stats Float) : List (String × Document) :=
  [("i", word stats.requests), ("d", word stats.responses), ("cs", float stats.ratio),
    ("scs", float stats.score)]

def faceScore (score : FaceScore Float) : Document :=
  .record
    (stats score.stats ++
      [("score", float score.stats.score), ("timer", option handle score.decayTimer)])

def standing (standing : Standing Float) : Document :=
  .record
    [("destination", option coordinate standing.destination),
      ("faces",
        list (fun (face, score) => .list [faceId face, faceScore score]) standing.faces.toList)]

def records (book : ScoreBook Float) : Document :=
  list
    (fun (title, deadline) => .record
      [("name", name title), ("deadline", nanos deadline),
        ("scores", option standing (book.standing? title))])
    book.records.deadlines.toList

def destination (entry : DestinationEntry) : Document :=
  .record
    [("name", name entry.name), ("coord", coordinate entry.coordinate),
      ("parent", option nat entry.parent), ("children", list nat entry.children.toList)]

end Overhear.Report
