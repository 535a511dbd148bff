import Overhear.Document.Codec
import Overhear.Packet
import Overhear.Timers

/-! Documents for a reader of reports: values are shown in their text form where they have one, spans
in nanoseconds, and what is absent as null. Nothing is read back from them. -/
namespace Overhear.Report

def nat (value : Nat) : Document := .int value

def float (value : Float) : Document := .float value.toBits

/-- A number of nanoseconds as text, since it may be more than 64 bits hold. -/
def nanos (span : Nanos) : Document := .text (toString span)

def option {α : Type} (report : α → Document) : Option α → Document
  | some value => report value
  | none => .null

def list {α : Type} (report : α → Document) (values : List α) : Document :=
  .list (values.map report)

def word (value : UInt64) : Document := nat value.toNat

def name (name : Name) : Document := .text name.text

def faceId (face : FaceId) : Document := nat face.number

def handle (handle : Handle) : Document := nat handle.number

def coordinate (place : Coordinate) : Document :=
  .list [.float place.latitude.bits, .float place.longitude.bits]

def tag (tag : LocationTag) : Document :=
  .record
    [("my", coordinate tag.own), ("prev", coordinate tag.previous),
      ("dest", coordinate tag.destination)]

def request (request : Request) : Document :=
  .record
    [("name", name request.name), ("nonce", nat request.nonce), ("hops", option nat request.hops),
      ("loc", option tag request.tag), ("text", .text request.text)]

def response (response : Response) : Document :=
  .record
    [("name", name response.name), ("announced", option name response.announced),
      ("loc", option tag response.tag)]

def pending (pending : Pending) : Document :=
  .record
    [("name", name pending.name),
      ("downstream", list (fun face => .text face.text) pending.downstream)]

end Overhear.Report
