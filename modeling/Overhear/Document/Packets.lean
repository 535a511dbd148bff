import Overhear.Document.Codec
import Overhear.Packet
import Overhear.Score.Stats
import Overhear.Timers

/-! How names, faces, positions, packets and statistics are kept in documents. -/
namespace Overhear.Codec

/-- Names are lists of components, which are taken as they are. -/
def name : Codec Name := text.list.via Name.mk Name.components

def faceId : Codec FaceId := word.via FaceId.mk FaceId.number

def handle : Codec Handle := word.via Handle.mk Handle.number

def link : Codec Link :=
  choice [("PointToPoint", .pointToPoint), ("Broadcast", .broadcast), ("Other", .other)]

def face : Codec Face where
  read document := do
    let [id, kind] ← document.fields ["id", "link_type"] | none
    return ⟨← faceId.required id, ← link.required kind⟩
  write face := .record [("id", faceId.write face.id), ("link_type", link.write face.link)]

def hop : Codec Hop where
  read document := do
    let [target, cost] ← document.fields ["face", "cost"] | none
    return ⟨← face.required target, ← word.required cost⟩
  write hop := .record [("face", face.write hop.face), ("cost", word.write hop.cost)]

def degrees : Codec Degrees := floatBits.via Degrees.mk Degrees.bits

def coordinate : Codec Coordinate where
  read document := do
    let [latitude, longitude] ← document.fields ["latitude", "longitude"] | none
    return ⟨← degrees.required latitude, ← degrees.required longitude⟩
  write place := .record
    [("latitude", degrees.write place.latitude), ("longitude", degrees.write place.longitude)]

def distanceModel : Codec DistanceModel :=
  choice [("Planar", .planar), ("Haversine", .haversine)]

def tag : Codec LocationTag where
  read document := do
    let [own, previous, destination] ←
      document.fields ["my_location", "prev_location", "dest_location"] | none
    return ⟨← coordinate.required own, ← coordinate.required previous,
      ← coordinate.required destination⟩
  write tag := .record
    [("my_location", coordinate.write tag.own), ("prev_location", coordinate.write tag.previous),
      ("dest_location", coordinate.write tag.destination)]

def request : Codec Request where
  read document := do
    let [title, nonce, hops, location] ←
      document.fields ["name", "nonce", "hop_count", "location"] | none
    return ⟨← name.required title, ← (natBelow (Nat.pow 2 32)).required nonce,
      ← (natBelow (Nat.pow 2 8)).optional hops, ← tag.optional location⟩
  write request := .record
    [("name", name.write request.name), ("nonce", word.write request.nonce),
      ("hop_count", word.option.write request.hops), ("location", tag.option.write request.tag)]

def response : Codec Response where
  read document := do
    let [title, announced, location] ←
      document.fields ["name", "announced_name", "location"] | none
    return ⟨← name.required title, ← name.optional announced, ← tag.optional location⟩
  write response := .record
    [("name", name.write response.name), ("announced_name", name.option.write response.announced),
      ("location", tag.option.write response.tag)]

def nackReason : Codec NackReason :=
  choice [("Congestion", .congestion), ("Duplicate", .duplicate), ("NoRoute", .noRoute),
    ("Unspecified", .unspecified)]

def nack : Codec Nack where
  read document := do
    let [title, reason] ← document.fields ["name", "reason"] | none
    return ⟨← name.required title, ← nackReason.required reason⟩
  write nack := .record
    [("name", name.write nack.name), ("reason", nackReason.write nack.reason)]

def pending : Codec Pending where
  read document := do
    let [title, downstream] ← document.fields ["name", "downstream"] | none
    return ⟨← name.required title, ← face.list.required downstream⟩
  write pending := .record
    [("name", name.write pending.name), ("downstream", face.list.write pending.downstream)]

def stats : Codec (Stats Float) where
  read document := do
    let [requests, responses, ratio, score] ←
      document.fields ["interest_count", "data_count", "cs", "scs"] | none
    return ⟨← word64.required requests, ← word64.required responses, ← float.required ratio,
      ← float.required score⟩
  write stats := .record
    [("interest_count", word64.write stats.requests), ("data_count", word64.write stats.responses),
      ("cs", float.write stats.ratio), ("scs", float.write stats.score)]

end Overhear.Codec
