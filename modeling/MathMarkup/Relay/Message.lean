import MathMarkup.Record.Reader

/-!
# Messages of the relay

What clients send and what they are sent, as JSON objects told apart by their member `event`.
-/

namespace MathMarkup.Relay

open Json

/-! ## From clients -/

/-- What a client asks for. -/
inductive Inbound where
  /-- Send these steps; without an identifier the request is given one. -/
  | request (session : String) (requestId : Option String) (steps : List Step)
  | disconnect (session : String)
deriving DecidableEq, Repr

namespace Inbound

def session : Inbound → String
  | request session _ _ => session
  | disconnect session => session

/-- What a request is made of. -/
structure Request where
  session : String := ""
  requestId : Option String := none
  steps : List Step := []

/-- The fields of a request, in the order in which a list gives them. -/
def requestFields : List (Decoder.Field Request) := [
  .of "session" true Decoder.string fun r v => { r with session := v },
  .of "requestId" false (Decoder.optional Decoder.string) fun r v => { r with requestId := v },
  .of "steps" true (Decoder.list Step.decoder) fun r v => { r with steps := v }]

def requestDecoder : Decoder Inbound := fun source d =>
  (Decoder.record "struct variant Inbound::RequestMath" requestFields {} source d).map fun r =>
    request r.session r.requestId r.steps

def disconnectDecoder : Decoder Inbound := fun source d =>
  (Decoder.record "struct variant Inbound::Disconnect"
    [.of "session" true Decoder.string fun _ v => v] "" source d).map disconnect

def decoder : Decoder Inbound :=
  Decoder.tagged "internally tagged enum Inbound" "event"
    [("request_math", requestDecoder), ("disconnect", disconnectDecoder)]

end Inbound

/-! ## To clients -/

/-- What a client is sent. -/
inductive Outbound where
  | step (session : String) (record : Record)
  | complete (session requestId : String) (emitted : Nat)
  | superseded (session requestId : String) (emitted : Nat)
  /-- A message could not be read. -/
  | refused (fault : Json.Fault)
deriving DecidableEq, Repr

namespace Outbound

/-- The session a message is for; a refusal is for none. -/
def session? : Outbound → Option String
  | step session _ => some session
  | complete session _ _ => some session
  | superseded session _ _ => some session
  | refused _ => none

/-- The end of a request, by the name of the event. -/
def ended (event session requestId : String) (emitted : Nat) : Json :=
  .object [("event", .string event), ("session", .string session), ("requestId", .string requestId),
    ("emitted", .ofNat emitted)]

def toJson : Outbound → Json
  | step session record =>
    .object (("event", .string "display_step") :: ("session", .string session) :: record.members)
  | complete session requestId emitted => ended "request_complete" session requestId emitted
  | superseded session requestId emitted => ended "request_superseded" session requestId emitted
  | refused fault =>
    .object [("event", .string "error"), ("message", .string ("invalid message: " ++ fault.message))]

end Outbound

end MathMarkup.Relay
