import TradingEcosystem.Messages
import TradingEcosystem.Library.Codec
import TradingEcosystem.Library.Framing

/-! The packed layouts of the messages that clients and the order server exchange. -/
namespace TradingEcosystem
open Codec Framing

namespace MEClientRequest

def codec : Codec MEClientRequest :=
  (u8.prod (u32.prod (u32.prod (u64.prod (i8.prod (i64.prod u32)))))).map
    (fun (type, clientId, tickerId, orderId, side, price, qty) =>
      { type := ⟨type⟩, clientId, tickerId, orderId, side := ⟨side⟩, price, qty })
    (fun r => (r.type.byte, r.clientId, r.tickerId, r.orderId, r.side.byte, r.price, r.qty))
    fun _ => rfl

end MEClientRequest

namespace OMClientRequest

def codec : Codec OMClientRequest :=
  (u64.prod MEClientRequest.codec).map (fun (seqNum, meClientRequest) => { seqNum, meClientRequest })
    (fun r => (r.seqNum, r.meClientRequest)) fun _ => rfl

/-- `sizeof(OMClientRequest)`. -/
def size : Nat := codec.width

example : size = 38 := rfl

end OMClientRequest

namespace ClientResponseType

def byte : ClientResponseType → UInt8
  | .INVALID => 0
  | .ACCEPTED => 1
  | .CANCELED => 2
  | .FILLED => 3
  | .CANCEL_REJECTED => 4

def ofByte (byte : UInt8) : Option ClientResponseType :=
  [INVALID, ACCEPTED, CANCELED, FILLED, CANCEL_REJECTED].find? fun type => type.byte = byte

theorem ofByte_byte (type : ClientResponseType) : ofByte type.byte = some type := by cases type <;> rfl

end ClientResponseType

namespace MEClientResponse

/-- The fields in their order, the type as its byte. -/
abbrev Fields := UInt8 × UInt32 × UInt32 × UInt64 × UInt64 × Int8 × Int64 × UInt32 × UInt32

def fieldsCodec : Codec Fields :=
  u8.prod (u32.prod (u32.prod (u64.prod (u64.prod (i8.prod (i64.prod (u32.prod u32)))))))

def fields (r : MEClientResponse) : Fields :=
  (r.type.byte, r.clientId, r.tickerId, r.clientOrderId, r.marketOrderId, r.side.byte, r.price, r.execQty, r.leavesQty)

/-- Not every byte is a type. -/
def ofFields : Fields → Option MEClientResponse
  | (type, clientId, tickerId, clientOrderId, marketOrderId, side, price, execQty, leavesQty) =>
    (ClientResponseType.ofByte type).map fun type =>
      { type, clientId, tickerId, clientOrderId, marketOrderId, side := ⟨side⟩, price, execQty, leavesQty }

def encode (r : MEClientResponse) : List UInt8 := fieldsCodec.encode r.fields

theorem ofFields_fields (r : MEClientResponse) : ofFields r.fields = some r := by
  rw [fields, ofFields, ClientResponseType.ofByte_byte]
  rfl

end MEClientResponse

namespace OMClientResponse

def fieldsCodec : Codec (UInt64 × MEClientResponse.Fields) := u64.prod MEClientResponse.fieldsCodec

/-- `sizeof(OMClientResponse)`. -/
def size : Nat := fieldsCodec.width

example : size = 50 := rfl

def decode (bytes : List UInt8) : Option OMClientResponse :=
  let (seqNum, fields) := fieldsCodec.decode bytes
  (MEClientResponse.ofFields fields).map fun meClientResponse => { seqNum, meClientResponse }

/-- The bytes of a message: its number and, behind it, the response. -/
def encode (r : OMClientResponse) : List UInt8 := u64.encode r.seqNum ++ r.meClientResponse.encode

@[simp] theorem length_encode (r : OMClientResponse) : r.encode.length = size :=
  fieldsCodec.length_encode (r.seqNum, r.meClientResponse.fields)

theorem decode_encode (r : OMClientResponse) : decode r.encode = some r := by
  have hdec : fieldsCodec.decode r.encode = (r.seqNum, r.meClientResponse.fields) :=
    fieldsCodec.decode_encode (r.seqNum, r.meClientResponse.fields)
  rw [decode, hdec]
  exact congrArg (Option.map _) (MEClientResponse.ofFields_fields _)

/-- A stream of messages, decoded frame by frame, gives the messages back. -/
theorem decode_frames (rs : List OMClientResponse) :
    (frames size (rs.flatMap encode)).map decode = rs.map some ∧
      leftover size (rs.flatMap encode) = [] := by
  obtain ⟨hframes, hrest⟩ := frames_flatMap (n := size) (by decide) length_encode rs
  rw [hframes, hrest, List.map_map]
  exact ⟨List.map_congr_left fun r _ => decode_encode r, rfl⟩

end OMClientResponse
end TradingEcosystem
