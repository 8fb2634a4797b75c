import TradingEcosystem.Types

/-! The records of `client_request.h`, `client_response.h` and `market_update.h`. -/
namespace TradingEcosystem

/-- `enum class ClientRequestType : uint8_t`; a decoded request may hold any byte. -/
structure ClientRequestType where
  byte : UInt8
  deriving DecidableEq, Repr

namespace ClientRequestType
def INVALID : ClientRequestType := ⟨0⟩
def NEW : ClientRequestType := ⟨1⟩
def CANCEL : ClientRequestType := ⟨2⟩
end ClientRequestType

def clientRequestTypeToString (type : ClientRequestType) : String :=
  if type = .NEW then "NEW" else if type = .CANCEL then "CANCEL"
  else if type = .INVALID then "INVALID" else "UNKNOWN"

structure MEClientRequest where
  type : ClientRequestType := .INVALID
  clientId : ClientId := clientIdInvalid
  tickerId : TickerId := tickerIdInvalid
  orderId : OrderId := orderIdInvalid
  side : Side := .INVALID
  price : Price := priceInvalid
  qty : Qty := qtyInvalid
  deriving DecidableEq, Repr

def MEClientRequest.toString (r : MEClientRequest) : String :=
  "MEClientRequest " ++ " [ " ++ " Type: " ++ clientRequestTypeToString r.type ++ " Client: " ++ clientIdToString r.clientId ++
    " Ticker: " ++ tickerIdToString r.tickerId ++ " Order id : " ++ orderIdToString r.orderId ++
    " Side: " ++ sideToString r.side ++ " Qty: " ++ qtyToString r.qty ++ " Price: " ++ priceToString r.price ++ " ] "

structure OMClientRequest where
  seqNum : UInt64 := 0
  meClientRequest : MEClientRequest := {}
  deriving DecidableEq, Repr

inductive ClientResponseType where
  | INVALID | ACCEPTED | CANCELED | FILLED | CANCEL_REJECTED
  deriving DecidableEq, Repr

def clientResponseTypeToString : ClientResponseType → String
  | .ACCEPTED => "ACCEPTED"
  | .CANCELED => "CANCELED"
  | .FILLED => "FILLED"
  | .CANCEL_REJECTED => "CANCEL_REJECTED"
  | .INVALID => "INVALID"

structure MEClientResponse where
  type : ClientResponseType := .INVALID
  clientId : ClientId := clientIdInvalid
  tickerId : TickerId := tickerIdInvalid
  clientOrderId : OrderId := orderIdInvalid
  marketOrderId : OrderId := orderIdInvalid
  side : Side := .INVALID
  price : Price := priceInvalid
  execQty : Qty := qtyInvalid
  leavesQty : Qty := qtyInvalid
  deriving DecidableEq, Repr

def MEClientResponse.toString (r : MEClientResponse) : String :=
  "MEClientResponse" ++ " [ " ++ " Type: " ++ clientResponseTypeToString r.type ++ " Client: " ++ clientIdToString r.clientId ++
    " Ticker " ++ tickerIdToString r.tickerId ++ " Client order id: " ++ orderIdToString r.clientOrderId ++
    " Market order id: " ++ orderIdToString r.marketOrderId ++ " Side: " ++ sideToString r.side ++
    " Executed qty: " ++ qtyToString r.execQty ++ " Leaves qty: " ++ qtyToString r.leavesQty ++
    " Price: " ++ priceToString r.price ++ " ] "

structure OMClientResponse where
  seqNum : UInt64 := 0
  meClientResponse : MEClientResponse := {}
  deriving DecidableEq, Repr

inductive MEMarketUpdateType where
  | INVALID | CLEAR | ADD | MODIFY | CANCEL | TRADE | SNAPSHOT_START | SNAPSHOT_END
  deriving DecidableEq, Repr

def marketUpdateTypeToString : MEMarketUpdateType → String
  | .ADD => "ADD"
  | .CLEAR => "CLEAR"
  | .MODIFY => "MODIFY"
  | .CANCEL => "CANCEL"
  | .TRADE => "TRADE"
  | .SNAPSHOT_START => "SNAPSHOT_START"
  | .SNAPSHOT_END => "SNAPSHOT_END"
  | .INVALID => "INVALID"

structure MEMarketUpdate where
  type : MEMarketUpdateType := .INVALID
  orderId : OrderId := orderIdInvalid
  tickerId : TickerId := tickerIdInvalid
  side : Side := .INVALID
  price : Price := priceInvalid
  qty : Qty := qtyInvalid
  priority : Priority := priorityInvalid
  deriving DecidableEq, Repr

def MEMarketUpdate.toString (u : MEMarketUpdate) : String :=
  "MEMarketUpdate: " ++ " [ " ++ " Type: " ++ marketUpdateTypeToString u.type ++ " Ticker: " ++ tickerIdToString u.tickerId ++
    " Order_id: " ++ orderIdToString u.orderId ++ " Side: " ++ sideToString u.side ++ " Qty: " ++ qtyToString u.qty ++
    " Price: " ++ priceToString u.price ++ " Priority: " ++ priorityToString u.priority ++ " ] "

instance : Inhabited MEClientRequest := ⟨{}⟩
instance : Inhabited MEClientResponse := ⟨{}⟩

/-- A message with the number of the `add` call whose order it is about. The number
is proof-only: nothing the program computes depends on it. -/
structure Report (M : Type) where
  about : Option Nat
  msg : M
  deriving DecidableEq, Repr

end TradingEcosystem
