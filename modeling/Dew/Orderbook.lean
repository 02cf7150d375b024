/-
# The orderbook module

The limit orderbook keeps its state in storage slots of the system account `0x101`: the orders, the
escrow accounts of the makers, their counts of open orders, and for each token and side an index of
the open orders. The methods are programs over the state database interface, in the order of reads
and writes of the source; like the staking module they write through `SetState`. The module only
keeps accounts: the assets are moved by the precompile.
-/
import Dew.Staking

namespace Dew

/-- `OrderbookModuleAddr` -/
def orderbookModuleAddr : Address := 0x101

abbrev U8 := BitVec 8

/-- `OrderSideBuy` -/
def orderSideBuy : U8 := 0

/-- `OrderSideSell` -/
def orderSideSell : U8 := 1

/-- `OrderStatusOpen` -/
def orderStatusOpen : U8 := 0

/-- `OrderStatusFilled` -/
def orderStatusFilled : U8 := 1

/-- `OrderStatusCancelled` -/
def orderStatusCancelled : U8 := 2

/-- `OrderbookMaxOpenPerMaker` -/
def orderbookMaxOpenPerMaker : U64 := 64

/-- A resting limit order. -/
structure Order where
  id : U64
  maker : Address
  baseToken : Address
  side : U8
  priceX18 : U256
  baseOpen : U256
  baseOrig : U256
  createdAt : U64
  status : U8
deriving DecidableEq, Repr

/-- What a cancelled order gives back. -/
structure Refund where
  quote : U256
  base : U256
  token : Address
  side : U8
deriving DecidableEq, Repr

/-- Errors of the orderbook module, by their texts. -/
inductive OrderbookError where
  | zeroMaker
  | zeroPrice
  | zeroBaseAmount
  | maxOpenOrders
  | zeroBaseToken
  | zeroQuoteLock
  | orderNotFound
  | orderNotOpen
  | notMaker
  | escrowQuoteUnderflow
  | escrowBaseUnderflow
  | zeroTaker
  | zeroFillAmount
deriving DecidableEq, Repr

def OrderbookError.text : OrderbookError → String
  | zeroMaker => "orderbook: zero maker"
  | zeroPrice => "orderbook: zero price"
  | zeroBaseAmount => "orderbook: zero base amount"
  | maxOpenOrders => "orderbook: max open orders per maker (64)"
  | zeroBaseToken => "orderbook: zero base token"
  | zeroQuoteLock => "orderbook: quote lock is zero"
  | orderNotFound => "orderbook: order not found"
  | orderNotOpen => "orderbook: order not open"
  | notMaker => "orderbook: not maker"
  | escrowQuoteUnderflow => "orderbook: escrow quote underflow"
  | escrowBaseUnderflow => "orderbook: escrow base underflow"
  | zeroTaker => "orderbook: zero taker"
  | zeroFillAmount => "orderbook: zero fill amount"

namespace Orderbook

/-- `oneE18` -/
def oneE18 : ℕ := 10 ^ 18

/-- `QuoteFloor`: the value of `base` at a price, rounded down; it wraps at 256 bits. -/
def quoteFloor (base priceX18 : U256) : U256 :=
  if base = 0 ∨ priceX18 = 0 then 0
  else BitVec.ofNat 256 (base.toNat * priceX18.toNat / oneE18)

/-- `QuoteLockCeil`: the value of `base` at a price, rounded up; it wraps at 256 bits. -/
def quoteLockCeil (base priceX18 : U256) : U256 :=
  if base = 0 ∨ priceX18 = 0 then 0
  else BitVec.ofNat 256 ((base.toNat * priceX18.toNat + (oneE18 - 1)) / oneE18)

/-! ## Slots -/

def nextIDSlot : Hash := slotHash [ascii "dew/ob/v1/nextId"]
def orderSlot (id : U64) (field : UInt8) : Hash :=
  slotHash [ascii "dew/ob/v1/order", u64BE id, [field]]
def openCountSlot (maker : Address) : Hash := slotHash [ascii "dew/ob/v1/openCount", maker.bytes]
def escrowQSlot (maker : Address) : Hash := slotHash [ascii "dew/ob/v1/escrowQ", maker.bytes]
def escrowBSlot (maker token : Address) : Hash :=
  slotHash [ascii "dew/ob/v1/escrowB", maker.bytes, token.bytes]
def openLenSlot (token : Address) (side : U8) : Hash :=
  slotHash [ascii "dew/ob/v1/openLen", token.bytes, [UInt8.ofBitVec side]]
def openAtSlot (token : Address) (side : U8) (idx : U64) : Hash :=
  slotHash [ascii "dew/ob/v1/openAt", token.bytes, [UInt8.ofBitVec side], u64BE idx]

def getU256 (slot : Hash) : StateProgram U256 :=
  (Op.getState ⟨orderbookModuleAddr, slot⟩).call

def setU256 (slot : Hash) (v : U256) : StateProgram Unit :=
  (Op.setState ⟨orderbookModuleAddr, slot⟩ v).call

/-- The low 64 bits of a word. -/
def getU64 (slot : Hash) : StateProgram U64 := do
  let v ← getU256 slot
  return v.setWidth 64

def setU64 (slot : Hash) (v : U64) : StateProgram Unit :=
  setU256 slot (v.setWidth 256)

/-! ## Counters and escrow -/

def openCount (maker : Address) : StateProgram U64 :=
  getU64 (openCountSlot maker)

def escrowQuote (maker : Address) : StateProgram U256 :=
  getU256 (escrowQSlot maker)

def escrowBase (maker token : Address) : StateProgram U256 :=
  getU256 (escrowBSlot maker token)

def nextOrderID : StateProgram U64 := do
  let cur ← getU64 nextIDSlot
  setU64 nextIDSlot (cur + 1)
  return cur + 1

def incOpenCount (maker : Address) : StateProgram (Except OrderbookError Unit) := do
  let n ← openCount maker
  if orderbookMaxOpenPerMaker ≤ n then return .error .maxOpenOrders
  setU64 (openCountSlot maker) (n + 1)
  return .ok ()

def decOpenCount (maker : Address) : StateProgram Unit := do
  let n ← openCount maker
  if n = 0 then return ()
  setU64 (openCountSlot maker) (n - 1)

def addEscrowQ (maker : Address) (amt : U256) : StateProgram Unit := do
  let cur ← escrowQuote maker
  setU256 (escrowQSlot maker) (cur + amt)

def subEscrowQ (maker : Address) (amt : U256) : StateProgram (Except OrderbookError Unit) := do
  let cur ← escrowQuote maker
  if cur < amt then return .error .escrowQuoteUnderflow
  setU256 (escrowQSlot maker) (cur - amt)
  return .ok ()

def addEscrowB (maker token : Address) (amt : U256) : StateProgram Unit := do
  let cur ← escrowBase maker token
  setU256 (escrowBSlot maker token) (cur + amt)

def subEscrowB (maker token : Address) (amt : U256) :
    StateProgram (Except OrderbookError Unit) := do
  let cur ← escrowBase maker token
  if cur < amt then return .error .escrowBaseUnderflow
  setU256 (escrowBSlot maker token) (cur - amt)
  return .ok ()

/-! ## Orders -/

/-- The header word: maker, side and status, two unused bytes, and the block of creation. -/
def packHeader (o : Order) : Hash :=
  o.maker ++ o.side ++ o.status ++ 0#16 ++ o.createdAt

def headerMaker (hdr : Hash) : Address := hdr.extractLsb' 96 160
def headerSide (hdr : Hash) : U8 := hdr.extractLsb' 88 8
def headerStatus (hdr : Hash) : U8 := hdr.extractLsb' 80 8
def headerCreatedAt (hdr : Hash) : U64 := hdr.extractLsb' 0 64

def writeOrder (o : Order) : StateProgram Unit := do
  setU256 (orderSlot o.id 0) (packHeader o)
  setU256 (orderSlot o.id 1) (o.baseToken.setWidth 256)
  setU256 (orderSlot o.id 2) o.priceX18
  setU256 (orderSlot o.id 3) o.baseOpen
  setU256 (orderSlot o.id 4) o.baseOrig

/-- `GetOrder`: none for an identifier that was never assigned, or whose words are all blank. -/
def getOrder (id : U64) : StateProgram (Option Order) :=
  if id = 0 then pure none
  else do
    let next ← getU64 nextIDSlot
    if next < id then return none
    let hdr ← getU256 (orderSlot id 0)
    let token ← getU256 (orderSlot id 1)
    let price ← getU256 (orderSlot id 2)
    let open' ← getU256 (orderSlot id 3)
    let orig ← getU256 (orderSlot id 4)
    if orig = 0 ∧ open' = 0 ∧ price = 0 ∧ headerMaker hdr = 0 then return none
    return some
      { id := id
        maker := headerMaker hdr
        baseToken := token.setWidth 160
        side := headerSide hdr
        priceX18 := price
        baseOpen := open'
        baseOrig := orig
        createdAt := headerCreatedAt hdr
        status := headerStatus hdr }

/-! ## The index of open orders -/

def addOpenIndex (token : Address) (side : U8) (id : U64) : StateProgram Unit := do
  let n ← getU64 (openLenSlot token side)
  setU64 (openAtSlot token side n) id
  setU64 (openLenSlot token side) (n + 1)

/-- The loop of `removeOpenIndex` from position `i` on, with `fuel` positions left: the order found
is replaced by the last one. -/
def removeOpenFrom (token : Address) (side : U8) (id n : U64) : ℕ → U64 → StateProgram Unit
  | 0, _ => pure ()
  | fuel + 1, i => do
    let at' ← getU64 (openAtSlot token side i)
    if at' = id then
      if i ≠ n - 1 then
        let last ← getU256 (openAtSlot token side (n - 1))
        setU256 (openAtSlot token side i) last
      setU64 (openAtSlot token side (n - 1)) 0
      setU64 (openLenSlot token side) (n - 1)
    else removeOpenFrom token side id n fuel (i + 1)

def removeOpenIndex (token : Address) (side : U8) (id : U64) : StateProgram Unit := do
  let n ← getU64 (openLenSlot token side)
  removeOpenFrom token side id n n.toNat 0

/-! ## Placing, cancelling and filling -/

def validatePlace (maker : Address) (price baseAmt : U256) :
    StateProgram (Except OrderbookError Unit) :=
  if maker = 0 then pure (.error .zeroMaker)
  else if price = 0 then pure (.error .zeroPrice)
  else if baseAmt = 0 then pure (.error .zeroBaseAmount)
  else incOpenCount maker

/-- The order that a placement records. -/
def newOrder (id : U64) (maker token : Address) (side : U8) (price baseAmt : U256)
    (blockNum : U64) : Order where
  id := id
  maker := maker
  baseToken := token
  side := side
  priceX18 := price
  baseOpen := baseAmt
  baseOrig := baseAmt
  createdAt := blockNum
  status := orderStatusOpen

/-- `PlaceBuy`, returning the identifier and the quote amount that is locked. -/
def placeBuy (maker token : Address) (price baseAmt : U256) (blockNum : U64) :
    StateProgram (Except OrderbookError (U64 × U256)) := do
  match ← validatePlace maker price baseAmt with
  | .error e => return .error e
  | .ok () =>
    if token = 0 then
      decOpenCount maker
      return .error .zeroBaseToken
    let quoteLock := quoteLockCeil baseAmt price
    if quoteLock = 0 then
      decOpenCount maker
      return .error .zeroQuoteLock
    let id ← nextOrderID
    writeOrder (newOrder id maker token orderSideBuy price baseAmt blockNum)
    addEscrowQ maker quoteLock
    addOpenIndex token orderSideBuy id
    return .ok (id, quoteLock)

def placeSell (maker token : Address) (price baseAmt : U256) (blockNum : U64) :
    StateProgram (Except OrderbookError U64) := do
  match ← validatePlace maker price baseAmt with
  | .error e => return .error e
  | .ok () =>
    if token = 0 then
      decOpenCount maker
      return .error .zeroBaseToken
    let id ← nextOrderID
    writeOrder (newOrder id maker token orderSideSell price baseAmt blockNum)
    addEscrowB maker token baseAmt
    addOpenIndex token orderSideSell id
    return .ok id

/-- The escrow that a cancelled order releases. -/
def releaseEscrow (o : Order) : StateProgram (Except OrderbookError Refund) :=
  if o.side = orderSideBuy then do
    let q := quoteLockCeil o.baseOpen o.priceX18
    let esc ← escrowQuote o.maker
    let q := if esc < q then esc else q
    match ← subEscrowQ o.maker q with
    | .error e => return .error e
    | .ok () => return .ok ⟨q, 0, o.baseToken, o.side⟩
  else do
    match ← subEscrowB o.maker o.baseToken o.baseOpen with
    | .error e => return .error e
    | .ok () => return .ok ⟨0, o.baseOpen, o.baseToken, o.side⟩

def cancel (actor : Address) (id : U64) : StateProgram (Except OrderbookError Refund) := do
  match ← getOrder id with
  | none => return .error .orderNotFound
  | some o =>
    if o.status ≠ orderStatusOpen then return .error .orderNotOpen
    if o.maker ≠ actor then return .error .notMaker
    match ← releaseEscrow o with
    | .error e => return .error e
    | .ok refund =>
      writeOrder { o with status := orderStatusCancelled, baseOpen := 0 }
      decOpenCount o.maker
      removeOpenIndex o.baseToken o.side id
      return .ok refund

/-- `Fill`, returning the base filled and the quote paid. The residue that rounding leaves in the
escrow of a filled buy order stays there. -/
def fill (taker : Address) (id : U64) (maxBase : U256) :
    StateProgram (Except OrderbookError (U256 × U256)) :=
  if taker = 0 then pure (.error .zeroTaker)
  else if maxBase = 0 then pure (.error .zeroFillAmount)
  else do
    match ← getOrder id with
    | none => return .error .orderNotFound
    | some o =>
      if o.status ≠ orderStatusOpen then return .error .orderNotOpen
      let baseFilled := if o.baseOpen < maxBase then o.baseOpen else maxBase
      let quotePaid := quoteFloor baseFilled o.priceX18
      let released ←
        if o.side = orderSideBuy then subEscrowQ o.maker quotePaid
        else subEscrowB o.maker o.baseToken baseFilled
      match released with
      | .error e => return .error e
      | .ok () =>
        let remaining := o.baseOpen - baseFilled
        if remaining = 0 then
          decOpenCount o.maker
          removeOpenIndex o.baseToken o.side id
          writeOrder { o with status := orderStatusFilled, baseOpen := remaining }
        else writeOrder { o with baseOpen := remaining }
        return .ok (baseFilled, quotePaid)

/-! ## Best prices -/

/-- Whether a price and identifier beat the best found so far. -/
def beats (preferHigh : Bool) (price : U256) (id : U64) (best : U256 × U64) : Bool :=
  if preferHigh then decide (best.1 < price) || (price = best.1 && decide (id < best.2))
  else decide (price < best.1) || (price = best.1 && decide (id < best.2))

/-- The loop of `best` from position `i` on, with `fuel` positions left. -/
def bestFrom (token : Address) (side : U8) (preferHigh : Bool) :
    ℕ → U64 → Option (U256 × U64) → StateProgram (Option (U256 × U64))
  | 0, _, best => pure best
  | fuel + 1, i, best => do
    let id ← getU64 (openAtSlot token side i)
    let order ← getOrder id
    let best :=
      match order with
      | none => best
      | some o =>
        if o.status ≠ orderStatusOpen then best
        else
          match best with
          | none => some (o.priceX18, id)
          | some b => if beats preferHigh o.priceX18 id b then some (o.priceX18, id) else some b
    bestFrom token side preferHigh fuel (i + 1) best

def best (token : Address) (side : U8) (preferHigh : Bool) :
    StateProgram (Option (U256 × U64)) := do
  let n ← getU64 (openLenSlot token side)
  bestFrom token side preferHigh n.toNat 0 none

def bestBid (token : Address) : StateProgram (Option (U256 × U64)) :=
  best token orderSideBuy true

def bestAsk (token : Address) : StateProgram (Option (U256 × U64)) :=
  best token orderSideSell false

end Orderbook

end Dew
