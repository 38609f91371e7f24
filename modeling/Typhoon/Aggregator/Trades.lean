import Typhoon.Aggregator.Schedule
import Typhoon.Provider.Forward

/-!
# The trades that an aggregator reads

The receiving loop of `main` in `src/provider/aggregator.cpp`: each message is parsed, and pushes the trades
that it holds. `std::stof` and the `get_ts` of a BITMEX build, which reads the time with Boost, are
parameters. Nothing catches what a message throws, so the aggregator ends with it; the trades of a BITMEX
message that come before a bad one are pushed all the same.

The provider between the exchange and the aggregator parses every message and writes it anew. This changes
nothing: the trades read of what it forwards are those of the payloads themselves (`tradesRead_forwarded`).
-/

namespace Typhoon.Aggregator

open Json

/-- What the receiving loop throws. -/
inductive ReadError
  /-- The exception of the JSON library. -/
  | json (e : JsonError)
  /-- The exception of `std::stof`. -/
  | stof

variable {F Price : Type*} [NumberFloat F] [PriceFloat Price F]

omit [NumberFloat F] [PriceFloat Price F] in
/-- `get_price`. -/
def getPrice (stof : List UInt8 → Option Price) (pr : List UInt8) : Except ReadError Price :=
  match stof pr with
  | some price => .ok price
  | none => .error .stof

omit [PriceFloat Price F] in
/-- The trade of a message, in a BINANCE build. -/
def binanceTrade (stof : List UInt8 → Option Price) (jmsg : Json F) : Except ReadError (Int64 × Price) :=
  match jmsg.subscript (key ['T']) with
  | .error e => .error (.json e)
  | .ok (T, jmsg) =>
    match jmsg.subscript (key ['p']) with
    | .error e => .error (.json e)
    | .ok (p, _) =>
      match p.getString with
      | .error e => .error (.json e)
      | .ok pr =>
        match getPrice stof pr with
        | .error e => .error e
        | .ok price =>
          -- The time is converted last, when `push` is called.
          match T.getLongLong with
          | .error e => .error (.json e)
          | .ok T => .ok (T, price)

omit [NumberFloat F] in
/-- The trade of an element of a message's data, in a BITMEX build. -/
def bitmexTrade (getTs : List UInt8 → Int64) (k : Json F) : Except ReadError (Int64 × Price) :=
  match k.subscript (key ['t', 'i', 'm', 'e', 's', 't', 'a', 'm', 'p']) with
  | .error e => .error (.json e)
  | .ok (timestamp, k) =>
    match k.subscript (key ['p', 'r', 'i', 'c', 'e']) with
    | .error e => .error (.json e)
    | .ok (price, _) =>
      match timestamp.getString with
      | .error e => .error (.json e)
      | .ok dt =>
        -- The price is converted last, when `push` is called.
        match price.getFloat Price with
        | .error e => .error (.json e)
        | .ok price => .ok (getTs dt, price)

omit [NumberFloat F] in
/-- The loop over the elements of a message's data: the trades pushed, and how it ends. -/
def pushEach (getTs : List UInt8 → Int64) :
    List (Json F) → List (Int64 × Price) × Except ReadError Unit
  | [] => ([], .ok ())
  | k :: ks =>
    match bitmexTrade getTs k with
    | .ok elem => (elem :: (pushEach getTs ks).1, (pushEach getTs ks).2)
    | .error e => ([], .error e)

/-- The loop body of `main` on a parsed message: the trades pushed, and how it ends. -/
def pushTrades (stof : List UInt8 → Option Price) (getTs : List UInt8 → Int64) (feed : Feed)
    (jmsg : Json F) : List (Int64 × Price) × Except ReadError Unit :=
  match feed with
  | .binance =>
    match binanceTrade stof jmsg with
    | .ok elem => ([elem], .ok ())
    | .error e => ([], .error e)
  | .bitmex =>
    match jmsg.subscript (key ['d', 'a', 't', 'a']) with
    | .ok (data, _) => pushEach getTs data.elements
    | .error e => ([], .error (.json e))

/-- The receiving loop of `main`. -/
def receiver (F : Type*) [NumberFloat F] [PriceFloat Price F] (stof : List UInt8 → Option Price)
    (getTs : List UInt8 → Int64) (feed : Feed) :
    Throwing Unit (List UInt8) (List (Int64 × Price)) ReadError where
  step _ smessage :=
    match parse (F := F) smessage with
    | .ok jmsg => pushTrades stof getTs feed jmsg
    | .error e => ([], .error (.json e))

/-- The trades that are pushed for a list of messages. -/
def tradesRead (F : Type*) [NumberFloat F] [PriceFloat Price F] (stof : List UInt8 → Option Price)
    (getTs : List UInt8 → Int64) (feed : Feed) (messages : List (List UInt8)) : List (Int64 × Price) :=
  ((receiver F stof getTs feed).run () messages).flatten

/-! ## Trades of a value that is read back -/

variable {stof : List UInt8 → Option Price} {getTs : List UInt8 → Int64}

omit [PriceFloat Price F] in
/-- The trade of a value that is read back, in a BINANCE build. -/
theorem binanceTrade_asRead {jmsg : Json F} (h : jmsg.WellFormed finite) :
    binanceTrade stof (asRead jmsg) = binanceTrade stof jmsg := by
  unfold binanceTrade
  rw [subscript_asRead _ h]
  cases hT : jmsg.subscript (key ['T']) with
  | error e => rfl
  | ok r =>
    obtain ⟨T, left⟩ := r
    obtain ⟨hwT, hleft⟩ := h.subscript ⟨['T'], rfl⟩ hT
    dsimp only [Except.map, Prod.map]
    rw [subscript_asRead _ hleft]
    cases hp : left.subscript (key ['p']) with
    | error e => rfl
    | ok r =>
      obtain ⟨hwp, -⟩ := hleft.subscript ⟨['p'], rfl⟩ hp
      dsimp only [Except.map, Prod.map]
      rw [getString_asRead hwp, getLongLong_asRead hwT]

/-- The trade of an element that is read back, in a BITMEX build. -/
theorem bitmexTrade_asRead [LawfulPriceFloat Price F] {k : Json F} (h : k.WellFormed finite) :
    (bitmexTrade getTs (asRead k) : Except ReadError (Int64 × Price)) = bitmexTrade getTs k := by
  unfold bitmexTrade
  rw [subscript_asRead _ h]
  cases ht : k.subscript (key ['t', 'i', 'm', 'e', 's', 't', 'a', 'm', 'p']) with
  | error e => rfl
  | ok r =>
    obtain ⟨timestamp, left⟩ := r
    obtain ⟨hwt, hleft⟩ := h.subscript ⟨['t', 'i', 'm', 'e', 's', 't', 'a', 'm', 'p'], rfl⟩ ht
    dsimp only [Except.map, Prod.map]
    rw [subscript_asRead _ hleft]
    cases hp : left.subscript (key ['p', 'r', 'i', 'c', 'e']) with
    | error e => rfl
    | ok r =>
      obtain ⟨hwp, -⟩ := hleft.subscript ⟨['p', 'r', 'i', 'c', 'e'], rfl⟩ hp
      dsimp only [Except.map, Prod.map]
      rw [getString_asRead hwt, getFloat_asRead hwp]

/-- The trades of elements that are read back. -/
theorem pushEach_asRead [LawfulPriceFloat Price F] {ks : List (Json F)}
    (h : ∀ k ∈ ks, k.WellFormed finite) :
    (pushEach getTs (ks.map asRead) : List (Int64 × Price) × Except ReadError Unit) =
      pushEach getTs ks := by
  induction ks with
  | nil => rfl
  | cons k ks ih =>
    obtain ⟨hk, hks⟩ := List.forall_mem_cons.1 h
    rw [List.map_cons, pushEach, pushEach, bitmexTrade_asRead hk, ih hks]

/-- The trades of a value that is read back. -/
theorem pushTrades_asRead [LawfulPriceFloat Price F] (feed : Feed) {jmsg : Json F}
    (h : jmsg.WellFormed finite) :
    pushTrades stof getTs feed (asRead jmsg) = pushTrades stof getTs feed jmsg := by
  cases feed with
  | binance => rw [pushTrades, pushTrades, binanceTrade_asRead h]
  | bitmex =>
    unfold pushTrades
    dsimp only
    rw [subscript_asRead _ h]
    cases hdata : jmsg.subscript (key ['d', 'a', 't', 'a']) with
    | error e => rfl
    | ok r =>
      obtain ⟨hw, -⟩ := h.subscript ⟨['d', 'a', 't', 'a'], rfl⟩ hdata
      dsimp only [Except.map, Prod.map]
      rw [elements_asRead hw, pushEach_asRead hw.elements]

/-! ## Behind the provider -/

/-- The trades of a message, and of the messages after it where it throws nothing. -/
theorem tradesRead_cons (feed : Feed) (message : List UInt8) (messages : List (List UInt8)) :
    tradesRead F stof getTs feed (message :: messages) =
      ((receiver F stof getTs feed).step () message).1 ++
        match ((receiver F stof getTs feed).step () message).2 with
        | .ok _ => tradesRead F stof getTs feed messages
        | .error _ => [] := by
  unfold tradesRead
  cases h : ((receiver F stof getTs feed).step () message).2 with
  | ok u => rw [Throwing.run_cons_of_ok h, List.flatten_cons]
  | error e => rw [Throwing.run_cons_of_error h, List.flatten_singleton, List.append_nil]

/-- The trades read behind the provider are those of the payloads that it gets, where an `int` holds the lengths of
their texts. -/
theorem tradesRead_forwarded [LawfulNumberFloat F] [LawfulPriceFloat Price F] (feed : Feed)
    {payloads : List (List UInt8)} (hfits : ∀ p ∈ payloads, Provider.Fits F p) :
    tradesRead F stof getTs feed (Provider.forwarded F payloads) =
      tradesRead F stof getTs feed payloads := by
  induction payloads with
  | nil => rfl
  | cons payload payloads ih =>
    obtain ⟨hfit, hrest⟩ := List.forall_mem_cons.1 hfits
    cases h : parse (F := F) payload with
    | error e =>
      -- The provider ends here, and an aggregator that got the payload would.
      rw [Provider.forwarded_cons_of_error F (Provider.onMessage_of_error F h), tradesRead_cons]
      simp only [receiver, h]
      rfl
    | ok j =>
      obtain ⟨msg, hmsg, hparse, -⟩ := Provider.onMessage_of_parse F hfit h
      have hsame : (receiver F stof getTs feed).step () msg =
          (receiver F stof getTs feed).step () payload := by
        simp only [receiver, h, hparse, pushTrades_asRead feed (text_of_parse h).wellFormed]
      rw [Provider.forwarded_cons_of_ok F hmsg, tradesRead_cons, tradesRead_cons, hsame, ih hrest]

/-- A payload with a trade at the time 7. -/
theorem tradesRead_forwarded_one :
    tradesRead Sample (fun _ => some Sample.half) (fun _ => 0) .binance
        (Provider.forwarded Sample [['\x7b', '"', 'T', '"', ':', '7', ',', '"', 'p', '"', ':', '"', '.', '5',
          '"', '\x7d'].map Char.toUInt8]) =
      tradesRead Sample (fun _ => some Sample.half) (fun _ => 0) .binance
        [['\x7b', '"', 'T', '"', ':', '7', ',', '"', 'p', '"', ':', '"', '.', '5', '"',
          '\x7d'].map Char.toUInt8] :=
  tradesRead_forwarded .binance (List.forall_mem_singleton.2 (by decide +kernel))

end Typhoon.Aggregator
