import RustBinary.Lib.Ans
import RustBinary.Lib.Bytes
import RustBinary.Lib.Limbs
import RustBinary.Entropy.Model

/-!
# The rANS coder

The encoder flushes words of 16 bits in front of a symbol, the decoder takes them back from the
end of the payload when the next symbol is asked for.  Arithmetic on the 64-bit state is
checked.
-/

namespace RustBinary.Entropy

open Lib Lib.Outcome

/-- rANS state lower bound. -/
def ransL : ℕ := 2 ^ 31

/-! ## The encoder -/

/-- Forward rANS encoder. -/
structure RansEncoder where
  state : ℕ
  bytes : List UInt8
deriving DecidableEq, Repr

namespace RansEncoder

def new : RansEncoder := ⟨ransL, []⟩

/-- Flushes words while the state is too large for `freq`; four rounds empty a 64-bit state. -/
def flush : ℕ → ℕ → RansEncoder → Outcome Error RansEncoder
  | 0, _, _ => .diverge
  | n + 1, freq, e =>
      if freq <<< 32 ≤ e.state then
        flush n freq { state := e.state >>> 16, bytes := e.bytes ++ leBytes 2 e.state }
      else .ok e

/-- `RansEncoder::put_symbol`. -/
def putSymbol (e : RansEncoder) (model : Model) (symbol : ℕ) : Outcome Error RansEncoder := do
  let freq := model.freq symbol
  if freq = 0 then .err (.entropy "symbol outside the model alphabet")
  else
    let cum := model.cum symbol
    let e ← flush 5 freq e
    let quotient := e.state / freq
    let remainder := e.state % freq
    let state ← checked 64 (quotient * ransM + cum + remainder)
    .ok { e with state := state }

end RansEncoder

/-- Encodes the symbols in order, each with its model. -/
def putSymbols : List (Model × ℕ) → RansEncoder → Outcome Error RansEncoder
  | [], e => .ok e
  | (model, symbol) :: rest, e => do
      let e ← e.putSymbol model symbol
      putSymbols rest e

/-! ## The decoder -/

/-- Reverse-order rANS decoder over a payload. -/
structure RansDecoder where
  state : ℕ
  bytes : List UInt8
  pos : ℕ
deriving DecidableEq, Repr

namespace RansDecoder

def new (finalState : ℕ) (payload : List UInt8) : RansDecoder :=
  ⟨finalState, payload, payload.length⟩

/-- The loop of `renorm`: every round moves the position down. -/
def renormLoop : ℕ → RansDecoder → Outcome Error RansDecoder
  | 0, _ => .diverge
  | n + 1, d =>
      if d.state < ransL then
        if d.pos < 2 then .err (.entropy "truncated rANS payload")
        else
          let word := leNat ((d.bytes.drop (d.pos - 2)).take 2)
          renormLoop n { d with state := d.state <<< 16 ||| word, pos := d.pos - 2 }
      else .ok d

/-- `RansDecoder::renorm`. -/
def renorm (d : RansDecoder) : Outcome Error RansDecoder := renormLoop (d.pos + 1) d

/-- `RansDecoder::get_symbol`. -/
def getSymbol (d : RansDecoder) (model : Model) : Outcome Error (ℕ × RansDecoder) := do
  let d ← d.renorm
  let slot := d.state % ransM
  let symbol ← model.symbolForSlot slot
  let freq := model.freq symbol
  let cum := model.cum symbol
  let quotient := d.state / ransM
  let sum ← checked 64 (quotient * freq + slot)
  if cum ≤ sum then .ok (symbol, { d with state := sum - cum }) else .panic

/-- `RansDecoder::finish`. -/
def finish (d : RansDecoder) : Outcome Error Unit :=
  if d.state ≠ ransL then .err (.entropy "rANS final state did not verify")
  else if d.pos ≠ 0 then .err (.entropy "trailing bytes in rANS payload")
  else .ok ()

end RansDecoder

/-- Decodes one symbol with each model, in this order. -/
def getSymbols : List Model → RansDecoder → Outcome Error (List ℕ × RansDecoder)
  | [], d => .ok ([], d)
  | model :: rest, d => do
      let (symbol, d) ← d.getSymbol model
      let (symbols, d) ← getSymbols rest d
      .ok (symbol :: symbols, d)

end RustBinary.Entropy
