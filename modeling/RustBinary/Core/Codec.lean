import RustBinary.Core.Config
import RustBinary.Lib.Outcome

/-!
# Codecs of the values

The framed profiles wrap what another configuration serializes.  That configuration and the type
of the values come as a `PayloadCodec`, which carries that what is serialized reads back.
-/

namespace RustBinary

open Lib

/-- `serialize` and `deserialize` of a configuration, for the values of one type. -/
structure PayloadCodec (T : Type) where
  serialize : T → Outcome Error (List UInt8)
  deserialize : List UInt8 → Outcome Error T
  deserialize_serialize : ∀ value payload,
    serialize value = .ok payload → deserialize payload = .ok value

end RustBinary
