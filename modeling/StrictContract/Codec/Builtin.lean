import StrictContract.Codec

/-! # Builtin codecs — the types that have a name without any declaration -/

namespace StrictContract.Codec

/-- The **builtin** codec with a given name. -/
def builtin? : String → Option Codec
  | "U8" => some (uint 1)
  | "U16" => some (uint 2)
  | "U24" => some (uint 3)
  | "U32" => some (uint 4)
  | "U64" => some (uint 8)
  | "U128" => some (uint 16)
  | "U256" => some (uint 32)
  | "I8" => some (sint 1)
  | "I16" => some (sint 2)
  | "I32" => some (sint 4)
  | "I64" => some (sint 8)
  | "Bool" => some bool
  | "Unit" => some unit
  | "Unicode" => some unicode
  | _ => none

end StrictContract.Codec
