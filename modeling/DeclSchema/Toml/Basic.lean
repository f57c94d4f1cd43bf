import DeclSchema.Decimal.Reading
import DeclSchema.Table

/-! # Values of settings files

The values that a TOML document is made of. Settings from other sources take the same form.
A date or time is its normal text.
-/
namespace DeclSchema

inductive Toml
  | boolean (value : Bool)
  | integer (value : Int)
  | float (value : Decimal.Double)
  | string (value : String)
  | array (items : List Toml)
  | table (entries : List (String × Toml))
  /-- An item of a list that was never written. -/
  | absent

namespace Toml

def isPlain (c : Char) : Bool := c == '\t' || (0x20 ≤ c.toNat && c.toNat != 0x7F)

def isSpace (c : Char) : Bool := c == ' ' || c == '\t'

abbrev Reading (α : Type) := Option (α × List Char)

def afterLineEnd? : List Char → Option (List Char)
  | '\n' :: rest => some rest
  | '\r' :: '\n' :: rest => some rest
  | _ => none

end Toml
end DeclSchema
