import CodeAtlas.Binary64
import CodeAtlas.Keyed
/-!
Values of the configuration language TOML.
-/

namespace CodeAtlas

/-- A TOML value. Dates and times are told apart from other values and not looked into. -/
inductive Toml where
  | str (value : String)
  | int (value : Int)
  | float (value : Binary64)
  | bool (value : Bool)
  | datetime
  | arr (items : List Toml)
  | table (entries : List (String × Toml))
deriving Repr, Inhabited

namespace Toml

def isTable : Toml → Bool
  | table _ => true
  | _ => false

/-! ## Characters -/

def isBlank (c : Char) : Bool := c == ' ' || c == '\t'

/-- Whether a character may stand in a comment or a text: no control character except the
tab. -/
def isPlain (c : Char) : Bool := c == '\t' || (c.toNat ≥ 0x20 && c != '\x7f')

/-- Whether a character may stand in a key without quotes. -/
def isBare (c : Char) : Bool := c.isAlphanum || c == '_' || c == '-'

end Toml

end CodeAtlas
