import ParticleFx.Json.Literal
import ParticleFx.Json.Malformed
import ParticleFx.Text.Quoted

namespace ParticleFx.Json

-- What stands where something else was expected.
inductive Found where
  | null
  | bool (b : Bool)
  | integer (n : Int)
  | real (x : Float)
  | string (s : String)
  | sequence
  | map
deriving DecidableEq

def Found.describe : Found → String
  | null => "null"
  | bool b => "boolean `" ++ (if b then "true" else "false") ++ "`"
  | integer n => "integer `" ++ String.ofList (Literal.ofInt n).text ++ "`"
  | real x =>
    let digits := match Literal.ofFloat? x with
      | some l => String.ofList l.text
      | none => "null"
    "floating point `" ++ digits ++ "`"
  | string s => "string " ++ Text.quoted s
  | sequence => "sequence"
  | map => "map"

-- Why a document does not describe the value that was asked for.
inductive DecodeError where
  | malformed (why : Malformed)
  | missingField (name : String)
  | duplicateField (name : String)
  | unknownField (name : String) (known : List String)
  | unknownVariant (name : String) (known : List String)
  | invalidType (found : Found) (expected : String)
  | invalidValue (n : Int) (expected : String)
  | invalidLength (length : Nat) (expected : String)
deriving DecidableEq

-- Alternatives for a message.
def oneOf : List String → String
  | [] => "there are no fields"
  | [a] => s!"expected `{a}`"
  | [a, b] => s!"expected `{a}` or `{b}`"
  | names => "expected one of " ++ ", ".intercalate (names.map fun n => s!"`{n}`")

def DecodeError.message : DecodeError → String
  | malformed why => why.message
  | missingField name => s!"missing field `{name}`"
  | duplicateField name => s!"duplicate field `{name}`"
  | unknownField name known => s!"unknown field `{name}`, " ++ oneOf known
  | unknownVariant name known => s!"unknown variant `{name}`, " ++ oneOf known
  | invalidType found expected => "invalid type: " ++ found.describe ++ ", expected " ++ expected
  | invalidValue n expected =>
    "invalid value: " ++ (Found.integer n).describe ++ ", expected " ++ expected
  | invalidLength length expected => s!"invalid length {length}, expected {expected}"

end ParticleFx.Json
