namespace ParticleFx.Json

-- Why a text is not a document.
inductive Malformed where
  | endInList
  | endInObject
  | endInString
  | endInValue
  | expectedColon
  | expectedListEnd
  | expectedObjectEnd
  | expectedIdent
  | expectedValue
  | invalidEscape
  | invalidNumber
  | numberOutOfRange
  | controlCharacter
  | keyNotString
  | loneSurrogate
  | hexEscapeCut
  | trailingComma
  | trailingCharacters
  | tooDeep
  | isDirectory
deriving DecidableEq

def Malformed.message : Malformed → String
  | endInList => "EOF while parsing a list"
  | endInObject => "EOF while parsing an object"
  | endInString => "EOF while parsing a string"
  | endInValue => "EOF while parsing a value"
  | expectedColon => "expected `:`"
  | expectedListEnd => "expected `,` or `]`"
  | expectedObjectEnd => "expected `,` or `\x7d`"
  | expectedIdent => "expected ident"
  | expectedValue => "expected value"
  | invalidEscape => "invalid escape"
  | invalidNumber => "invalid number"
  | numberOutOfRange => "number out of range"
  | controlCharacter => "control character (\\u0000-\\u001F) found while parsing a string"
  | keyNotString => "key must be a string"
  | loneSurrogate => "lone leading surrogate in hex escape"
  | hexEscapeCut => "unexpected end of hex escape"
  | trailingComma => "trailing comma"
  | trailingCharacters => "trailing characters"
  | tooDeep => "recursion limit exceeded"
  | isDirectory => "Is a directory (os error 21)"

-- A place where a text goes wrong. Readers give up at different points of it: one who reads the
-- value, one who only skips it, and one who wants a name there.
structure Trouble where
  reading : Malformed
  skipping : Malformed
  naming : Malformed
deriving DecidableEq

namespace Trouble

def same (why : Malformed) : Trouble := ⟨why, why, why⟩

-- A word that is cut off or misspelt. It could never have been a name.
def word (why : Malformed) : Trouble := ⟨why, why, .expectedValue⟩

-- A number that is cut off or misspelt. The skipper does not tell the two apart.
def number (why : Malformed) : Trouble := ⟨why, .invalidNumber, .expectedValue⟩

-- The skipper meets another trouble than the others.
def apart (reading skipping : Malformed) : Trouble := ⟨reading, skipping, reading⟩

end Trouble

end ParticleFx.Json
