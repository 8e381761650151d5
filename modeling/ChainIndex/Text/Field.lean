import ChainIndex.Text.Utf8

/-!
The size limits of keyword fields. A text too long for its field is cut to the longest beginning
of whole characters that fits.
-/
namespace ChainIndex

namespace Text

/-- The longest keyword a document field may hold, in octets. -/
def fieldLimit : Nat := 32766

/-- The longest raw value that still fits a field once base64 has lengthened it. -/
def fieldLimitBeforeBase64 : Nat := 24575

/-- The last boundary between characters that is not behind the offset, sought backwards from there. -/
def lastBoundary (text : String) : Nat → text.Pos
  | 0 => text.startPos
  | offset + 1 =>
    if h : String.Pos.Raw.IsValid text ⟨offset + 1⟩ then ⟨⟨offset + 1⟩, h⟩ else lastBoundary text offset

def cut (room : Nat) (text : String) : String :=
  if text.utf8ByteSize ≤ room then text else (text.sliceTo (lastBoundary text room)).copy

def toField (text : String) : String := cut fieldLimit text

def toFieldBeforeBase64 (text : String) : String := cut fieldLimitBeforeBase64 text

end Text

def Bytes.toField (bytes : Bytes) : String := Text.toField (Utf8.decodeLossy bytes)

end ChainIndex
