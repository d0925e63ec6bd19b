/-!
Text read from bytes.
-/
namespace Scriptlet.Text

/-- The text whose UTF-8 form these bytes are. -/
def ofBytes? (bytes : List UInt8) : Option String :=
  String.fromUTF8? ⟨bytes.toArray⟩

/-- The bytes of the UTF-8 form of a text. -/
def toBytes (s : String) : List UInt8 :=
  s.toUTF8.toList

/-- What is said of bytes that are no text. -/
def notUtf8 : String := "stream did not contain valid UTF-8"

end Scriptlet.Text
