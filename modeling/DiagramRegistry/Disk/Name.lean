import DiagramRegistry.Text.Utf8

/-
# Names of entries

A file system keeps the name of an entry as bytes.  Mostly they encode a text, and this text is
the name of the entry in a tree.  Bytes that encode no text are written one by one behind a
NUL, which no file system has in a name: no path leads to such an entry, but a listing of its
directory shows it.
-/
namespace DiagramRegistry.Disk

/-- The name that an entry with the given bytes for a name has in a tree. -/
def nameOfBytes (bytes : List UInt8) : String :=
  if Utf8.encoded (Utf8.decode bytes) = bytes then String.ofList (Utf8.decode bytes)
  else String.ofList ('\x00' :: bytes.map fun b => Char.ofNat b.toNat)

/-- The bytes of the name are the encoding of the name. -/
def IsText (name : String) : Prop := '\x00' ∉ name.toList

/-- What a name is read as by those who expect a text: where bytes are no characters, they are
replaced. -/
def readName (name : String) : String :=
  match name.toList with
  | '\x00' :: bytes => String.ofList (Utf8.decode (bytes.map fun c => UInt8.ofNat c.toNat))
  | _ => name

end DiagramRegistry.Disk
