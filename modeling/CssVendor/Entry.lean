/-!
# Entries of a file system

What reading from a path comes to: the bytes of a file, or the system's words
for why there are none. A text is a file whose bytes are UTF-8.
-/

namespace CssVendor

/-- What is found at a path. -/
inductive Entry
  | file (bytes : ByteArray)
  /-- Nothing that can be read, for the given reason. -/
  | unavailable (reason : String)
  deriving Inhabited

namespace Entry

/-- The system's words for a path at which there is nothing. -/
def nothingThere : String := "No such file or directory (os error 2)"

/-- The system's words for a path at which there is a directory. -/
def directoryThere : String := "Is a directory (os error 21)"

/-- A path at which there is nothing. -/
def missing : Entry := .unavailable nothingThere

/-- A path at which there is a directory. -/
def directory : Entry := .unavailable directoryThere

/-- A file that holds a text. -/
def ofText (text : String) : Entry := .file text.toUTF8

/-- The text of a file, or why there is none. -/
def text : Entry → Except String String
  | .unavailable reason => .error reason
  | .file bytes =>
      match String.fromUTF8? bytes with
      | some text => .ok text
      | none => .error "stream did not contain valid UTF-8"

@[simp] theorem text_ofText (text : String) :
    (ofText text).text = .ok text := by
  simp only [ofText, Entry.text, String.fromUTF8?, String.toUTF8,
    String.isValidUTF8, dif_pos]
  rfl

end Entry

end CssVendor
