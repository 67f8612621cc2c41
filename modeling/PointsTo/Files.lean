import PointsTo.Error
import PointsTo.Table
import PointsTo.Text.Pieces

/-!
# Files

The files of one directory, as a value. Reading and writing fail like on disk: a path must name a
file of this directory, and what is read as text must be valid UTF-8.

* `Files.read` gives the text of a file;
* `Files.write` replaces or creates a file.
-/

namespace PointsTo

/-- The files of a directory by name. -/
structure Files where
  contents : Table String ByteArray := ∅

namespace Files

instance : EmptyCollection Files := ⟨{}⟩

/-- The longest name of a file, in bytes. -/
def nameLimit : Nat := 255

/-- Whether a file can have this name. -/
def isName (s : String) : Bool :=
  s ≠ "" && s ≠ "." && s ≠ ".." && !s.toList.contains '\x00' && s.utf8ByteSize ≤ nameLimit

/-- The file that a path names, if the path leads to this directory: before the name only steps to
the same directory are allowed. -/
def name? (path : String) : Option String :=
  let parts := (Text.splitOn '/' path.toList).map String.ofList
  match parts.reverse with
  | [] => none
  | name :: steps =>
    let stays := match steps.reverse with
      | [] => true
      | first :: rest => first = "." && rest.all fun s => s = "" || s = "."
    if isName name && stays then some name else none

/-- The text of a file. -/
def read (fs : Files) (path : String) : Except Error String :=
  match ((name? path).bind fs.contents.find?).bind String.fromUTF8? with
  | some text => .ok text
  | none => .error (.file .read path)

/-- Writes a text to a file, in place of what was there. -/
def write (fs : Files) (path text : String) : Except Error Files :=
  match name? path with
  | some name => .ok ⟨fs.contents.update name text.toUTF8 fun _ => text.toUTF8⟩
  | none => .error (.file .write path)

end Files

end PointsTo
