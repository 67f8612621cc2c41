import PointsTo.Error
import PointsTo.Text.Blank
import PointsTo.Text.Pieces

/-!
# Method signatures

A signature is written `<C: R N(P,…,P)>`: the class, the type of the result, the name and the types
of the parameters of a method. Without the class it is a subsignature.

* `Signature.text` and `Signature.sub` write signatures and subsignatures;
* `Signature.read?` reads a signature from characters without blanks around them;
* `Signature.parse` reads one from a string, with the error that names the string.
-/

namespace PointsTo

/-- The parts of a method signature. -/
structure Signature where
  /-- The name of the class that declares the method. -/
  owner : String
  /-- The name of the type of the result. -/
  result : String
  name : String
  /-- The names of the types of the parameters. -/
  params : List String
deriving DecidableEq, Inhabited

namespace Signature

/-- The subsignature `R N(P,…,P)`. -/
def sub (s : Signature) : String :=
  s.result ++ " " ++ s.name ++ "(" ++ Text.joined "," s.params ++ ")"

/-- The signature `<C: R N(P,…,P)>`. -/
def text (s : Signature) : String :=
  "<" ++ s.owner ++ ": " ++ s.sub ++ ">"

/-- The characters of class names. -/
def isOwnerChar (c : Char) : Bool :=
  c != ':' && c != '<' && c != '>' && !Text.isBlank c

/-- The characters of result types and of method names. -/
def isNameChar (c : Char) : Bool :=
  c != '(' && !Text.isBlank c

/-- The characters between the parentheses. -/
def isParamChar (c : Char) : Bool :=
  c != '(' && c != ')'

/-- The longest non-empty word of characters in a class that `cs` starts with, followed by `stop`:
the word and what comes after `stop`. -/
def word? (isChar : Char → Bool) (stop : List Char) (cs : List Char) :
    Option (List Char × List Char) :=
  match cs.takeWhile isChar with
  | [] => none
  | w => (Text.after? stop (cs.dropWhile isChar)).map fun rest => (w, rest)

/-- The parameters in the text between the parentheses: the pieces between commas that are not
blank, without the blanks around them. -/
def readParams (cs : List Char) : List String :=
  ((Text.splitOn ',' cs).map Text.trim).filterMap fun piece =>
    if piece.isEmpty then none else some (String.ofList piece)

/-- The signature that `cs` spells, if it spells one. -/
def read? (cs : List Char) : Option Signature := do
  let cs ← Text.after? ['<'] cs
  let (owner, cs) ← word? isOwnerChar [':', ' '] cs
  let (result, cs) ← word? isNameChar [' '] cs
  let (name, cs) ← word? isNameChar ['('] cs
  let params := cs.takeWhile isParamChar
  if cs.dropWhile isParamChar = [')', '>'] then
    some
      { owner := String.ofList owner
        result := String.ofList result
        name := String.ofList name
        params := readParams params }
  else none

/-- Reads a signature; blanks around it do not count. -/
def parse (s : String) : Except Error Signature :=
  match read? (Text.trim s.toList) with
  | some signature => .ok signature
  | none => .error (.malformedSignature s)

end Signature

end PointsTo
