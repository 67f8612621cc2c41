/-!
# Cutting texts into pieces

* `splitOn` cuts at every occurrence of a character;
* `cut?` cuts once, at the first occurrence of a word;
* `lines` gives the lines of a text;
* `replace` puts one word in place of another, `joined` puts texts together.
-/

namespace PointsTo.Text

/-- The pieces between the occurrences of `sep`; there is always at least one. -/
def splitOn (sep : Char) : List Char → List (List Char)
  | [] => [[]]
  | c :: cs =>
    if c = sep then [] :: splitOn sep cs
    else
      match splitOn sep cs with
      | [] => [[c]]
      | piece :: pieces => (c :: piece) :: pieces

theorem splitOn_append {sep : Char} {l : List Char} (h : sep ∉ l) (rest : List Char) :
    splitOn sep (l ++ sep :: rest) = l :: splitOn sep rest := by
  induction l with
  | nil => simp [splitOn]
  | cons c l ih =>
    have hc : c ≠ sep := fun heq => h (heq ▸ List.mem_cons_self)
    have hl : sep ∉ l := fun hm => h (List.mem_cons_of_mem c hm)
    simp [splitOn, hc, ih hl]

/-- What follows the word `w` at the start of a text, if the text starts with it. -/
def after? : (w cs : List Char) → Option (List Char)
  | [], cs => some cs
  | _ :: _, [] => none
  | a :: w, c :: cs => if a = c then after? w cs else none

theorem after?_eq_some {w cs rest : List Char} : after? w cs = some rest ↔ cs = w ++ rest := by
  induction w generalizing cs with
  | nil => simp [after?]
  | cons a w ih =>
    cases cs with
    | nil => simp [after?]
    | cons c cs =>
      simp only [after?]
      split <;> rename_i hac
      · simp [ih, hac]
      · simp [Ne.symm hac]

/-- The texts before and after the first occurrence of `w`. -/
def cut? (w : List Char) : List Char → Option (List Char × List Char)
  | [] => (after? w []).map fun rest => ([], rest)
  | c :: cs =>
    match after? w (c :: cs) with
    | some rest => some ([], rest)
    | none => (cut? w cs).map fun (front, rest) => (c :: front, rest)

/-- A line that a newline has ended, without a carriage return before that newline. -/
def dropReturn (line : List Char) : List Char :=
  match line.reverse with
  | '\r' :: rest => rest.reverse
  | _ => line

/-- The lines of a text. A line ends with a newline or with a carriage return and a newline; the
last line may lack its ending, and no empty line follows the last newline. -/
def lines (cs : List Char) : List (List Char) :=
  let pieces := splitOn '\n' cs
  let ended := pieces.dropLast.map dropReturn
  match pieces.getLast? with
  | some (c :: rest) => ended ++ [c :: rest]
  | _ => ended

/-- `cs` with `new` put in place of `old` from left to right; `skip` counts the characters of the
occurrence that is being passed over. -/
def replaceFrom (old new : List Char) : (skip : Nat) → List Char → List Char
  | _, [] => []
  | skip + 1, _ :: cs => replaceFrom old new skip cs
  | 0, c :: cs =>
    match after? old (c :: cs) with
    | some _ => new ++ replaceFrom old new (old.length - 1) cs
    | none => c :: replaceFrom old new 0 cs

/-- Every occurrence of `old` replaced by `new`. The empty word occurs before every character and
at the end. -/
def replace (old new cs : List Char) : List Char :=
  match old with
  | [] => new ++ cs.flatMap fun c => c :: new
  | _ => replaceFrom old new 0 cs

/-- `replace` on strings. -/
def replaced (old new s : String) : String :=
  String.ofList (replace old.toList new.toList s.toList)

/-- The texts one after the other, with `sep` between neighbours. -/
def joined (sep : String) (texts : List String) : String :=
  String.intercalate sep texts

theorem mem_of_mem_intercalate {α : Type} {a : α} {sep : List α} {ls : List (List α)}
    (h : a ∈ sep.intercalate ls) : a ∈ sep ∨ ∃ l ∈ ls, a ∈ l := by
  induction ls with
  | nil => simp at h
  | cons l ls ih =>
    cases ls with
    | nil => exact .inr ⟨l, List.mem_cons_self, by simpa using h⟩
    | cons l' ls =>
      rw [List.intercalate_cons_cons, List.mem_append, List.mem_append] at h
      rcases h with (h | h) | h
      · exact .inr ⟨l, List.mem_cons_self, h⟩
      · exact .inl h
      · exact (ih h).imp id fun ⟨l, hl, ha⟩ => ⟨l, List.mem_cons_of_mem _ hl, ha⟩

end PointsTo.Text
