import Mathlib.Data.List.DropRight
import Mathlib.Data.List.Forall2
import PointsTo.Proofs.Signature

/-!
# The grammar of signatures

A text is accepted as a signature if it is laid out as `<C: R N(P)>`, apart from blanks around it.
The parts are then unique, although names may hold colons, angle brackets and commas, and the
signature that is read has a text of its own from which it is read again.

* `Text.trim_eq_iff` and `Text.splitOn_eq_iff`: what is left without the blanks around a text, and
  what the pieces of a text are;
* `Signature.Lists`: the parameters in the text between the parentheses;
* `Signature.Layout`: a text that is laid out as a signature, by its parts, and
  `Signature.Layout.text_injective`: the parts are unique;
* `Signature.parse_grammar`: what is accepted, what is read, and what is reported.
-/

namespace PointsTo

namespace Text

variable {sep : Char} {cs w : List Char} {pieces : List (List Char)}

/-! ### Blanks and separators -/

/-- The text `w` is `cs` without the blanks around it. -/
structure Core (cs w : List Char) : Prop where
  surrounded : ∃ front back, cs = front ++ w ++ back ∧
    front.all isBlank = true ∧ back.all isBlank = true
  tight : Tight w

theorem trimEnd_eq_rdropWhile (cs : List Char) : trimEnd cs = cs.rdropWhile isBlank := rfl

theorem trim_eq_nil (h : cs.all isBlank = true) : trim cs = [] := by
  have hdrop : cs.dropWhile isBlank = [] := List.dropWhile_eq_nil_iff.2 (List.all_eq_true.1 h)
  rw [trim, hdrop]
  rfl

theorem tight_trim (cs : List Char) : Tight (trim cs) := by
  rw [trim, trimEnd_eq_rdropWhile]
  obtain hnil | hne := eq_or_ne ((cs.dropWhile isBlank).rdropWhile isBlank) []
  · rw [hnil]
    decide
  · constructor
    · -- the text starts where it starts before its last blanks are dropped
      have hprefix := List.rdropWhile_prefix isBlank (cs.dropWhile isBlank)
      rw [List.head?_eq_some_head hne, List.IsPrefix.head hprefix hne]
      simpa using List.head_dropWhile_not isBlank (List.IsPrefix.ne_nil hprefix hne)
    · rw [List.getLast?_eq_some_getLast hne]
      simpa using List.rdropWhile_last_not _ _ hne

theorem core_trim (cs : List Char) : Core cs (trim cs) where
  surrounded := by
    refine ⟨cs.takeWhile isBlank, (cs.dropWhile isBlank).rtakeWhile isBlank, ?_, ?_, ?_⟩
    · rw [trim, trimEnd_eq_rdropWhile, List.append_assoc, List.rdropWhile_append_rtakeWhile,
        List.takeWhile_append_dropWhile]
    · exact List.all_eq_true.2 fun c hc => List.mem_takeWhile_imp hc
    · exact List.all_eq_true.2 fun c hc => List.mem_rtakeWhile_imp hc
  tight := tight_trim cs

/-- No other text is left. -/
theorem Core.trim_eq (h : Core cs w) : trim cs = w := by
  obtain ⟨front, back, rfl, hfront, hback⟩ := h.surrounded
  obtain rfl | hne := eq_or_ne w []
  · apply trim_eq_nil
    rw [List.append_nil, List.all_append, hfront, hback]
    rfl
  · exact trim_surrounded hfront h.tight hne hback

theorem trim_eq_iff : trim cs = w ↔ Core cs w :=
  ⟨fun h => h ▸ core_trim cs, Core.trim_eq⟩

/-- Cutting at a character is what the library calls `List.splitOn`. -/
theorem splitOn_eq (sep : Char) (cs : List Char) : splitOn sep cs = cs.splitOn sep := by
  induction cs with
  | nil => rfl
  | cons c cs ih =>
    rw [List.splitOn_cons_eq_if_modifyHead, splitOn, ih]
    obtain ⟨piece, pieces, heq⟩ := List.exists_cons_of_ne_nil (List.splitOn_ne_nil sep cs)
    simp [heq]

theorem splitOn_ne_nil (sep : Char) (cs : List Char) : splitOn sep cs ≠ [] := by
  rw [splitOn_eq]
  exact List.splitOn_ne_nil sep cs

theorem not_mem_of_mem_splitOn (h : w ∈ splitOn sep cs) : sep ∉ w := by
  induction cs generalizing w with
  | nil =>
    rw [List.mem_singleton.1 h]
    exact List.not_mem_nil
  | cons c cs ih =>
    obtain ⟨piece, pieces, heq⟩ := List.exists_cons_of_ne_nil (splitOn_ne_nil sep cs)
    rw [splitOn, heq] at h
    rw [heq] at ih
    split at h <;> rename_i hc
    · rcases List.mem_cons.1 h with rfl | h
      · exact List.not_mem_nil
      · exact ih h
    · rcases List.mem_cons.1 h with rfl | h
      · have hpiece := ih (List.mem_cons_self ..)
        exact List.not_mem_cons_of_ne_of_not_mem (Ne.symm hc) hpiece
      · exact ih (List.mem_cons_of_mem _ h)

/-- The pieces of a text hold no separator, and make up the text when separators are put between
them. No other pieces do. -/
theorem splitOn_eq_iff : splitOn sep cs = pieces ↔
    pieces ≠ [] ∧ (∀ l ∈ pieces, sep ∉ l) ∧ [sep].intercalate pieces = cs := by
  constructor
  · rintro rfl
    refine ⟨splitOn_ne_nil sep cs, fun l hl => not_mem_of_mem_splitOn hl, ?_⟩
    rw [splitOn_eq, List.intercalate_splitOn]
  · rintro ⟨hne, hsep, rfl⟩
    exact splitOn_intercalate hsep hne

theorem mem_intercalate_of_mem {c : Char} {between : List Char} (hw : w ∈ pieces) (hc : c ∈ w) :
    c ∈ between.intercalate pieces := by
  induction pieces with
  | nil => cases hw
  | cons piece pieces ih =>
    cases pieces with
    | nil =>
      rw [List.mem_singleton.1 hw] at hc
      simpa using hc
    | cons next pieces =>
      rw [List.intercalate_cons_cons, List.mem_append, List.mem_append]
      rcases List.mem_cons.1 hw with rfl | hw
      · exact .inl (.inl hc)
      · exact .inr (ih hw)

/-- `Core` on strings. -/
theorem core_toList_iff {s w : String} : Core s.toList w.toList ↔ trimmed s = w := by
  rw [← trim_eq_iff, trimmed, ← String.toList_inj, String.toList_ofList]

end Text

namespace Signature

/-! ### Parameters -/

/-- The parameters are what is not empty among the pieces between commas, without the blanks around
them. -/
def Lists (inside : String) (params : List String) : Prop :=
  ∃ pieces cores : List String, (pieces ≠ [] ∧ (∀ piece ∈ pieces, ',' ∉ piece.toList) ∧
      Text.joined "," pieces = inside) ∧
    List.Forall₂ (fun piece core => Text.Core piece.toList core.toList) pieces cores ∧
    params = cores.filter (· ≠ "")

theorem readParams_eq (cs : List Char) : readParams cs =
    (((Text.splitOn ',' cs).map String.ofList).map Text.trimmed).filter (· ≠ "") := by
  rw [readParams, ← List.filterMap_eq_filter, List.map_map, List.filterMap_map, List.filterMap_map]
  refine List.filterMap_congr fun piece _ => ?_
  by_cases hempty : Text.trim piece = []
  · simp [Text.trimmed, Option.guard, hempty]
  · simp [Text.trimmed, Option.guard, hempty]

theorem pieces_iff {inside : String} {pieces : List String} :
    (pieces ≠ [] ∧ (∀ piece ∈ pieces, ',' ∉ piece.toList) ∧ Text.joined "," pieces = inside) ↔
      (Text.splitOn ',' inside.toList).map String.ofList = pieces := by
  have hsplit : Text.splitOn ',' inside.toList = pieces.map String.toList ↔ _ :=
    Text.splitOn_eq_iff
  rw [← toList_joined, String.toList_inj, List.forall_mem_map, ne_eq, List.map_eq_nil_iff] at hsplit
  rw [ne_eq, ← hsplit]
  constructor
  · intro h
    simp [h, Function.comp_def]
  · rintro rfl
    simp [Function.comp_def]

theorem cores_iff {pieces cores : List String} :
    List.Forall₂ (fun piece core => Text.Core piece.toList core.toList) pieces cores ↔
      pieces.map Text.trimmed = cores := by
  have hmap := List.forall₂_map_left_iff (R := Eq) (f := Text.trimmed) (l := pieces) (u := cores)
  rw [List.forall₂_eq_eq_eq] at hmap
  simp only [Text.core_toList_iff, hmap]

theorem lists_iff {inside : String} {params : List String} :
    Lists inside params ↔ params = readParams inside.toList := by
  simp only [Lists, pieces_iff, cores_iff, readParams_eq, exists_and_left, exists_eq_left']

/-! ### Layouts -/

/-- A text that is laid out as a signature, `<C: R N(P)>`. -/
@[ext]
structure Layout where
  owner : String
  result : String
  name : String
  /-- The text between the parentheses. -/
  inside : String
  owner_ne : owner ≠ ""
  owner_mem : ∀ c ∈ owner.toList, c ≠ ':' ∧ c ≠ '<' ∧ c ≠ '>' ∧ Text.isBlank c = false
  result_ne : result ≠ ""
  result_mem : ∀ c ∈ result.toList, c ≠ '(' ∧ Text.isBlank c = false
  name_ne : name ≠ ""
  name_mem : ∀ c ∈ name.toList, c ≠ '(' ∧ Text.isBlank c = false
  inside_mem : ∀ c ∈ inside.toList, c ≠ '(' ∧ c ≠ ')'

theorem isOwnerChar_iff {c : Char} :
    isOwnerChar c = true ↔ c ≠ ':' ∧ c ≠ '<' ∧ c ≠ '>' ∧ Text.isBlank c = false := by
  simp [isOwnerChar, and_assoc]

theorem isNameChar_iff {c : Char} : isNameChar c = true ↔ c ≠ '(' ∧ Text.isBlank c = false := by
  simp [isNameChar]

theorem isParamChar_iff {c : Char} : isParamChar c = true ↔ c ≠ '(' ∧ c ≠ ')' := by
  simp [isParamChar]

/-- A text has the parts of a signature in one way only. -/
theorem Spells.unique {cs owner result name params owner' result' name' params' : List Char}
    (h : Spells cs owner result name params) (h' : Spells cs owner' result' name' params') :
    owner = owner' ∧ result = result' ∧ name = name' ∧ params = params' := by
  have hcs := (List.cons.inj (h.eq.symm.trans h'.eq)).2
  obtain ⟨howner, hcs⟩ := append_stop_inj isOwnerChar_colon h.owner.2 h'.owner.2 hcs
  obtain ⟨hresult, hcs⟩ :=
    append_stop_inj isNameChar_blank h.result.2 h'.result.2 (List.cons.inj hcs).2
  obtain ⟨hname, hcs⟩ := append_stop_inj isNameChar_paren h.name.2 h'.name.2 hcs
  exact ⟨howner, hresult, hname, List.append_cancel_right hcs⟩

namespace Layout

/-- The text with the layout. -/
def text (l : Layout) : String :=
  "<" ++ l.owner ++ ": " ++ l.result ++ " " ++ l.name ++ "(" ++ l.inside ++ ")>"

/-- A text has the layout, apart from blanks around it. -/
def Fits (l : Layout) (text : String) : Prop :=
  ∃ front back : String, text = front ++ l.text ++ back ∧
    front.toList.all Text.isBlank = true ∧ back.toList.all Text.isBlank = true

/-- The signature has the parts of the layout. -/
structure Denotes (l : Layout) (s : Signature) : Prop where
  owner : s.owner = l.owner
  result : s.result = l.result
  name : s.name = l.name
  params : Lists l.inside s.params

theorem denotes_iff {l : Layout} {s : Signature} :
    l.Denotes s ↔ s = ⟨l.owner, l.result, l.name, readParams l.inside.toList⟩ := by
  constructor
  · rintro ⟨howner, hresult, hname, hparams⟩
    rw [lists_iff] at hparams
    rw [← howner, ← hresult, ← hname, ← hparams]
  · rintro rfl
    exact ⟨rfl, rfl, rfl, lists_iff.2 rfl⟩

theorem spells (l : Layout) : Spells l.text.toList l.owner.toList l.result.toList l.name.toList
    l.inside.toList where
  eq := by simp [text]
  owner := ⟨by simpa using l.owner_ne, fun c hc => isOwnerChar_iff.2 (l.owner_mem c hc)⟩
  result := ⟨by simpa using l.result_ne, fun c hc => isNameChar_iff.2 (l.result_mem c hc)⟩
  name := ⟨by simpa using l.name_ne, fun c hc => isNameChar_iff.2 (l.name_mem c hc)⟩
  params := fun c hc => isParamChar_iff.2 (l.inside_mem c hc)

theorem text_injective {l l' : Layout} (h : l.text = l'.text) : l = l' := by
  have hspells := l'.spells
  rw [← h] at hspells
  obtain ⟨howner, hresult, hname, hinside⟩ := l.spells.unique hspells
  exact Layout.ext (String.toList_inj.1 howner) (String.toList_inj.1 hresult)
    (String.toList_inj.1 hname) (String.toList_inj.1 hinside)

theorem fits_iff {l : Layout} {text : String} : l.Fits text ↔ Text.trimmed text = l.text := by
  rw [← Text.core_toList_iff]
  constructor
  · rintro ⟨front, back, rfl, hfront, hback⟩
    refine ⟨⟨front.toList, back.toList, ?_, hfront, hback⟩, l.spells.tight⟩
    rw [String.toList_append, String.toList_append]
  · rintro ⟨⟨front, back, heq, hfront, hback⟩, -⟩
    refine ⟨String.ofList front, String.ofList back, ?_, ?_, ?_⟩
    · apply String.toList_inj.1
      simp [heq]
    · rwa [String.toList_ofList]
    · rwa [String.toList_ofList]

end Layout

/-- The layout of a text with the parts of a signature. -/
def Spells.layout {cs owner result name params : List Char}
    (h : Spells cs owner result name params) : Layout where
  owner := String.ofList owner
  result := String.ofList result
  name := String.ofList name
  inside := String.ofList params
  owner_ne := by simpa using h.owner.1
  owner_mem c hc := isOwnerChar_iff.1 (h.owner.2 c (by simpa using hc))
  result_ne := by simpa using h.result.1
  result_mem c hc := isNameChar_iff.1 (h.result.2 c (by simpa using hc))
  name_ne := by simpa using h.name.1
  name_mem c hc := isNameChar_iff.1 (h.name.2 c (by simpa using hc))
  inside_mem c hc := isParamChar_iff.1 (h.params c (by simpa using hc))

theorem Spells.text_layout {cs owner result name params : List Char}
    (h : Spells cs owner result name params) : h.layout.text = String.ofList cs := by
  apply String.toList_inj.1
  simp [Layout.text, layout, h.eq]

/-! ### Reading -/

theorem read?_eq_some_iff_layout {cs : List Char} {s : Signature} :
    read? cs = some s ↔ ∃ l : Layout, String.ofList cs = l.text ∧ l.Denotes s := by
  rw [read?_eq_some_iff]
  constructor
  · rintro ⟨owner, result, name, params, h, rfl⟩
    refine ⟨h.layout, h.text_layout.symm, Layout.denotes_iff.2 ?_⟩
    simp [Spells.layout]
  · rintro ⟨l, htext, h⟩
    have hspells := l.spells
    rw [← htext, String.toList_ofList] at hspells
    refine ⟨_, _, _, _, hspells, ?_⟩
    simp only [String.ofList_toList, Layout.denotes_iff.1 h]

theorem parse_eq_ok_iff {text : String} {s : Signature} :
    parse text = .ok s ↔ ∃ l : Layout, l.Fits text ∧ l.Denotes s := by
  simp only [Layout.fits_iff, Text.trimmed, ← read?_eq_some_iff_layout, parse]
  cases read? (Text.trim text.toList) with
  | none => simp
  | some s' => simp

theorem parse_eq_error {text : String} {e : Error} (h : parse text = .error e) :
    e = .malformedSignature text := by
  unfold parse at h
  split at h
  · cases h
  · exact (Except.error.inj h).symm

/-- The parameters of a layout can be told apart again. -/
theorem Lists.params_wellFormed {inside : String} {params : List String} (h : Lists inside params)
    (hinside : ∀ c ∈ inside.toList, isParamChar c = true) :
    ∀ t ∈ params, t ≠ "" ∧ t.toList.all isParamChar = true ∧ ',' ∉ t.toList ∧
      Text.Tight t.toList := by
  obtain ⟨pieces, cores, ⟨-, hcomma, rfl⟩, hcores, rfl⟩ := h
  intro t ht
  obtain ⟨ht, hne⟩ := List.mem_filter.1 ht
  obtain ⟨piece, hpiece, hcore⟩ : ∃ piece ∈ pieces, Text.Core piece.toList t.toList := by
    obtain rfl := cores_iff.1 hcores
    obtain ⟨piece, hpiece, rfl⟩ := List.mem_map.1 ht
    exact ⟨piece, hpiece, Text.core_toList_iff.2 rfl⟩
  have hsub : ∀ c ∈ t.toList, c ∈ piece.toList := by
    obtain ⟨front, back, heq, -, -⟩ := hcore.surrounded
    intro c hc
    simp [heq, hc]
  refine ⟨of_decide_eq_true hne, List.all_eq_true.2 fun c hc => hinside c ?_,
    fun hc => hcomma piece hpiece (hsub _ hc), hcore.tight⟩
  rw [toList_joined]
  exact Text.mem_intercalate_of_mem (List.mem_map.2 ⟨piece, hpiece, rfl⟩) (hsub c hc)

/-- What is read from a text is well formed. -/
theorem Layout.Denotes.wellFormed {l : Layout} {s : Signature} (h : l.Denotes s) :
    s.WellFormed where
  owner := by
    rw [h.owner]
    exact ⟨l.owner_ne, List.all_eq_true.2 l.spells.owner.2⟩
  result := by
    rw [h.result]
    exact ⟨l.result_ne, List.all_eq_true.2 l.spells.result.2⟩
  name := by
    rw [h.name]
    exact ⟨l.name_ne, List.all_eq_true.2 l.spells.name.2⟩
  params := h.params.params_wellFormed l.spells.params

theorem parse_text_of_parse {text : String} {s : Signature} (h : parse text = .ok s) :
    parse s.text = .ok s := by
  obtain ⟨l, -, hs⟩ := parse_eq_ok_iff.1 h
  have hparse : parse ("" ++ s.text ++ "") = .ok s := hs.wellFormed.parse_text rfl rfl
  rwa [String.empty_append, String.append_empty] at hparse

/-- A text is accepted if it is laid out as a signature, and it is in one way at most. What is read
has the parts of the layout, and is read again from its own text. The error names a text that is not
accepted as it is. -/
theorem parse_grammar (text : String) :
    ((∃ s, parse text = .ok s) ↔ ∃ l : Layout, l.Fits text) ∧
    (∀ l l' : Layout, l.Fits text → l'.Fits text → l = l') ∧
    (∀ s, parse text = .ok s ↔ ∃ l : Layout, l.Fits text ∧ l.Denotes s) ∧
    (∀ e, parse text = .error e ↔ (∀ l : Layout, ¬ l.Fits text) ∧ e = .malformedSignature text) ∧
    ∀ s, parse text = .ok s → parse s.text = .ok s := by
  have haccepts : (∃ s, parse text = .ok s) ↔ ∃ l : Layout, l.Fits text := by
    simp only [parse_eq_ok_iff]
    constructor
    · rintro ⟨s, l, hl, -⟩
      exact ⟨l, hl⟩
    · rintro ⟨l, hl⟩
      exact ⟨_, l, hl, Layout.denotes_iff.2 rfl⟩
  refine ⟨haccepts, fun l l' hl hl' => ?_, fun s => parse_eq_ok_iff, fun e => ?_,
    fun s => parse_text_of_parse⟩
  · exact Layout.text_injective ((Layout.fits_iff.1 hl).symm.trans (Layout.fits_iff.1 hl'))
  · rw [← not_exists, ← haccepts]
    cases hparse : parse text with
    | ok s => simp
    | error e' => simp [parse_eq_error hparse, eq_comm]

/-- A layout with blanks and an empty piece between the parentheses. -/
def Layout.spaced : Layout where
  owner := "p.Box"
  result := "void"
  name := "<init>"
  inside := " int,, p.Box[] "
  owner_ne := by decide
  owner_mem c hc := isOwnerChar_iff.1 (List.all_eq_true.1 (by decide +kernel) c hc)
  result_ne := by decide
  result_mem c hc := isNameChar_iff.1 (List.all_eq_true.1 (by decide +kernel) c hc)
  name_ne := by decide
  name_mem c hc := isNameChar_iff.1 (List.all_eq_true.1 (by decide +kernel) c hc)
  inside_mem c hc := isParamChar_iff.1 (List.all_eq_true.1 (by decide +kernel) c hc)

/-- Its signature has two parameters, and another text. -/
theorem parse_grammar_spaced :
    Layout.spaced.Fits "\t<p.Box: void <init>( int,, p.Box[] )>\n" ∧
      (∀ l : Layout, l.Fits "\t<p.Box: void <init>( int,, p.Box[] )>\n" → l = .spaced) ∧
      Layout.spaced.Denotes ⟨"p.Box", "void", "<init>", ["int", "p.Box[]"]⟩ ∧
      parse "<p.Box: void <init>(int,p.Box[])>" =
        .ok ⟨"p.Box", "void", "<init>", ["int", "p.Box[]"]⟩ := by
  obtain ⟨-, hunique, hread, -, hagain⟩ :=
    parse_grammar "\t<p.Box: void <init>( int,, p.Box[] )>\n"
  have hfits : Layout.spaced.Fits "\t<p.Box: void <init>( int,, p.Box[] )>\n" :=
    ⟨"\t", "\n", by decide +kernel, by decide, by decide⟩
  have hparse : parse "\t<p.Box: void <init>( int,, p.Box[] )>\n" =
      .ok ⟨"p.Box", "void", "<init>", ["int", "p.Box[]"]⟩ := by decide +kernel
  have htext : text ⟨"p.Box", "void", "<init>", ["int", "p.Box[]"]⟩ =
      "<p.Box: void <init>(int,p.Box[])>" := by decide +kernel
  obtain ⟨l, hl, hdenotes⟩ := (hread _).1 hparse
  rw [hunique l _ hl hfits] at hdenotes
  exact ⟨hfits, fun l hl => hunique l _ hl hfits, hdenotes, htext ▸ hagain _ hparse⟩

end Signature

end PointsTo
