import Mathlib.Data.List.Basic
import Mathlib.Data.List.TakeWhile
import PointsTo.Signature

/-!
# Reading signatures

What a signature spells can be read off it in one way only, since the characters that end a part do
not occur in it.

* `Text.trim_surrounded` and `Text.splitOn_intercalate`: blanks around a text are dropped, and
  pieces between commas are found again;
* `Signature.word?_eq_some`: a word is followed by the text that ends it;
* `Signature.Spells`: the parts of a signature, one after the other;
* `Signature.read?_eq_some_iff`: these parts are read;
* `Signature.WellFormed.parse_text`: well-formed signatures are read back from their texts.
-/

namespace PointsTo

namespace Text

/-- The text neither starts nor ends with a blank. -/
def Tight (cs : List Char) : Prop :=
  cs.head?.any isBlank = false ∧ cs.getLast?.any isBlank = false

instance (cs : List Char) : Decidable (Tight cs) := inferInstanceAs (Decidable (_ ∧ _))

theorem dropWhile_of_head {p : Char → Bool} {cs : List Char} (h : cs.head?.any p = false) :
    cs.dropWhile p = cs := by
  cases cs with
  | nil => rfl
  | cons c cs => exact List.dropWhile_cons_of_neg (by simpa using h)

/-- Blanks around a text are dropped. -/
theorem trim_surrounded {front cs back : List Char} (hfront : front.all isBlank = true)
    (h : Tight cs) (hne : cs ≠ []) (hback : back.all isBlank = true) :
    trim (front ++ cs ++ back) = cs := by
  have hhead : (cs ++ back).head?.any isBlank = false := by
    obtain ⟨c, cs, rfl⟩ := List.exists_cons_of_ne_nil hne
    exact h.1
  have hlast : cs.reverse.head?.any isBlank = false := by
    rw [List.head?_reverse]
    exact h.2
  have hreverse : back.reverse.all isBlank = true := by rw [List.all_reverse, hback]
  rw [trim, trimEnd, List.append_assoc, List.dropWhile_append_of_pos (List.all_eq_true.1 hfront),
    dropWhile_of_head hhead, List.reverse_append,
    List.dropWhile_append_of_pos (List.all_eq_true.1 hreverse), dropWhile_of_head hlast,
    List.reverse_reverse]

theorem trim_of_tight {cs : List Char} (h : Tight cs) (hne : cs ≠ []) : trim cs = cs := by
  have htrim := trim_surrounded List.all_nil h hne List.all_nil
  rwa [List.nil_append, List.append_nil] at htrim

theorem splitOn_of_not_mem {sep : Char} {l : List Char} (h : sep ∉ l) : splitOn sep l = [l] := by
  induction l with
  | nil => rfl
  | cons c l ih =>
    have hc : c ≠ sep := fun heq => h (heq ▸ List.mem_cons_self)
    have hl : sep ∉ l := fun hm => h (List.mem_cons_of_mem c hm)
    simp [splitOn, hc, ih hl]

/-- Pieces with separators between them are found again. -/
theorem splitOn_intercalate {sep : Char} {ls : List (List Char)} (h : ∀ l ∈ ls, sep ∉ l)
    (hne : ls ≠ []) : splitOn sep ([sep].intercalate ls) = ls := by
  induction ls with
  | nil => exact absurd rfl hne
  | cons l ls ih =>
    obtain ⟨hl, hls⟩ := List.forall_mem_cons.1 h
    cases ls with
    | nil =>
      simp only [List.intercalate_singleton]
      exact splitOn_of_not_mem hl
    | cons l' ls =>
      rw [List.intercalate_cons_cons, List.append_assoc, List.singleton_append, splitOn_append hl]
      rw [ih hls (List.cons_ne_nil _ _)]

end Text

namespace Signature

/-! ### Parts -/

/-- Reading on while the characters are of one kind stops at the first that is not. -/
theorem takeWhile_stop {isChar : Char → Bool} {d : Char} (hd : isChar d = false) {w : List Char}
    (hw : ∀ c ∈ w, isChar c = true) (rest : List Char) :
    (w ++ d :: rest).takeWhile isChar = w ∧ (w ++ d :: rest).dropWhile isChar = d :: rest := by
  have hneg : ¬ isChar d = true := by simp [hd]
  rw [List.takeWhile_append_of_pos hw, List.dropWhile_append_of_pos hw,
    List.takeWhile_cons_of_neg hneg, List.dropWhile_cons_of_neg hneg, List.append_nil]
  exact ⟨rfl, rfl⟩

/-- Characters of one kind go on up to the first that is not of this kind. -/
theorem append_stop_inj {isChar : Char → Bool} {d : Char} (hd : isChar d = false)
    {w w' rest rest' : List Char} (hw : ∀ c ∈ w, isChar c = true)
    (hw' : ∀ c ∈ w', isChar c = true) (h : w ++ d :: rest = w' ++ d :: rest') :
    w = w' ∧ rest = rest' := by
  obtain ⟨htake, hdrop⟩ := takeWhile_stop hd hw rest
  obtain ⟨htake', hdrop'⟩ := takeWhile_stop hd hw' rest'
  rw [h] at htake hdrop
  exact ⟨htake.symm.trans htake', (List.cons.inj (hdrop.symm.trans hdrop')).2⟩

/-- A word is followed by the text that ends it. -/
theorem word?_eq_some {isChar : Char → Bool} {d : Char} (hd : isChar d = false)
    {stop cs w rest : List Char} :
    word? isChar (d :: stop) cs = some (w, rest) ↔
      (w ≠ [] ∧ ∀ c ∈ w, isChar c = true) ∧ cs = w ++ d :: (stop ++ rest) := by
  constructor
  · intro h
    have hcs := List.takeWhile_append_dropWhile (p := isChar) (l := cs)
    unfold word? at h
    split at h
    · exact absurd h (by simp)
    · rename_i w' hne
      obtain ⟨rest', hrest, heq⟩ := Option.map_eq_some_iff.1 h
      obtain ⟨rfl, rfl⟩ := Prod.mk.inj heq
      rw [Text.after?_eq_some.1 hrest] at hcs
      exact ⟨⟨hne, fun c hc => List.mem_takeWhile_imp hc⟩, hcs.symm⟩
  · rintro ⟨⟨hne, hw⟩, rfl⟩
    obtain ⟨htake, hdrop⟩ := takeWhile_stop hd hw (stop ++ rest)
    unfold word?
    rw [htake, hdrop, Text.after?_eq_some.2 (List.cons_append ..).symm]
    cases w with
    | nil => exact absurd rfl hne
    | cons c w => rfl

/-- The parts of a signature, one after the other. -/
structure Spells (cs owner result name params : List Char) : Prop where
  eq : cs =
    '<' :: (owner ++ ':' :: ' ' :: (result ++ ' ' :: (name ++ '(' :: (params ++ [')', '>']))))
  owner : owner ≠ [] ∧ ∀ c ∈ owner, isOwnerChar c = true
  result : result ≠ [] ∧ ∀ c ∈ result, isNameChar c = true
  name : name ≠ [] ∧ ∀ c ∈ name, isNameChar c = true
  params : ∀ c ∈ params, isParamChar c = true

theorem isOwnerChar_colon : isOwnerChar ':' = false := by decide

theorem isNameChar_blank : isNameChar ' ' = false := by decide

theorem isNameChar_paren : isNameChar '(' = false := by decide

theorem isParamChar_paren : isParamChar ')' = false := by decide

/-- A text is read as a signature if it consists of the parts of one. -/
theorem read?_eq_some_iff {cs : List Char} {s : Signature} :
    read? cs = some s ↔ ∃ owner result name params, Spells cs owner result name params ∧
      s = ⟨String.ofList owner, String.ofList result, String.ofList name, readParams params⟩ := by
  simp only [read?, Option.bind_eq_bind, Option.bind_eq_some_iff, Prod.exists, Text.after?_eq_some,
    word?_eq_some isOwnerChar_colon, word?_eq_some isNameChar_blank, word?_eq_some isNameChar_paren]
  constructor
  · rintro ⟨_, rfl, owner, _, ⟨howner, rfl⟩, result, _, ⟨hresult, rfl⟩, name, cs, ⟨hname, rfl⟩, h⟩
    split at h <;> rename_i hend
    · have hcs := List.takeWhile_append_dropWhile (p := isParamChar) (l := cs)
      rw [hend] at hcs
      refine ⟨owner, result, name, cs.takeWhile isParamChar, ?_, (Option.some.inj h).symm⟩
      exact ⟨by rw [hcs]; rfl, howner, hresult, hname, fun c hc => List.mem_takeWhile_imp hc⟩
    · exact absurd h (by simp)
  · rintro ⟨owner, result, name, params, h, rfl⟩
    obtain ⟨htake, hdrop⟩ := takeWhile_stop isParamChar_paren h.params ['>']
    refine ⟨_, h.eq, owner, _, ⟨h.owner, rfl⟩, result, _, ⟨h.result, rfl⟩, name, _,
      ⟨h.name, rfl⟩, ?_⟩
    show (if (params ++ [')', '>']).dropWhile isParamChar = [')', '>'] then
      some (⟨_, _, _, readParams ((params ++ [')', '>']).takeWhile isParamChar)⟩ : Signature)
      else none) = _
    rw [htake, hdrop, if_pos rfl]

/-! ### Well-formed signatures -/

/-- The names in a signature keep to their characters, and the types of the parameters can be told
apart. -/
@[mk_iff]
structure WellFormed (s : Signature) : Prop where
  owner : s.owner ≠ "" ∧ s.owner.toList.all isOwnerChar = true
  result : s.result ≠ "" ∧ s.result.toList.all isNameChar = true
  name : s.name ≠ "" ∧ s.name.toList.all isNameChar = true
  params : ∀ t ∈ s.params, t ≠ "" ∧ t.toList.all isParamChar = true ∧ ',' ∉ t.toList ∧
    Text.Tight t.toList

instance (s : Signature) : Decidable s.WellFormed :=
  decidable_of_iff _ (wellFormed_iff s).symm

theorem toList_joined (params : List String) :
    (Text.joined "," params).toList = [','].intercalate (params.map String.toList) := by
  simp [Text.joined, String.toList_intercalate]

theorem WellFormed.readParams_joined {s : Signature} (h : s.WellFormed) :
    readParams (Text.joined "," s.params).toList = s.params := by
  obtain hnil | hne := eq_or_ne s.params []
  · rw [hnil]
    rfl
  · have hsep : ∀ l ∈ s.params.map String.toList, ',' ∉ l := by
      intro l hl hcomma
      obtain ⟨t, ht, rfl⟩ := List.mem_map.1 hl
      exact (h.params t ht).2.2.1 hcomma
    have hne' : s.params.map String.toList ≠ [] := fun heq => hne (List.map_eq_nil_iff.1 heq)
    have hread : ∀ t ∈ s.params, (if (Text.trim t.toList).isEmpty then none
        else some (String.ofList (Text.trim t.toList))) = some t := by
      intro t ht
      obtain ⟨hempty, -, -, htight⟩ := h.params t ht
      have hlist : t.toList ≠ [] := by simpa using hempty
      rw [Text.trim_of_tight htight hlist, if_neg (by simpa using hempty), String.ofList_toList]
    rw [readParams, toList_joined, Text.splitOn_intercalate hsep hne', List.map_map,
      List.filterMap_map]
    exact (List.filterMap_congr hread).trans List.filterMap_some

/-- Well-formed signatures consist of their parts. -/
theorem WellFormed.spells {s : Signature} (h : s.WellFormed) :
    Spells s.text.toList s.owner.toList s.result.toList s.name.toList
      (Text.joined "," s.params).toList where
  eq := by simp [text, sub]
  owner := ⟨by simpa using h.owner.1, List.all_eq_true.1 h.owner.2⟩
  result := ⟨by simpa using h.result.1, List.all_eq_true.1 h.result.2⟩
  name := ⟨by simpa using h.name.1, List.all_eq_true.1 h.name.2⟩
  params := by
    rw [toList_joined]
    intro c hc
    rcases Text.mem_of_mem_intercalate hc with hc | ⟨l, hl, hc⟩
    · rw [List.mem_singleton.1 hc]
      decide
    · obtain ⟨t, ht, rfl⟩ := List.mem_map.1 hl
      exact List.all_eq_true.1 (h.params t ht).2.1 c hc

theorem Spells.tight {cs owner result name params : List Char}
    (h : Spells cs owner result name params) : Text.Tight cs := by
  have hlast : cs.getLast? = some '>' := by
    rw [h.eq]
    simp [List.getLast?_cons, List.getLast?_append]
  have hhead : cs.head? = some '<' := by rw [h.eq]; rfl
  rw [Text.Tight, hhead, hlast]
  decide

/-- Well-formed signatures are read back from their texts, also if blanks are around them. -/
theorem WellFormed.parse_text {s : Signature} (h : s.WellFormed) {front back : String}
    (hfront : front.toList.all Text.isBlank = true)
    (hback : back.toList.all Text.isBlank = true) :
    parse (front ++ s.text ++ back) = .ok s := by
  have hne : s.text.toList ≠ [] := by rw [h.spells.eq]; exact List.cons_ne_nil _ _
  have hread : read? s.text.toList = some s := by
    refine read?_eq_some_iff.2 ⟨_, _, _, _, h.spells, ?_⟩
    simp only [String.ofList_toList, h.readParams_joined]
  unfold parse
  rw [String.toList_append, String.toList_append,
    Text.trim_surrounded hfront h.spells.tight hne hback, hread]

end Signature

end PointsTo
