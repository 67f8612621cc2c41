import Mathlib.Data.List.Nodup
import Mathlib.Data.List.Perm.Basic
import PointsTo.CallGraph.Compare
import PointsTo.Proofs.CallGraph.Dump
import PointsTo.Proofs.Elements.Growth

/-!
# Comparing a call graph with a dump

The lines of a dump are told apart by the mark between a call site and its callees alone, and call
sites without callees are left out. Reading a dump still gives what the graph says, as long as the
texts that are written have no line ends and no such mark in them.

* `Text.lines_flatMap` and `Text.cut?_append`: written lines are read back, and a line is cut where
  the mark was put;
* `MethodGraph.Legible`: the texts of a graph can be read back, and tell its call sites apart;
* `MethodGraph.Renders`: the callees of a call site, as texts;
* `MethodGraph.Legible.expectedCallees_dump`: a dump says what the graph renders;
* `MethodGraph.compare_dump`: comparing a graph with the dump of another one succeeds exactly if
  both render the same, and otherwise there is one message for each difference.
-/

namespace PointsTo

namespace Text

/-! ### Lines -/

theorem splitOn_flatMap {sep : Char} {ls : List (List Char)} (h : ∀ l ∈ ls, sep ∉ l) :
    splitOn sep (ls.flatMap (· ++ [sep])) = ls ++ [[]] := by
  induction ls with
  | nil => rfl
  | cons l ls ih =>
    have hl := splitOn_append (h l List.mem_cons_self) (ls.flatMap (· ++ [sep]))
    rw [ih fun l' hl' => h l' (List.mem_cons_of_mem l hl')] at hl
    simpa using hl

/-- Lines that are written one after the other are read back, up to carriage returns at their
ends. -/
theorem lines_flatMap {ls : List (List Char)} (h : ∀ l ∈ ls, '\n' ∉ l) :
    lines (ls.flatMap (· ++ ['\n'])) = ls.map dropReturn := by
  simp [lines, splitOn_flatMap h]

theorem dropReturn_append {c : Char} (hc : c ≠ '\r') (l : List Char) :
    dropReturn (l ++ [c]) = l ++ [c] := by
  unfold dropReturn
  rw [List.reverse_append, List.reverse_singleton, List.singleton_append]
  split
  · rename_i heq
    exact absurd (List.cons.inj heq).1 hc
  · rfl

/-- A line without its carriage return is a part of the line. -/
theorem dropReturn_isPrefix (l : List Char) : dropReturn l <+: l := by
  unfold dropReturn
  split
  · rename_i rest heq
    rw [List.reverse_eq_iff] at heq
    exact ⟨['\r'], by simpa using heq.symm⟩
  · exact List.prefix_refl l

/-! ### Cutting a line -/

theorem after?_eq_none {w cs : List Char} (h : ¬ w <+: cs) : after? w cs = none := by
  cases ha : after? w cs with
  | none => rfl
  | some rest => exact absurd ⟨rest, (after?_eq_some.1 ha).symm⟩ h

/-- A text in which a word does not occur is not cut there. -/
theorem cut?_eq_none {w cs : List Char} (h : ¬ w <:+: cs) : cut? w cs = none := by
  induction cs with
  | nil =>
    rw [cut?, after?_eq_none fun hp => h hp.isInfix]
    rfl
  | cons c cs ih =>
    have hcs : ¬ w <:+: cs := fun hi => h (hi.trans (List.suffix_cons c cs).isInfix)
    rw [cut?, after?_eq_none fun hp => h hp.isInfix, ih hcs]
    rfl

/-- No occurrence of the mark starts before it. It would have to begin in the text before, and the
mark has no beginning of two or three characters that ends as it begins. -/
theorem not_isPrefix_mark {c : Char} {front : List Char} (h : ¬ edgeMark.toList <:+: c :: front)
    (hlast : (c :: front).getLast? ≠ some '>') (rest : List Char) :
    ¬ edgeMark.toList <+: c :: (front ++ edgeMark.toList ++ rest) := by
  have hmark : edgeMark.toList = [' ', '-', '>', ' '] := by decide
  rw [hmark] at h ⊢
  match front with
  | [] => simp
  | [_] => simp
  | [_, _] =>
    simp only [List.cons_append, List.cons_prefix_cons, List.nil_append]
    rintro ⟨-, -, rfl, -⟩
    exact hlast rfl
  | d :: e :: f :: front =>
    simp only [List.cons_append, List.cons_prefix_cons, List.nil_prefix, and_true]
    rintro ⟨rfl, rfl, rfl, rfl⟩
    exact h (List.prefix_append [' ', '-', '>', ' '] front).isInfix

/-- A line is cut where the mark was put. -/
theorem cut?_append {front : List Char} (h : ¬ edgeMark.toList <:+: front)
    (hlast : front.getLast? ≠ some '>') (rest : List Char) :
    cut? edgeMark.toList (front ++ edgeMark.toList ++ rest) = some (front, rest) := by
  induction front with
  | nil =>
    have hmark : edgeMark.toList = ' ' :: ['-', '>', ' '] := by decide
    have hafter := after?_eq_some.2 (Eq.refl (edgeMark.toList ++ rest))
    rw [hmark] at hafter ⊢
    simp only [List.nil_append, List.cons_append, cut?] at hafter ⊢
    rw [hafter]
  | cons c front ih =>
    have hfront : ¬ edgeMark.toList <:+: front :=
      fun hi => h (hi.trans (List.suffix_cons c front).isInfix)
    have hlast' : front.getLast? ≠ some '>' := by
      intro heq
      refine hlast ?_
      rw [List.getLast?_cons, heq]
      rfl
    rw [List.cons_append, List.cons_append, cut?,
      after?_eq_none (not_isPrefix_mark h hlast rest), ih hfront hlast']
    rfl

/-- The text stands on one line, and has no mark in it. -/
def Plain (s : String) : Prop := '\n' ∉ s.toList ∧ ¬ edgeMark.toList <:+: s.toList

instance (s : String) : Decidable (Plain s) := inferInstanceAs (Decidable (_ ∧ _))

/-- A line without mark is not taken for an edge. -/
theorem Plain.cut?_eq_none {s : String} (h : Plain s) :
    cut? edgeMark.toList (dropReturn s.toList) = none :=
  Text.cut?_eq_none fun hi => h.2 (hi.trans (dropReturn_isPrefix _).isInfix)

/-- Where there are no pointed brackets, there is no mark. -/
theorem plain_of_not_mem {s : String} (h : '\n' ∉ s.toList) (h' : '>' ∉ s.toList) : Plain s :=
  ⟨h, fun hi => h' (hi.subset (by decide))⟩

/-- A text that ends with a number. -/
theorem plain_count {s : String} (h : '\n' ∉ s.toList) (h' : '>' ∉ s.toList) (n : Nat) :
    Plain (s ++ decimal n) := by
  have hdigit : ∀ c ∈ (decimal n).toList, c.isDigit = true := by
    intro c hc
    rw [decimal, String.toList_ofList] at hc
    exact Nat.isDigit_of_mem_toDigits (by decide) (by decide) hc
  refine plain_of_not_mem ?_ ?_ <;> rw [String.toList_append, List.mem_append, not_or]
  · exact ⟨h, fun hc => absurd (hdigit _ hc) (by decide)⟩
  · exact ⟨h', fun hc => absurd (hdigit _ hc) (by decide)⟩

end Text

/-! ### Texts of call sites -/

namespace Elements

variable {e : Elements}

/-- The text of a call site ends with the index of its call or with the call itself. -/
theorem getLast?_siteText (h : e.Sound) (s : SiteId) :
    (e.siteText s).toList.getLast? = some ']' ∨ (e.siteText s).toList.getLast? = some ')' := by
  cases hcall : (e.site s).call with
  | none =>
    left
    simp only [siteText, hcall, String.toList_append, List.getLast?_append]
    rfl
  | some c =>
    right
    obtain ⟨t, ht⟩ : ∃ t, e.site? s = some t := by
      cases ht : e.site? s with
      | some t => exact ⟨t, rfl⟩
      | none =>
        have hdefault : e.site s = default := by
          rw [site, List.getD_eq_getElem?_getD,
            show (e.code s.method).sites[s.slot]? = none from ht]
          rfl
        rw [hdefault] at hcall
        cases hcall
    obtain ⟨lhs, hst⟩ := h.owner s t c ht (site_of_site? ht ▸ hcall)
    obtain ⟨x, hx, hxst⟩ := has_iff.1 hst
    have hstmt : (e.stmt c).stmt = .call s lhs := by
      rw [stmt, stmt?, hx]
      exact hxst
    simp only [siteText, hcall, stmtText, hstmt, callText, Option.map_some, Option.getD_some,
      String.toList_append, List.getLast?_append]
    rfl

end Elements

namespace MethodGraph

variable {e e₁ e₂ : Elements} {g g₁ g₂ : MethodGraph} {t c : String} {s : SiteId}

/-- The call sites of the methods. -/
def allSites (g : MethodGraph) : List SiteId := g.methods.toList.flatMap g.sitesIn

/-- What a dump of the graph writes can be read back: signatures and texts of call sites stand on
one line without a mark, and the texts tell the call sites apart, of which each is listed once. -/
structure Legible (e : Elements) (g : MethodGraph) : Prop where
  methods : ∀ m ∈ g.methods, Text.Plain (e.program.signature m)
  callees : ∀ s ∈ g.allSites, ∀ m ∈ g.calleesOf s, Text.Plain (e.program.signature m)
  sites : ∀ s ∈ g.allSites, Text.Plain (e.siteText s)
  distinct : (g.allSites.map e.siteText).Nodup

instance : Decidable (g.Legible e) :=
  decidable_of_iff
    ((∀ m ∈ g.methods.toList, Text.Plain (e.program.signature m)) ∧
      (∀ s ∈ g.allSites, ∀ m ∈ (g.calleesOf s).toList, Text.Plain (e.program.signature m)) ∧
      (∀ s ∈ g.allSites, Text.Plain (e.siteText s)) ∧ (g.allSites.map e.siteText).Nodup)
    ⟨fun ⟨hm, hc, hs, hd⟩ => ⟨hm, hc, hs, hd⟩,
      fun h => ⟨h.methods, h.callees, h.sites, h.distinct⟩⟩

/-- The graph has a call site with the text `t` and callees, which make the text `c`. -/
def Renders (e : Elements) (g : MethodGraph) (t c : String) : Prop :=
  ∃ s ∈ g.allSites, isResolved g s = true ∧ e.siteText s = t ∧ calleesText e g s = c

/-- The graph has a call site with the text `t`, whose callees, if there are any, make the text
`c`. -/
def Lists (e : Elements) (g : MethodGraph) (t c : String) : Prop :=
  ∃ s ∈ g.allSites, e.siteText s = t ∧ calleesText e g s = c

theorem sortedSites_perm (e : Elements) (g : MethodGraph) : (sortedSites e g).Perm g.allSites := by
  exact (Sorting.sort_perm _ _).flatMap fun m _ => Sorting.sort_perm _ _

theorem mem_sortedSites : s ∈ sortedSites e g ↔ s ∈ g.allSites := (sortedSites_perm e g).mem_iff

/-! ### Texts of callees -/

theorem toList_calleesText (e : Elements) (g : MethodGraph) (s : SiteId) :
    (calleesText e g s).toList = '[' ::
      (", ".toList.intercalate ((calleeSignatures e g s).map String.toList) ++ [']']) := by
  simp [calleesText, Text.joined, String.toList_intercalate]

theorem mem_calleeSignatures {x : String} :
    x ∈ calleeSignatures e g s ↔ ∃ m ∈ g.calleesOf s, e.program.signature m = x := by
  simp [calleeSignatures, Sorting.mem_sort, List.mem_eraseDups]

/-- The callees stand on one line. -/
theorem newline_not_mem_calleesText
    (h : ∀ m ∈ g.calleesOf s, Text.Plain (e.program.signature m)) :
    '\n' ∉ (calleesText e g s).toList := by
  rw [toList_calleesText]
  intro hc
  simp only [List.mem_cons, List.mem_append, List.not_mem_nil, or_false] at hc
  rcases hc with hc | hc | hc
  · exact absurd hc (by decide)
  · rcases Text.mem_of_mem_intercalate hc with hc | ⟨l, hl, hc⟩
    · exact absurd hc (by decide)
    · obtain ⟨x, hx, rfl⟩ := List.mem_map.1 hl
      obtain ⟨m, hm, rfl⟩ := mem_calleeSignatures.1 hx
      exact (h m hm).1 hc
  · exact absurd hc (by decide)

theorem isResolved_iff : isResolved g s = true ↔ ∃ m, m ∈ g.calleesOf s := by
  rw [isResolved, Bool.not_eq_true', ← Bool.not_eq_true, OrderedSet.isEmpty_iff]
  exact not_forall_not

/-- Only a call site without callees has an empty list of them, since no signature is empty. -/
theorem calleesText_eq_nil_iff : calleesText e g s = "[]" ↔ isResolved g s = false := by
  have hempty : isResolved g s = false ↔ calleeSignatures e g s = [] := by
    rw [← Bool.not_eq_true, isResolved_iff, List.eq_nil_iff_forall_not_mem]
    simp only [mem_calleeSignatures]
    constructor
    · rintro h x ⟨m, hm, -⟩
      exact h ⟨m, hm⟩
    · rintro h ⟨m, hm⟩
      exact h _ ⟨m, hm, rfl⟩
  rw [hempty]
  constructor
  · intro h
    have hlist := congrArg String.toList h
    rw [toList_calleesText] at hlist
    cases hsigs : calleeSignatures e g s with
    | nil => rfl
    | cons x rest =>
      -- the first signature starts with a bracket
      obtain ⟨m, -, hx⟩ := mem_calleeSignatures.1 (hsigs ▸ List.mem_cons_self : x ∈ _)
      obtain ⟨r, hr⟩ : ∃ r, x.toList = '<' :: r := by
        rw [← hx]
        simp [Program.signature, Signature.text]
      rw [hsigs] at hlist
      cases rest <;> simp [hr, List.intercalate_cons_cons] at hlist
  · intro h
    simp [calleesText, h, Text.joined]

/-! ### Reading a dump -/

/-- The call sites with callees and their texts, in the order of the dump. -/
def rendered (e : Elements) (g : MethodGraph) : List (String × String) :=
  ((sortedSites e g).filter (isResolved g)).map fun s => (e.siteText s, calleesText e g s)

theorem mem_rendered : (t, c) ∈ rendered e g ↔ Renders e g t c := by
  simp only [rendered, List.mem_map, List.mem_filter, mem_sortedSites, Prod.mk.injEq, Renders,
    and_assoc]

theorem Legible.rendered_nodup (h : g.Legible e) : ((rendered e g).map Prod.fst).Nodup := by
  have hsites : ((sortedSites e g).map e.siteText).Nodup :=
    ((sortedSites_perm e g).map _).nodup_iff.2 h.distinct
  rw [rendered, List.map_map]
  exact hsites.sublist (List.filter_sublist.map _)

/-- An edge line is read as it was written. -/
theorem Legible.cut?_edgeLine (h : g.Legible e) (he : e.Sound) (hs : s ∈ g.allSites) :
    Text.cut? edgeMark.toList (Text.dropReturn (edgeLine e g s).toList) =
      some ((e.siteText s).toList, (calleesText e g s).toList) := by
  have hlast : (e.siteText s).toList.getLast? ≠ some '>' := by
    rcases Elements.getLast?_siteText he s with hl | hl <;> rw [hl] <;> decide
  have hline : (edgeLine e g s).toList =
      (e.siteText s).toList ++ edgeMark.toList ++ (calleesText e g s).toList := by
    simp only [edgeLine, String.toList_append]
  have hdrop : Text.dropReturn (edgeLine e g s).toList = (edgeLine e g s).toList := by
    rw [hline, toList_calleesText, ← List.cons_append, ← List.append_assoc]
    exact Text.dropReturn_append (by decide) _
  rw [hdrop, hline]
  exact Text.cut?_append (h.sites s hs).2 hlast _

theorem Legible.newline_not_mem_edgeLine (h : g.Legible e) (hs : s ∈ g.allSites) :
    '\n' ∉ (edgeLine e g s).toList := by
  simp only [edgeLine, String.toList_append, List.mem_append, not_or]
  exact ⟨⟨(h.sites s hs).1, by decide⟩, newline_not_mem_calleesText (h.callees s hs)⟩

/-- The lines of a dump before those of the edges. -/
def preamble (e : Elements) (g : MethodGraph) : List String :=
  ["#reachable methods: " ++ Text.decimal g.methodCount,
   "---------- Reachable methods: ----------"] ++
  (sortedMethods e g).map e.program.signature ++
  ["",
   "#call graph edges: " ++ Text.decimal g.edgeCount,
   "---------- Call graph edges: ----------"]

theorem Legible.plain_preamble (h : g.Legible e) {l : String} (hl : l ∈ preamble e g) :
    Text.Plain l := by
  simp only [preamble, List.mem_append, List.mem_cons, List.mem_map, List.not_mem_nil,
    or_false] at hl
  rcases hl with ((rfl | rfl) | ⟨m, hm, rfl⟩) | rfl | rfl | rfl
  · exact Text.plain_count (by decide) (by decide) _
  · exact Text.plain_of_not_mem (by decide) (by decide)
  · exact h.methods m ((Sorting.mem_sort _).1 hm)
  · exact Text.plain_of_not_mem (by decide) (by decide)
  · exact Text.plain_count (by decide) (by decide) _
  · exact Text.plain_of_not_mem (by decide) (by decide)

theorem dumpLines_eq (e : Elements) (g : MethodGraph) :
    dumpLines e g = preamble e g ++
      ((sortedSites e g).filter (isResolved g)).map (edgeLine e g) ++
      ["----------------------------------------"] := rfl

theorem toList_dump (e : Elements) (g : MethodGraph) :
    (dump e g).toList = ((dumpLines e g).map String.toList).flatMap (· ++ ['\n']) := by
  simp [dump, String.toList_join, List.flatMap_map]

/-- Of the lines of a dump, the edge lines are cut, and give what was written. -/
theorem Legible.cut_lines_dump (h : g.Legible e) (he : e.Sound) :
    (Text.lines (dump e g).toList).filterMap (Text.cut? edgeMark.toList) =
      (rendered e g).map fun x => (x.1.toList, x.2.toList) := by
  have hmem : ∀ s ∈ (sortedSites e g).filter (isResolved g), s ∈ g.allSites :=
    fun s hs => mem_sortedSites.1 (List.mem_filter.1 hs).1
  have hlast : Text.Plain "----------------------------------------" :=
    Text.plain_of_not_mem (by decide) (by decide)
  have hnewline : ∀ l ∈ (dumpLines e g).map String.toList, '\n' ∉ l := by
    intro line hline
    obtain ⟨l, hl, rfl⟩ := List.mem_map.1 hline
    rw [dumpLines_eq, List.mem_append, List.mem_append, List.mem_singleton] at hl
    rcases hl with (hl | hl) | rfl
    · exact (h.plain_preamble hl).1
    · obtain ⟨s, hs, rfl⟩ := List.mem_map.1 hl
      exact h.newline_not_mem_edgeLine (hmem s hs)
    · exact hlast.1
  have hpreamble : (preamble e g).filterMap
      (Text.cut? edgeMark.toList ∘ Text.dropReturn ∘ String.toList) = [] :=
    List.filterMap_eq_nil_iff.2 fun l hl => (h.plain_preamble hl).cut?_eq_none
  have hedges : (((sortedSites e g).filter (isResolved g)).map (edgeLine e g)).filterMap
      (Text.cut? edgeMark.toList ∘ Text.dropReturn ∘ String.toList) =
      (rendered e g).map fun x => (x.1.toList, x.2.toList) := by
    rw [List.filterMap_map, rendered, List.map_map, ← List.filterMap_eq_map]
    refine List.filterMap_congr fun s hs => ?_
    simp only [Function.comp_apply]
    exact h.cut?_edgeLine he (hmem s hs)
  have hend : ["----------------------------------------"].filterMap
      (Text.cut? edgeMark.toList ∘ Text.dropReturn ∘ String.toList) = [] :=
    List.filterMap_eq_nil_iff.2 fun l hl => List.mem_singleton.1 hl ▸ hlast.cut?_eq_none
  rw [toList_dump, Text.lines_flatMap hnewline, List.map_map, List.filterMap_map, dumpLines_eq,
    List.filterMap_append, List.filterMap_append, hpreamble, hedges, hend, List.nil_append,
    List.append_nil]

/-- **A dump says what the graph renders**, and says it once. -/
theorem Legible.expectedCallees_dump (h : g.Legible e) (he : e.Sound) :
    ((expectedCallees (dump e g)).map Prod.fst).Nodup ∧
      ∀ t c, (t, c) ∈ expectedCallees (dump e g) ↔ Renders e g t c := by
  have hread : expectedCallees (dump e g) =
      (rendered e g).reverse.eraseDupsBy fun x y => x.1 == y.1 := by
    simp [expectedCallees, h.cut_lines_dump he, Function.comp_def]
  obtain ⟨hnodup, hsub, hex⟩ := eraseDupsBy_spec Prod.fst (rendered e g).reverse
  rw [hread]
  refine ⟨hnodup, fun t c => ?_⟩
  rw [← mem_rendered]
  constructor
  · exact fun hx => List.mem_reverse.1 (hsub _ hx)
  · intro hx
    obtain ⟨y, hy, hkey⟩ := hex (t, c) (List.mem_reverse.2 hx)
    have hy' := List.mem_reverse.1 (hsub y hy)
    obtain rfl := List.inj_on_of_nodup_map h.rendered_nodup hy' hx hkey
    exact hy

/-! ### Comparing -/

/-- A call site on which a dump and a graph differ, with the callees that the dump gives for it and
those that it has. -/
structure Difference where
  site : String
  expected : Option String
  given : Option String

/-- The message for a difference. -/
def Difference.message (d : Difference) : String := mismatch d.site d.expected d.given

variable {expected : List (String × String)}

/-- The callees of a call site are the expected ones, or it has none and is not expected to. -/
def agrees (e : Elements) (g : MethodGraph) (expected : List (String × String)) (s : SiteId) :
    Bool :=
  expected.lookup (e.siteText s) = some (calleesText e g s) ||
    (!isResolved g s && (expected.lookup (e.siteText s)).isNone)

/-- The differences between the expected callees and those of a graph. -/
def differences (e : Elements) (g : MethodGraph) (expected : List (String × String)) :
    List Difference :=
  (((sortedSites e g).filter fun s => !agrees e g expected s).map fun s =>
    ⟨e.siteText s, expected.lookup (e.siteText s), some (calleesText e g s)⟩) ++
  (missing e g expected).map fun x => ⟨x.1, some x.2, none⟩

theorem siteMismatch?_eq (s : SiteId) :
    siteMismatch? e g expected s = if agrees e g expected s then none
      else some (mismatch (e.siteText s) (expected.lookup (e.siteText s))
        (some (calleesText e g s))) := rfl

/-- There is one message for each difference. -/
theorem mismatches_eq (e : Elements) (g : MethodGraph) (text : String) :
    mismatches e g text = (differences e g (expectedCallees text)).map Difference.message := by
  have hsites : ∀ l : List SiteId, l.filterMap (siteMismatch? e g (expectedCallees text)) =
      (l.filter fun s => !agrees e g (expectedCallees text) s).map fun s =>
        mismatch (e.siteText s) ((expectedCallees text).lookup (e.siteText s))
          (some (calleesText e g s)) := by
    intro l
    induction l with
    | nil => rfl
    | cons s l ih =>
      rw [List.filterMap_cons, List.filter_cons, siteMismatch?_eq, ih]
      cases agrees e g (expectedCallees text) s <;> rfl
  simp only [mismatches, differences, hsites, List.map_append, List.map_map]
  rfl

theorem lookup_eq_some_iff (h : (expected.map Prod.fst).Nodup) :
    expected.lookup t = some c ↔ (t, c) ∈ expected :=
  Table.find?_eq_some_iff (t := ⟨expected, h⟩)

theorem mem_missing {x : String × String} :
    x ∈ missing e g expected ↔ x ∈ expected ∧ ∀ s ∈ g.allSites, e.siteText s ≠ x.1 := by
  simp [missing, Sorting.mem_sort, mem_sortedSites]

/-- The text of a call site tells which one it is. -/
theorem Legible.eq_of_siteText_eq (h : g.Legible e) {s s' : SiteId} (hs : s ∈ g.allSites)
    (hs' : s' ∈ g.allSites) (heq : e.siteText s = e.siteText s') : s = s' :=
  List.inj_on_of_nodup_map h.distinct hs hs' heq

section

variable (hkeys : (expected.map Prod.fst).Nodup) (h : g.Legible e)

include hkeys

theorem agrees_iff :
    agrees e g expected s = true ↔ (e.siteText s, calleesText e g s) ∈ expected ∨
      isResolved g s = false ∧ ∀ c, (e.siteText s, c) ∉ expected := by
  have hnone : expected.lookup (e.siteText s) = none ↔ ∀ c, (e.siteText s, c) ∉ expected := by
    simp only [← lookup_eq_some_iff hkeys, Option.eq_none_iff_forall_ne_some]
  rw [← lookup_eq_some_iff hkeys, ← hnone]
  simp [agrees]

include h

/-- No call site has two differences. -/
theorem differences_nodup : ((differences e g expected).map Difference.site).Nodup := by
  have hsites : ((sortedSites e g).map e.siteText).Nodup :=
    ((sortedSites_perm e g).map _).nodup_iff.2 h.distinct
  have hmissing : ((missing e g expected).map Prod.fst).Nodup := by
    refine ((Sorting.sort_perm _ _).map Prod.fst).nodup_iff.2 ?_
    exact hkeys.sublist (List.filter_sublist.map _)
  simp only [differences, List.map_append, List.map_map]
  refine List.nodup_append.2 ⟨hsites.sublist (List.filter_sublist.map _), hmissing, ?_⟩
  rintro t ht _ ht' rfl
  obtain ⟨s, hs, rfl⟩ := List.mem_map.1 ht
  obtain ⟨x, hx, heq⟩ := List.mem_map.1 ht'
  exact (mem_missing.1 hx).2 s (mem_sortedSites.1 (List.mem_filter.1 hs).1) heq.symm

/-- What a difference says. -/
theorem difference_spec {d : Difference} (hd : d ∈ differences e g expected) :
    (∀ c, d.expected = some c ↔ (d.site, c) ∈ expected) ∧
      ∀ c, d.given = some c ↔ Lists e g d.site c := by
  rcases List.mem_append.1 hd with hd | hd
  · obtain ⟨s, hs, rfl⟩ := List.mem_map.1 hd
    have hs := mem_sortedSites.1 (List.mem_filter.1 hs).1
    refine ⟨fun c => lookup_eq_some_iff hkeys, fun c => ?_⟩
    rw [Option.some.injEq]
    constructor
    · exact fun hc => ⟨s, hs, rfl, hc⟩
    · rintro ⟨s', hs', heq, rfl⟩
      rw [h.eq_of_siteText_eq hs' hs heq]
  · obtain ⟨⟨t, c⟩, hx, rfl⟩ := List.mem_map.1 hd
    obtain ⟨hmem, hno⟩ := mem_missing.1 hx
    refine ⟨fun c' => ?_, fun c' => ⟨by rintro ⟨⟩, ?_⟩⟩
    · rw [← lookup_eq_some_iff hkeys, (lookup_eq_some_iff hkeys).2 hmem]
    · rintro ⟨s, hs, heq, -⟩
      exact absurd heq (hno s hs)

/-- There is a difference for exactly the call sites for which the dump does not give the callees
that they have. -/
theorem mem_differences (hno : ∀ t, (t, "[]") ∉ expected) :
    t ∈ (differences e g expected).map Difference.site ↔
      ¬ ∀ c, (t, c) ∈ expected ↔ Renders e g t c := by
  have hmem : t ∈ (differences e g expected).map Difference.site ↔
      (∃ s ∈ g.allSites, agrees e g expected s = false ∧ e.siteText s = t) ∨
        ∃ c, (t, c) ∈ expected ∧ ∀ s ∈ g.allSites, e.siteText s ≠ t := by
    simp [differences, mem_missing, mem_sortedSites, and_assoc]
  rw [hmem]
  constructor
  · rintro (⟨s, hs, hagrees, rfl⟩ | ⟨c, hc, hnone⟩) hsame
    · -- a call site whose callees are rendered in the dump as they are agrees with it
      refine Bool.eq_false_iff.1 hagrees ((agrees_iff hkeys).2 ?_)
      cases hresolved : isResolved g s with
      | true => exact .inl ((hsame _).2 ⟨s, hs, hresolved, rfl, rfl⟩)
      | false =>
        refine .inr ⟨rfl, fun c hc => ?_⟩
        obtain ⟨s', hs', hresolved', heq, -⟩ := (hsame c).1 hc
        rw [h.eq_of_siteText_eq hs' hs heq, hresolved] at hresolved'
        cases hresolved'
    · obtain ⟨s, hs, -, heq, -⟩ := (hsame c).1 hc
      exact hnone s hs heq
  · contrapose!
    rintro ⟨hagree, hgiven⟩ c
    have hagrees : ∀ s ∈ g.allSites, e.siteText s = t → agrees e g expected s = true :=
      fun s hs heq => eq_true_of_ne_false fun hf => hagree s hs hf heq
    constructor
    · intro hc
      obtain ⟨s, hs, rfl⟩ := hgiven c hc
      rcases (agrees_iff hkeys).1 (hagrees s hs rfl) with hin | ⟨-, hnone⟩
      · have hcallees : calleesText e g s = c := by
          have hlookup := (lookup_eq_some_iff hkeys).2 hc
          rw [(lookup_eq_some_iff hkeys).2 hin] at hlookup
          exact Option.some.inj hlookup
        refine ⟨s, hs, ?_, rfl, hcallees⟩
        refine eq_true_of_ne_false fun hf => hno (e.siteText s) ?_
        rw [← calleesText_eq_nil_iff.2 hf]
        exact hin
      · exact absurd hc (hnone c)
    · rintro ⟨s, hs, hresolved, rfl, rfl⟩
      rcases (agrees_iff hkeys).1 (hagrees s hs rfl) with hin | ⟨hf, -⟩
      · exact hin
      · rw [hresolved] at hf
        cases hf

end

/-- No dump gives an empty list of callees. -/
theorem not_renders_nil (t : String) : ¬ Renders e g t "[]" := by
  rintro ⟨s, -, hresolved, -, hnil⟩
  rw [calleesText_eq_nil_iff.1 hnil] at hresolved
  cases hresolved

/-- Comparing succeeds when there is no difference. -/
theorem compare_eq (e : Elements) (g : MethodGraph) (text : String) :
    compare e g text =
      if differences e g (expectedCallees text) = [] then .ok ()
      else .error (.callGraphMismatch
        ((differences e g (expectedCallees text)).map Difference.message)) := by
  rw [compare, mismatches_eq]
  cases differences e g (expectedCallees text) with
  | nil => rfl
  | cons d ds => simp

/-- The differences between a graph and the dump of another one. -/
theorem Legible.mem_differences_dump (h₁ : g₁.Legible e₁) (he : e₁.Sound) (h₂ : g₂.Legible e₂) :
    t ∈ (differences e₂ g₂ (expectedCallees (dump e₁ g₁))).map Difference.site ↔
      ¬ ∀ c, Renders e₁ g₁ t c ↔ Renders e₂ g₂ t c := by
  obtain ⟨hkeys, hmem⟩ := h₁.expectedCallees_dump he
  rw [mem_differences hkeys h₂ fun t ht => not_renders_nil t ((hmem t _).1 ht)]
  simp only [hmem]

theorem Legible.compare_dump_eq_ok (h₁ : g₁.Legible e₁) (he : e₁.Sound) (h₂ : g₂.Legible e₂) :
    compare e₂ g₂ (dump e₁ g₁) = .ok () ↔ ∀ t c, Renders e₁ g₁ t c ↔ Renders e₂ g₂ t c := by
  have hnone : differences e₂ g₂ (expectedCallees (dump e₁ g₁)) = [] ↔
      ∀ t c, Renders e₁ g₁ t c ↔ Renders e₂ g₂ t c := by
    rw [← List.map_eq_nil_iff (f := Difference.site), List.eq_nil_iff_forall_not_mem]
    exact forall_congr' fun t => (not_congr (h₁.mem_differences_dump he h₂)).trans not_not
  rw [← hnone, compare_eq]
  split <;> simp_all

/-- **Dumps and comparison agree.** Comparing a graph with the dump of another one succeeds exactly
if the graphs render the same callees for the same call sites. Otherwise the error has one message
for each call site on which they differ, with what either graph says about it. -/
theorem compare_dump {p : Program} (hp : ({ program := p } : Elements).Develops e₁)
    (h₁ : g₁.Legible e₁) (h₂ : g₂.Legible e₂) :
    (compare e₂ g₂ (dump e₁ g₁) = .ok () ↔ ∀ t c, Renders e₁ g₁ t c ↔ Renders e₂ g₂ t c) ∧
      (∀ err, compare e₂ g₂ (dump e₁ g₁) = .error err → ∃ ds : List Difference,
        err = .callGraphMismatch (ds.map Difference.message) ∧
        (ds.map Difference.site).Nodup ∧
        (∀ t, t ∈ ds.map Difference.site ↔ ¬ ∀ c, Renders e₁ g₁ t c ↔ Renders e₂ g₂ t c) ∧
        ∀ d ∈ ds, (∀ c, d.expected = some c ↔ Renders e₁ g₁ d.site c) ∧
          ∀ c, d.given = some c ↔ Lists e₂ g₂ d.site c) ∧
      compare e₁ g₁ (dump e₁ g₁) = .ok () := by
  have he := hp.sound (Elements.sound_empty p)
  obtain ⟨hkeys, hmem⟩ := h₁.expectedCallees_dump he
  refine ⟨h₁.compare_dump_eq_ok he h₂, fun err herr => ?_,
    (h₁.compare_dump_eq_ok he h₁).2 fun _ _ => Iff.rfl⟩
  rw [compare_eq] at herr
  split at herr <;> cases herr
  refine ⟨_, rfl, differences_nodup hkeys h₂, fun t => h₁.mem_differences_dump he h₂,
    fun d hd => ?_⟩
  obtain ⟨hexpected, hgiven⟩ := difference_spec hkeys h₂ hd
  exact ⟨fun c => (hexpected c).trans (hmem _ c), hgiven⟩

end MethodGraph

/-- A program whose main method calls another one twice. -/
def Program.doubled : Program where
  classes := [{ name := "A" }]
  methods :=
    [{ owner := ⟨0⟩, name := "main", isStatic := true
       body := some
        { instructions := [.invoke ⟨0xb8, ⟨1⟩, none, []⟩, .invoke ⟨0xb8, ⟨1⟩, none, []⟩] } },
     { owner := ⟨0⟩, name := "f", isStatic := true }]

/-- Its tables, with the code of the main method. -/
def Elements.doubled : Elements := (({ program := .doubled } : Elements).serve (.lower ⟨0⟩)).2

/-- Both of its call sites, and the edge of the first one. -/
def MethodGraph.firstCall : MethodGraph :=
  (CallGraph.addSite ∅ ⟨0⟩ ⟨⟨0⟩, 0⟩).addSite ⟨0⟩ ⟨⟨0⟩, 1⟩
    |>.addEdge ⟨0⟩ ⟨.static, ⟨⟨0⟩, 0⟩, ⟨1⟩⟩

/-- Both of its call sites, and both edges. -/
def MethodGraph.bothCalls : MethodGraph := firstCall.addEdge ⟨0⟩ ⟨.static, ⟨⟨0⟩, 1⟩, ⟨1⟩⟩

/-- A graph that lacks an edge is told from one that has it. -/
theorem MethodGraph.compare_dump_doubled :
    bothCalls.Legible Elements.doubled ∧ firstCall.Legible Elements.doubled ∧
      compare Elements.doubled bothCalls (dump Elements.doubled bothCalls) = .ok () ∧
      compare Elements.doubled firstCall (dump Elements.doubled bothCalls) ≠ .ok () := by
  have hp : ({ program := .doubled } : Elements).Develops Elements.doubled := .serve .refl _
  have h₁ : bothCalls.Legible Elements.doubled := by decide +kernel
  have h₂ : firstCall.Legible Elements.doubled := by decide +kernel
  obtain ⟨hok, -, hself⟩ := compare_dump hp h₁ h₂
  refine ⟨h₁, h₂, hself, fun h => ?_⟩
  -- the second call site has callees in one of them only
  obtain ⟨s, hs, hres, htext, -⟩ :=
    (hok.1 h (Elements.doubled.siteText ⟨⟨0⟩, 1⟩)
      (calleesText Elements.doubled bothCalls ⟨⟨0⟩, 1⟩)).1 ⟨⟨⟨0⟩, 1⟩, by decide +kernel⟩
  have hall : ∀ s ∈ firstCall.allSites, isResolved firstCall s = true →
      Elements.doubled.siteText s ≠ Elements.doubled.siteText ⟨⟨0⟩, 1⟩ := by decide +kernel
  exact hall s hs hres htext

end PointsTo
