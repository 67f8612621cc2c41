import PointsTo.Elements.Text
import PointsTo.Proofs.Code.Yields
import PointsTo.Proofs.ContextPolicy
import PointsTo.Proofs.Elements.Bodies
import PointsTo.Proofs.Elements.Catalog

/-!
# The positions of statements

The index of a statement of a body counts the statements of the body that were there before it, and
that of a synthetic statement counts all statements of its method that were. So indices are
positions in the order of creation as long as no statement is added to a body after a synthetic one,
and only then do they tell the statements of a method apart.

* `Code.Counted`: what indices count, and `Code.Counted.nodup_iff`: when they are all different;
* `Elements.BodyFirst`: no statement of the body of a method comes after a synthetic one;
* `Elements.Positioned`: the indices of a method are its positions, and tell its statements and call
  sites apart;
* `Request.Injects`: requests that add synthetic statements to methods that were lowered, and no
  others, keep bodies first (`Elements.DevelopsBy.bodyFirst`);
* `Elements.Develops.positions_identify`: all of this, for tables that any requests lead to.
-/

namespace PointsTo

/-! ### What indices count -/

theorem map_getD_range {α : Type} (l : List α) (a : α) :
    (List.range l.length).map (fun i => l.getD i a) = l := by
  refine List.ext_getElem (by simp) fun i _ hi => ?_
  simp [List.getD_eq_getElem?_getD, List.getElem?_eq_getElem hi]

/-- If a property that holds of something holds of all that follows, what has it comes last. -/
theorem filter_append_of_pairwise {α : Type} {q : α → Bool} {l : List α}
    (h : l.Pairwise fun x y => q x = true → q y = true) :
    l.filter (fun x => !q x) ++ l.filter q = l := by
  induction l with
  | nil => rfl
  | cons x l ih =>
    obtain ⟨hx, hl⟩ := List.pairwise_cons.1 h
    cases hq : q x with
    | false => simpa [hq] using ih hl
    | true =>
      have hall : ∀ y ∈ l, q y = true := fun y hy => hx y hy hq
      have hnone : l.filter (fun y => !q y) = [] := by simpa using hall
      simp [hq, hnone, List.filter_eq_self.2 hall]

namespace Code

/-- The body lists the statements of `m` that are not synthetic. The index of such a statement is
the number of those before it, that of a synthetic statement is its place. -/
structure Counted (m : MethodId) (c : Code) : Prop where
  body_eq : c.body = ((List.range c.stmts.length).map (StmtId.mk m)).filter
    fun s => !(c.stmts.getD s.slot default).synthetic
  index_eq : ∀ (i : Nat) x, c.stmts[i]? = some x →
    x.index = if x.synthetic then i else (c.stmts.take i).countP (!·.synthetic)

variable {m : MethodId} {builds : Prop} {c c₁ : Code}

namespace Counted

theorem empty (m : MethodId) : ({} : Code).Counted m := ⟨rfl, by rintro i x ⟨⟩⟩

theorem of_eq (h : c.Counted m) (hstmts : c₁.stmts = c.stmts) (hbody : c₁.body = c.body) :
    c₁.Counted m := by
  refine ⟨?_, ?_⟩ <;> simp only [hstmts, hbody]
  · exact h.body_eq
  · exact h.index_eq

theorem length_body (h : c.Counted m) : c.body.length = c.stmts.countP (!·.synthetic) := by
  conv => rhs; rw [← map_getD_range c.stmts default]
  rw [h.body_eq, ← List.countP_eq_length_filter, List.countP_map, List.countP_map]
  rfl

theorem nodup_body (h : c.Counted m) : c.body.Nodup := by
  rw [h.body_eq]
  exact (List.nodup_range.map fun i j hij => (StmtId.mk.inj hij).2).filter _

/-- A synthetic statement is counted after all others. -/
theorem nextIndex_true (h : c.Counted m) : c.nextIndex true = c.stmts.length := by
  rw [nextIndex, h.length_body, if_pos rfl, ← List.countP_eq_length_filter,
    List.length_eq_countP_add_countP PlacedStmt.synthetic, Nat.add_comm]
  simp

/-- One more statement gets the next index. -/
theorem concat {x : PlacedStmt} (h : c.Counted m) (hstmts : c₁.stmts = c.stmts ++ [x])
    (hbody : c₁.body = c.body ++ if x.synthetic then [] else [⟨m, c.stmts.length⟩])
    (hindex : x.index = c.nextIndex x.synthetic) : c₁.Counted m where
  body_eq := by
    rw [hbody, hstmts, List.length_append, List.length_singleton, List.range_succ, List.map_append,
      List.filter_append, h.body_eq]
    congr 1
    · refine List.filter_congr fun s hs => ?_
      obtain ⟨i, hi, rfl⟩ := List.mem_map.1 hs
      simp [List.getD_eq_getElem?_getD, List.getElem?_append_left (List.mem_range.1 hi)]
    · cases hsyn : x.synthetic <;> simp [hsyn]
  index_eq i y hy := by
    rw [hstmts] at hy ⊢
    rw [List.getElem?_append] at hy
    split at hy <;> rename_i hi
    · rw [List.take_append_of_le_length (Nat.le_of_lt hi)]
      exact h.index_eq i y hy
    · rw [List.getElem?_singleton] at hy
      split at hy <;> cases hy
      obtain rfl : i = c.stmts.length := by omega
      rw [hindex]
      cases hsyn : x.synthetic with
      | true => exact h.nextIndex_true
      | false => simp [nextIndex, h.length_body]

end Counted

theorem Touches.counted (h : Touches m builds c c₁) (hc : c.Counted m) : c₁.Counted m := by
  induction h with
  | refl => exact hc
  | tail _ h ih =>
    cases h with
    | stmt st synthetic =>
      refine ih.concat rfl ?_ rfl
      cases synthetic
      · rfl
      · exact (List.append_nil _).symm
    | var | temp | site | owner | note | bodySite => exact ih.of_eq rfl rfl

theorem Edits.counted (h : Edits m c c₁) (hc : c.Counted m) : c₁.Counted m := by
  have hadd : ∀ {c : Code}, c.Counted m → ∀ st, (c.addStmt m st).Counted m := by
    intro c hc st
    obtain ⟨hstmts, hbody, -⟩ := c.rest_addStmt m st
    exact hc.concat hstmts hbody rfl
  induction h with
  | refl => exact hc
  | tail _ h ih =>
    cases h with
    | stmt => exact hadd ih _
    | @call t _ lhs => exact hadd (c := Code.pushSite _ t) (ih.of_eq rfl rfl) _
    | var | temp | site | bodySite | interface => exact ih.of_eq rfl rfl

/-! ### When indices are positions -/

/-- No statement of the body comes after a synthetic one. -/
def BodyFirst (c : Code) : Prop :=
  c.stmts.Pairwise fun x y => x.synthetic = true → y.synthetic = true

namespace Counted

variable (h : c.Counted m)

include h

theorem index_of_bodyFirst (hfirst : c.BodyFirst) {i : Nat} {x : PlacedStmt}
    (hx : c.stmts[i]? = some x) : x.index = i := by
  obtain ⟨hi, rfl⟩ := List.getElem?_eq_some_iff.1 hx
  rw [h.index_eq i _ hx]
  split <;> rename_i hsyn
  · rfl
  · -- a synthetic statement before this one would make this one synthetic
    have hall : ∀ y ∈ c.stmts.take i, (!y.synthetic) = true := by
      intro y hy
      obtain ⟨j, hj, rfl⟩ := List.mem_take_iff_getElem.1 hy
      have hj' : j < i ∧ j < c.stmts.length := Nat.lt_min.1 hj
      have hlater := List.pairwise_iff_getElem.1 hfirst j i hj'.2 hi hj'.1
      rw [Bool.not_eq_true']
      exact Bool.eq_false_iff.2 fun hy => hsyn (hlater hy)
    rw [List.countP_eq_length.2 hall, List.length_take, Nat.min_eq_left (Nat.le_of_lt hi)]

/-- If all indices are different, the statement at each place has this place as its index. -/
theorem index_of_nodup (hnodup : (c.stmts.map PlacedStmt.index).Nodup) {i : Nat} {x : PlacedStmt}
    (hx : c.stmts[i]? = some x) : x.index = i := by
  induction i using Nat.strongRecOn generalizing x with
  | _ i ih =>
    have hindex := h.index_eq i x hx
    split at hindex
    · exact hindex
    · -- the statement whose place is this index has the index as well
      obtain ⟨hi, -⟩ := List.getElem?_eq_some_iff.1 hx
      have hle : x.index ≤ i := by
        rw [hindex]
        exact List.countP_le_length.trans (List.length_take_le _ _)
      refine Nat.le_antisymm hle (Nat.le_of_not_lt fun hlt => ?_)
      have hy := List.getElem?_eq_getElem (Nat.lt_trans hlt hi)
      have hsame : (c.stmts.map PlacedStmt.index)[x.index]? =
          (c.stmts.map PlacedStmt.index)[i]? := by
        rw [List.getElem?_map, List.getElem?_map, hx, hy, Option.map_some, Option.map_some,
          ih x.index hlt hy]
      have hplace := (List.getElem?_inj (by simpa using Nat.lt_trans hlt hi) hnodup).1 hsame
      omega

theorem bodyFirst_of_index
    (hindex : ∀ (i : Nat) x, c.stmts[i]? = some x → x.index = i) : c.BodyFirst := by
  refine List.pairwise_iff_getElem.2 fun i j hi hj hij hsyn => ?_
  by_contra hbody
  have hx := List.getElem?_eq_getElem hj
  have hcount := h.index_eq j _ hx
  rw [hindex j _ hx, if_neg hbody] at hcount
  -- all statements before this one are counted, but one of them is synthetic
  have hall := List.countP_eq_length.1
    (hcount.symm.trans (List.length_take_of_le (Nat.le_of_lt hj)).symm)
  have hmem : c.stmts[i] ∈ c.stmts.take j :=
    List.mem_take_iff_getElem.2 ⟨i, Nat.lt_min.2 ⟨hij, hi⟩, rfl⟩
  have hnot := hall _ hmem
  rw [hsyn] at hnot
  cases hnot

theorem indices_eq (hfirst : c.BodyFirst) :
    c.stmts.map PlacedStmt.index = List.range c.stmts.length := by
  refine List.ext_getElem (by simp) fun i hi _ => ?_
  rw [List.length_map] at hi
  simpa using h.index_of_bodyFirst hfirst (List.getElem?_eq_getElem hi)

/-- Indices are all different exactly if they are positions. -/
theorem nodup_iff : (c.stmts.map PlacedStmt.index).Nodup ↔ c.BodyFirst := by
  constructor
  · exact fun hnodup => h.bodyFirst_of_index fun i x => h.index_of_nodup hnodup
  · intro hfirst
    rw [h.indices_eq hfirst]
    exact List.nodup_range

end Counted

/-- A synthetic statement can come after all others. -/
theorem Touches.bodyFirst (h : Touches m builds c c₁) (hb : ¬ builds) (hc : c.BodyFirst) :
    c₁.BodyFirst := by
  induction h with
  | refl => exact hc
  | tail _ h ih =>
    cases h with
    | stmt st synthetic hs =>
      cases synthetic with
      | false => exact absurd (hs rfl) hb
      | true =>
        refine List.pairwise_append.2 ⟨ih, List.pairwise_singleton _ _, fun x _ y hy _ => ?_⟩
        rw [List.mem_singleton.1 hy]
    | var | temp | site | owner | note | bodySite => exact ih

/-- Lowering makes no synthetic statements. -/
theorem Edits.forall_not_synthetic (h : Edits m c c₁) (hc : ∀ x ∈ c.stmts, x.synthetic = false) :
    ∀ x ∈ c₁.stmts, x.synthetic = false := by
  have hadd : ∀ {c : Code}, (∀ x ∈ c.stmts, x.synthetic = false) → ∀ st,
      ∀ x ∈ (c.addStmt m st).stmts, x.synthetic = false := by
    intro c hc st
    rw [(c.rest_addStmt m st).1]
    exact List.forall_mem_append.2 ⟨hc, List.forall_mem_singleton.2 rfl⟩
  induction h with
  | refl => exact hc
  | tail _ h ih =>
    cases h with
    | stmt => exact hadd ih _
    | @call t _ lhs => exact hadd (c := Code.pushSite _ t) ih _
    | var | temp | site | bodySite | interface => exact ih

theorem bodyFirst_of_forall (h : ∀ x ∈ c.stmts, x.synthetic = false) : c.BodyFirst :=
  List.Pairwise.imp_of_mem (fun hx _ _ hsyn => absurd hsyn (by simp [h _ hx]))
    (List.pairwise_of_forall (R := fun _ _ => True) fun _ _ => trivial)

end Code

/-- Statements are added to bodies by lowering only, and synthetic ones to methods that were
lowered. -/
def Request.Injects (e : Elements) : Request → Prop
  | .addStmt m _ synthetic | .addCall m _ _ _ _ _ synthetic =>
    synthetic = true ∧ e.isBuilt m = true
  | _ => True

namespace Elements

/-- In the order of creation, no statement of the body of `m` comes after a synthetic one. -/
def BodyFirst (e : Elements) (m : MethodId) : Prop :=
  (e.stmtsOf m).Pairwise fun s s' => (e.stmt s).synthetic = true → (e.stmt s').synthetic = true

instance (e : Elements) (m : MethodId) : Decidable (e.BodyFirst m) :=
  inferInstanceAs (Decidable (List.Pairwise _ _))

/-- The call site belongs to `m`, and so does the call that owns it. -/
def OwnedIn (e : Elements) (m : MethodId) (id : SiteId) : Prop :=
  id.method = m ∧ ∃ s, (e.site? id).bind CallSite.call = some s ∧ s.method = m

/-- The indices of the statements of `m` are their positions in the order of creation. -/
structure Positioned (e : Elements) (m : MethodId) : Prop where
  mem_iff : ∀ s, s ∈ e.stmtsOf m ↔ s.method = m ∧ (e.stmt? s).isSome = true
  body_eq : (e.code m).body = (e.stmtsOf m).filter fun s => !(e.stmt s).synthetic
  /-- The body comes first, and the synthetic statements follow. -/
  order : e.stmtsOf m = (e.code m).body ++ (e.stmtsOf m).filter fun s => (e.stmt s).synthetic
  /-- Each index is used once. -/
  indices : (e.stmtsOf m).map (fun s => (e.stmt s).index) = List.range (e.stmtsOf m).length
  /-- A statement is told by its index. -/
  stmt_ext : ∀ s ∈ e.stmtsOf m, ∀ s' ∈ e.stmtsOf m, (e.stmt s).index = (e.stmt s').index → s = s'
  /-- A call site is told by the index of its call, -/
  site_ext : ∀ id id', e.OwnedIn m id → e.OwnedIn m id' → e.siteIndex id = e.siteIndex id' →
    id = id'
  /-- and by its text. -/
  siteText_ext : ∀ id id', e.OwnedIn m id → e.OwnedIn m id' → e.siteText id = e.siteText id' →
    id = id'

variable {p : Program} {e : Elements} {m : MethodId} {id id' : SiteId}

/-! ### Tables that were only worked on by requests -/

section

variable (h : ({ program := p } : Elements).Develops e)

include h

theorem Develops.counted (m : MethodId) : (e.code m).Counted m := by
  have hkept := h.code_rel (m := m) (R := fun c c₁ => c.Counted m → c₁.Counted m)
    (fun h₁ h₂ hc => h₂ (h₁ hc)) Code.Touches.counted Code.Edits.counted
    fun _ hc => hc.of_eq rfl rfl
  exact hkept (.empty m)

/-- The statements of a method, as they are listed, are those of its code. -/
theorem Develops.map_stmt_stmtsOf (m : MethodId) :
    (e.stmtsOf m).map e.stmt = (e.code m).stmts := by
  have hstmt : ∀ i, e.stmt ⟨m, i⟩ = (e.code m).stmts.getD i default :=
    fun i => List.getD_eq_getElem?_getD.symm
  rw [h.stmtsOf_eq, List.map_map, ← map_getD_range (e.code m).stmts default]
  simp [Function.comp_def, hstmt]

theorem Develops.bodyFirst_iff (m : MethodId) : e.BodyFirst m ↔ (e.code m).BodyFirst := by
  rw [Code.BodyFirst, ← h.map_stmt_stmtsOf, List.pairwise_map]
  rfl

theorem Develops.map_index_stmtsOf (m : MethodId) :
    (e.stmtsOf m).map (fun s => (e.stmt s).index) = (e.code m).stmts.map PlacedStmt.index := by
  rw [← h.map_stmt_stmtsOf, List.map_map]
  rfl

theorem Develops.mem_stmtsOf_iff (m : MethodId) (s : StmtId) :
    s ∈ e.stmtsOf m ↔ s.method = m ∧ (e.stmt? s).isSome = true := by
  rw [h.stmtsOf_eq, List.mem_map]
  constructor
  · rintro ⟨i, hi, rfl⟩
    exact ⟨rfl, by simpa [stmt?] using hi⟩
  · rintro ⟨rfl, hs⟩
    exact ⟨s.slot, by simpa [stmt?] using hs, rfl⟩

theorem Develops.body_eq (m : MethodId) :
    (e.code m).body = (e.stmtsOf m).filter fun s => !(e.stmt s).synthetic := by
  rw [(h.counted m).body_eq, h.stmtsOf_eq]
  refine List.filter_congr fun s hs => ?_
  obtain ⟨i, -, rfl⟩ := List.mem_map.1 hs
  rw [List.getD_eq_getElem?_getD]
  rfl

end

/-- The text of a call site has the index of its call. -/
theorem siteIndex_of_siteText (hm : id.method = id'.method) (h : e.siteText id = e.siteText id') :
    e.siteIndex id = e.siteIndex id' := by
  have hlist := congrArg String.toList h
  simp only [siteText, hm, String.append_assoc, String.toList_append, List.append_cancel_left_eq,
    Text.decimal, String.toList_ofList] at hlist
  obtain ⟨hdigits, -⟩ := Signature.append_stop_inj (d := ']') (by decide)
    (fun _ => Text.isDigit_of_mem_toDigits) (fun _ => Text.isDigit_of_mem_toDigits) hlist
  exact Text.decimal_inj (congrArg String.ofList hdigits)

/-- The call that owns a call site gives it its index. -/
theorem OwnedIn.exists_call (h : ({ program := p } : Elements).Develops e) (hid : e.OwnedIn m id) :
    ∃ s ∈ e.stmtsOf m, (∃ lhs, (e.stmt s).stmt = .call id lhs) ∧
      e.siteIndex id = (e.stmt s).index := by
  obtain ⟨-, s, howns, hs⟩ := hid
  obtain ⟨t, ht, hcall⟩ := Option.bind_eq_some_iff.1 howns
  obtain ⟨lhs, hhas⟩ := (h.sound (sound_empty p)).owner id t s ht hcall
  obtain ⟨x, hx, hst⟩ := has_iff.1 hhas
  have hx' : e.stmt? s = some x := hx
  refine ⟨s, (h.mem_stmtsOf_iff m s).2 ⟨hs, by rw [hx']; rfl⟩, ⟨lhs, ?_⟩, ?_⟩
  · rw [stmt_of_stmt? hx', hst]
  · rw [siteIndex, site_of_site? ht, hcall]
    rfl

theorem Develops.positioned (h : ({ program := p } : Elements).Develops e)
    (hfirst : e.BodyFirst m) : e.Positioned m := by
  have hindices : (e.stmtsOf m).map (fun s => (e.stmt s).index) =
      List.range (e.stmtsOf m).length := by
    have hlen : (e.stmtsOf m).length = (e.code m).stmts.length := by
      rw [← h.map_stmt_stmtsOf, List.length_map]
    rw [h.map_index_stmtsOf, hlen, (h.counted m).indices_eq ((h.bodyFirst_iff m).1 hfirst)]
  have hstmt : ∀ s ∈ e.stmtsOf m, ∀ s' ∈ e.stmtsOf m,
      (e.stmt s).index = (e.stmt s').index → s = s' :=
    fun s hs s' hs' => List.inj_on_of_nodup_map (hindices ▸ List.nodup_range) hs hs'
  -- two call sites with one index are named by one call
  have hsite : ∀ id id', e.OwnedIn m id → e.OwnedIn m id' →
      e.siteIndex id = e.siteIndex id' → id = id' := by
    intro id id' hid hid' heq
    obtain ⟨s, hs, ⟨lhs, hst⟩, hindex⟩ := hid.exists_call h
    obtain ⟨s', hs', ⟨lhs', hst'⟩, hindex'⟩ := hid'.exists_call h
    obtain rfl := hstmt s hs s' hs' (hindex.symm.trans (heq.trans hindex'))
    cases hst.symm.trans hst'
    rfl
  exact
    { mem_iff := h.mem_stmtsOf_iff m
      body_eq := h.body_eq m
      order := by rw [h.body_eq, filter_append_of_pairwise hfirst]
      indices := hindices
      stmt_ext := hstmt
      site_ext := hsite
      siteText_ext := fun id id' hid hid' heq =>
        hsite id id' hid hid' (siteIndex_of_siteText (hid.1.trans hid'.1.symm) heq) }

/-! ### Lowering before injecting -/

/-- The body of `m` comes first, and what was not lowered has no statements. -/
def Injected (e : Elements) (m : MethodId) : Prop :=
  (e.code m).BodyFirst ∧ (e.isBuilt m = false → (e.code m).stmts = [])

theorem Injected.serve (h : e.Injected m) {r : Request} (hr : r.Injects e) :
    (e.serve r).2.Injected m := by
  by_cases hlower : r = .lower m
  · subst hlower
    refine ⟨?_, fun hb => by cases hb.symm.trans (e.isBuilt_lower_self m)⟩
    show ((e.lower m).2.code m).BodyFirst
    by_cases hb : e.isBuilt m = true
    · rw [code_lower_of_built hb]
      exact h.1
    · have hnil := h.2 (Bool.eq_false_iff.2 hb)
      rw [code_lower_of_not_built hb, if_pos rfl]
      have hnew := (Lower.edits_method (m := m) e.program
        { code := { e.code m with built := true } }).forall_not_synthetic
      exact Code.bodyFirst_of_forall (hnew (hnil ▸ List.forall_mem_nil _))
  · have hbuilds : ¬ r.Builds m := by
      cases r with
      | lower m' => exact fun heq => hlower (congrArg Request.lower heq)
      | addStmt | addCall => exact fun hb => Bool.noConfusion (hb.2.symm.trans hr.1)
      | _ => exact id
    have htouches := touches_serve e hlower
    refine ⟨htouches.bodyFirst hbuilds h.1, fun hb => ?_⟩
    -- a request that adds to the method finds it lowered
    have hbuilt : e.isBuilt m = false := (congrArg Prod.fst htouches.face_eq).symm.trans hb
    have hadds : ¬ r.AddsTo m := by
      intro hadds
      cases r with
      | lower m' => exact hlower (congrArg Request.lower hadds)
      | addStmt | addCall => exact Bool.noConfusion (hbuilt.symm.trans (hadds ▸ hr.2))
      | _ => exact hadds
    rw [(e.enrolls_serve r).same m hadds]
    exact h.2 hbuilt

theorem DevelopsBy.bodyFirst
    (h : ({ program := p } : Elements).DevelopsBy (fun e r => r.Injects e) e) (m : MethodId) :
    e.BodyFirst m := by
  rw [h.develops.bodyFirst_iff]
  suffices hinjected : e.Injected m from hinjected.1
  induction h with
  | refl => exact ⟨List.Pairwise.nil, fun _ => rfl⟩
  | serve _ hr ih => exact ih.serve hr
  | tell _ _ _ ih => exact ih

/-- **Positions identify statements.** In tables that any requests lead to, if no statement was
added to the body of a method after a synthetic one, the indices of its statements are `0`, `1` and
so on in the order of creation, first those of the body, and tell its statements and call sites
apart. Otherwise two of its statements share an index. Bodies come first if methods are lowered
before anything is injected into them. -/
theorem Develops.positions_identify (h : ({ program := p } : Elements).Develops e) :
    (∀ m, e.BodyFirst m → e.Positioned m) ∧
      (∀ m, ((e.stmtsOf m).map fun s => (e.stmt s).index).Nodup ↔ e.BodyFirst m) ∧
      (({ program := p } : Elements).DevelopsBy (fun e r => r.Injects e) e →
        ∀ m, e.BodyFirst m) := by
  refine ⟨fun m => h.positioned, fun m => ?_, fun hby => hby.bodyFirst⟩
  rw [h.map_index_stmtsOf, h.bodyFirst_iff]
  exact (h.counted m).nodup_iff

end Elements

/-- Two methods are lowered, and synthetic statements added to the one and the other in turn. -/
def Request.injecting : List Request :=
  [.lower ⟨0⟩, .addCall ⟨0⟩ .virtual ⟨1⟩ (some ⟨⟨0⟩, 1⟩) [] none true, .lower ⟨1⟩,
    .addStmt ⟨1⟩ (.alloc ⟨⟨1⟩, 2⟩ (.cls ⟨1⟩)) true, .addStmt ⟨0⟩ (.alloc ⟨⟨0⟩, 1⟩ (.cls ⟨1⟩)) true,
    .addCall ⟨1⟩ .virtual ⟨0⟩ (some ⟨⟨1⟩, 1⟩) [] none true]

/-- One more statement of the first body shares its index with a synthetic one. -/
theorem Elements.Develops.positions_identify_stumbling :
    let e := Request.injecting.foldl (fun e r => (e.serve r).2) { program := .stumbling }
    let e' := (e.serve (.addStmt ⟨0⟩ (.alloc ⟨⟨0⟩, 1⟩ (.cls ⟨1⟩)) false)).2
    ({ program := .stumbling } : Elements).DevelopsBy (fun e r => r.Injects e) e ∧
      e.Positioned ⟨0⟩ ∧ e.Positioned ⟨1⟩ ∧
      e.stmts.map (fun s => (s.method, (e.stmt s).index)) =
        [(⟨0⟩, 0), (⟨0⟩, 1), (⟨0⟩, 2), (⟨0⟩, 3), (⟨0⟩, 4), (⟨1⟩, 0), (⟨0⟩, 5), (⟨1⟩, 1)] ∧
      e.OwnedIn ⟨0⟩ ⟨⟨0⟩, 0⟩ ∧ e.OwnedIn ⟨0⟩ ⟨⟨0⟩, 1⟩ ∧ e.siteIndex ⟨⟨0⟩, 0⟩ = 3 ∧
      e.siteIndex ⟨⟨0⟩, 1⟩ = 4 ∧
      ¬ ((e'.stmtsOf ⟨0⟩).map fun s => (e'.stmt s).index).Nodup ∧ e'.Positioned ⟨1⟩ := by
  intro e e'
  have hby : ({ program := .stumbling } : Elements).DevelopsBy (fun e r => r.Injects e) e := by
    refine .serve (.serve (.serve (.serve (.serve (.serve .refl ?_) ?_) ?_) ?_) ?_) ?_
    · trivial
    · exact ⟨rfl, by decide +kernel⟩
    · trivial
    · exact ⟨rfl, by decide +kernel⟩
    · exact ⟨rfl, by decide +kernel⟩
    · exact ⟨rfl, by decide +kernel⟩
  have h : ({ program := .stumbling } : Elements).Develops e := hby.develops
  have h' : ({ program := .stumbling } : Elements).Develops e' := .serve h _
  obtain ⟨hpos, -, hfirst⟩ := Develops.positions_identify h
  obtain ⟨hpos', hnodup, -⟩ := Develops.positions_identify h'
  refine ⟨hby, hpos _ (hfirst hby _), hpos _ (hfirst hby _), by decide +kernel, ?_, ?_,
    by decide +kernel, by decide +kernel, ?_, hpos' _ (by decide +kernel)⟩
  · exact ⟨rfl, ⟨⟨0⟩, 3⟩, by decide +kernel, rfl⟩
  · exact ⟨rfl, ⟨⟨0⟩, 4⟩, by decide +kernel, rfl⟩
  · rw [hnodup]
    decide +kernel

end PointsTo
