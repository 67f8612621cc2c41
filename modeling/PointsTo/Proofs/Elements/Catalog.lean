import Mathlib.Data.List.Nodup
import PointsTo.Proofs.Elements.Growth

/-!
# Every statement is listed once

The tables list all statements in order of creation, and a statement is named by its place in the
code of its method. Whatever is asked of the tables, new statements are listed after the others, and
get the next places in the code of their methods. Requests may name variables and call sites that
are not there.

* `Elements.stmtsOf`: the statements of one method, in order of creation;
* `Elements.Enrolls`: new statements are listed in the order of their places, and
  `Elements.enrolls_serve`: so does each request, for the methods that it adds to
  (`Request.AddsTo`);
* `Elements.Catalogued`: no statement is listed twice (`Elements.Develops.catalogued`);
* `Elements.Develops.stmtsOf_eq`: the statements of a method are its places, in their order.
-/

namespace PointsTo

/-- The request can add statements to `m`. -/
def Request.AddsTo (m : MethodId) : Request → Prop
  | .lower m' | .addStmt m' _ _ | .addCall m' _ _ _ _ _ _ => m' = m
  | _ => False

namespace Elements

/-- The statements of `m`, in order of creation. -/
def stmtsOf (e : Elements) (m : MethodId) : List StmtId := e.stmts.filter (·.method = m)

/-- No statement is listed twice, and those that are listed have a place. -/
structure Catalogued (e : Elements) : Prop where
  nodup : e.stmts.Nodup
  placed : ∀ s ∈ e.stmts, s.slot < (e.code s.method).stmts.length

/-- The tables `e'` list further statements after those of `e`, in the order of their places. Only
methods in `A` get statements. -/
structure Enrolls (A : MethodId → Prop) (e e' : Elements) : Prop where
  code : ∀ m, (e.code m).stmts <+: (e'.code m).stmts
  stmtsOf_eq : ∀ m, e'.stmtsOf m = e.stmtsOf m ++
    (slots (e.code m).stmts.length (e'.code m).stmts.length).map (StmtId.mk m)
  same : ∀ m, ¬ A m → (e'.code m).stmts = (e.code m).stmts

variable {A : MethodId → Prop} {e e₁ e₂ : Elements} {m : MethodId} {st : Stmt}

theorem mem_stmtsOf {s : StmtId} : s ∈ e.stmtsOf m ↔ s ∈ e.stmts ∧ s.method = m := by
  simp [stmtsOf]

theorem slots_self (n : Nat) : slots n n = [] := by simp [slots]

theorem slots_append {lo mid hi : Nat} (h : lo ≤ mid) (h' : mid ≤ hi) :
    slots lo mid ++ slots mid hi = slots lo hi := by
  have hmid : lo + (mid - lo) = mid := by omega
  have hlen : mid - lo + (hi - mid) = hi - lo := by omega
  simp only [slots, ← List.range'_eq_map_range]
  rw [← hlen, ← List.range'_append_1, hmid]

namespace Enrolls

theorem of_eq (hcode : ∀ m, (e₁.code m).stmts = (e.code m).stmts) (hstmts : e₁.stmts = e.stmts) :
    Enrolls A e e₁ where
  code m := hcode m ▸ List.prefix_refl _
  stmtsOf_eq m := by
    rw [hcode, slots_self, List.map_nil, List.append_nil, stmtsOf, hstmts]
    rfl
  same m _ := hcode m

theorem refl (e : Elements) : Enrolls A e e := .of_eq (fun _ => rfl) rfl

theorem trans (h : Enrolls A e e₁) (h' : Enrolls A e₁ e₂) : Enrolls A e e₂ where
  code m := (h.code m).trans (h'.code m)
  stmtsOf_eq m := by
    rw [h'.stmtsOf_eq, h.stmtsOf_eq, List.append_assoc, ← List.map_append,
      slots_append (h.code m).length_le (h'.code m).length_le]
  same m hm := (h'.same m hm).trans (h.same m hm)

/-- The code of one method goes on, and its further statements are listed. -/
theorem of_method (hother : ∀ m', m' ≠ m → (e₁.code m').stmts = (e.code m').stmts)
    (hcode : (e.code m).stmts <+: (e₁.code m).stmts)
    (hstmts : e₁.stmts = e.stmts ++
      (slots (e.code m).stmts.length (e₁.code m).stmts.length).map (StmtId.mk m))
    (hA : A m ∨ (e₁.code m).stmts = (e.code m).stmts) : Enrolls A e e₁ where
  code m' := by
    by_cases hm : m' = m
    · exact hm ▸ hcode
    · exact hother m' hm ▸ List.prefix_refl _
  stmtsOf_eq m' := by
    rw [stmtsOf, hstmts, List.filter_append, stmtsOf, List.filter_map]
    congr 1
    by_cases hm : m' = m
    · subst hm
      congr 1
      exact List.filter_eq_self.2 fun _ _ => decide_eq_true rfl
    · rw [hother m' hm, slots_self, List.map_nil, List.map_eq_nil_iff, List.filter_eq_nil_iff]
      exact fun _ _ heq => hm (of_decide_eq_true heq).symm
  same m' hm' := by
    by_cases hm : m' = m
    · subst hm
      exact hA.resolve_left hm'
    · exact hother m' hm

theorem catalogued (h : Enrolls A e e₁) (he : e.Catalogued) : e₁.Catalogued where
  nodup := by
    rw [List.nodup_iff_count_le_one]
    intro s
    have hcount : ∀ e : Elements, (e.stmtsOf s.method).count s = e.stmts.count s :=
      fun e => List.count_filter (decide_eq_true rfl)
    have hold : (e.stmtsOf s.method).Nodup := he.nodup.filter _
    have hnew : ((slots (e.code s.method).stmts.length (e₁.code s.method).stmts.length).map
        (StmtId.mk s.method)).Nodup :=
      List.Nodup.map (fun i j hij => congrArg StmtId.slot hij)
        (List.Nodup.map (fun i j hij => Nat.add_left_cancel hij) List.nodup_range)
    rw [← hcount, h.stmtsOf_eq]
    refine List.nodup_iff_count_le_one.1 (List.nodup_append.2 ⟨hold, hnew, ?_⟩) s
    -- places of old statements are below those of the new ones
    rintro a ha _ hb rfl
    obtain ⟨i, hi, rfl⟩ := List.mem_map.1 hb
    exact absurd (he.placed _ (mem_stmtsOf.1 ha).1) (Nat.not_lt_of_le (mem_slots.1 hi).1)
  placed s hs := by
    have hmem : s ∈ e₁.stmtsOf s.method := mem_stmtsOf.2 ⟨hs, rfl⟩
    rw [h.stmtsOf_eq] at hmem
    rcases List.mem_append.1 hmem with hold | hnew
    · exact Nat.lt_of_lt_of_le (he.placed s (mem_stmtsOf.1 hold).1) (h.code s.method).length_le
    · obtain ⟨i, hi, heq⟩ := List.mem_map.1 hnew
      rw [← congrArg StmtId.slot heq]
      exact (mem_slots.1 hi).2

end Enrolls

/-! ### Requests -/

theorem enrolls_mention (e : Elements) (x : Mention) : Enrolls A e (e.mention x) :=
  .of_eq (fun m => congrArg Code.stmts (e.code_mention x m)) (e.stmts_mention x)

theorem enrolls_foldl_mention (l : List Mention) (e : Elements) :
    Enrolls A e (l.foldl mention e) :=
  .of_eq (fun m => congrArg Code.stmts ((foldl_mention_frame l e).2.2.1 m))
    (stmts_foldl_mention l e)

theorem enrolls_modifyCode (e : Elements) (m : MethodId) {f : Code → Code}
    (hf : ∀ c, (f c).stmts = c.stmts) : Enrolls A e (e.modifyCode m f) := by
  refine .of_eq (fun m' => ?_) rfl
  rcases e.code_modifyCode_cases m f m' with hc | ⟨-, hc⟩
  · rw [hc]
  · rw [hc, hf]

/-- Working on the code of one method. -/
theorem enrolls_draft {α : Type} {x : Drafting α} (e : Elements)
    (hx : Code.Edits m (e.code m) (x { code := e.code m }).2.code)
    (hA : A m ∨ (x { code := e.code m }).2.code.stmts = (e.code m).stmts) :
    Enrolls A e (e.draft m x).2 := by
  have hself : (e.draft m x).2.code m = (x { code := e.code m }).2.code := by
    rw [code_draft, if_pos rfl]
  refine .of_method (m := m) (fun m' hm => ?_) ?_ ?_ ?_
  · rw [code_draft, if_neg hm]
  · rw [hself]
    exact hx.continues.stmts
  · rw [hself]
    exact e.stmts_draft m x
  · rw [hself]
    exact hA

theorem enrolls_newSite (e : Elements) (m : MethodId) (kind : CallKind) (target : MethodId)
    (receiver : Option VarId) (args : List (Option VarId)) :
    Enrolls A e (e.newSite m kind target receiver args).2 :=
  e.enrolls_draft (Lower.edits_newSite kind target receiver args { code := e.code m }) (.inr rfl)

theorem enrolls_place (hm : m ∈ e.methods.keys) (synthetic : Bool) (hA : A m) :
    Enrolls A e (e.place m st synthetic) := by
  have hkeys : m ∈ (e.noted m st synthetic).methods.keys := e.keys_noted m st synthetic ▸ hm
  have hcode := e.code_noted m st synthetic
  obtain ⟨x, hself⟩ : ∃ x, ((e.place m st synthetic).code m).stmts = (e.code m).stmts ++ [x] :=
    ⟨_, by rw [code_place, code_modifyCode _ hkeys, if_pos rfl, Code.pushStmt, (hcode m).1]⟩
  refine .of_method (m := m) (fun m' hm' => ?_) ?_ ?_ (.inl hA)
  · rw [code_place, code_modifyCode _ hkeys, if_neg hm', (hcode m').1]
  · rw [hself]
    exact List.prefix_append _ _
  · have hlen : ((e.place m st synthetic).code m).stmts.length = (e.code m).stmts.length + 1 := by
      rw [hself, List.length_append, List.length_singleton]
    rw [(e.place_frame m st synthetic).2, hlen]
    simp [slots, nextStmt]

theorem enrolls_addStmt (e : Elements) (m : MethodId) (st : Stmt) (synthetic : Bool) (hA : A m) :
    Enrolls A e (e.addStmt m st synthetic).2 := by
  have hmention : Enrolls A e (st.mentions.foldl mention (e.addMethod m)) :=
    (e.enrolls_mention (.method m)).trans (enrolls_foldl_mention _ _)
  have hm := (foldl_mention_frame st.mentions (e.addMethod m)).2.2.2 m (e.mem_keys_addMethod m)
  simp only [addStmt]
  split
  · exact hmention.trans (enrolls_place hm synthetic hA)
  · exact hmention

theorem enrolls_lower (e : Elements) (m : MethodId) (hA : A m) : Enrolls A e (e.lower m).2 := by
  have hadd : Enrolls A e (e.addMethod m) := e.enrolls_mention (.method m)
  simp only [lower]
  split
  · exact hadd
  · have hopen := hadd.trans
      (enrolls_modifyCode _ m (f := fun c => { c with built := true }) fun _ => rfl)
    exact hopen.trans (enrolls_draft _ (Lower.edits_method _ { code := _ }) (.inl hA))

/-- A request lists its statements after the others, and adds them to few methods. -/
theorem enrolls_serve (e : Elements) (r : Request) : Enrolls r.AddsTo e (e.serve r).2 := by
  cases r with
  | type t => exact e.enrolls_mention (.type t)
  | method m => exact e.enrolls_mention (.method m)
  | field f => exact e.enrolls_mention (.field f)
  | localVar m l decl =>
    refine e.enrolls_draft (Lower.edits_localVar l decl { code := e.code m }) (.inr ?_)
    rw [Lower.localVar_run]
    split
    · split <;> rfl
    · rfl
  | newVar m name ty =>
    exact e.enrolls_draft (Lower.edits_newVar name ty none { code := e.code m }) (.inr rfl)
  | temp m base ty =>
    exact e.enrolls_draft (Lower.edits_temp base ty { code := e.code m }) (.inr rfl)
  | addStmt m st synthetic => exact e.enrolls_addStmt m st synthetic rfl
  | newSite m kind target receiver args => exact e.enrolls_newSite m kind target receiver args
  | addCall m kind target receiver args lhs synthetic =>
    have hcall : Enrolls (Request.addCall m kind target receiver args lhs synthetic).AddsTo e _ :=
      (e.enrolls_newSite m kind target receiver args).trans
        (enrolls_addStmt _ m (.call (e.newSite m kind target receiver args).1 lhs) synthetic rfl)
    simp only [serve, addCall]
    split
    · exact hcall
    · exact hcall.trans (enrolls_modifyCode _ m fun _ => rfl)
  | lower m => exact e.enrolls_lower m rfl
  | resolve signature =>
    simp only [serve, resolve]
    split
    · exact .refl e
    · split
      · exact .refl e
      · exact e.enrolls_mention (.method _)
  | dispatch t sub =>
    exact .of_eq (fun m => congrArg Code.stmts ((e.code_dispatch t sub).2 m))
      (e.stmts_dispatch t sub)

theorem catalogued_empty (p : Program) : ({ program := p } : Elements).Catalogued :=
  ⟨List.nodup_nil, List.forall_mem_nil _⟩

theorem Develops.catalogued (h : e.Develops e₁) (he : e.Catalogued) : e₁.Catalogued := by
  induction h with
  | refl => exact he
  | serve _ r ih => exact (enrolls_serve _ r).catalogued ih
  | tell _ level text ih => exact ⟨ih.nodup, ih.placed⟩

/-- The statements of a method are its places, in their order. -/
theorem Develops.stmtsOf_eq {p : Program} (h : ({ program := p } : Elements).Develops e)
    (m : MethodId) : e.stmtsOf m = (List.range (e.code m).stmts.length).map (StmtId.mk m) := by
  have hrange : ∀ n, slots 0 n = List.range n := fun n => by simp [slots]
  rw [← hrange]
  induction h with
  | refl => rfl
  | @serve e' _ r ih =>
    have henrolls := e'.enrolls_serve r
    rw [henrolls.stmtsOf_eq, ih, ← List.map_append,
      slots_append (Nat.zero_le _) (henrolls.code m).length_le]
  | tell _ level text ih => exact ih

end Elements

end PointsTo
