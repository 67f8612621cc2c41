import PointsTo.Plugin.Basic
import PointsTo.Proofs.Code.Edits
import PointsTo.Proofs.Elements.Faithful

/-!
# Growing element tables

Whoever works on the element tables, they only grow, and what was entered keeps its meaning.

* `Elements.Develops`: the tables come from others by requests and lines of the log;
* `Elements.Grows`: statements stay, call sites keep what they say and their owners, and what calls
  of a method are bound to is fixed once the method is lowered (`Elements.Develops.grows`);
* `Elements.Sound`: the memo is right, all statements are listed, the call sites of calls are there
  and have owners, and owners are calls on their call sites (`Elements.Develops.sound`);
* `Script.run_develops` and `Hook.run_develops`: programs on the tables and reactions of plugins
  develop them.
-/

namespace PointsTo

/-- The same call site at a later time, when it may have got an owner. -/
structure CallSite.Becomes (s t : CallSite) : Prop where
  kind_eq : t.kind = s.kind
  target_eq : t.target = s.target
  receiver_eq : t.receiver = s.receiver
  args_eq : t.args = s.args
  call : ∀ c, s.call = some c → t.call = some c

theorem CallSite.Becomes.refl (s : CallSite) : s.Becomes s := ⟨rfl, rfl, rfl, rfl, fun _ => id⟩

theorem CallSite.Becomes.trans {s t u : CallSite} (h : s.Becomes t) (h' : t.Becomes u) :
    s.Becomes u :=
  ⟨h'.kind_eq.trans h.kind_eq, h'.target_eq.trans h.target_eq, h'.receiver_eq.trans h.receiver_eq,
    h'.args_eq.trans h.args_eq, fun c hc => h'.call c (h.call c hc)⟩

/-! ### Growing code -/

namespace Code

/-- The code `c'` has what `c` has, and calls are bound to the same once `c` was lowered. -/
structure Grows (c c' : Code) : Prop where
  stmts : c.stmts <+: c'.stmts
  sites : ∀ (i : Nat) t, c.sites[i]? = some t → ∃ t', c'.sites[i]? = some t' ∧ t.Becomes t'
  built : c.built = true → c'.built = true ∧ c'.this = c.this ∧ c'.params = c.params ∧
    c'.returns = c.returns

variable {c c₁ c₂ : Code}

theorem Grows.refl (c : Code) : c.Grows c :=
  ⟨List.prefix_refl _, fun _ t ht => ⟨t, ht, .refl t⟩, fun h => ⟨h, rfl, rfl, rfl⟩⟩

theorem Grows.trans (h₁ : c.Grows c₁) (h₂ : c₁.Grows c₂) : c.Grows c₂ where
  stmts := h₁.stmts.trans h₂.stmts
  sites i t ht := by
    obtain ⟨t₁, ht₁, h⟩ := h₁.sites i t ht
    obtain ⟨t₂, ht₂, h'⟩ := h₂.sites i t₁ ht₁
    exact ⟨t₂, ht₂, h.trans h'⟩
  built hb := by
    obtain ⟨hb₁, hthis₁, hparams₁, hreturns₁⟩ := h₁.built hb
    obtain ⟨hb₂, hthis₂, hparams₂, hreturns₂⟩ := h₂.built hb₁
    exact ⟨hb₂, hthis₂.trans hthis₁, hparams₂.trans hparams₁, hreturns₂.trans hreturns₁⟩

theorem Continues.grows {m : MethodId} (h : Continues m c c₁)
    (hb : c.built = true → c₁.this = c.this ∧ c₁.params = c.params ∧ c₁.returns = c.returns) :
    c.Grows c₁ where
  stmts := h.stmts
  sites _ t ht := ⟨t, getElem?_of_isPrefix h.sites ht, .refl t⟩
  built hc := ⟨h.built_eq.trans hc, hb hc⟩

theorem grows_bindSite (c : Code) (slot : Nat) (s : StmtId) : c.Grows (c.bindSite slot s) where
  stmts := List.prefix_refl _
  sites i t ht := by
    simp only [bindSite, List.getElem?_modify, ht]
    split
    · exact ⟨_, rfl, rfl, rfl, rfl, rfl, fun c hc => by simp [hc]⟩
    · exact ⟨t, rfl, .refl t⟩
  built h := ⟨h, rfl, rfl, rfl⟩

theorem grows_register (c : Code) (slot : Nat) (role : Role) (s : StmtId) :
    c.Grows (c.register slot role s) :=
  ⟨List.prefix_refl _, fun _ t ht => ⟨t, ht, .refl t⟩, fun h => ⟨h, rfl, rfl, rfl⟩⟩

theorem grows_pushStmt (c : Code) (m : MethodId) (s : Stmt) (synthetic : Bool) :
    c.Grows (c.pushStmt m s synthetic) :=
  ⟨List.prefix_append _ _, fun _ t ht => ⟨t, ht, .refl t⟩, fun h => ⟨h, rfl, rfl, rfl⟩⟩

end Code

namespace Elements

/-- The name `s` stands for the statement `st`. -/
def Has (e : Elements) (s : StmtId) (st : Stmt) : Prop :=
  (e.stmt? s).map PlacedStmt.stmt = some st

/-- The tables `e'` have what `e` has. -/
structure Grows (e e' : Elements) : Prop where
  program_eq : e'.program = e.program
  code : ∀ m, (e.code m).Grows (e'.code m)

/-- What holds of tables that were only worked on by requests. -/
structure Sound (e : Elements) : Prop where
  memo : e.MemoRight
  listed : ∀ s st, e.Has s st → s ∈ e.stmts
  /-- The call site of a call is there and has an owner. -/
  owned : ∀ s id lhs, e.Has s (.call id lhs) →
    ∃ t owner, e.site? id = some t ∧ t.call = some owner
  /-- The owner of a call site is a call on it. -/
  owner : ∀ id t s, e.site? id = some t → t.call = some s → ∃ lhs, e.Has s (.call id lhs)

variable {e e₁ e₂ : Elements} {m : MethodId} {s : StmtId} {st : Stmt} {id : SiteId}

theorem stmt_of_stmt? {x : PlacedStmt} (h : e.stmt? s = some x) : e.stmt s = x := by
  rw [stmt, h]
  rfl

theorem site_of_site? {t : CallSite} (h : e.site? id = some t) : e.site id = t := by
  rw [site, List.getD_eq_getElem?_getD, show (e.code id.method).sites[id.slot]? = some t from h]
  rfl

theorem has_iff : e.Has s st ↔ ∃ x, (e.code s.method).stmts[s.slot]? = some x ∧ x.stmt = st :=
  Option.map_eq_some_iff

namespace Grows

theorem refl (e : Elements) : e.Grows e := ⟨rfl, fun m => .refl (e.code m)⟩

theorem trans (h₁ : e.Grows e₁) (h₂ : e₁.Grows e₂) : e.Grows e₂ :=
  ⟨h₂.program_eq.trans h₁.program_eq, fun m => (h₁.code m).trans (h₂.code m)⟩

theorem of_code_eq (hp : e₁.program = e.program) (hc : ∀ m, e₁.code m = e.code m) : e.Grows e₁ :=
  ⟨hp, fun m => hc m ▸ .refl _⟩

theorem has (h : e.Grows e₁) (hs : e.Has s st) : e₁.Has s st := by
  obtain ⟨x, hx, hst⟩ := has_iff.1 hs
  exact has_iff.2 ⟨x, Code.getElem?_of_isPrefix (h.code s.method).stmts hx, hst⟩

theorem site? {t : CallSite} (h : e.Grows e₁) (ht : e.site? id = some t) :
    ∃ t', e₁.site? id = some t' ∧ t.Becomes t' := (h.code id.method).sites id.slot t ht

/-- A call site that is there keeps what it says. -/
theorem site (h : e.Grows e₁) {t : CallSite} (ht : e.site? id = some t) :
    (e.site id).Becomes (e₁.site id) := by
  obtain ⟨t', ht', hb⟩ := h.site? ht
  rw [site_of_site? ht, site_of_site? ht']
  exact hb

end Grows

/-- The owner of a call site says where the results of its calls go. -/
theorem result?_of_owner {t : CallSite} {lhs : Option VarId} (ht : e.site? id = some t)
    (howner : t.call = some s) (hs : e.Has s (.call id lhs)) : e.result? id = lhs := by
  obtain ⟨x, hx, hst⟩ := has_iff.1 hs
  have hstmt : e.stmt? s = some x := hx
  simp [result?, site_of_site? ht, howner, stmt, hstmt, hst]

/-- Tables that say the same about statements and call sites. -/
theorem Sound.of_same (h : e.Sound) (hhas : ∀ s st, e₁.Has s st ↔ e.Has s st)
    (hsite : ∀ id, e₁.site? id = e.site? id) (hd : e₁.MemoRight) (hs : e₁.stmts = e.stmts) :
    e₁.Sound where
  memo := hd
  listed s st := by
    rw [hhas, hs]
    exact h.listed s st
  owned s id lhs := by
    rw [hhas, hsite]
    exact h.owned s id lhs
  owner id t s := by
    simp only [hhas, hsite]
    exact h.owner id t s

theorem Sound.of_code_eq (h : e.Sound) (hc : ∀ m, e₁.code m = e.code m)
    (hd : e₁.MemoRight) (hs : e₁.stmts = e.stmts) : e₁.Sound :=
  h.of_same (fun s st => by rw [Has, stmt?, hc]; rfl) (fun id => by rw [Elements.site?, hc]; rfl)
    hd hs

/-! ### Entering entities -/

theorem stmts_addMethod (e : Elements) (m : MethodId) : (e.addMethod m).stmts = e.stmts := by
  unfold addMethod
  split <;> rfl

theorem stmts_mention (e : Elements) (x : Mention) : (e.mention x).stmts = e.stmts := by
  cases x with
  | type t => rfl
  | method m => exact stmts_addMethod e m
  | field f =>
    simp only [mention, addField]
    split <;> rfl

theorem stmts_foldl_mention (l : List Mention) (e : Elements) :
    (l.foldl mention e).stmts = e.stmts := by
  induction l generalizing e with
  | nil => rfl
  | cons x l ih => exact (ih (e.mention x)).trans (e.stmts_mention x)

theorem grows_mention (e : Elements) (x : Mention) : e.Grows (e.mention x) :=
  .of_code_eq (e.mention_frame x).1 (e.code_mention x)

theorem Sound.mention (h : e.Sound) (x : Mention) : (e.mention x).Sound := by
  obtain ⟨hp, hd, -⟩ := e.mention_frame x
  exact h.of_code_eq (e.code_mention x) (by rw [MemoRight, hd, hp]; exact h.memo)
    (e.stmts_mention x)

theorem grows_foldl_mention (l : List Mention) (e : Elements) : e.Grows (l.foldl mention e) := by
  induction l generalizing e with
  | nil => exact .refl e
  | cons x l ih => exact (e.grows_mention x).trans (ih (e.mention x))

theorem Sound.foldl_mention (h : e.Sound) (l : List Mention) :
    (l.foldl Elements.mention e).Sound := by
  induction l generalizing e with
  | nil => exact h
  | cons x l ih => exact ih (h.mention x)

/-! ### Drafts -/

theorem mem_slots {lo hi i : Nat} : i ∈ slots lo hi ↔ lo ≤ i ∧ i < hi := by
  simp only [slots, List.mem_map, List.mem_range]
  constructor
  · rintro ⟨j, hj, rfl⟩
    omega
  · intro h
    exact ⟨i - lo, by omega, by omega⟩

section

variable {α : Type} {x : Drafting α}

theorem grows_draft (h : (e.code m).Grows (x { code := e.code m }).2.code) :
    e.Grows (e.draft m x).2 := by
  refine ⟨(draft_frame e m x).1, fun m' => ?_⟩
  rw [code_draft]
  split <;> rename_i hm
  · exact hm ▸ h
  · exact .refl _

theorem stmts_draft (e : Elements) (m : MethodId) (x : Drafting α) :
    (e.draft m x).2.stmts = e.stmts ++
      (slots (e.code m).stmts.length (x { code := e.code m }).2.code.stmts.length).map
        (StmtId.mk m) := by
  show ((x { code := (e.addMethod m).code m }).2.mentions.foldl mention (e.addMethod m)).stmts ++
    (slots ((e.addMethod m).code m).stmts.length
      (x { code := (e.addMethod m).code m }).2.code.stmts.length).map (StmtId.mk m) = _
  rw [stmts_foldl_mention, stmts_addMethod, code_addMethod]

end

/-! ### Tables in which the code of one method is continued -/

section

variable {c : Code} (hcode : ∀ m', e₁.code m' = if m' = m then c else e.code m')
  (h : Code.Continues m (e.code m) c)

include hcode h

theorem has_of_continues (hs : e.Has s st) : e₁.Has s st := by
  obtain ⟨y, hy, hst⟩ := has_iff.1 hs
  refine has_iff.2 ⟨y, ?_, hst⟩
  rw [hcode]
  split <;> rename_i hm
  · exact Code.getElem?_of_isPrefix h.stmts (hm ▸ hy)
  · exact hy

theorem site?_of_continues {t : CallSite} (ht : e.site? id = some t) : e₁.site? id = some t := by
  rw [Elements.site?, hcode]
  split <;> rename_i hm
  · exact Code.getElem?_of_isPrefix h.sites (hm ▸ ht)
  · exact ht

/-- A statement was there before, or it stands past the end of the code that was there. -/
theorem has_cases (hs : e₁.Has s st) :
    e.Has s st ∨ s.method = m ∧ (e.code m).stmts.length ≤ s.slot ∧
      ∃ y, c.stmts[s.slot]? = some y ∧ y.stmt = st := by
  obtain ⟨y, hy, hst⟩ := has_iff.1 hs
  rw [hcode] at hy
  split at hy <;> rename_i hm
  · by_cases hlt : s.slot < (e.code m).stmts.length
    · rw [Code.getElem?_of_lt h.stmts hlt] at hy
      exact .inl (has_iff.2 ⟨y, hm ▸ hy, hst⟩)
    · exact .inr ⟨hm, Nat.le_of_not_lt hlt, y, hy, hst⟩
  · exact .inl (has_iff.2 ⟨y, hy, hst⟩)

theorem site?_cases {t : CallSite} (ht : e₁.site? id = some t) :
    e.site? id = some t ∨ id.method = m ∧ (e.code m).sites.length ≤ id.slot ∧
      c.sites[id.slot]? = some t := by
  rw [Elements.site?, hcode] at ht
  split at ht <;> rename_i hm
  · by_cases hlt : id.slot < (e.code m).sites.length
    · rw [Code.getElem?_of_lt h.sites hlt] at ht
      exact .inl (by rw [Elements.site?, hm]; exact ht)
    · exact .inr ⟨hm, Nat.le_of_not_lt hlt, ht⟩
  · exact .inl ht

/-- The tables stay sound when the further statements are listed. -/
theorem Sound.of_continues (hsound : e.Sound) (hp : e₁.program = e.program)
    (hd : e₁.dispatched = e.dispatched) (hold : ∀ s ∈ e.stmts, s ∈ e₁.stmts)
    (hnew : ∀ i, (e.code m).stmts.length ≤ i → i < c.stmts.length → ⟨m, i⟩ ∈ e₁.stmts) :
    e₁.Sound where
  memo := by
    rw [MemoRight, hd, hp]
    exact hsound.memo
  listed s st hs := by
    rcases has_cases hcode h hs with hs | ⟨rfl, hle, y, hy, -⟩
    · exact hold s (hsound.listed s st hs)
    · exact hnew s.slot hle (List.getElem?_eq_some_iff.1 hy).1
  owned s id lhs hs := by
    rcases has_cases hcode h hs with hs | ⟨rfl, hle, y, hy, hst⟩
    · obtain ⟨t, owner, ht, howner⟩ := hsound.owned s id lhs hs
      exact ⟨t, owner, site?_of_continues hcode h ht, howner⟩
    · obtain ⟨hid, t, ht, howner⟩ := h.calls s.slot y id lhs hle hy hst
      exact ⟨t, _, by rw [Elements.site?, hcode, if_pos hid]; exact ht, howner⟩
  owner id t s ht howner := by
    rcases site?_cases hcode h ht with ht | ⟨hm, hle, ht⟩
    · obtain ⟨lhs, hs⟩ := hsound.owner id t s ht howner
      exact ⟨lhs, has_of_continues hcode h hs⟩
    · obtain ⟨hs, lhs, hcall⟩ := h.owners id.slot t s hle ht howner
      exact ⟨lhs, by rw [Has, stmt?, hcode, if_pos hs, hcall, ← hm]⟩

end

theorem Sound.draft {α : Type} {x : Drafting α} (h : e.Sound)
    (hx : Code.Edits m (e.code m) (x { code := e.code m }).2.code) : (e.draft m x).2.Sound := by
  obtain ⟨hp, hd⟩ := e.draft_frame m x
  refine h.of_continues (e.code_draft m x) hx.continues hp hd (fun s hs => ?_) fun i hle hlt => ?_
  · rw [stmts_draft]
    exact List.mem_append_left _ hs
  · rw [stmts_draft]
    exact List.mem_append_right _ (List.mem_map.2 ⟨i, mem_slots.2 ⟨hle, hlt⟩, rfl⟩)

/-! ### Statements -/

/-- The name of the next statement of `m`. -/
def nextStmt (e : Elements) (m : MethodId) : StmtId := ⟨m, (e.code m).stmts.length⟩

theorem code_modifyCode_cases (e : Elements) (m : MethodId) (f : Code → Code) (m' : MethodId) :
    (e.modifyCode m f).code m' = e.code m' ∨
      m' = m ∧ (e.modifyCode m f).code m' = f (e.code m') := by
  have hget : (e.modifyCode m f).code m' = _ := Table.get_modify e.methods m f m'
  rw [hget]
  split <;> rename_i h
  · exact .inr ⟨h.1, by rw [h.1]; rfl⟩
  · exact .inl rfl

theorem grows_modifyCode {f : Code → Code} (h : ∀ c : Code, c.Grows (f c)) :
    e.Grows (e.modifyCode m f) := by
  refine ⟨rfl, fun m' => ?_⟩
  rcases e.code_modifyCode_cases m f m' with hc | ⟨-, hc⟩ <;> rw [hc]
  · exact .refl _
  · exact h _

theorem grows_own (e : Elements) (st : Stmt) (s : StmtId) : e.Grows (e.own st s) := by
  cases st with
  | alloc | assign | load | store => exact .refl e
  | call site lhs => exact grows_modifyCode fun c => c.grows_bindSite site.slot s

theorem stmts_code_own (e : Elements) (st : Stmt) (s : StmtId) (m : MethodId) :
    ((e.own st s).code m).stmts = (e.code m).stmts := by
  cases st with
  | alloc | assign | load | store => rfl
  | call site lhs =>
    rcases e.code_modifyCode_cases site.method (·.bindSite site.slot s) m with hc | ⟨-, hc⟩
    · exact congrArg Code.stmts hc
    · exact (congrArg Code.stmts hc).trans rfl

theorem site?_own_call (e : Elements) (site : SiteId) (lhs : Option VarId) (s : StmtId)
    (id : SiteId) : (e.own (.call site lhs) s).site? id = (e.site? id).map fun t =>
      if id = site then { t with call := t.call <|> some s } else t := by
  have hget : (e.own (.call site lhs) s).code id.method = _ :=
    Table.get_modify e.methods site.method (·.bindSite site.slot s) id.method
  rw [Elements.site?, hget]
  obtain ⟨method, slot⟩ := id
  obtain ⟨method', slot'⟩ := site
  by_cases hm : method = method'
  · subst hm
    by_cases hk : method ∈ e.methods.keys
    · simp only [hk, and_self, if_true, Code.bindSite, List.getElem?_modify, Elements.site?, code,
        SiteId.mk.injEq, true_and, eq_comm (a := slot)]
      rfl
    · have hnone : e.code method = {} := Table.get_of_not_mem hk
      rw [if_neg (by simp [hk]), Elements.site?, hnone, Table.get_of_not_mem hk]
      rfl
  · simp only [hm, false_and, if_false, SiteId.mk.injEq]
    rw [Option.map_id']
    rfl

theorem grows_note (e : Elements) (st : Stmt) (s : StmtId) : e.Grows (e.note st s) := by
  unfold note
  split
  · exact grows_modifyCode fun c => c.grows_register _ _ s
  · exact .refl e

theorem code_note (e : Elements) (st : Stmt) (s : StmtId) (m : MethodId) :
    ((e.note st s).code m).stmts = (e.code m).stmts ∧
      ((e.note st s).code m).sites = (e.code m).sites := by
  unfold note
  split
  · rename_i v role _
    rcases e.code_modifyCode_cases v.method (·.register v.slot role s) m with hc | ⟨-, hc⟩ <;>
      rw [hc] <;> exact ⟨rfl, rfl⟩
  · exact ⟨rfl, rfl⟩

section

variable (e : Elements) (m : MethodId) (st : Stmt) (synthetic : Bool)

/-- The tables before a statement is put in its place. -/
def noted : Elements :=
  if synthetic then e.own st (e.nextStmt m) else (e.own st (e.nextStmt m)).note st (e.nextStmt m)

theorem place_eq :
    e.place m st synthetic =
      { (e.noted m st synthetic).modifyCode m (·.pushStmt m st synthetic) with
        stmts := (e.noted m st synthetic).stmts ++ [e.nextStmt m] } := by
  unfold place noted nextStmt
  cases synthetic <;> rfl

theorem grows_noted : e.Grows (e.noted m st synthetic) := by
  unfold noted
  split
  · exact e.grows_own st _
  · exact (e.grows_own st _).trans (grows_note _ st _)

theorem code_place (m' : MethodId) :
    (e.place m st synthetic).code m' =
      ((e.noted m st synthetic).modifyCode m (·.pushStmt m st synthetic)).code m' := by
  rw [place_eq]
  rfl

theorem grows_place : e.Grows (e.place m st synthetic) := by
  have hpush : (e.noted m st synthetic).Grows
      ((e.noted m st synthetic).modifyCode m (·.pushStmt m st synthetic)) :=
    grows_modifyCode fun c => c.grows_pushStmt m st synthetic
  refine (e.grows_noted m st synthetic).trans (hpush.trans (.of_code_eq ?_ ?_))
  · rw [place_eq]
  · exact e.code_place m st synthetic

theorem code_noted (m' : MethodId) :
    ((e.noted m st synthetic).code m').stmts = (e.code m').stmts ∧
      ((e.noted m st synthetic).code m').sites = ((e.own st (e.nextStmt m)).code m').sites := by
  have hown := e.stmts_code_own st (e.nextStmt m) m'
  unfold noted
  split
  · exact ⟨hown, rfl⟩
  · obtain ⟨hstmts, hsites⟩ := code_note (e.own st (e.nextStmt m)) st (e.nextStmt m) m'
    exact ⟨hstmts.trans hown, hsites⟩

theorem keys_noted : (e.noted m st synthetic).methods.keys = e.methods.keys := by
  have hown : (e.own st (e.nextStmt m)).methods.keys = e.methods.keys := by
    cases st with
    | alloc | assign | load | store => rfl
    | call site lhs => exact Table.keys_modify _ _ _
  unfold noted
  split
  · exact hown
  · unfold note
    split
    · exact (Table.keys_modify _ _ _).trans hown
    · exact hown

/-- The entries of the tables that placing a statement leaves alone, and the list of statements. -/
theorem place_frame :
    (e.place m st synthetic).dispatched = e.dispatched ∧
      (e.place m st synthetic).stmts = e.stmts ++ [e.nextStmt m] := by
  have hown : (e.own st (e.nextStmt m)).dispatched = e.dispatched ∧
      (e.own st (e.nextStmt m)).stmts = e.stmts := by
    cases st <;> exact ⟨rfl, rfl⟩
  have hnoted : (e.noted m st synthetic).dispatched = e.dispatched ∧
      (e.noted m st synthetic).stmts = e.stmts := by
    unfold noted
    split
    · exact hown
    · unfold note
      split <;> exact hown
  rw [place_eq]
  exact ⟨hnoted.1, congrArg (· ++ _) hnoted.2⟩

theorem site?_place (id : SiteId) :
    (e.place m st synthetic).site? id = (e.own st (e.nextStmt m)).site? id := by
  have hsites := (e.code_noted m st synthetic id.method).2
  rw [Elements.site?, code_place]
  rcases (e.noted m st synthetic).code_modifyCode_cases m (·.pushStmt m st synthetic) id.method with
    hc | ⟨-, hc⟩
  · rw [hc, hsites]
    rfl
  · rw [hc, Elements.site?, ← hsites]
    rfl

variable {e m}

/-- A method that was entered has the statement, and otherwise the tables have what they had. -/
theorem has_place (hm : m ∈ e.methods.keys) {s : StmtId} {st' : Stmt} :
    (e.place m st synthetic).Has s st' ↔ e.Has s st' ∨ s = e.nextStmt m ∧ st = st' := by
  have hstmts := (e.code_noted m st synthetic s.method).1
  rw [← e.keys_noted m st synthetic] at hm
  rw [has_iff, has_iff, code_place, code_modifyCode _ hm]
  split <;> rename_i hs
  · subst hs
    simp only [Code.pushStmt, hstmts, List.getElem?_append, nextStmt]
    obtain ⟨method, slot⟩ := s
    simp only [StmtId.mk.injEq, true_and]
    by_cases hlt : slot < (e.code method).stmts.length
    · simp [hlt, Nat.ne_of_lt hlt]
    · by_cases heq : slot = (e.code method).stmts.length
      · simp [heq]
      · simp only [hlt, if_false, heq, false_and, or_false]
        rw [List.getElem?_eq_none (by simp; omega), List.getElem?_eq_none (by omega)]
  · rw [hstmts]
    have hne : s ≠ e.nextStmt m := fun h => hs (congrArg StmtId.method h)
    simp [hne]

end

theorem Sound.place (h : e.Sound) (hm : m ∈ e.methods.keys) (hst : e.admits st = true)
    (synthetic : Bool) : (e.place m st synthetic).Sound := by
  have hgrows := e.grows_place m st synthetic
  obtain ⟨hd, hstmts⟩ := e.place_frame m st synthetic
  refine ⟨?_, fun s st' hs => ?_, fun s id lhs hs => ?_, fun id t s ht howner => ?_⟩
  · rw [MemoRight, hd, hgrows.program_eq]
    exact h.memo
  · rw [hstmts, List.mem_append, List.mem_singleton]
    exact ((has_place st synthetic hm).1 hs).imp (h.listed s st') And.left
  · rcases (has_place st synthetic hm).1 hs with hs | ⟨rfl, rfl⟩
    · obtain ⟨t, owner, ht, howner⟩ := h.owned s id lhs hs
      obtain ⟨t', ht', hbecomes⟩ := hgrows.site? ht
      exact ⟨t', owner, ht', hbecomes.call owner howner⟩
    · obtain ⟨t, ht⟩ := Option.isSome_iff_exists.1 hst
      rw [site?_place, site?_own_call, ht, Option.map_some, if_pos rfl]
      cases hcall : t.call with
      | none => exact ⟨_, e.nextStmt m, rfl, by simp⟩
      | some owner => exact ⟨_, owner, rfl, by simp⟩
  · rw [site?_place] at ht
    -- an owner that was there before is a call, and a new one is the call that is put in place
    have hold : ∀ {t₀}, e.site? id = some t₀ → t₀.call = some s →
        ∃ lhs, (e.place m st synthetic).Has s (.call id lhs) := fun ht₀ hs =>
      (h.owner id _ s ht₀ hs).imp fun lhs => hgrows.has
    cases st with
    | alloc | assign | load | store => exact hold ht howner
    | call site lhs =>
      rw [site?_own_call] at ht
      obtain ⟨t₀, ht₀, rfl⟩ := Option.map_eq_some_iff.1 ht
      split at howner <;> rename_i hid
      · subst hid
        cases hcall : t₀.call with
        | some owner =>
          refine hold ht₀ ?_
          simpa [hcall] using howner
        | none =>
          obtain rfl : e.nextStmt m = s := by simpa [hcall] using howner
          exact ⟨lhs, (has_place _ synthetic hm).2 (.inr ⟨rfl, rfl⟩)⟩
      · exact hold ht₀ howner

theorem grows_addStmt (e : Elements) (m : MethodId) (st : Stmt) (synthetic : Bool) :
    e.Grows (e.addStmt m st synthetic).2 := by
  have hmention := (e.grows_mention (.method m)).trans
    (grows_foldl_mention st.mentions (e.addMethod m))
  simp only [addStmt]
  split
  · exact hmention.trans (grows_place _ m st synthetic)
  · exact hmention

theorem Sound.addStmt (h : e.Sound) (m : MethodId) (st : Stmt) (synthetic : Bool) :
    (e.addStmt m st synthetic).2.Sound := by
  have hmention := (h.mention (.method m)).foldl_mention st.mentions
  have hm := (foldl_mention_frame st.mentions (e.addMethod m)).2.2.2 m (e.mem_keys_addMethod m)
  simp only [Elements.addStmt]
  split <;> rename_i hst
  · exact hmention.place hm hst synthetic
  · exact hmention

/-! ### Variables and call sites -/

section

variable {α : Type} {x : Drafting α}

/-- The step edits the code and leaves alone what calls are bound to. -/
structure Makes (m : MethodId) (x : Drafting α) : Prop where
  edits : ∀ d, Code.Edits m d.code (x d).2.code
  interface : ∀ d, (x d).2.code.this = d.code.this ∧ (x d).2.code.params = d.code.params ∧
    (x d).2.code.returns = d.code.returns

theorem Makes.grows (h : Makes m x) (e : Elements) : e.Grows (e.draft m x).2 :=
  grows_draft ((h.edits { code := e.code m }).continues.grows fun _ =>
    h.interface { code := e.code m })

theorem Makes.sound (h : Makes m x) (he : e.Sound) : (e.draft m x).2.Sound :=
  he.draft (h.edits { code := e.code m })

theorem makes_newVar (m : MethodId) (name : String) (ty : Ty) (source : Option LocalId) :
    Makes m (Drafting.newVar m name ty source) :=
  ⟨Lower.edits_newVar name ty source, fun _ => ⟨rfl, rfl, rfl⟩⟩

theorem makes_temp (m : MethodId) (base : String) (ty : Ty) : Makes m (Drafting.temp m base ty) :=
  ⟨Lower.edits_temp base ty, fun _ => ⟨rfl, rfl, rfl⟩⟩

theorem makes_newSite (m : MethodId) (kind : CallKind) (target : MethodId)
    (receiver : Option VarId) (args : List (Option VarId)) :
    Makes m (Drafting.newSite m kind target receiver args) :=
  ⟨Lower.edits_newSite kind target receiver args, fun _ => ⟨rfl, rfl, rfl⟩⟩

/-- A new call site is there, and says what it was made with. -/
theorem site?_newSite (e : Elements) (m : MethodId) (kind : CallKind) (target : MethodId)
    (receiver : Option VarId) (args : List (Option VarId)) :
    (e.newSite m kind target receiver args).2.site? (e.newSite m kind target receiver args).1 =
      some { kind, target, receiver, args } := by
  have hcode : (e.newSite m kind target receiver args).2.code m =
      (e.code m).pushSite { kind, target, receiver, args } :=
    (e.code_draft m (Drafting.newSite m kind target receiver args) m).trans (if_pos rfl)
  have hslot : (e.newSite m kind target receiver args).1 = ⟨m, (e.code m).sites.length⟩ :=
    congrArg (fun c : Code => SiteId.mk m c.sites.length) (e.code_addMethod m m)
  rw [hslot, Elements.site?, hcode]
  simp [Code.pushSite]

theorem makes_localVar (m : MethodId) (l : LocalId) (decl : LocalDecl) :
    Makes m (Drafting.localVar m l decl) := by
  refine ⟨Lower.edits_localVar l decl, fun d => ?_⟩
  rw [Lower.localVar_run]
  split
  · split
    · exact ⟨rfl, rfl, rfl⟩
    · exact (makes_newVar m decl.name decl.ty (some l)).interface d
  · exact ⟨rfl, rfl, rfl⟩

end

theorem grows_addCall (e : Elements) (m : MethodId) (kind : CallKind) (target : MethodId)
    (receiver : Option VarId) (args : List (Option VarId)) (lhs : Option VarId)
    (synthetic : Bool) : e.Grows (e.addCall m kind target receiver args lhs synthetic).2 := by
  have h := ((makes_newSite m kind target receiver args).grows e).trans
    (grows_addStmt _ m (.call (e.newSite m kind target receiver args).1 lhs) synthetic)
  simp only [addCall]
  split
  · exact h
  · refine h.trans (grows_modifyCode fun c => ?_)
    exact ⟨List.prefix_refl _, fun _ t ht => ⟨t, ht, .refl t⟩, fun hb => ⟨hb, rfl, rfl, rfl⟩⟩

/-- A change of code that statements and call sites do not see. -/
theorem Sound.modifyCode (h : e.Sound) {f : Code → Code} (hstmts : ∀ c, (f c).stmts = c.stmts)
    (hsites : ∀ c, (f c).sites = c.sites) : (e.modifyCode m f).Sound := by
  refine h.of_same (fun s st => ?_) (fun id => ?_) h.memo rfl
  · rcases e.code_modifyCode_cases m f s.method with hc | ⟨-, hc⟩
    · rw [Has, stmt?, hc]
      rfl
    · rw [Has, stmt?, hc, hstmts]
      rfl
  · rcases e.code_modifyCode_cases m f id.method with hc | ⟨-, hc⟩
    · rw [Elements.site?, hc]
      rfl
    · rw [Elements.site?, hc, hsites]
      rfl

theorem Sound.addCall (h : e.Sound) (m : MethodId) (kind : CallKind) (target : MethodId)
    (receiver : Option VarId) (args : List (Option VarId)) (lhs : Option VarId)
    (synthetic : Bool) : (e.addCall m kind target receiver args lhs synthetic).2.Sound := by
  have h' := ((makes_newSite m kind target receiver args).sound h).addStmt m
    (.call (e.newSite m kind target receiver args).1 lhs) synthetic
  simp only [Elements.addCall]
  split
  · exact h'
  · exact h'.modifyCode (fun _ => rfl) fun _ => rfl

/-! ### Lowering and dispatching -/

theorem code_lower_of_built (hm : e.isBuilt m = true) (m' : MethodId) :
    (e.lower m).2.code m' = e.code m' := by
  unfold lower
  simp only [isBuilt_addMethod, hm, if_true]
  exact e.code_addMethod m m'

/-- The first time, lowering works on the code that is there. -/
theorem code_lower_of_not_built (hm : ¬ e.isBuilt m = true) (m' : MethodId) :
    (e.lower m).2.code m' =
      if m' = m then
        ((Lower.method e.program m).run { code := { e.code m with built := true } }).2.code
      else e.code m' := by
  have hrun := e.run_opened m
  rw [code_addMethod] at hrun
  unfold lower
  simp only [isBuilt_addMethod, hm, Bool.false_eq_true, if_false]
  refine (code_draft (e.opened m) m _ m').trans ?_
  rw [← hrun, e.code_opened m m']
  split <;> rfl

/-- The first time, the outcome is that of lowering the code that is there. -/
theorem outcome_lower_of_not_built (hm : ¬ e.isBuilt m = true) : (e.lower m).1 =
    ((Lower.method e.program m).run { code := { e.code m with built := true } }).1 := by
  rw [← run_opened]
  unfold lower
  simp only [isBuilt_addMethod, hm, Bool.false_eq_true, if_false]
  rfl

/-- Lowering continues the code of a method, once. -/
theorem code_lower_cases (e : Elements) (m : MethodId) :
    e.isBuilt m = true ∧ (∀ m', (e.lower m).2.code m' = e.code m') ∨
      ¬ e.isBuilt m = true ∧ ∃ c, Code.Continues m { e.code m with built := true } c ∧
        ∀ m', (e.lower m).2.code m' = if m' = m then c else e.code m' := by
  by_cases hm : e.isBuilt m = true
  · exact .inl ⟨hm, code_lower_of_built hm⟩
  · exact .inr ⟨hm, _, (Lower.edits_method (m := m) e.program
      { code := { e.code m with built := true } }).continues, code_lower_of_not_built hm⟩

theorem grows_lower (e : Elements) (m : MethodId) : e.Grows (e.lower m).2 := by
  have hprogram : (e.lower m).2.program = e.program := by
    unfold lower
    simp only
    split
    · exact (e.addMethod_frame m).1
    · exact (draft_frame _ m _).1.trans (e.addMethod_frame m).1
  refine ⟨hprogram, fun m' => ?_⟩
  rcases e.code_lower_cases m with ⟨-, hcode⟩ | ⟨hb, c, hcont, hcode⟩ <;> rw [hcode]
  · exact .refl _
  · split <;> rename_i hm
    · -- what calls are bound to changes here, for the last time
      subst hm
      exact ⟨hcont.stmts, fun i t ht => ⟨t, Code.getElem?_of_isPrefix hcont.sites ht, .refl t⟩,
        fun hbuilt => absurd hbuilt hb⟩
    · exact .refl _

/-- Whether it fails or not, lowering is done once. -/
theorem isBuilt_lower_self (e : Elements) (m : MethodId) : (e.lower m).2.isBuilt m = true := by
  rcases e.code_lower_cases m with ⟨hb, hcode⟩ | ⟨-, c, hcont, hcode⟩
  · rw [isBuilt, hcode]
    exact hb
  · rw [isBuilt, hcode, if_pos rfl]
    exact hcont.built_eq

theorem Sound.lower (h : e.Sound) (m : MethodId) : (e.lower m).2.Sound := by
  have hadd := h.mention (.method m)
  unfold Elements.lower
  simp only
  split
  · exact hadd
  · have hbuilt := hadd.modifyCode (m := m) (f := fun c => { c with built := true })
      (fun _ => rfl) fun _ => rfl
    exact hbuilt.draft (Lower.edits_method (e.addMethod m).program { code := _ })

theorem stmts_dispatch (e : Elements) (t : Ty) (sub : String) :
    (e.dispatch t sub).2.stmts = e.stmts := by
  unfold dispatch
  simp only
  split
  · rfl
  · cases (e.addType t).program.dispatch? t sub with
    | none => rfl
    | some m => exact stmts_addMethod (e.addType t) m

theorem code_dispatch (e : Elements) (t : Ty) (sub : String) :
    (e.dispatch t sub).2.program = e.program ∧ ∀ m, (e.dispatch t sub).2.code m = e.code m := by
  unfold dispatch
  simp only
  split
  · exact ⟨rfl, fun _ => rfl⟩
  · cases (e.addType t).program.dispatch? t sub with
    | none => exact ⟨rfl, fun _ => rfl⟩
    | some m => exact ⟨((e.addType t).addMethod_frame m).1, code_addMethod (e.addType t) m⟩

theorem Sound.dispatch (h : e.Sound) (t : Ty) (sub : String) : (e.dispatch t sub).2.Sound := by
  obtain ⟨-, hp, hc, hmemo⟩ := dispatch_spec h.memo t sub
  refine h.of_code_eq hc (fun t' sub' a ha => ?_) (e.stmts_dispatch t sub)
  rw [hp]
  exact hmemo t' sub' a ha

/-! ### Requests -/

theorem grows_serve (e : Elements) (r : Request) : e.Grows (e.serve r).2 := by
  cases r with
  | type t => exact e.grows_mention (.type t)
  | method m => exact e.grows_mention (.method m)
  | field f => exact e.grows_mention (.field f)
  | localVar m l decl => exact (makes_localVar m l decl).grows e
  | newVar m name ty => exact (makes_newVar m name ty none).grows e
  | temp m base ty => exact (makes_temp m base ty).grows e
  | addStmt m st synthetic => exact e.grows_addStmt m st synthetic
  | newSite m kind target receiver args =>
    exact (makes_newSite m kind target receiver args).grows e
  | addCall m kind target receiver args lhs synthetic =>
    exact e.grows_addCall m kind target receiver args lhs synthetic
  | lower m => exact e.grows_lower m
  | resolve signature =>
    simp only [serve, resolve]
    split
    · exact .refl e
    · split
      · exact .refl e
      · exact e.grows_mention (.method _)
  | dispatch t sub => exact .of_code_eq (e.code_dispatch t sub).1 (e.code_dispatch t sub).2

theorem Sound.serve (h : e.Sound) (r : Request) : (e.serve r).2.Sound := by
  cases r with
  | type t => exact h.mention (.type t)
  | method m => exact h.mention (.method m)
  | field f => exact h.mention (.field f)
  | localVar m l decl => exact (makes_localVar m l decl).sound h
  | newVar m name ty => exact (makes_newVar m name ty none).sound h
  | temp m base ty => exact (makes_temp m base ty).sound h
  | addStmt m st synthetic => exact h.addStmt m st synthetic
  | newSite m kind target receiver args =>
    exact (makes_newSite m kind target receiver args).sound h
  | addCall m kind target receiver args lhs synthetic =>
    exact h.addCall m kind target receiver args lhs synthetic
  | lower m => exact h.lower m
  | resolve signature =>
    simp only [Elements.serve, resolve]
    split
    · exact h
    · split
      · exact h
      · exact h.mention (.method _)
  | dispatch t sub => exact h.dispatch t sub

/-- The tables `e'` come from `e` by requests and lines of the log. -/
inductive Develops (e : Elements) : Elements → Prop
  | refl : Develops e e
  | serve {e' : Elements} (h : Develops e e') (r : Request) : Develops e (e'.serve r).2
  | tell {e' : Elements} (h : Develops e e') (level : Level) (text : String) :
      Develops e (e'.tell level text)

namespace Develops

theorem trans (h₁ : e.Develops e₁) (h₂ : e₁.Develops e₂) : e.Develops e₂ := by
  induction h₂ with
  | refl => exact h₁
  | serve _ r ih => exact ih.serve r
  | tell _ level text ih => exact ih.tell level text

theorem grows (h : e.Develops e₁) : e.Grows e₁ := by
  induction h with
  | refl => exact .refl e
  | serve _ r ih => exact ih.trans (grows_serve _ r)
  | tell _ level text ih => exact ih.trans (.of_code_eq rfl fun _ => rfl)

theorem sound (h : e.Develops e₁) (he : e.Sound) : e₁.Sound := by
  induction h with
  | refl => exact he
  | serve _ r ih => exact ih.serve r
  | tell _ level text ih => exact ih.of_code_eq (fun _ => rfl) ih.memo rfl

end Develops

/-- Tables in which nothing was entered. -/
theorem sound_empty (p : Program) : ({ program := p } : Elements).Sound := by
  have hcode : ∀ m, ({ program := p } : Elements).code m = {} := fun _ => rfl
  refine ⟨fun t sub a ha => ?_, fun s st hs => ?_, fun s id lhs hs => ?_, fun id t s ht => ?_⟩
  · cases ha
  · simp [Has, stmt?, hcode] at hs
  · simp [Has, stmt?, hcode] at hs
  · simp [Elements.site?, hcode] at ht

theorem Sound.fresh (p : Program) (ms : List MethodId) : (fresh p ms).Sound := by
  have h := (sound_empty p).foldl_mention (ms.map .method)
  rwa [List.foldl_map] at h

end Elements

theorem Script.run_develops {α : Type} (x : Script α) (e : Elements) : e.Develops (x.run e).2 := by
  induction x generalizing e with
  | done a => exact .refl
  | look k ih => exact ih e e
  | ask r k ih => exact (Elements.Develops.refl.serve r).trans (ih _ _)

theorem Hook.run_develops {α : Type} (x : Hook α) (s : Stage) :
    s.analysis.elements.Develops (x.run s).2.analysis.elements := by
  induction x generalizing s with
  | done a => exact .refl
  | look k ih => exact ih _ s
  | ask r k ih =>
    have hrest := ih (s.analysis.elements.serve r).1
      { s with analysis := { s.analysis with elements := (s.analysis.elements.serve r).2 } }
    exact (Elements.Develops.refl.serve r).trans hrest
  | ignore m next ih => exact ih { s with ignored := s.ignored.insert m }
  | inject m stmts next ih => exact ih { s with pending := s.pending ++ stmts.map (m, ·) }
  | note line next ih => exact ih { s with journal := s.journal ++ [line] }

end PointsTo
