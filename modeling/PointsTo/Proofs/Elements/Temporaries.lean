import PointsTo.Elements.Text
import PointsTo.Proofs.ContextPolicy
import PointsTo.Proofs.Elements.SelfContained

/-!
# The names of temporaries

A temporary is named by a base and a number that its method counts. No two temporaries of a method
get the same number, whoever asks for them, and a base that does not end in a digit can be told from
the number after it.

* `Text.append_decimal_inj`: a text that does not end in a digit and a numeral can be told from what
  they are joined to;
* `Elements.made`: the temporaries that a request makes, `Elements.history`: those that several
  requests make, in order;
* `Code.Names`: code in which some temporaries got the next numbers, and `Elements.names_serve`: so
  it is with the code of each method after a request;
* `Elements.temporaries_named`: the names of all temporaries that any requests make.
-/

namespace PointsTo

/-! ### Bases and numbers -/

namespace Text

/-- Whether a digit comes last. -/
def endsInDigit (s : String) : Bool := s.toList.getLast?.any Char.isDigit

/-- The digits at the end are those of the numeral. -/
theorem takeWhile_reverse_append_decimal {s : String} (hs : endsInDigit s = false) (n : Nat) :
    (s ++ decimal n).toList.reverse.takeWhile Char.isDigit = (Nat.toDigits 10 n).reverse := by
  have hdigits : ∀ d ∈ (Nat.toDigits 10 n).reverse, d.isDigit = true :=
    fun d hd => isDigit_of_mem_toDigits (List.mem_reverse.1 hd)
  have hbase : s.toList.reverse.takeWhile Char.isDigit = [] := by
    rw [endsInDigit, ← List.head?_reverse] at hs
    cases hrev : s.toList.reverse with
    | nil => rfl
    | cons d ds =>
      rw [hrev] at hs
      have hd : d.isDigit = false := hs
      rw [List.takeWhile_cons_of_neg (by simp [hd])]
  rw [String.toList_append, decimal, String.toList_ofList, List.reverse_append,
    List.takeWhile_append_of_pos hdigits, hbase, List.append_nil]

theorem append_decimal_inj {s s' : String} {n n' : Nat} (hs : endsInDigit s = false)
    (hs' : endsInDigit s' = false) (h : s ++ decimal n = s' ++ decimal n') : s = s' ∧ n = n' := by
  have hdigits : Nat.toDigits 10 n = Nat.toDigits 10 n' := by
    rw [← List.reverse_inj, ← takeWhile_reverse_append_decimal hs, h,
      takeWhile_reverse_append_decimal hs']
  obtain rfl : n = n' := decimal_inj (congrArg String.ofList hdigits)
  refine ⟨String.toList_inj.1 ?_, rfl⟩
  have hlist := congrArg String.toList h
  rwa [String.toList_append, String.toList_append, List.append_cancel_right_eq] at hlist

end Text

/-- A variable that was made as a temporary, and the base of its name. -/
structure Temporary where
  var : VarId
  base : String
deriving DecidableEq

/-! ### The next numbers -/

namespace Code

/-- The code `c'` comes from `c`, and `ts` are the temporaries of `m` that were made in between.
They are new variables and got the next numbers in turn. -/
structure Names (m : MethodId) (ts : List Temporary) (c c' : Code) : Prop where
  kept : c.vars.map Var.name <+: c'.vars.map Var.name
  temps_eq : c'.temps = c.temps + ts.length
  named : ∀ (k : Nat) t, ts[k]? = some t → t.var.method = m ∧ c.vars.length ≤ t.var.slot ∧
    (c'.vars.map Var.name)[t.var.slot]? = some (t.base ++ Text.decimal (c.temps + k + 1))
  ascending : ts.Pairwise fun t t' => t.var.slot < t'.var.slot

variable {m : MethodId} {ts ts' : List Temporary} {c c₁ c₂ : Code}

namespace Names

/-- Further variables that are no temporaries. -/
theorem of_isPrefix (hvars : c.vars.map Var.name <+: c₁.vars.map Var.name)
    (htemps : c₁.temps = c.temps) : Names m [] c c₁ :=
  ⟨hvars, htemps, by rintro k t ⟨⟩, .nil⟩

theorem of_naming (h : c₁.naming = c.naming) : Names m [] c c₁ := by
  have hnames : ∀ c : Code, c.vars.map Var.name = c.naming.1.map Var.name := fun c => by
    simp [naming, Var.bare]
  have hsame : c₁.vars.map Var.name = c.vars.map Var.name := by rw [hnames, hnames, h]
  exact of_isPrefix (hsame ▸ List.prefix_refl _) (congrArg Prod.snd h)

theorem pushVar (c : Code) (x : Var) : Names m [] c (c.pushVar x) :=
  of_isPrefix (by simp [Code.pushVar]) rfl

/-- One more temporary. -/
theorem temp (c : Code) (m : MethodId) (base : String) (ty : Ty) :
    Names m [⟨⟨m, c.vars.length⟩, base⟩] c ({ c with temps := c.temps + 1 }.pushVar
      { name := base ++ Text.decimal (c.temps + 1), ty }) where
  kept := by simp [Code.pushVar]
  temps_eq := rfl
  named k t ht := by
    rw [List.getElem?_singleton] at ht
    split at ht <;> cases ht
    subst k
    exact ⟨rfl, Nat.le_refl _, by simp [Code.pushVar]⟩
  ascending := List.pairwise_singleton _ _

theorem length_le (h : Names m ts c c₁) : c.vars.length ≤ c₁.vars.length := by
  simpa using h.kept.length_le

/-- A temporary is a new variable of the method. -/
theorem of_mem (h : Names m ts c c₁) {t : Temporary} (ht : t ∈ ts) :
    t.var.method = m ∧ c.vars.length ≤ t.var.slot ∧ t.var.slot < c₁.vars.length := by
  obtain ⟨k, hk⟩ := List.mem_iff_getElem?.1 ht
  obtain ⟨hm, hslot, hname⟩ := h.named k t hk
  exact ⟨hm, hslot, by simpa using (List.getElem?_eq_some_iff.1 hname).1⟩

theorem trans (h : Names m ts c c₁) (h' : Names m ts' c₁ c₂) : Names m (ts ++ ts') c c₂ where
  kept := h.kept.trans h'.kept
  temps_eq := by rw [h'.temps_eq, h.temps_eq, List.length_append, Nat.add_assoc]
  named k t ht := by
    rw [List.getElem?_append] at ht
    split at ht <;> rename_i hk
    · obtain ⟨hm, hslot, hname⟩ := h.named k t ht
      exact ⟨hm, hslot, getElem?_of_isPrefix h'.kept hname⟩
    · obtain ⟨hm, hslot, hname⟩ := h'.named _ t ht
      have hnumber : c₁.temps + (k - ts.length) = c.temps + k := by rw [h.temps_eq]; omega
      exact ⟨hm, h.length_le.trans hslot, hnumber ▸ hname⟩
  ascending := List.pairwise_append.2 ⟨h.ascending, h'.ascending, fun _ ht _ ht' =>
    Nat.lt_of_lt_of_le (h.of_mem ht).2.2 (h'.of_mem ht').2.1⟩

theorem of_eq_naming (h : Names m ts c₁ c₂) (hc : c₁.naming = c.naming) : Names m ts c c₂ :=
  (of_naming hc).trans h

end Names

/-- Reading makes a temporary for a null literal, and no other variable without a local. -/
theorem names_read (c : Code) (r : Read) : ∃ vs : List VarId,
    (c.read r).temporaries m = c.temporaries m ++ vs ∧
      Names m (vs.map (⟨·, "null$"⟩)) c (c.read r) := by
  cases r with
  | «local» l decl href =>
    refine ⟨[], ?_⟩
    rw [read]
    split
    · exact ⟨(List.append_nil _).symm, .of_naming rfl⟩
    · exact ⟨c.temporaries_pushVar _, .pushVar c _⟩
  | null => exact ⟨[⟨m, c.vars.length⟩], temporaries_pushVar _ _, .temp c m "null$" .null⟩

theorem names_foldl_read (rs : List Read) (c : Code) : ∃ vs : List VarId,
    (rs.foldl read c).temporaries m = c.temporaries m ++ vs ∧
      Names m (vs.map (⟨·, "null$"⟩)) c (rs.foldl read c) := by
  induction rs generalizing c with
  | nil => exact ⟨[], (List.append_nil _).symm, .of_naming rfl⟩
  | cons r rs ih =>
    obtain ⟨vs, hvs, hnames⟩ := c.names_read r
    obtain ⟨vs', hvs', hnames'⟩ := ih (c.read r)
    refine ⟨vs ++ vs', ?_, ?_⟩
    · rw [List.foldl_cons, hvs', hvs, List.append_assoc]
    · rw [List.map_append]
      exact hnames.trans hnames'

/-- So does all that is made of a body. -/
theorem Made.names {ys : List Yield} {rs : List Read} (h : Made m ys rs c c₁) :
    ∃ vs : List VarId, c₁.temporaries m = c.temporaries m ++ vs ∧
      Names m (vs.map (⟨·, "null$"⟩)) c c₁ := by
  obtain ⟨vs, hvs, hnames⟩ := names_foldl_read (m := m) rs c
  refine ⟨vs, h.temporaries_eq.trans hvs, ?_⟩
  simpa using hnames.trans (.of_naming h.naming_eq)

end Code

/-- Lowering a method without body makes no temporaries. -/
theorem Lower.names_bodiless {m : MethodId} (p : Program) (d : Draft) :
    d.code.Names m [] ((bodiless p m).run d).2.code := by
  obtain ⟨this, params, returns, -, -, -, new, -, hcode⟩ := bodiless_run (p := p) (m := m) d
  rw [hcode]
  exact .of_isPrefix (by simp) rfl

namespace Elements

variable {p : Program} {e : Elements} {m : MethodId}

/-- The temporaries that a request makes, in order. Those that lowering makes are its new variables
that stand for no local; where there is no body it makes up variables, but no temporaries. -/
def made (e : Elements) : Request → List Temporary
  | .temp m base ty => [⟨(e.temp m base ty).1, base⟩]
  | .lower m =>
    if (e.program.body? m).isNone then []
    else
      ((((e.lower m).2.code m).temporaries m).drop ((e.code m).temporaries m).length).map
        (⟨·, "null$"⟩)
  | _ => []

/-- The temporaries that several requests make, in order. -/
def history (e : Elements) : List Request → List Temporary
  | [] => []
  | r :: rs => e.made r ++ (e.serve r).2.history rs

/-! ### What a request names -/

theorem naming_modifyCode {f : Code → Code} (e : Elements) (m' : MethodId)
    (h : ∀ c : Code, (f c).naming = c.naming) :
    ((e.modifyCode m' f).code m).naming = (e.code m).naming := by
  rcases e.code_modifyCode_cases m' f m with hc | ⟨-, hc⟩ <;> rw [hc]
  exact h _

/-- Statements name nothing. -/
theorem naming_code_addStmt (e : Elements) (m m' : MethodId) (st : Stmt) (synthetic : Bool) :
    ((e.addStmt m' st synthetic).2.code m).naming = (e.code m).naming := by
  have hown : ∀ (e : Elements) id, ((e.own st id).code m).naming = (e.code m).naming := by
    intro e id
    cases st with
    | alloc | assign | load | store => rfl
    | call site lhs => exact e.naming_modifyCode _ fun _ => rfl
  have hnote : ∀ (e : Elements) id, ((e.note st id).code m).naming = (e.code m).naming := by
    intro e id
    unfold note
    split
    · exact e.naming_modifyCode _ fun c =>
        Prod.ext (Var.map_modify_register Var.bare_register _ _ _ _) rfl
    · rfl
  have hcode : (st.mentions.foldl mention (e.addMethod m')).code m = e.code m :=
    ((foldl_mention_frame st.mentions (e.addMethod m')).2.2.1 m).trans (e.code_addMethod m' m)
  simp only [addStmt]
  split
  · rw [code_place, naming_modifyCode (f := (·.pushStmt m' st synthetic)) _ _ fun _ => rfl, noted]
    split
    · rw [hown, hcode]
    · rw [hnote, hown, hcode]
  · rw [hcode]

theorem naming_code_newSite (e : Elements) (m m' : MethodId) (kind : CallKind) (target : MethodId)
    (receiver : Option VarId) (args : List (Option VarId)) :
    ((e.newSite m' kind target receiver args).2.code m).naming = (e.code m).naming := by
  rw [newSite, code_draft]
  split <;> rename_i hm
  · exact hm ▸ rfl
  · rfl

theorem naming_code_addCall (e : Elements) (m m' : MethodId) (kind : CallKind) (target : MethodId)
    (receiver : Option VarId) (args : List (Option VarId)) (lhs : Option VarId) (synthetic : Bool) :
    ((e.addCall m' kind target receiver args lhs synthetic).2.code m).naming =
      (e.code m).naming := by
  have hcall := (naming_code_addStmt (e.newSite m' kind target receiver args).2 m m'
    (.call (e.newSite m' kind target receiver args).1 lhs) synthetic).trans
    (e.naming_code_newSite m m' kind target receiver args)
  simp only [addCall]
  split
  · exact hcall
  · rw [naming_modifyCode (f := fun c => { c with bodySites := c.bodySites ++ [_] }) _ _
      fun _ => rfl]
    exact hcall

theorem Develops.exists_lowered (h : ({ program := p } : Elements).Develops e) {b : Body}
    (hb : ¬ e.isBuilt m = true) (hbody : e.program.body? m = some b) :
    ∃ outcome ys ts, b.Lowered e.program m (e.code m) outcome ((e.lower m).2.code m) ys ts := by
  have hface := h.face_eq (Bool.eq_false_iff.2 hb)
  simp only [Code.face, Prod.mk.injEq] at hface
  obtain ⟨-, hthis, hparams, hreturns⟩ := hface
  have hmethod : Lower.method e.program m = Lower.body e.program m b := by
    rw [Lower.method, hbody]
  rw [code_lower_of_not_built hb, if_pos rfl, hmethod]
  exact ⟨_, Lower.exists_lowered hthis hparams hreturns rfl rfl⟩

/-- Lowering a method names the null literals of its body. -/
theorem Develops.names_lower (h : ({ program := p } : Elements).Develops e) (m : MethodId) :
    (e.code m).Names m (e.made (.lower m)) ((e.lower m).2.code m) := by
  by_cases hb : e.isBuilt m = true
  · have hmade : e.made (.lower m) = [] := by
      simp [made, code_lower_of_built hb]
    rw [hmade, code_lower_of_built hb]
    exact .of_naming rfl
  · cases hbody : e.program.body? m with
    | some b =>
      obtain ⟨outcome, ys, ts, hlowered⟩ := h.exists_lowered hb hbody
      obtain ⟨vs, hvs, hnames⟩ := hlowered.made.names
      have hmade : e.made (.lower m) = vs.map (⟨·, "null$"⟩) := by
        have hold : ((e.lower m).2.code m).temporaries m = (e.code m).temporaries m ++ vs := hvs
        simp [made, hbody, hold]
      rw [hmade]
      exact hnames.of_eq_naming rfl
    | none =>
      have hmade : e.made (.lower m) = [] := by simp [made, hbody]
      have hopened : ∀ messages, (e.code m).Names m [] ((Lower.bodiless e.program m).run
          { code := { e.code m with built := true }, messages }).2.code := fun messages =>
        (Lower.names_bodiless e.program { code := _, messages }).of_eq_naming rfl
      rw [hmade, code_lower_of_not_built hb, if_pos rfl, Lower.method, hbody]
      simp only
      split
      · exact hopened [⟨.warn, _⟩]
      · exact hopened []

/-- What works on the code of one method names nothing elsewhere. -/
theorem names_of_self {e₁ : Elements} {m' : MethodId} {ts : List Temporary}
    (hself : (e.code m').Names m' ts (e₁.code m'))
    (hother : ∀ m, m ≠ m' → e₁.code m = e.code m) (m : MethodId) :
    (e.code m).Names m (ts.filter (·.var.method = m)) (e₁.code m) := by
  by_cases hm : m = m'
  · subst hm
    rwa [List.filter_eq_self.2 fun t ht => decide_eq_true (hself.of_mem ht).1]
  · have hnone : ts.filter (·.var.method = m) = [] := by
      refine List.filter_eq_nil_iff.2 fun t ht => ?_
      simpa [(hself.of_mem ht).1] using Ne.symm hm
    rw [hnone, hother m hm]
    exact .of_naming rfl

theorem names_draft {α : Type} {x : Drafting α} {m' : MethodId} {ts : List Temporary}
    (h : (e.code m').Names m' ts (x { code := e.code m' }).2.code) (m : MethodId) :
    (e.code m).Names m (ts.filter (·.var.method = m)) ((e.draft m' x).2.code m) := by
  have hself : (e.code m').Names m' ts ((e.draft m' x).2.code m') := by
    rwa [code_draft, if_pos rfl]
  refine names_of_self hself (fun m hm => ?_) m
  rw [code_draft, if_neg hm]

/-- After a request, the temporaries that it made of a method have the next numbers there. -/
theorem names_serve (h : ({ program := p } : Elements).Develops e) (r : Request) (m : MethodId) :
    (e.code m).Names m ((e.made r).filter (·.var.method = m)) ((e.serve r).2.code m) := by
  cases r with
  | type t => exact .of_naming rfl
  | method m' => exact .of_naming (congrArg Code.naming (e.code_addMethod m' m))
  | field f => exact .of_naming (congrArg Code.naming (e.code_addField f m))
  | localVar m' l decl =>
    have hlocal : (e.code m').Names m' []
        (Drafting.localVar m' l decl { code := e.code m' }).2.code := by
      rw [Lower.localVar_run]
      split
      · split
        · exact .of_naming rfl
        · exact .pushVar _ _
      · exact .of_naming rfl
    exact names_draft hlocal m
  | newVar m' name ty =>
    have hnew : (e.code m').Names m' []
        (Drafting.newVar m' name ty none { code := e.code m' }).2.code := .pushVar _ _
    exact names_draft hnew m
  | temp m' base ty =>
    have hvar : (e.temp m' base ty).1 = ⟨m', (e.code m').vars.length⟩ := by
      rw [← e.code_addMethod m' m']
      rfl
    rw [made, hvar]
    exact names_draft (.temp _ m' base ty) m
  | addStmt m' st synthetic => exact .of_naming (e.naming_code_addStmt m m' st synthetic)
  | newSite m' kind target receiver args =>
    exact .of_naming (e.naming_code_newSite m m' kind target receiver args)
  | addCall m' kind target receiver args lhs synthetic =>
    exact .of_naming (e.naming_code_addCall m m' kind target receiver args lhs synthetic)
  | lower m' =>
    refine names_of_self (h.names_lower m') (fun m hm => ?_) m
    show (e.lower m').2.code m = e.code m
    by_cases hb : e.isBuilt m' = true
    · rw [code_lower_of_built hb]
    · rw [code_lower_of_not_built hb, if_neg hm]
  | resolve signature =>
    simp only [serve, resolve]
    split
    · exact .of_naming rfl
    · split
      · exact .of_naming rfl
      · exact .of_naming (congrArg Code.naming (e.code_addMethod _ m))
  | dispatch t sub => exact .of_naming (congrArg Code.naming ((e.code_dispatch t sub).2 m))

theorem Develops.foldl_serve {e₁ : Elements} (h : e.Develops e₁) (rs : List Request) :
    e.Develops (rs.foldl (fun e r => (e.serve r).2) e₁) := by
  induction rs generalizing e₁ with
  | nil => exact h
  | cons r rs ih => exact ih (h.serve r)

/-- So it is after several requests. -/
theorem names_history (h : ({ program := p } : Elements).Develops e) (rs : List Request)
    (m : MethodId) : (e.code m).Names m ((e.history rs).filter (·.var.method = m))
      ((rs.foldl (fun e r => (e.serve r).2) e).code m) := by
  induction rs generalizing e with
  | nil => exact .of_naming rfl
  | cons r rs ih =>
    rw [history, List.filter_append]
    exact (names_serve h r m).trans (ih (h.serve r))

/-- **Temporaries have names of their own.** Whatever is asked of the tables, in whatever order and
of whatever methods, a method counts its temporaries; each of them is a variable of its own, named
by its base and its number; and those whose bases do not end in a digit have different names. -/
theorem temporaries_named (p : Program) (rs : List Request) (m : MethodId) :
    let e := rs.foldl (fun e r => (e.serve r).2) ({ program := p } : Elements)
    let ts := (({ program := p } : Elements).history rs).filter (·.var.method = m)
    (e.code m).temps = ts.length ∧ (ts.map Temporary.var).Nodup ∧
      (∀ (k : Nat) t, ts[k]? = some t → t.var ∈ e.vars ∧
        e.varName t.var = t.base ++ Text.decimal (k + 1)) ∧
      ((ts.filter (!Text.endsInDigit ·.base)).map (e.varName ·.var)).Nodup := by
  intro e ts
  have hnames : ({} : Code).Names m ts (e.code m) := names_history .refl rs m
  have hlisted : e.Listed := (Develops.refl.foldl_serve rs).changes.listed (listed_empty p)
  have htemps : (e.code m).temps = ts.length := hnames.temps_eq.trans (Nat.zero_add _)
  have hnamed : ∀ (k : Nat) t, ts[k]? = some t → t.var ∈ e.vars ∧
      e.varName t.var = t.base ++ Text.decimal (k + 1) := by
    intro k t ht
    obtain ⟨hm, -, hname⟩ := hnames.named k t ht
    rw [List.getElem?_map, Option.map_eq_some_iff] at hname
    obtain ⟨x, hx, hname⟩ := hname
    refine ⟨(hlisted.mem_iff _).2 (hm ▸ (List.getElem?_eq_some_iff.1 hx).1), ?_⟩
    rw [varName, var, hm, List.getD_eq_getElem?_getD, hx]
    exact hname.trans (congrArg (t.base ++ Text.decimal ·) (by simp))
  refine ⟨htemps, ?_, hnamed, ?_⟩
  · refine List.pairwise_map.2 (hnames.ascending.imp fun {t t'} hlt heq => ?_)
    exact Nat.ne_of_lt hlt (congrArg VarId.slot heq)
  · rw [List.Nodup, List.pairwise_map, List.pairwise_filter, List.pairwise_iff_getElem]
    intro i j hi hj hij hbase hbase' heq
    rw [(hnamed i _ (List.getElem?_eq_getElem hi)).2,
      (hnamed j _ (List.getElem?_eq_getElem hj)).2] at heq
    have hnumber := (Text.append_decimal_inj (by simpa using hbase) (by simpa using hbase') heq).2
    omega

end Elements

/-- Temporaries are asked for before and after two methods are lowered. The body of the first one
has two null literals before its fault, and the second one has no body. -/
def Request.numbering : List Request :=
  [.temp ⟨0⟩ "t$" (.cls ⟨1⟩), .temp ⟨1⟩ "t$" (.cls ⟨1⟩), .lower ⟨0⟩, .temp ⟨0⟩ "" .null, .lower ⟨1⟩,
    .lower ⟨0⟩, .temp ⟨1⟩ "u" .null, .temp ⟨0⟩ "t$" .null]

theorem Elements.temporaries_named_stumbling :
    let e := Request.numbering.foldl (fun e r => (e.serve r).2)
      ({ program := .stumbling } : Elements)
    let ts := (({ program := .stumbling } : Elements).history Request.numbering).filter
      (·.var.method = ⟨0⟩)
    ts = [⟨⟨⟨0⟩, 0⟩, "t$"⟩, ⟨⟨⟨0⟩, 4⟩, "null$"⟩, ⟨⟨⟨0⟩, 5⟩, "null$"⟩, ⟨⟨⟨0⟩, 6⟩, ""⟩,
        ⟨⟨⟨0⟩, 7⟩, "t$"⟩] ∧
      ts.map (e.varName ·.var) = ["t$1", "null$2", "null$3", "4", "t$5"] ∧
      (e.code ⟨0⟩).temps = 5 ∧ (ts.map (e.varName ·.var)).Nodup := by
  intro e ts
  have hts : ts = [⟨⟨⟨0⟩, 0⟩, "t$"⟩, ⟨⟨⟨0⟩, 4⟩, "null$"⟩, ⟨⟨⟨0⟩, 5⟩, "null$"⟩, ⟨⟨⟨0⟩, 6⟩, ""⟩,
      ⟨⟨⟨0⟩, 7⟩, "t$"⟩] := by decide +kernel
  have hbases : ts.filter (!Text.endsInDigit ·.base) = ts := by
    rw [hts]
    decide +kernel
  obtain ⟨htemps, -, -, hnodup⟩ := temporaries_named .stumbling Request.numbering ⟨0⟩
  refine ⟨hts, by decide +kernel, htemps.trans (congrArg List.length hts), ?_⟩
  exact hbases ▸ hnodup

/-- A base that ends in a digit can be taken for another one with a longer number. -/
example :
    let rs := Request.temp ⟨0⟩ "x1" .null :: List.replicate 9 (.temp ⟨0⟩ "y" .null) ++
      [.temp ⟨0⟩ "x" .null]
    let e := rs.foldl (fun e r => (e.serve r).2) ({ program := .stumbling } : Elements)
    e.varName ⟨⟨0⟩, 0⟩ = "x11" ∧ e.varName ⟨⟨0⟩, 10⟩ = "x11" := by
  decide +kernel

end PointsTo
