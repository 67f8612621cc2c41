import PointsTo.Elements.Text
import PointsTo.Proofs.Elements.Changes

/-!
# Interning

Types, methods and fields are entered in the element tables when they are first asked for, and so
are the variables of locals. From then on each of them has one number, which belongs to nothing else
of its kind, and to ask for it again changes nothing.

* `Elements.number?` is the number of an entity, and `Elements.entityAt?` the entity with a number;
* `Elements.Carries`: a number is that of an entity, whose entry has the types that its declaration
  names and the texts that are made of it;
* `Elements.MadeUp`: the variables that stand for no local, and `Elements.StandsFor`: a variable is
  that of a local;
* `Elements.Interns`: all of this together, and `Elements.Develops.interns`: whatever was asked of
  the tables before, it holds.
-/

namespace PointsTo

/-! ### Variables of locals -/

namespace Code

variable {c c₁ : Code} {l : LocalId} {slot : Nat}

theorem localSlot?_eq (c : Code) (l : LocalId) :
    c.localSlot? l = c.sources.findIdx? (· = some l) := by
  rw [sources, List.findIdx?_map]
  rfl

theorem getElem?_of_localSlot? (h : c.localSlot? l = some slot) :
    c.sources[slot]? = some (some l) := by
  rw [localSlot?_eq, List.findIdx?_eq_some_iff_getElem] at h
  obtain ⟨hslot, hl, -⟩ := h
  rw [List.getElem?_eq_getElem hslot]
  exact congrArg some (of_decide_eq_true hl)

/-- A local keeps its variable. -/
theorem localSlot?_of_isPrefix (h : c.sources <+: c₁.sources) (hl : c.localSlot? l = some slot) :
    c₁.localSlot? l = some slot := by
  rw [localSlot?_eq] at hl ⊢
  exact h.findIdx?_eq_some hl

end Code

/-- The entities are of the same kind, so that they share a table. -/
def Mention.SameKind : Mention → Mention → Prop
  | .type _, .type _ | .method _, .method _ | .field _, .field _ => True
  | _, _ => False

/-- The request is for something that is made once, when it is first asked for. -/
def Request.Finds : Request → Prop
  | .type _ | .method _ | .field _ | .localVar _ _ _ | .lower _ | .resolve _ | .dispatch _ _ => True
  | .newVar _ _ _ | .temp _ _ _ | .addStmt _ _ _ | .newSite _ _ _ _ _
  | .addCall _ _ _ _ _ _ _ => False

namespace Elements

/-! ### Numbers -/

/-- The number of an entity among those of its kind. -/
def number? (e : Elements) : Mention → Option Nat
  | .type t => e.types.index? t
  | .method m => e.methods.index? m
  | .field f => e.fields.index? f

/-- The entity with a number, in the table that has the given one. -/
def entityAt? (e : Elements) (i : Nat) : Mention → Option Mention
  | .type _ => (e.types.at? i).map .type
  | .method _ => (e.methods.keyAt? i).map .method
  | .field _ => (e.fields.at? i).map .field

/-- The text names the type: a class by the name that is declared, an array by its elements. -/
inductive TypeText (p : Program) : Ty → String → Prop
  | boolean : TypeText p .boolean "boolean"
  | byte : TypeText p .byte "byte"
  | char : TypeText p .char "char"
  | short : TypeText p .short "short"
  | int : TypeText p .int "int"
  | long : TypeText p .long "long"
  | float : TypeText p .float "float"
  | double : TypeText p .double "double"
  | null : TypeText p .null "null_type"
  | cls (c : ClassId) : TypeText p (.cls c) (p.cls c).name
  | array {t : Ty} {text : String} (h : TypeText p t text) : TypeText p (.array t) (text ++ "[]")

/-- The text names the type of the result. -/
def ResultText (p : Program) : Option Ty → String → Prop
  | some t, text => TypeText p t text
  | none, text => text = "void"

/-- What the tables say of an entity is what its declaration in `p` says: the types that it names
have numbers, and the texts are made of its parts. -/
def Describes (e : Elements) (p : Program) : Mention → Prop
  | .type t => TypeText p t (e.program.typeName t)
  | .method m =>
    let d := p.method m
    (∃ c, e.number? (.type (.cls d.owner)) = some c) ∧
      ∃ result params, ResultText p d.result result ∧ List.Forall₂ (TypeText p) d.params params ∧
        e.program.signature m = "<" ++ (p.cls d.owner).name ++ ": " ++
          (result ++ " " ++ d.name ++ "(" ++ Text.joined "," params ++ ")") ++ ">"
  | .field f =>
    let d := p.field f
    (∃ c, e.number? (.type (.cls d.owner)) = some c) ∧
      (∃ t, e.number? (.type d.ty) = some t) ∧
      ∃ type, TypeText p d.ty type ∧
        e.fieldText f = "<" ++ (p.cls d.owner).name ++ ": " ++ type ++ " " ++ d.name ++ ">"

/-- The entry with number `i` is that of `x`, and says what the declaration of `x` says. To ask for
an entity of the same kind yields this number only if it is `x`. -/
structure Carries (e : Elements) (p : Program) (i : Nat) (x : Mention) : Prop where
  entry : e.entityAt? i x = some x
  describes : e.Describes p x
  unique : ∀ y, x.SameKind y → ((e.mention y).number? y = some i ↔ y = x)

/-- The variable is there and stands for no local. -/
def MadeUp (e : Elements) (v : VarId) : Prop := v ∈ e.vars ∧ (e.var v).source = none

/-- The variable `v` has the number `i` and stands for the local `l` of `m`: no other local of
reference type gets it, and no variable that was made up has this number. -/
structure StandsFor (e : Elements) (i : Nat) (v : VarId) (m : MethodId) (l : LocalId) : Prop where
  number : e.vars.idxOf? v = some i
  unique : ∀ m' l' decl, decl.ty.isReference = true →
    ((e.localVar m' l' decl).1 = some v ↔ m' = m ∧ l' = l)
  genuine : ∀ w, e.MadeUp w → e.vars.idxOf? w ≠ some i

/-- What interning is about, for tables `e` of the program `p` and whatever comes later. -/
structure Interns (e : Elements) (p : Program) : Prop where
  /-- An entity has its own number from the first request on. -/
  entity : ∀ x e', (e.mention x).Develops e' →
    ∃ i, (e.mention x).number? x = some i ∧ e'.Carries p i x
  /-- A local of reference type has its own variable from the first request on. -/
  variableOf : ∀ m l decl e', decl.ty.isReference = true → (e.localVar m l decl).2.Develops e' →
    ∃ v i, (e.localVar m l decl).1 = some v ∧ (e.localVar m l decl).2.vars.idxOf? v = some i ∧
      e'.StandsFor i v m l
  newVar : ∀ m name ty e', (e.newVar m name ty).2.Develops e' → e'.MadeUp (e.newVar m name ty).1
  temp : ∀ m base ty e', (e.temp m base ty).2.Develops e' → e'.MadeUp (e.temp m base ty).1
  /-- To ask again changes nothing. -/
  again : ∀ r : Request, r.Finds → ∀ e', (e.serve r).2.Develops e' → (e'.serve r).2 = e'

variable {e e₁ : Elements} {p : Program} {m : MethodId} {x y : Mention} {i : Nat} {v : VarId}
  {l : LocalId}

theorem number?_eq_some_iff : e.number? x = some i ↔ e.entityAt? i x = some x := by
  cases x with
  | type t =>
    simp only [number?, entityAt?, Option.map_eq_some_iff, Mention.type.injEq, exists_eq_right]
    exact idxOf?_eq_some_iff_getElem? e.types.nodup
  | method m =>
    simp only [number?, entityAt?, Option.map_eq_some_iff, Mention.method.injEq, exists_eq_right]
    exact idxOf?_eq_some_iff_getElem? e.methods.nodup
  | field f =>
    simp only [number?, entityAt?, Option.map_eq_some_iff, Mention.field.injEq, exists_eq_right]
    exact idxOf?_eq_some_iff_getElem? e.fields.nodup

theorem entityAt?_of_sameKind (h : x.SameKind y) : e.entityAt? i x = e.entityAt? i y := by
  cases x <;> cases y
  case type.type | method.method | field.field => rfl
  all_goals exact h.elim

/-- Entries keep their numbers. -/
theorem Continues.entityAt? (h : e.Continues e₁) (hx : e.entityAt? i x = some y) :
    e₁.entityAt? i x = some y := by
  cases x with
  | type t =>
    obtain ⟨t', ht', rfl⟩ := Option.map_eq_some_iff.1 hx
    exact Option.map_eq_some_iff.2 ⟨t', Code.getElem?_of_isPrefix h.types ht', rfl⟩
  | method m =>
    obtain ⟨m', hm', rfl⟩ := Option.map_eq_some_iff.1 hx
    exact Option.map_eq_some_iff.2 ⟨m', Code.getElem?_of_isPrefix h.methods hm', rfl⟩
  | field f =>
    obtain ⟨f', hf', rfl⟩ := Option.map_eq_some_iff.1 hx
    exact Option.map_eq_some_iff.2 ⟨f', Code.getElem?_of_isPrefix h.fields hf', rfl⟩

/-- The entity is in its table. -/
def Knows (e : Elements) : Mention → Prop
  | .type t => t ∈ e.types
  | .method m => m ∈ e.methods.keys
  | .field f => f ∈ e.fields

theorem knows_mention (e : Elements) (x : Mention) : (e.mention x).Knows x := by
  cases x with
  | type t => exact OrderedSet.mem_insert.2 (.inr rfl)
  | method m => exact e.mem_keys_addMethod m
  | field f =>
    simp only [Knows, mention, addField]
    split <;> rename_i h
    · exact h
    · exact OrderedSet.mem_insert.2 (.inr rfl)

theorem Continues.knows (h : e.Continues e₁) (hx : e.Knows x) : e₁.Knows x := by
  cases x with
  | type t => exact h.types.subset hx
  | method m => exact h.methods.subset hx
  | field f => exact h.fields.subset hx

/-- To enter what is there changes nothing. -/
theorem mention_of_knows (h : e.Knows x) : e.mention x = e := by
  cases x with
  | type t =>
    show { e with types := e.types.insert t } = e
    rw [OrderedSet.insert_eq_self h]
  | method m => exact if_pos (Table.contains_iff.2 h)
  | field f => exact if_pos h

theorem exists_number_of_knows (h : e.Knows x) : ∃ i, e.number? x = some i := by
  simp only [number?_eq_some_iff]
  cases x with
  | type | method | field =>
    obtain ⟨i, hi⟩ := List.mem_iff_getElem?.1 h
    exact ⟨i, congrArg (Option.map _) hi⟩

theorem typeText_typeName (p : Program) (t : Ty) : TypeText p t (p.typeName t) := by
  induction t with
  | array elem ih => exact .array ih
  | _ => constructor

/-- What is entered is described as in the program. -/
theorem Rooted.describes (h : e.Rooted) (hx : e.Knows x) : e.Describes e.program x := by
  cases x with
  | type t => exact typeText_typeName _ t
  | method m =>
    refine ⟨exists_number_of_knows (x := .type _) (h.method m hx), ?_⟩
    set d := e.program.method m
    have hresult : ResultText e.program d.result
        ((d.result.map e.program.typeName).getD "void") := by
      cases d.result with
      | none => rfl
      | some t => exact typeText_typeName _ t
    have hparams : List.Forall₂ (TypeText e.program) d.params
        (d.params.map e.program.typeName) := by
      rw [List.forall₂_map_right_iff, List.forall₂_same]
      exact fun t _ => typeText_typeName _ t
    exact ⟨_, _, hresult, hparams, rfl⟩
  | field f =>
    exact ⟨exists_number_of_knows (x := .type _) (h.field f hx).1,
      exists_number_of_knows (x := .type _) (h.field f hx).2, _, typeText_typeName _ _, rfl⟩

/-- An entity has its own number from the first request on. -/
theorem exists_carries (hp : e₁.program = p) (hrooted : e₁.Rooted)
    (h : (e.mention x).Develops e₁) :
    ∃ i, (e.mention x).number? x = some i ∧ e₁.Carries p i x := by
  obtain ⟨i, hi⟩ := exists_number_of_knows (e.knows_mention x)
  have hentry := h.continues.entityAt? (number?_eq_some_iff.1 hi)
  refine ⟨i, hi, hentry, ?_, fun y hxy => ?_⟩
  · exact hp ▸ hrooted.describes (h.continues.knows (e.knows_mention x))
  · have hlater := (e₁.continues_mention y).entityAt? hentry
    rw [number?_eq_some_iff, ← entityAt?_of_sameKind hxy, hlater, Option.some.injEq]
    exact eq_comm

/-! ### Variables -/

/-- A number stays with its variable. -/
theorem Listed.idxOf?_eq_some_iff (h : e.Listed) : e.vars.idxOf? v = some i ↔ e.vars[i]? = some v :=
  idxOf?_eq_some_iff_getElem? h.nodup

theorem source_of_getElem? {s : Option LocalId}
    (h : (e.code v.method).sources[v.slot]? = some s) : (e.var v).source = s := by
  rw [Code.sources, List.getElem?_map, Option.map_eq_some_iff] at h
  obtain ⟨x, hx, rfl⟩ := h
  rw [var, List.getD_eq_getElem?_getD, hx]
  rfl

/-- The local gets the variable that is its own afterwards. -/
theorem localVar_spec (e : Elements) (m : MethodId) (l : LocalId) {decl : LocalDecl}
    (hdecl : decl.ty.isReference = true) :
    ∃ slot, (e.localVar m l decl).1 = some ⟨m, slot⟩ ∧
      ((e.localVar m l decl).2.code m).localSlot? l = some slot := by
  have hanswer : (e.localVar m l decl).1 =
      (Drafting.localVar m l decl { code := e.code m }).1 :=
    congrArg (fun c => (Drafting.localVar m l decl { code := c }).1) (e.code_addMethod m m)
  have hcode := e.code_draft m (Drafting.localVar m l decl) m
  rw [if_pos rfl] at hcode
  rw [hanswer, localVar, hcode, Lower.localVar_run, if_pos hdecl]
  cases hslot : (e.code m).localSlot? l with
  | some slot => exact ⟨slot, rfl, hslot⟩
  | none =>
    refine ⟨(e.code m).vars.length, rfl, ?_⟩
    show ((e.code m).pushVar ⟨decl.name, decl.ty, some l, [], [], []⟩).localSlot? l = _
    rw [Code.localSlot?] at hslot
    simp [Code.localSlot?, Code.pushVar, List.findIdx?_append, hslot]

/-- A new variable is made up, and stays so. -/
theorem madeUp_of_sources (hlisted : e₁.Listed) (h : e.Changes e₁)
    (hnew : (e.code v.method).sources[v.slot]? = some none) : e₁.MadeUp v := by
  have hlater := Code.getElem?_of_isPrefix (h.sources_isPrefix v.method) hnew
  refine ⟨(hlisted.mem_iff v).2 ?_, source_of_getElem? hlater⟩
  rw [← Code.length_sources]
  exact (List.getElem?_eq_some_iff.1 hlater).1

theorem sources_newVar (e : Elements) (m : MethodId) (name : String) (ty : Ty) :
    let r := e.newVar m name ty
    (r.2.code r.1.method).sources[r.1.slot]? = some none := by
  show ((e.newVar m name ty).2.code m).sources[((e.addMethod m).code m).vars.length]? = _
  rw [newVar, code_draft, if_pos rfl, code_addMethod]
  show (((e.code m).vars ++ [_]).map Var.source)[(e.code m).vars.length]? = _
  simp

theorem sources_temp (e : Elements) (m : MethodId) (base : String) (ty : Ty) :
    let r := e.temp m base ty
    (r.2.code r.1.method).sources[r.1.slot]? = some none := by
  show ((e.temp m base ty).2.code m).sources[((e.addMethod m).code m).vars.length]? = _
  rw [temp, code_draft, if_pos rfl, code_addMethod]
  show (((e.code m).vars ++ [_]).map Var.source)[(e.code m).vars.length]? = _
  simp

/-- No other local gets the variable of a local. -/
theorem localVar_unique (h : e.Develops e₁) {slot : Nat}
    (hslot : (e.code m).localSlot? l = some slot) (m' : MethodId) (l' : LocalId)
    {decl : LocalDecl} (hdecl : decl.ty.isReference = true) :
    (e₁.localVar m' l' decl).1 = some ⟨m, slot⟩ ↔ m' = m ∧ l' = l := by
  obtain ⟨slot', hanswer, hslot'⟩ := e₁.localVar_spec m' l' hdecl
  have hstays : ((e₁.localVar m' l' decl).2.code m).localSlot? l = some slot :=
    Code.localSlot?_of_isPrefix ((h.serve (.localVar m' l' decl)).changes.sources_isPrefix m) hslot
  rw [hanswer]
  constructor
  · intro heq
    cases heq
    -- the variable stands for one local
    have hsource := Code.getElem?_of_localSlot? hstays
    rw [Code.getElem?_of_localSlot? hslot'] at hsource
    exact ⟨rfl, Option.some.inj (Option.some.inj hsource)⟩
  · rintro ⟨rfl, rfl⟩
    rw [Option.some.inj (hslot'.symm.trans hstays)]

/-- A local of reference type has its own variable from the first request on. -/
theorem exists_standsFor {decl : LocalDecl} (hdecl : decl.ty.isReference = true)
    (hlisted : (e.localVar m l decl).2.Listed) (h : (e.localVar m l decl).2.Develops e₁) :
    ∃ v i, (e.localVar m l decl).1 = some v ∧ (e.localVar m l decl).2.vars.idxOf? v = some i ∧
      e₁.StandsFor i v m l := by
  obtain ⟨slot, hanswer, hslot⟩ := e.localVar_spec m l hdecl
  have hsource := Code.getElem?_of_localSlot? hslot
  have hmem : ⟨m, slot⟩ ∈ (e.localVar m l decl).2.vars := by
    rw [hlisted.mem_iff, ← Code.length_sources]
    exact (List.getElem?_eq_some_iff.1 hsource).1
  obtain ⟨i, hi⟩ := List.mem_iff_getElem?.1 hmem
  have hlisted₁ := h.changes.listed hlisted
  have hi₁ := Code.getElem?_of_isPrefix h.continues.vars hi
  refine ⟨⟨m, slot⟩, i, hanswer, hlisted.idxOf?_eq_some_iff.2 hi,
    hlisted₁.idxOf?_eq_some_iff.2 hi₁, fun m' l' _ => localVar_unique h hslot m' l', ?_⟩
  rintro w ⟨-, hw⟩ hnumber
  have heq : w = ⟨m, slot⟩ :=
    Option.some.inj ((hlisted₁.idxOf?_eq_some_iff.1 hnumber).symm.trans hi₁)
  subst heq
  have hlater := Code.getElem?_of_isPrefix (h.changes.sources_isPrefix m) hsource
  cases hw.symm.trans (source_of_getElem? hlater)

/-! ### Asking again -/

theorem addMethod_eq_self (h : e.Knows (.method m)) : e.addMethod m = e :=
  mention_of_knows (x := .method m) h

theorem knows_draft {α : Type} (e : Elements) (m : MethodId) (x : Drafting α) :
    (e.draft m x).2.Knows (.method m) := by
  have hkeys := (foldl_mention_frame (x { code := (e.addMethod m).code m }).2.mentions
    (e.addMethod m)).2.2.2 m (e.mem_keys_addMethod m)
  show m ∈ (Table.modify _ m _).keys
  rw [Table.keys_modify]
  exact hkeys

/-- A step that does nothing to the code of a method leaves the tables as they are. -/
theorem draft_eq_self {α : Type} {x : Drafting α} (hm : e.Knows (.method m))
    (hx : (x { code := e.code m }).2 = { code := e.code m }) : (e.draft m x).2 = e := by
  have hmethods : e.methods.modify m (fun _ => e.code m) = e.methods := by
    refine Table.modify_eq_self fun c hc => ?_
    rw [code, Table.get, hc]
    rfl
  simp only [draft, addMethod_eq_self hm, install, hx, List.foldl_nil, modifyCode, hmethods]
  simp [slots]

theorem localVar_again {decl : LocalDecl} (h : (e.localVar m l decl).2.Develops e₁) :
    (e₁.localVar m l decl).2 = e₁ := by
  refine draft_eq_self (h.continues.knows (e.knows_draft m _)) ?_
  rw [Lower.localVar_run]
  split <;> rename_i hdecl
  · obtain ⟨slot, -, hslot⟩ := e.localVar_spec m l hdecl
    simp only [Code.localSlot?_of_isPrefix (h.changes.sources_isPrefix m) hslot]
  · rfl

theorem lower_again (h : (e.lower m).2.Develops e₁) : (e₁.lower m).2 = e₁ := by
  have hknows : e₁.Knows (.method m) := by
    refine h.continues.knows (x := .method m) ?_
    simp only [lower]
    split
    · exact e.mem_keys_addMethod m
    · exact knows_draft _ m _
  have hbuilt : e₁.isBuilt m = true := ((h.grows.code m).built (e.isBuilt_lower_self m)).1
  simp only [lower, addMethod_eq_self hknows, hbuilt, if_true]

theorem resolve_again {signature : String} (h : (e.resolve signature).2.Develops e₁) :
    (e₁.resolve signature).2 = e₁ := by
  have hp : e₁.program = e.program :=
    h.grows.program_eq.trans (e.grows_serve (.resolve signature)).program_eq
  simp only [resolve, hp] at h ⊢
  split
  · rfl
  · rename_i s hs
    rw [hs] at h
    cases hr : e.program.resolve? s with
    | none => rfl
    | some m =>
      simp only [hr] at h
      exact addMethod_eq_self (h.continues.knows (x := .method m) (e.mem_keys_addMethod m))

theorem dispatch_again {t : Ty} {sub : String} (h : (e.dispatch t sub).2.Develops e₁) :
    (e₁.dispatch t sub).2 = e₁ := by
  have hknows : (e.dispatch t sub).2.Knows (.type t) := by
    have htype := e.knows_mention (.type t)
    simp only [dispatch]
    split
    · exact htype
    · cases (e.addType t).program.dispatch? t sub with
      | none => exact htype
      | some m => exact (continues_addMethod _ m).knows (x := .type t) htype
  have hanswer : ∃ a, (e.dispatch t sub).2.dispatched.find? (t, sub) = some a := by
    simp only [dispatch]
    split
    · exact ⟨_, ‹_›⟩
    · exact ⟨_, by rw [Table.find?_insert, if_pos rfl]⟩
  obtain ⟨a, ha⟩ := hanswer
  have htype : e₁.addType t = e₁ := mention_of_knows (x := .type t) (h.continues.knows hknows)
  simp only [dispatch, htype, h.changes.dispatched ha]

/-- To ask again for what is made once changes nothing. -/
theorem serve_again {r : Request} (hr : r.Finds) (h : (e.serve r).2.Develops e₁) :
    (e₁.serve r).2 = e₁ := by
  cases r with
  | type t => exact mention_of_knows (h.continues.knows (e.knows_mention (.type t)))
  | method m => exact mention_of_knows (h.continues.knows (e.knows_mention (.method m)))
  | field f => exact mention_of_knows (h.continues.knows (e.knows_mention (.field f)))
  | localVar m l decl => exact localVar_again h
  | lower m => exact lower_again h
  | resolve signature => exact resolve_again h
  | dispatch t sub => exact dispatch_again h
  | newVar | temp | addStmt | newSite | addCall => exact hr.elim

/-! ### Interning -/

theorem listed_empty (p : Program) : ({ program := p } : Elements).Listed where
  nodup := List.nodup_nil
  mem_iff v := by
    constructor
    · intro h
      cases h
    · intro h
      cases h

theorem rooted_empty (p : Program) : ({ program := p } : Elements).Rooted where
  method m h := by cases h
  field f h := by cases h

end Elements

/-- A class with a field, and a method that clears the field of the objects of a local. -/
def Program.clearing : Program where
  classes := [{ name := "java.lang.Object" }, { name := "A", superclass := some ⟨0⟩ }]
  fields := [{ owner := ⟨1⟩, name := "f", ty := .cls ⟨0⟩ }]
  methods := [{
    owner := ⟨1⟩, name := "m", isStatic := true
    body := some {
      locals := [⟨"x", .cls ⟨1⟩⟩]
      instructions := [.assign (.field ⟨0⟩ ⟨0⟩) .null] } }]

end PointsTo
