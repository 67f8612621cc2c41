import PointsTo.Proofs.CallGraph.Reachability
import PointsTo.Proofs.Elements.Growth

/-!
# Dispatch

The implementation of a subsignature for the objects of a type is the nearest one: that of the first
superclass that has one, else that of the first interface in breadth-first order. The tables answer
so whether they were asked before or not.

* `Search.Traverses`: a breadth-first traversal with a queue, and `Search.traverses_breadthFirst`: a
  search with enough rounds is one;
* `Program.Chain`: the superclass chain of a class. Where no class is among its own superclasses,
  `Program.superChain` is all of it (`Program.Acyclic.chain_superChain`);
* `Program.isSubtype_iff`: a supertype is what superclasses and interfaces lead to;
* `Program.Answers`: what the answer to a question is, and `Program.exists_answers`: there is one,
  which is given by all tables of a program.
-/

namespace PointsTo

open Relation (ReflTransGen TransGen)

/-! ### Breadth-first traversals -/

namespace Search

variable {α : Type}

/-- A breadth-first traversal takes up the nodes in `queue`, except those that were seen before, and
puts what they lead to at the end of the queue. It takes up the nodes of `order`. -/
inductive Traverses (next : α → List α) : (queue seen order : List α) → Prop
  | done {seen : List α} : Traverses next [] seen []
  | skip {a : α} {queue seen order : List α} (ha : a ∈ seen) (h : Traverses next queue seen order) :
      Traverses next (a :: queue) seen order
  | visit {a : α} {queue seen order : List α} (ha : a ∉ seen)
      (h : Traverses next (queue ++ next a) (seen ++ [a]) order) :
      Traverses next (a :: queue) seen (a :: order)

variable [DecidableEq α] {next : α → List α} {nodes done queue starts xs ys : List α} {a : α}
  {n : Nat}

theorem fresh_cons_of_mem (h : a ∈ done) : fresh done (a :: xs) = fresh done xs := by
  simp [fresh, h]

theorem fresh_cons_of_not_mem (h : a ∉ done) :
    fresh done (a :: xs) = a :: fresh (done ++ [a]) xs := by
  simp only [fresh, List.filter_cons, h, not_false_eq_true, decide_true, if_true,
    List.eraseDups_cons, List.filter_filter]
  congr 3
  funext b
  by_cases hb : b = a
  · simp [hb]
  · simp [hb]

theorem fresh_append :
    fresh done (xs ++ ys) = fresh done xs ++ fresh (done ++ fresh done xs) ys := by
  simp only [fresh, List.filter_append, List.eraseDups_append, List.removeAll, List.filter_filter]
  congr 3
  funext b
  by_cases hb : b ∈ done
  · simp [hb]
  · simp [hb]

theorem traverses_of_fresh_eq_nil (h : fresh done queue = []) : Traverses next queue done [] := by
  induction queue with
  | nil => exact .done
  | cons a queue ih =>
    by_cases ha : a ∈ done
    · rw [fresh_cons_of_mem ha] at h
      exact .skip ha (ih h)
    · rw [fresh_cons_of_not_mem ha] at h
      cases h

/-- From any state on, a search with enough rounds is a traversal. -/
theorem exists_traverses (hnext : ∀ a ∈ nodes, ∀ b ∈ next a, b ∈ nodes) (hdone : done.Nodup)
    (hinside : ∀ a ∈ done ++ queue, a ∈ nodes) (hn : nodes.length ≤ n + done.length) :
    ∃ order, explore next n done (fresh done queue) = done ++ order ∧
      Traverses next queue done order := by
  induction n generalizing done queue with
  | zero =>
    -- all nodes were taken up, so that nothing in the queue is new
    have hnodup : (done ++ fresh done queue).Nodup := by
      refine List.nodup_append.2 ⟨hdone, nodup_eraseDups _, ?_⟩
      rintro a ha _ ha' rfl
      exact (mem_fresh.1 ha').2 ha
    have hsub : ∀ a ∈ done ++ fresh done queue, a ∈ nodes := by
      intro a ha
      apply hinside
      rcases List.mem_append.1 ha with ha | ha
      · exact List.mem_append_left _ ha
      · exact List.mem_append_right _ (mem_fresh.1 ha).1
    have hlen := (List.subperm_of_subset hnodup hsub).length_le
    rw [List.length_append] at hlen
    have hnil : fresh done queue = [] := List.eq_nil_of_length_eq_zero (by omega)
    exact ⟨[], by rw [hnil, List.append_nil]; rfl, traverses_of_fresh_eq_nil hnil⟩
  | succ n ih =>
    induction queue with
    | nil => exact ⟨[], by rw [List.append_nil]; rfl, .done⟩
    | cons a queue ihq =>
      by_cases ha : a ∈ done
      · obtain ⟨order, heq, h⟩ := ihq fun b hb => hinside b (by
          simp only [List.mem_append, List.mem_cons] at hb ⊢
          tauto)
        exact ⟨order, by rw [fresh_cons_of_mem ha]; exact heq, .skip ha h⟩
      · have hround : explore next (n + 1) done (fresh done (a :: queue)) =
            explore next n (done ++ [a]) (fresh (done ++ [a]) (queue ++ next a)) := by
          rw [fresh_cons_of_not_mem ha, fresh_append]
          simp only [explore, List.append_assoc, List.singleton_append]
        have hnodup : (done ++ [a]).Nodup := by
          refine List.nodup_append.2 ⟨hdone, by simp, ?_⟩
          rintro b hb _ hb' rfl
          exact ha (List.mem_singleton.1 hb' ▸ hb)
        have hinside' : ∀ b ∈ (done ++ [a]) ++ (queue ++ next a), b ∈ nodes := by
          intro b hb
          by_cases hb' : b ∈ next a
          · exact hnext a (hinside a (by simp)) b hb'
          · apply hinside
            simp only [List.mem_append, List.mem_cons, List.not_mem_nil, or_false] at hb ⊢
            tauto
        obtain ⟨order, heq, h⟩ := ih hnodup hinside' (by
          rw [List.length_append, List.length_singleton]
          omega)
        refine ⟨a :: order, ?_, .visit ha h⟩
        rw [hround, heq, List.append_assoc]
        rfl

/-- A search that may take up all nodes is a traversal. -/
theorem traverses_breadthFirst (hstarts : ∀ a ∈ starts, a ∈ nodes)
    (hnext : ∀ a ∈ nodes, ∀ b ∈ next a, b ∈ nodes) (hn : nodes.length ≤ n) :
    Traverses next starts [] (breadthFirst next n starts) := by
  have hinside : ∀ a ∈ [] ++ starts, a ∈ nodes := hstarts
  obtain ⟨order, heq, h⟩ := exists_traverses (n := n) hnext List.nodup_nil hinside hn
  have hfresh : fresh [] starts = starts.eraseDups := by simp [fresh]
  rw [hfresh, List.nil_append] at heq
  rw [breadthFirst, heq]
  exact h

end Search

namespace Program

variable {p : Program} {c d : ClassId} {m : MethodId} {sub : String} {t : Ty}

/-! ### Superclasses and interfaces -/

/-- The class `d` is the superclass of `c`. -/
def Extends (p : Program) (c d : ClassId) : Prop := (p.cls c).superclass = some d

/-- No class is among its own superclasses. -/
def Acyclic (p : Program) : Prop := ∀ c, ¬ TransGen p.Extends c c

/-- There is no cycle in a relation that leads to classes declared before. -/
theorem not_transGen_of_lt {r : ClassId → ClassId → Prop} (h : ∀ c d, r c d → d.num < c.num)
    (c : ClassId) : ¬ TransGen r c c := by
  have hpath : ∀ c d, TransGen r c d → d.num < c.num := by
    intro c d hcd
    induction hcd with
    | single hcd => exact h _ _ hcd
    | tail _ hcd ih => exact Nat.lt_trans (h _ _ hcd) ih
  intro hcycle
  exact Nat.lt_irrefl _ (hpath c c hcycle)

theorem acyclic_of_lt (h : ∀ c d, p.Extends c d → d.num < c.num) : p.Acyclic :=
  not_transGen_of_lt h

/-- The list `l` is the superclass chain of `c`, which starts with `c` itself. -/
inductive Chain (p : Program) : (c : ClassId) → (l : List ClassId) → Prop
  | root {c : ClassId} (h : (p.cls c).superclass = none) : Chain p c [c]
  | step {c d : ClassId} {l : List ClassId} (h : p.Extends c d) (hl : Chain p d l) :
      Chain p c (c :: l)

/-- The interfaces that a class names. -/
def interfacesOf (p : Program) (c : ClassId) : List ClassId := (p.cls c).interfaces

/-- The class `d` is `c` or one of its superclasses, or what the interfaces of one of them lead
to. -/
def Offers (p : Program) (c d : ClassId) : Prop :=
  ReflTransGen p.Extends c d ∨ ∃ k i, ReflTransGen p.Extends c k ∧ i ∈ p.interfacesOf k ∧
    ReflTransGen (fun a b => b ∈ p.interfacesOf a) i d

theorem Chain.mem_iff {l : List ClassId} (h : p.Chain c l) :
    d ∈ l ↔ ReflTransGen p.Extends c d := by
  induction h with
  | root hnone =>
    rw [List.mem_singleton]
    constructor
    · rintro rfl
      exact .refl
    · intro h
      rcases h.cases_head with h | ⟨k, hk, -⟩
      · exact h.symm
      · cases hnone.symm.trans hk
  | step hk _ ih =>
    rw [List.mem_cons, ih]
    constructor
    · rintro (rfl | h)
      · exact .refl
      · exact .head hk h
    · intro h
      rcases h.cases_head with h | ⟨k, hk', h⟩
      · exact .inl h.symm
      · cases Option.some.inj (hk.symm.trans hk')
        exact .inr h

/-- What the first classes of a chain are, if it does not end among them. -/
structure Climbs (p : Program) (n : Nat) (l : List ClassId) : Prop where
  length_eq : l.length = n
  extends_some : ∀ d ∈ l, ∃ k, p.Extends d k
  ascending : l.Pairwise (TransGen p.Extends)

theorem reaches_of_mem_chainFrom {n : Nat} (h : d ∈ p.chainFrom n c) :
    ReflTransGen p.Extends c d := by
  induction n generalizing c with
  | zero => cases h
  | succ n ih =>
    simp only [chainFrom, List.mem_cons] at h
    rcases h with rfl | h
    · exact .refl
    · cases hk : (p.cls c).superclass with
      | none =>
        rw [hk] at h
        cases h
      | some k =>
        rw [hk] at h
        exact .head hk (ih h)

theorem chain_or_climbs (p : Program) (n : Nat) (c : ClassId) :
    p.Chain c (p.chainFrom n c) ∨ p.Climbs n (p.chainFrom n c) := by
  induction n generalizing c with
  | zero => exact .inr ⟨rfl, by simp [chainFrom], .nil⟩
  | succ n ih =>
    simp only [chainFrom]
    cases hk : (p.cls c).superclass with
    | none => exact .inl (.root hk)
    | some k =>
      rcases ih k with h | h
      · exact .inl (.step hk h)
      · refine .inr ⟨congrArg (· + 1) h.length_eq, ?_, ?_⟩
        · intro d hd
          rcases List.mem_cons.1 hd with rfl | hd
          · exact ⟨k, hk⟩
          · exact h.extends_some d hd
        · refine List.pairwise_cons.2 ⟨fun d hd => ?_, h.ascending⟩
          exact .head' hk (reaches_of_mem_chainFrom hd)

/-- A class that names others is declared. -/
theorem mem_classIds_of_cls_ne (h : p.cls c ≠ default) : c ∈ p.classIds := by
  refine List.mem_map.2 ⟨c.num, List.mem_range.2 ?_, rfl⟩
  by_contra hnum
  apply h
  rw [cls, List.getD_eq_getElem?_getD, List.getElem?_eq_none (Nat.le_of_not_lt hnum)]
  rfl

/-- The superclass chain is complete. -/
theorem Acyclic.chain_superChain (h : p.Acyclic) (c : ClassId) : p.Chain c (p.superChain c) := by
  rcases p.chain_or_climbs (p.classes.length + 1) c with hchain | hclimbs
  · exact hchain
  · -- there are not that many classes
    have hnodup : (p.superChain c).Nodup := by
      refine hclimbs.ascending.imp fun {a b} hab heq => ?_
      exact h a (heq ▸ hab)
    have hsub : ∀ d ∈ p.superChain c, d ∈ p.classIds := by
      intro d hd
      obtain ⟨k, hk⟩ := hclimbs.extends_some d hd
      apply mem_classIds_of_cls_ne
      intro hdefault
      rw [Extends, hdefault] at hk
      cases hk
    have hle := (List.subperm_of_subset hnodup hsub).length_le
    have hlen : (p.superChain c).length = p.classes.length + 1 := hclimbs.length_eq
    simp only [classIds, List.length_map, List.length_range] at hle
    omega

/-! ### Searches in the class hierarchy -/

/-- A search over supertypes that starts in `starts` stays among these. -/
def searched (p : Program) (starts : List ClassId) : List ClassId :=
  starts ++ p.classIds.flatMap p.supertypes

theorem mem_searched_of_mem_supertypes {starts : List ClassId} (h : d ∈ p.supertypes c) :
    d ∈ p.searched starts := by
  refine List.mem_append_right _ (List.mem_flatMap.2 ⟨c, mem_classIds_of_cls_ne ?_, h⟩)
  intro hdefault
  rw [supertypes, hdefault] at h
  cases h

/-- A search over supertypes is a traversal, and finds all that it can. -/
theorem search_spec {next : ClassId → List ClassId} (hnext : ∀ a b, b ∈ next a → b ∈ p.supertypes a)
    (starts : List ClassId) :
    let found := Search.breadthFirst next (starts.length + p.supertypeCount) starts
    Search.Traverses next starts [] found ∧
      ∀ d, d ∈ found ↔ ∃ a ∈ starts, ReflTransGen (fun a b => b ∈ next a) a d := by
  have hstarts : ∀ a ∈ starts, a ∈ p.searched starts := fun _ ha => List.mem_append_left _ ha
  have hclosed : ∀ a ∈ p.searched starts, ∀ b ∈ next a, b ∈ p.searched starts :=
    fun a _ b hb => mem_searched_of_mem_supertypes (hnext a b hb)
  have hlen : (p.searched starts).length ≤ starts.length + p.supertypeCount :=
    Nat.le_of_eq List.length_append
  exact ⟨Search.traverses_breadthFirst hstarts hclosed hlen,
    fun _ => Search.mem_breadthFirst hstarts hclosed hlen⟩

/-- A subtype leads to its supertypes through superclasses and interfaces. -/
theorem isSubtype_iff :
    p.isSubtype c d = true ↔ ReflTransGen (fun a b => b ∈ p.supertypes a) c d := by
  have hfound := (p.search_spec (fun _ _ h => h) [c]).2 d
  simp only [List.mem_singleton, exists_eq_left] at hfound
  rw [isSubtype, decide_eq_true_iff]
  exact hfound

theorem mem_supertypes_of_extends (h : p.Extends c d) : d ∈ p.supertypes c := by
  rw [Extends] at h
  simp [supertypes, h]

theorem mem_supertypes_of_mem_interfacesOf (h : d ∈ p.interfacesOf c) : d ∈ p.supertypes c :=
  List.mem_append_right _ h

/-- What a class offers are supertypes. -/
theorem Offers.isSubtype (h : p.Offers c d) : p.isSubtype c d = true := by
  rw [isSubtype_iff]
  rcases h with h | ⟨k, i, hk, hi, h⟩
  · exact ReflTransGen.mono (fun _ _ => mem_supertypes_of_extends) _ _ h
  · have hclasses : ReflTransGen (fun a b => b ∈ p.supertypes a) c k :=
      ReflTransGen.mono (fun _ _ => mem_supertypes_of_extends) _ _ hk
    exact (hclasses.tail (mem_supertypes_of_mem_interfacesOf hi)).trans
      (ReflTransGen.mono (fun _ _ => mem_supertypes_of_mem_interfacesOf) _ _ h)

/-- The list of interfaces of a class is a traversal. -/
theorem traverses_superInterfaces (p : Program) (c : ClassId) :
    Search.Traverses p.interfacesOf ((p.superChain c).flatMap p.interfacesOf) []
      (p.superInterfaces c) :=
  (p.search_spec (fun _ _ => mem_supertypes_of_mem_interfacesOf) _).1

theorem mem_superInterfaces : d ∈ p.superInterfaces c ↔
    ∃ i ∈ (p.superChain c).flatMap p.interfacesOf,
      ReflTransGen (fun a b => b ∈ p.interfacesOf a) i d :=
  (p.search_spec (fun _ _ => mem_supertypes_of_mem_interfacesOf) _).2 d

/-- The classes and interfaces at which an implementation is looked for. -/
theorem Acyclic.mem_superChain_append (h : p.Acyclic) :
    d ∈ p.superChain c ++ p.superInterfaces c ↔ p.Offers c d := by
  have hchain := h.chain_superChain c
  rw [List.mem_append, mem_superInterfaces, hchain.mem_iff, Offers]
  simp only [List.mem_flatMap, hchain.mem_iff]
  constructor
  · rintro (h | ⟨i, ⟨k, hk, hi⟩, h⟩)
    · exact .inl h
    · exact .inr ⟨k, i, hk, hi, h⟩
  · rintro (h | ⟨k, i, hk, hi, h⟩)
    · exact .inl h
    · exact .inr ⟨i, ⟨k, hk, hi⟩, h⟩

/-! ### Implementations -/

/-- The method implements the subsignature. -/
structure Implements (p : Program) (sub : String) (m : MethodId) : Prop where
  concrete : (p.method m).isAbstract = false
  dynamic : (p.method m).isStatic = false
  subsignature_eq : p.subsignature m = sub

/-- The method is the first one of `d` in order of declaration that implements the
subsignature. -/
def Declares (p : Program) (sub : String) (d : ClassId) (m : MethodId) : Prop :=
  ∃ before after, p.methodsOf d = before ++ m :: after ∧ p.Implements sub m ∧
    ∀ m' ∈ before, ¬ p.Implements sub m'

/-- The first of the classes `ds` with an implementation of the subsignature is `d`, and `m` is its
first one. -/
def Supplies (p : Program) (sub : String) (ds : List ClassId) (d : ClassId) (m : MethodId) : Prop :=
  ∃ before after, ds = before ++ d :: after ∧ p.Declares sub d m ∧
    ∀ d' ∈ before, ∀ m' ∈ p.methodsOf d', ¬ p.Implements sub m'

theorem implements_iff : (!(p.method m).isAbstract && !(p.method m).isStatic &&
    p.subsignature m = sub) = true ↔ p.Implements sub m := by
  simp only [Bool.and_eq_true, Bool.not_eq_true', decide_eq_true_iff]
  constructor
  · rintro ⟨⟨h₁, h₂⟩, h₃⟩
    exact ⟨h₁, h₂, h₃⟩
  · rintro ⟨h₁, h₂, h₃⟩
    exact ⟨⟨h₁, h₂⟩, h₃⟩

theorem declared?_eq_none_iff :
    p.declared? sub d = none ↔ ∀ m ∈ p.methodsOf d, ¬ p.Implements sub m := by
  simp only [declared?, List.find?_eq_none, implements_iff]

theorem declared?_eq_some_iff : p.declared? sub d = some m ↔ p.Declares sub d m := by
  rw [declared?, List.find?_eq_some_iff_append, implements_iff]
  simp only [Bool.not_eq_true', ← Bool.not_eq_true, implements_iff]
  constructor
  · rintro ⟨hm, before, after, heq, h⟩
    exact ⟨before, after, heq, hm, h⟩
  · rintro ⟨before, after, heq, hm, h⟩
    exact ⟨hm, before, after, heq, h⟩

theorem implementation?_eq_some_iff : p.implementation? c sub = some m ↔
    ∃ d, p.Supplies sub (p.superChain c ++ p.superInterfaces c) d m := by
  rw [implementation?, List.findSome?_eq_some_iff]
  simp only [declared?_eq_some_iff, declared?_eq_none_iff]
  constructor
  · rintro ⟨before, d, after, heq, hd, h⟩
    exact ⟨d, before, after, heq, hd, h⟩
  · rintro ⟨d, before, after, heq, hd, h⟩
    exact ⟨before, d, after, heq, hd, h⟩

theorem Acyclic.implementation?_eq_none_iff (h : p.Acyclic) : p.implementation? c sub = none ↔
    ∀ d, p.Offers c d → ∀ m ∈ p.methodsOf d, ¬ p.Implements sub m := by
  rw [implementation?, List.findSome?_eq_none_iff]
  simp only [declared?_eq_none_iff, h.mem_superChain_append]

/-! ### Answers -/

/-- The objects of type `t` have the methods of the class `c`. -/
inductive ObjectClass (p : Program) : (t : Ty) → (c : ClassId) → Prop
  | cls (c : ClassId) : ObjectClass p (.cls c) c
  | array (elem : Ty) {c : ClassId} (h : p.classNamed? "java.lang.Object" = some c) :
      ObjectClass p (.array elem) c

theorem dispatchClass?_eq_some_iff : p.dispatchClass? t = some c ↔ p.ObjectClass t c := by
  constructor
  · intro h
    cases t with
    | cls k =>
      cases h
      exact .cls c
    | array elem => exact .array elem h
    | _ => cases h
  · rintro (_ | ⟨_, h⟩)
    · rfl
    · exact h

/-- What the implementation of a subsignature for the objects of a type is. -/
structure Answers (p : Program) (t : Ty) (sub : String) (a : Option MethodId) : Prop where
  eq_none : (∀ c, ¬ p.ObjectClass t c) → a = none
  /-- The nearest implementation: first along the superclass chain, then along the interfaces in
  breadth-first order. The class that it comes from is a supertype. -/
  nearest : ∀ c, p.ObjectClass t c → ∃ chain interfaces, p.Chain c chain ∧
    Search.Traverses p.interfacesOf (chain.flatMap p.interfacesOf) [] interfaces ∧
    (∀ m, a = some m ↔ ∃ d, p.Supplies sub (chain ++ interfaces) d m) ∧
    ∀ d m, p.Supplies sub (chain ++ interfaces) d m → p.isSubtype c d = true
  eq_none_iff : ∀ c, p.ObjectClass t c →
    (a = none ↔ ∀ d, p.Offers c d → ∀ m ∈ p.methodsOf d, ¬ p.Implements sub m)

theorem Acyclic.answers (h : p.Acyclic) (t : Ty) (sub : String) :
    p.Answers t sub (p.dispatch? t sub) where
  eq_none hno := by
    cases hc : p.dispatchClass? t with
    | none => rw [dispatch?, hc]; rfl
    | some c => exact absurd (dispatchClass?_eq_some_iff.1 hc) (hno c)
  nearest c hc := by
    have hdispatch : p.dispatch? t sub = p.implementation? c sub := by
      rw [dispatch?, dispatchClass?_eq_some_iff.2 hc]; rfl
    refine ⟨p.superChain c, p.superInterfaces c, h.chain_superChain c,
      p.traverses_superInterfaces c, fun m => ?_, ?_⟩
    · rw [hdispatch, implementation?_eq_some_iff]
    · rintro d m ⟨before, after, heq, -⟩
      refine (h.mem_superChain_append.1 ?_).isSubtype
      rw [heq]
      simp
  eq_none_iff c hc := by
    rw [dispatch?, dispatchClass?_eq_some_iff.2 hc]
    exact h.implementation?_eq_none_iff

/-- Dispatch finds the nearest implementation: in all tables of a program, whatever was asked of
them before. -/
theorem exists_answers (h : p.Acyclic) (t : Ty) (sub : String) :
    ∃ a, p.Answers t sub a ∧
      ∀ e, ({ program := p } : Elements).Develops e → (e.dispatch t sub).1 = a := by
  refine ⟨p.dispatch? t sub, h.answers t sub, fun e he => ?_⟩
  have hmemo := (he.sound (Elements.sound_empty p)).memo
  rw [(Elements.dispatch_spec hmemo t sub).1, he.grows.program_eq]

/-- Two interfaces that extend each other, the second with a method, and a class below one that
implements the first. -/
def circle : Program where
  classes := [{ name := "java.lang.Object" }, .interface "I" [⟨2⟩], .interface "J" [⟨1⟩],
    { name := "A", superclass := some ⟨0⟩, interfaces := [⟨1⟩] },
    { name := "B", superclass := some ⟨3⟩ }]
  methods := [{ owner := ⟨2⟩, name := "run" }, { owner := ⟨3⟩, name := "run", isAbstract := true }]

theorem acyclic_circle : circle.Acyclic := by
  apply acyclic_of_lt
  rintro ⟨n⟩ d h
  rcases n with _ | _ | _ | _ | _ | n <;> cases h <;> decide

/-- The abstract method of the superclass does not count, and the interfaces are left again. -/
theorem exists_answers_circle :
    circle.Acyclic ∧ (∃ a, circle.Answers (.cls ⟨4⟩) "void run()" a ∧
      ∀ e, ({ program := circle } : Elements).Develops e →
        (e.dispatch (.cls ⟨4⟩) "void run()").1 = a) ∧
      (({ program := circle } : Elements).dispatch (.cls ⟨4⟩) "void run()").1 = some ⟨0⟩ :=
  ⟨acyclic_circle, exists_answers acyclic_circle _ _, by decide +kernel⟩

end Program

end PointsTo
