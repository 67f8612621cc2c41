import PointsTo.Proofs.Program.Dispatch

/-!
# Which default method is found

Where no superclass implements a method, dispatch takes the first interface in breadth-first order
that does. This order goes by distance. It is not always the most derived interface that comes
first: one that is implemented directly, and is extended by another one, can come before it.

* `Program.MostDerived`: no sub-interface of the interface that is found has a method of its own,
  and `Program.not_mostDerived_relisted`: this fails where a class names an interface before one
  that extends it;
* `Program.Descends`: no interface comes before one that extends it, and
  `Program.mostDerived_iff_descends`: this is what it takes, whatever methods are declared.
-/

namespace PointsTo

open Relation (ReflTransGen TransGen)

/-- A traversal takes up no node twice, and none that was seen before. -/
theorem Search.Traverses.nodup {α : Type} {next : α → List α} {queue seen order : List α}
    (h : Traverses next queue seen order) : order.Nodup ∧ ∀ a ∈ order, a ∉ seen := by
  induction h with
  | done => exact ⟨List.nodup_nil, List.forall_mem_nil _⟩
  | skip _ _ ih => exact ih
  | @visit a queue seen order ha _ ih =>
    obtain ⟨hnodup, hnew⟩ := ih
    refine ⟨List.nodup_cons.2 ⟨fun hmem => ?_, hnodup⟩, fun b hb => ?_⟩
    · exact hnew a hmem (List.mem_append_right _ (List.mem_singleton.2 rfl))
    · rcases List.mem_cons.1 hb with rfl | hb
      · exact ha
      · exact fun hseen => hnew b hb (List.mem_append_left _ hseen)

namespace Program

variable {p : Program} {c d i j : ClassId} {m : MethodId} {sub : String}

/-- No interface is among its own super-interfaces. -/
def InterfacesAcyclic (p : Program) : Prop := ∀ c, ¬ TransGen (fun a b => b ∈ p.interfacesOf a) c c

/-- The interface `i` is one of `c` or of its superclasses, or a super-interface of one of them. -/
def Inherits (p : Program) (c i : ClassId) : Prop :=
  ∃ k j, ReflTransGen p.Extends c k ∧ j ∈ p.interfacesOf k ∧
    ReflTransGen (fun a b => b ∈ p.interfacesOf a) j i

/-- Neither `c` nor a superclass implements the subsignature. -/
def Lacks (p : Program) (c : ClassId) (sub : String) : Prop :=
  ∀ d, ReflTransGen p.Extends c d → ∀ m ∈ p.methodsOf d, ¬ p.Implements sub m

/-- Where dispatch on `c` takes a method from an interface, no other interface of `c` that is a
subtype of it implements the subsignature. -/
def MostDerived (p : Program) (c : ClassId) (sub : String) : Prop :=
  ∀ e, ({ program := p } : Elements).Develops e →
    ∀ m, (e.dispatch (.cls c) sub).1 = some m → p.Lacks c sub →
      ∀ j, p.Inherits c j → j ≠ (p.method m).owner → p.isSubtype j (p.method m).owner = true →
        ∀ m' ∈ p.methodsOf j, ¬ p.Implements sub m'

/-- Among the interfaces of `c` in breadth-first order none comes before one of its subtypes. Those
that are superclasses at the same time do not count. -/
def Descends (p : Program) (c : ClassId) : Prop :=
  (p.superInterfaces c).Pairwise fun i j =>
    i ∉ p.superChain c → j ∉ p.superChain c → p.isSubtype j i = true → j = i

instance (p : Program) (c : ClassId) : Decidable (p.Descends c) :=
  inferInstanceAs (Decidable (List.Pairwise _ _))

theorem Acyclic.mem_superInterfaces_iff (h : p.Acyclic) :
    i ∈ p.superInterfaces c ↔ p.Inherits c i := by
  simp only [mem_superInterfaces, List.mem_flatMap, (h.chain_superChain c).mem_iff, Inherits]
  constructor
  · rintro ⟨j, ⟨k, hk, hj⟩, hi⟩
    exact ⟨k, j, hk, hj, hi⟩
  · rintro ⟨k, j, hk, hj, hi⟩
    exact ⟨j, ⟨k, hk, hj⟩, hi⟩

/-- All tables of a program answer alike. -/
theorem dispatch_cls {e : Elements} (he : ({ program := p } : Elements).Develops e) :
    (e.dispatch (.cls c) sub).1 = p.implementation? c sub := by
  have hmemo := (he.sound (Elements.sound_empty p)).memo
  rw [(Elements.dispatch_spec hmemo _ _).1, he.grows.program_eq]
  rfl

/-- What is found where the superclasses implement nothing comes from the first interface that
implements something. -/
theorem Acyclic.exists_split_of_lacks (h : p.Acyclic) (hlacks : p.Lacks c sub)
    (hm : p.implementation? c sub = some m) :
    ∃ before after, p.superInterfaces c = before ++ (p.method m).owner :: after ∧
      p.Implements sub m ∧ m ∈ p.methodsOf (p.method m).owner ∧
      ∀ d ∈ before, ∀ m' ∈ p.methodsOf d, ¬ p.Implements sub m' := by
  obtain ⟨d, before, after, hsplit, hd, hbefore⟩ := implementation?_eq_some_iff.1 hm
  obtain ⟨first, rest, hmethods, himpl, -⟩ := hd
  have hmem : m ∈ p.methodsOf d := by
    rw [hmethods]
    exact List.mem_append_right _ (List.mem_cons_self ..)
  obtain rfl : (p.method m).owner = d := (mem_methodsOf.1 hmem).2
  have hchain : (p.method m).owner ∉ p.superChain c := fun hin =>
    hlacks _ ((h.chain_superChain c).mem_iff.1 hin) m hmem himpl
  -- the owner is past the superclasses
  rcases List.append_eq_append_iff.1 hsplit with ⟨more, rfl, hmore⟩ | ⟨more, hleft, hmore⟩
  · exact ⟨more, after, hmore, himpl, hmem,
      fun d hd => hbefore d (List.mem_append_right _ hd)⟩
  · cases more with
    | nil =>
      refine ⟨[], after, hmore.symm, himpl, hmem, List.forall_mem_nil _⟩
    | cons x more =>
      cases hmore
      rw [hleft] at hchain
      simp at hchain

theorem Acyclic.mostDerived (h : p.Acyclic) (hdescends : p.Descends c) (sub : String) :
    p.MostDerived c sub := by
  intro e he m hm hlacks j hj hne hsub m' hm' himpl
  rw [dispatch_cls he] at hm
  obtain ⟨before, after, hsplit, himplm, hmem, hbefore⟩ := h.exists_split_of_lacks hlacks hm
  have houtside : ∀ d k, k ∈ p.methodsOf d → p.Implements sub k → d ∉ p.superChain c :=
    fun d k hk hik hin => hlacks d ((h.chain_superChain c).mem_iff.1 hin) k hk hik
  -- the sub-interface has a method, so it comes after the one that was found
  have hafter : j ∈ after := by
    have hjmem := h.mem_superInterfaces_iff.2 hj
    rw [hsplit] at hjmem
    rcases List.mem_append.1 hjmem with hin | hin
    · exact absurd himpl (hbefore j hin m' hm')
    · exact (List.mem_cons.1 hin).resolve_left hne
  rw [Descends, hsplit] at hdescends
  have hpair := List.rel_of_pairwise_cons (List.pairwise_append.1 hdescends).2.1 hafter
  exact hne (hpair (houtside _ m hmem himplm) (houtside _ m' hm' himpl) hsub)

/-! ### Methods that show the order -/

/-- The class hierarchy does not depend on methods. -/
theorem hierarchy_eq (p : Program) (methods : List MethodDecl) (c : ClassId) :
    ({ p with methods } : Program).superChain c = p.superChain c ∧
      ({ p with methods } : Program).superInterfaces c = p.superInterfaces c := by
  have hchain : ∀ n c, ({ p with methods } : Program).chainFrom n c = p.chainFrom n c := by
    intro n
    induction n with
    | zero => exact fun _ => rfl
    | succ n ih =>
      intro c
      simp only [chainFrom, ih]
      rfl
  refine ⟨hchain _ c, ?_⟩
  simp only [superInterfaces, superChain, hchain]
  rfl

/-- The classes of `p` with two methods alike, one of `i` and one of `j`. -/
def contest (p : Program) (i j : ClassId) : Program :=
  { p with methods := [{ owner := i, name := "run" }, { owner := j, name := "run" }] }

theorem implements_contest (p : Program) (i j : ClassId) (hm : m ∈ (p.contest i j).methodsOf d) :
    (p.contest i j).Implements "void run()" m ∧ (d = i ∧ m = ⟨0⟩ ∨ d = j ∧ m = ⟨1⟩) := by
  obtain ⟨hlt, howner⟩ := mem_methodsOf.1 hm
  obtain ⟨n⟩ := m
  have hn : n = 0 ∨ n = 1 := by
    have hlt' : n < 2 := hlt
    omega
  rcases hn with rfl | rfl
  · exact ⟨⟨rfl, rfl, rfl⟩, .inl ⟨howner.symm, rfl⟩⟩
  · exact ⟨⟨rfl, rfl, rfl⟩, .inr ⟨howner.symm, rfl⟩⟩

/-- The first of two interfaces is found. -/
theorem Acyclic.implementation?_contest (h : p.Acyclic) (hne : j ≠ i)
    (horder : [i, j].Sublist (p.superInterfaces c)) (hi : i ∉ p.superChain c)
    (hj : j ∉ p.superChain c) :
    (p.contest i j).Lacks c "void run()" ∧
      (p.contest i j).implementation? c "void run()" = some ⟨0⟩ := by
  have hacyclic : (p.contest i j).Acyclic := h
  obtain ⟨hchain, hinterfaces⟩ : (p.contest i j).superChain c = p.superChain c ∧
      (p.contest i j).superInterfaces c = p.superInterfaces c := p.hierarchy_eq _ c
  have houtside : ∀ d, d ≠ i → d ≠ j →
      ∀ m ∈ (p.contest i j).methodsOf d, ¬ (p.contest i j).Implements "void run()" m := by
    intro d hdi hdj m hm _
    rcases (p.implements_contest i j hm).2 with ⟨hd, -⟩ | ⟨hd, -⟩
    · exact hdi hd
    · exact hdj hd
  have hsuper : ∀ d ∈ p.superChain c, d ≠ i ∧ d ≠ j := fun d hd =>
    ⟨fun heq => hi (heq ▸ hd), fun heq => hj (heq ▸ hd)⟩
  constructor
  · intro d hd
    have hmem := (hacyclic.chain_superChain c).mem_iff.2 hd
    rw [hchain] at hmem
    exact houtside d (hsuper d hmem).1 (hsuper d hmem).2
  · obtain ⟨left, right, hsplit, hleft, hright⟩ := List.cons_sublist_iff.1 horder
    obtain ⟨front, more, rfl⟩ := List.append_of_mem hleft
    rw [List.singleton_sublist] at hright
    rw [List.append_assoc, List.cons_append] at hsplit
    -- neither of the two is in front, since each interface is listed once
    have hnodup := (p.traverses_superInterfaces c).nodup.1
    rw [hsplit] at hnodup
    have hfront : ∀ d ∈ front, d ≠ i ∧ d ≠ j := fun d hd =>
      have hapart := (List.nodup_append.1 hnodup).2.2 d hd
      ⟨hapart i (List.mem_cons_self ..),
        hapart j (List.mem_cons_of_mem _ (List.mem_append_right _ hright))⟩
    have hmethods : (p.contest i j).methodsOf i = [⟨0⟩] := by
      show List.filter _ [MethodId.mk 0, MethodId.mk 1] = _
      simp [contest, method, hne]
    refine implementation?_eq_some_iff.2 ⟨i, p.superChain c ++ front, more ++ right, ?_, ?_, ?_⟩
    · rw [hchain, hinterfaces, hsplit, List.append_assoc]
    · exact ⟨[], [], hmethods, ⟨rfl, rfl, rfl⟩, List.forall_mem_nil _⟩
    · intro d hd
      rcases List.mem_append.1 hd with hd | hd
      · exact houtside d (hsuper d hd).1 (hsuper d hd).2
      · exact houtside d (hfront d hd).1 (hfront d hd).2

theorem Acyclic.descends (h : p.Acyclic)
    (hmost : ∀ methods sub, ({ p with methods } : Program).MostDerived c sub) : p.Descends c := by
  refine List.pairwise_iff_forall_sublist.2 fun {i j} horder hi hj hsub => ?_
  by_contra hne
  obtain ⟨hlacks, hfound⟩ := h.implementation?_contest hne horder hi hj
  have hinherits : (p.contest i j).Inherits c j :=
    h.mem_superInterfaces_iff.1 (horder.subset (List.mem_cons_of_mem _ (List.mem_singleton.2 rfl)))
  have hrun : ⟨1⟩ ∈ (p.contest i j).methodsOf j := mem_methodsOf.2 ⟨Nat.one_lt_two, rfl⟩
  exact hmost (p.contest i j).methods "void run()" { program := p.contest i j } .refl ⟨0⟩
    ((dispatch_cls .refl).trans hfound) hlacks j hinherits hne hsub ⟨1⟩ hrun
    (p.implements_contest i j hrun).1

/-- Dispatch finds the most derived default method, whatever methods are declared, exactly if no
interface comes before one that extends it. -/
theorem mostDerived_iff_descends (h : p.Acyclic) (c : ClassId) :
    (∀ methods sub, ({ p with methods } : Program).MostDerived c sub) ↔ p.Descends c := by
  refine ⟨h.descends, fun hdescends methods sub => ?_⟩
  have hacyclic : ({ p with methods } : Program).Acyclic := h
  obtain ⟨hchain, hinterfaces⟩ := p.hierarchy_eq methods c
  refine hacyclic.mostDerived ?_ sub
  rw [Descends, hchain, hinterfaces]
  exact hdescends

/-- Two interfaces, the second of which extends the first, both with a method of the same
signature, and a class with some interfaces. -/
def relisted (interfaces : List ClassId) : Program where
  classes := [{ name := "java.lang.Object" }, .interface "I" [], .interface "J" [⟨1⟩],
    { name := "K", superclass := some ⟨0⟩, interfaces }]
  methods := [{ owner := ⟨1⟩, name := "run" }, { owner := ⟨2⟩, name := "run" }]

theorem acyclic_relisted (interfaces : List ClassId) : (relisted interfaces).Acyclic := by
  apply acyclic_of_lt
  rintro ⟨n⟩ d h
  rcases n with _ | _ | _ | _ | n <;> cases h
  decide

/-- In a class that names the second interface first, its method is found. -/
theorem mostDerived_iff_descends_relisted :
    (relisted [⟨2⟩, ⟨1⟩]).Acyclic ∧
      ((∀ methods sub, ({ relisted [⟨2⟩, ⟨1⟩] with methods } : Program).MostDerived ⟨3⟩ sub) ↔
        (relisted [⟨2⟩, ⟨1⟩]).Descends ⟨3⟩) ∧
      (relisted [⟨2⟩, ⟨1⟩]).Descends ⟨3⟩ ∧
      (relisted [⟨2⟩, ⟨1⟩]).implementation? ⟨3⟩ "void run()" = some ⟨1⟩ :=
  ⟨acyclic_relisted _, mostDerived_iff_descends (acyclic_relisted _) ⟨3⟩, by decide +kernel,
    by decide +kernel⟩

/-- In a class that names the first interface first, the method of the other one is overlooked. -/
theorem not_mostDerived_relisted :
    ¬ ∀ p : Program, p.Acyclic → p.InterfacesAcyclic → ∀ c sub, p.MostDerived c sub := by
  intro hall
  have hinterfaces : (relisted [⟨1⟩, ⟨2⟩]).InterfacesAcyclic := by
    refine not_transGen_of_lt ?_
    rintro ⟨n⟩ d h
    rcases n with _ | _ | _ | _ | n
    · cases h
    · cases h
    · cases List.mem_singleton.1 h
      decide
    · replace h : d ∈ [⟨1⟩, ⟨2⟩] := h
      simp only [List.mem_cons, List.not_mem_nil, or_false] at h
      rcases h with rfl | rfl <;> decide
    · cases h
  have hlacks : (relisted [⟨1⟩, ⟨2⟩]).Lacks ⟨3⟩ "void run()" := by
    intro d hd m hm
    have hmem := ((acyclic_relisted _).chain_superChain ⟨3⟩).mem_iff.2 hd
    have hnone : ∀ d ∈ (relisted [⟨1⟩, ⟨2⟩]).superChain ⟨3⟩,
        (relisted [⟨1⟩, ⟨2⟩]).methodsOf d = [] := by decide +kernel
    rw [hnone d hmem] at hm
    exact absurd hm List.not_mem_nil
  have hfound : (({ program := relisted [⟨1⟩, ⟨2⟩] } : Elements).dispatch (.cls ⟨3⟩)
      "void run()").1 = some ⟨0⟩ := by decide +kernel
  have hinherits : (relisted [⟨1⟩, ⟨2⟩]).Inherits ⟨3⟩ ⟨2⟩ :=
    ⟨⟨3⟩, ⟨2⟩, .refl, by decide, .refl⟩
  exact hall _ (acyclic_relisted _) hinterfaces ⟨3⟩ "void run()" _ .refl ⟨0⟩ hfound hlacks ⟨2⟩
    hinherits (by decide) (by decide +kernel) ⟨1⟩ (by decide) ⟨rfl, rfl, rfl⟩

end Program

end PointsTo
