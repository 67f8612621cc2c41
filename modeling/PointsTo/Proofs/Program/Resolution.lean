import PointsTo.Elements.Basic
import PointsTo.Proofs.Signature

/-!
# Finding methods by their signatures

The text of the signature of a method leads back to the method, provided that its class owns its
name, that no earlier method of the class has the same subsignature and that the names in the
signature can be read.

* `Program.resolve?_eq_some_iff`: what is found;
* `Program.Resolvable`: the methods that are found by their own signatures;
* `Elements.resolve_inverts_signature`: resolution and writing undo each other.
-/

namespace PointsTo

namespace Program

variable {p : Program} {c : ClassId} {m : MethodId} {s : Signature}

/-- The method is the first one of its class, in order of declaration, with a subsignature. -/
def IsFirst (p : Program) (m : MethodId) (sub : String) : Prop :=
  ∃ before after, p.methodsOf (p.method m).owner = before ++ m :: after ∧
    p.subsignature m = sub ∧ ∀ m' ∈ before, p.subsignature m' ≠ sub

/-- The method is the first one of its class with its subsignature, the class owns its name, and
the names in the signature are well formed. -/
structure Resolvable (p : Program) (m : MethodId) : Prop where
  first : p.IsFirst m (p.subsignature m)
  named : p.classNamed? (p.cls (p.method m).owner).name = some (p.method m).owner
  wellFormed : (p.signatureOf m).WellFormed

theorem name_of_classNamed? {name : String} (h : p.classNamed? name = some c) :
    (p.cls c).name = name := by
  have hmem := List.mem_of_getLast? h
  exact of_decide_eq_true (List.mem_filter.1 hmem).2

/-- What is found for a signature is the first method with the subsignature, in the class that owns
the name. -/
theorem resolve?_eq_some_iff :
    p.resolve? s = some m ↔
      p.classNamed? s.owner = some (p.method m).owner ∧ p.IsFirst m s.sub := by
  simp only [resolve?, Option.bind_eq_some_iff, List.find?_eq_some_iff_append]
  constructor
  · rintro ⟨c, hc, hsub, before, after, heq, hbefore⟩
    have hm : m ∈ p.methodsOf c := by simp [heq]
    obtain rfl := (mem_methodsOf.1 hm).2
    exact ⟨hc, before, after, heq, of_decide_eq_true hsub, by simpa using hbefore⟩
  · rintro ⟨hc, before, after, heq, hsub, hbefore⟩
    exact ⟨_, hc, decide_eq_true hsub, before, after, heq, by simpa using hbefore⟩

theorem Resolvable.resolve?_signatureOf (h : p.Resolvable m) :
    p.resolve? (p.signatureOf m) = some m :=
  resolve?_eq_some_iff.2 ⟨h.named, h.first⟩

theorem signature_of_resolve? (h : p.resolve? s = some m) : p.signature m = s.text := by
  obtain ⟨hc, _, _, _, hsub, _⟩ := resolve?_eq_some_iff.1 h
  have hname : (p.signatureOf m).owner = s.owner := name_of_classNamed? hc
  have hsub' : (p.signatureOf m).sub = s.sub := hsub
  rw [signature, Signature.text, hname, hsub', Signature.text]

/-- A class with two methods of the same name. -/
def overloaded : Program where
  classes := [{ name := "java.lang.Object" }, { name := "p.Box", superclass := some ⟨0⟩ }]
  methods := [{ owner := ⟨1⟩, name := "put" },
    { owner := ⟨1⟩, name := "put", params := [.int, .array (.cls ⟨0⟩)], result := some (.cls ⟨1⟩) }]

theorem resolvable_overloaded : overloaded.Resolvable ⟨1⟩ where
  first := ⟨[⟨0⟩], [], by decide +kernel, rfl, by decide +kernel⟩
  named := by decide +kernel
  wellFormed := by decide +kernel

end Program

namespace Elements

/-- A method is found by the text of its own signature, with or without blanks around it, and
whatever is found has the signature that was read. -/
theorem resolve_inverts_signature (e : Elements) :
    (∀ m, e.program.Resolvable m → ∀ front back : String,
      front.toList.all Text.isBlank = true → back.toList.all Text.isBlank = true →
        e.resolve (front ++ e.program.signature m ++ back) = (.ok (some m), e.addMethod m)) ∧
    ∀ signature m, (e.resolve signature).1 = .ok (some m) →
      ∃ s, Signature.parse signature = .ok s ∧ e.program.signature m = s.text := by
  constructor
  · intro m h front back hfront hback
    have hparse := h.wellFormed.parse_text hfront hback
    simp only [resolve, Program.signature, hparse, h.resolve?_signatureOf]
  · intro signature m h
    unfold resolve at h
    split at h
    · exact absurd h (by simp)
    · rename_i s hs
      split at h
      · exact absurd h (by simp)
      · rename_i m' hm
        obtain rfl : m' = m := by simpa using h
        exact ⟨s, hs, Program.signature_of_resolve? hm⟩

/-- The second method is found by its signature, and the first one by a text that is laid out in
another way than its signature. -/
theorem resolve_inverts_signature_overloaded :
    (({ program := .overloaded } : Elements).resolve
        (" " ++ Program.overloaded.signature ⟨1⟩ ++ "\n")).1 = .ok (some ⟨1⟩) ∧
      Program.overloaded.signature ⟨1⟩ = "<p.Box: p.Box put(int,java.lang.Object[])>" ∧
      ∃ s, Signature.parse "<p.Box: void put( )>" = .ok s ∧
        Program.overloaded.signature ⟨0⟩ = s.text := by
  obtain ⟨hfound, hread⟩ := resolve_inverts_signature { program := .overloaded }
  refine ⟨?_, by decide +kernel, hread "<p.Box: void put( )>" ⟨0⟩ rfl⟩
  rw [hfound ⟨1⟩ Program.resolvable_overloaded " " "\n" (by decide) (by decide)]

end Elements

end PointsTo
