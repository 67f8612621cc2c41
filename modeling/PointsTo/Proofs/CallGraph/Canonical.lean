import PointsTo.Proofs.CallGraph.Compare

/-!
# Dumps do not depend on how a graph was made

Two call graphs over the same element tables can have been made by quite different changes, in
different orders, with repetitions, and with other kinds and callers of their edges. If they have
the same methods, call sites and callees (`MethodGraph.Alike`), they have the same dump
(`MethodGraph.dump_canonical`), provided that methods differ in their signatures and the call sites
of a method in the indices of their calls.
-/

namespace PointsTo

namespace MethodGraph

/-- The graphs have the same methods, the same pairs of a call site and a callee, and the same call
sites in each method, of which none is listed twice. -/
structure Alike (g g' : MethodGraph) : Prop where
  methods : ∀ m, m ∈ g'.methods ↔ m ∈ g.methods
  links : ∀ s m, (s, m) ∈ g'.links ↔ (s, m) ∈ g.links
  sites : ∀ m ∈ g.methods, ∀ s, s ∈ g'.sitesIn m ↔ s ∈ g.sitesIn m
  once : ∀ m ∈ g.methods, (g.sitesIn m).Nodup ∧ (g'.sitesIn m).Nodup

variable {e : Elements} {g g' : MethodGraph}

theorem Alike.matches (h : g.Alike g') (hg : g.Consistent) (hg' : g'.Consistent) :
    Matches e e g g' := by
  have hcallees : ∀ s m, m ∈ g'.calleesOf s ↔ m ∈ g.calleesOf s := by
    intro s m
    rw [← hg.mem_links, ← hg'.mem_links, h.links]
  constructor
  case program_eq => rfl
  case methods =>
    exact (List.perm_ext_iff_of_nodup g.methods.nodup g'.methods.nodup).2
      fun m => (h.methods m).symm
  case sites =>
    intro m hm
    obtain ⟨hnodup, hnodup'⟩ := h.once m hm
    exact (List.perm_ext_iff_of_nodup hnodup hnodup').2 fun s => (h.sites m hm s).symm
  case index_eq => intros; rfl
  case text_eq => intros; rfl
  case callees => exact hcallees
  case edgeCount_eq => exact hg.edgeCount_eq hg' hcallees

/-- **Dumps are canonical.** Whatever changes made two graphs of the empty one, they have the same
dump if they are alike, as long as no two methods share a signature, and no two call sites of a
method an index. -/
theorem dump_canonical (e : Elements) {l l' : List (CallGraph.Change SiteId MethodId)}
    (h : Alike (.grown l) (.grown l'))
    (hsig : ((CallGraph.grown l).methods.toList.map e.program.signature).Nodup)
    (hindex : ∀ m ∈ (CallGraph.grown l).methods,
      (((CallGraph.grown l).sitesIn m).map e.siteIndex).Nodup) :
    dump e (.grown l') = dump e (.grown l) := by
  have hmatches : Matches e e (.grown l) (.grown l') :=
    h.matches (CallGraph.consistent_grown l) (CallGraph.consistent_grown l')
  apply hmatches.dump_eq
  · intro m hm m' hm' heq
    exact List.inj_on_of_nodup_map hsig hm hm' heq
  · intro m hm s hs s' hs' heq
    exact List.inj_on_of_nodup_map (hindex m hm) hs hs' heq

/-- Both calls of the main method: first the call sites, then the edges. -/
def inOrder : List (CallGraph.Change SiteId MethodId) :=
  [.entry ⟨0⟩, .site ⟨0⟩ ⟨⟨0⟩, 0⟩, .site ⟨0⟩ ⟨⟨0⟩, 1⟩, .edge ⟨0⟩ ⟨.static, ⟨⟨0⟩, 0⟩, ⟨1⟩⟩,
    .edge ⟨0⟩ ⟨.static, ⟨⟨0⟩, 1⟩, ⟨1⟩⟩]

/-- The same calls the other way round, with an edge of another kind, and one more time. -/
def backwards : List (CallGraph.Change SiteId MethodId) :=
  [.edge ⟨1⟩ ⟨.special, ⟨⟨0⟩, 1⟩, ⟨1⟩⟩, .edge ⟨0⟩ ⟨.static, ⟨⟨0⟩, 0⟩, ⟨1⟩⟩,
    .edge ⟨0⟩ ⟨.static, ⟨⟨0⟩, 1⟩, ⟨1⟩⟩, .site ⟨0⟩ ⟨⟨0⟩, 1⟩, .site ⟨0⟩ ⟨⟨0⟩, 0⟩]

/-- The methods are found in another order, and the dump is the same. -/
theorem dump_canonical_backwards :
    (CallGraph.grown backwards).methods.toList ≠ (CallGraph.grown inOrder).methods.toList ∧
      dump Elements.doubled (.grown backwards) = dump Elements.doubled (.grown inOrder) := by
  have hmethods : (CallGraph.grown inOrder).methods.toList = [⟨0⟩, ⟨1⟩] := by decide
  have hmethods' : (CallGraph.grown backwards).methods.toList = [⟨1⟩, ⟨0⟩] := by decide
  have hlinks : (CallGraph.grown inOrder).links = [(⟨⟨0⟩, 0⟩, ⟨1⟩), (⟨⟨0⟩, 1⟩, ⟨1⟩)] := by decide
  have hlinks' : (CallGraph.grown backwards).links = [(⟨⟨0⟩, 1⟩, ⟨1⟩), (⟨⟨0⟩, 0⟩, ⟨1⟩)] := by
    decide
  have hsites : ∀ m ∈ [⟨0⟩, ⟨1⟩], (CallGraph.grown backwards).sitesIn m =
      ((CallGraph.grown inOrder).sitesIn m).reverse := by decide
  have halike : Alike (.grown inOrder) (.grown backwards) := by
    constructor
    case methods =>
      intro m
      rw [← OrderedSet.mem_toList, ← OrderedSet.mem_toList, hmethods, hmethods']
      simp [or_comm]
    case links =>
      intro s m
      rw [hlinks, hlinks']
      simp [or_comm]
    case sites =>
      intro m hm s
      rw [← OrderedSet.mem_toList, hmethods] at hm
      rw [hsites m hm, List.mem_reverse]
    case once =>
      show ∀ m ∈ (CallGraph.grown inOrder).methods.toList, _
      decide
  refine ⟨by decide, dump_canonical Elements.doubled halike ?_ ?_⟩
  · decide +kernel
  · show ∀ m ∈ (CallGraph.grown inOrder).methods.toList, _
    decide +kernel

end MethodGraph

end PointsTo
