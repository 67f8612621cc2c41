import PointsTo.CallGraph.Dump
import PointsTo.Proofs.CallGraph.MethodGraph
import PointsTo.Proofs.Code.WellFormed

/-!
# Dumps are canonical

The dump of a call graph depends on the graph as a set and on the code of its methods, not on the
order in which the graph and the element tables grew.

* `Sorting.sort_key_eq`: what a list looks like when it is sorted by a key that tells its members
  apart depends on the members only;
* `Elements.Agree.siteText_eq`: the text of a call site depends on the code of its method only;
* `MethodGraph.Matches`: what two dumps show is the same up to order, and
  `MethodGraph.Matches.dump_eq`: then the dumps are the same, if the keys that they are sorted by
  tell methods and call sites apart;
* `MethodGraph.SameMembers`: two graphs have the same methods, call sites and edges, and
  `MethodGraph.SameMembers.dump_eq`: then they have the same dump, if no two methods share a
  signature;
* `MethodGraph.SameAs`: they have the same entries as well.
-/

namespace PointsTo

theorem Sorting.pairwise_sort_key {α κ : Type} [LE κ] [DecidableLE κ] [Std.IsLinearOrder κ]
    (k : α → κ) (l : List α) :
    (sort (fun a b => k a ≤ k b) l).Pairwise fun a b => k a ≤ k b := by
  have h : (sort (fun a b => k a ≤ k b) l).Pairwise fun a b => decide (k a ≤ k b) = true := by
    refine pairwise_sort ?_ ?_ l <;> simp only [decide_eq_true_eq]
    · exact fun a b c => Std.le_trans
    · exact fun a b => Std.le_total
  simpa using h

theorem Sorting.sort_key_eq {α κ : Type} [LE κ] [DecidableLE κ] [Std.IsLinearOrder κ] {k k' : α → κ}
    {l l' : List α} (hl : l.Perm l') (hk : ∀ a ∈ l, k' a = k a)
    (hinj : ∀ a ∈ l, ∀ b ∈ l, k a = k b → a = b) :
    sort (fun a b => k a ≤ k b) l = sort (fun a b => k' a ≤ k' b) l' := by
  refine List.Perm.eq_of_pairwise (fun a b ha hb hab hba => ?_) (pairwise_sort_key k l) ?_
    ((sort_perm _ l).trans (hl.trans (sort_perm _ l').symm))
  · exact hinj a ((mem_sort _).1 ha) b (hl.mem_iff.2 ((mem_sort _).1 hb)) (Std.le_antisymm hab hba)
  · refine (pairwise_sort_key k' l').imp_of_mem fun {a b} ha hb hab => ?_
    rwa [hk a (hl.mem_iff.2 ((mem_sort _).1 ha)), hk b (hl.mem_iff.2 ((mem_sort _).1 hb))] at hab

/-! ### Texts of call sites -/

namespace Elements

/-- The call site `s` is one of the code of `m`. -/
def HasSite (e : Elements) (m : MethodId) (s : SiteId) : Prop :=
  s.method = m ∧ s.slot < (e.code m).sites.length

/-- The tables are about the same program and have the same code for `m`, which is well formed. -/
structure Agree (m : MethodId) (e e' : Elements) : Prop where
  program_eq : e'.program = e.program
  code_eq : e'.code m = e.code m
  wellFormed : (e.code m).WellFormed m

variable {e e' : Elements} {m : MethodId} {s s' : SiteId}

/-- A call site of well-formed code has a call, which says where the call site is. -/
theorem HasSite.call (h : e.HasSite m s) (hw : (e.code m).WellFormed m) :
    ∃ i lhs, (e.site s).call = some ⟨m, i⟩ ∧ e.stmt ⟨m, i⟩ = ⟨.call s lhs, i, false⟩ ∧
      (∀ v, lhs = some v → v.method = m) ∧ (e.code m).FitsSite m (e.site s) := by
  obtain ⟨rfl, hs⟩ := h
  have hget := List.getElem?_eq_getElem hs
  have hsite : e.site s = (e.code s.method).sites.get ⟨s.slot, hs⟩ := by
    rw [site, List.getD_eq_getElem?_getD, hget]
    rfl
  obtain ⟨i, lhs, hcall, hi⟩ := hw.site_call s.slot _ hget
  obtain ⟨p, hp, hst⟩ := Option.map_eq_some_iff.1 hi
  obtain ⟨hindex, hsynthetic⟩ := hw.index_eq i p hp
  have hfits := hw.fits i p hp
  rw [hst] at hfits
  refine ⟨i, lhs, hsite ▸ hcall, ?_, fun v hv => (hfits.2.1 v hv).1, hsite ▸ hw.site_fits _ _ hget⟩
  have hstmt : e.stmt ⟨s.method, i⟩ = p := by
    rw [stmt, stmt?, hp]
    rfl
  obtain ⟨st, index, synthetic⟩ := p
  cases hst
  cases hindex
  cases hsynthetic
  exact hstmt

/-- The call sites of a method differ in the index of their calls. -/
theorem HasSite.eq_of_siteIndex_eq (h : e.HasSite m s) (h' : e.HasSite m s')
    (hw : (e.code m).WellFormed m) (heq : e.siteIndex s = e.siteIndex s') : s = s' := by
  obtain ⟨i, lhs, hcall, hst, -⟩ := h.call hw
  obtain ⟨i', lhs', hcall', hst', -⟩ := h'.call hw
  simp only [siteIndex, hcall, hcall', hst, hst', Option.map_some, Option.getD_some] at heq
  subst heq
  cases hst.symm.trans hst'
  rfl

namespace Agree

theorem varName_eq (h : Agree m e e') {v : VarId} (hv : v.method = m) :
    e'.varName v = e.varName v := by
  rw [varName, varName, var, var, hv, h.code_eq]

theorem site_eq (h : Agree m e e') (hs : s.method = m) : e'.site s = e.site s := by
  rw [site, site, hs, h.code_eq]

theorem stmt_eq (h : Agree m e e') (i : Nat) : e'.stmt ⟨m, i⟩ = e.stmt ⟨m, i⟩ := by
  rw [stmt, stmt, stmt?, stmt?, h.code_eq]

theorem siteIndex_eq (h : Agree m e e') (hs : e.HasSite m s) : e'.siteIndex s = e.siteIndex s := by
  obtain ⟨i, lhs, hcall, -⟩ := hs.call h.wellFormed
  simp only [siteIndex, h.site_eq hs.1, hcall, Option.map_some, h.stmt_eq]

theorem callText_eq (h : Agree m e e') (hs : s.method = m)
    (hfits : (e.code m).FitsSite m (e.site s)) {lhs : Option VarId}
    (hlhs : ∀ v, lhs = some v → v.method = m) : e'.callText s lhs = e.callText s lhs := by
  have hname : ∀ (f : String → String) (x : Option VarId), (∀ v, x = some v → v.method = m) →
      (x.map fun v => f (e'.varName v)) = x.map fun v => f (e.varName v) := by
    intro f x hx
    cases x with
    | none => rfl
    | some v => exact congrArg (fun name => some (f name)) (h.varName_eq (hx v rfl))
  have hresult := hname (· ++ " = ") lhs hlhs
  have hreceiver := hname (· ++ ".") (e.site s).receiver fun v hv => (hfits.1 v hv).1
  have hargs : ((e.site s).args.map fun a => (a.map e'.varName).getD "_") =
      (e.site s).args.map fun a => (a.map e.varName).getD "_" :=
    List.map_congr_left fun a ha =>
      congrArg (Option.getD · "_") (hname id a fun v hv => (hfits.2 v (hv ▸ ha)).1)
  simp only [callText, h.site_eq hs, h.program_eq, hresult, hreceiver, hargs]

theorem siteText_eq (h : Agree m e e') (hs : e.HasSite m s) : e'.siteText s = e.siteText s := by
  obtain ⟨i, lhs, hcall, hst, hlhs, hfits⟩ := hs.call h.wellFormed
  simp only [siteText, h.program_eq, h.siteIndex_eq hs, h.site_eq hs.1, hcall, Option.map_some,
    stmtText, h.stmt_eq, hst, h.callText_eq hs.1 hfits hlhs]

end Agree

end Elements

/-! ### Graphs with the same members -/

namespace MethodGraph

/-- The graphs have the same methods, call sites and edges. -/
structure SameMembers (g g' : MethodGraph) : Prop where
  methods : ∀ m, m ∈ g'.methods ↔ m ∈ g.methods
  sites : ∀ m s, s ∈ g'.sitesIn m ↔ s ∈ g.sitesIn m
  calls : ∀ m e, (m, e) ∈ g'.calls ↔ (m, e) ∈ g.calls

/-- The graphs have the same members, and the same entries in the same order. -/
structure SameAs (g g' : MethodGraph) : Prop extends SameMembers g g' where
  entries : g'.entries = g.entries

/-- The graph is consistent, and the call sites of its methods are those of well-formed code, each
recorded once. -/
structure Fits (e : Elements) (g : MethodGraph) : Prop where
  consistent : g.Consistent
  code : ∀ m ∈ g.methods, (e.code m).WellFormed m
  sites : ∀ m ∈ g.methods, ∀ s ∈ g.sitesIn m, e.HasSite m s
  nodup : ∀ m, (g.sitesIn m).Nodup

/-- The dumps of the graphs show the same, up to the order in which the graphs list it. -/
structure Matches (e e' : Elements) (g g' : MethodGraph) : Prop where
  program_eq : e'.program = e.program
  methods : g.methods.toList.Perm g'.methods.toList
  sites : ∀ m ∈ g.methods, (g.sitesIn m).Perm (g'.sitesIn m)
  index_eq : ∀ m ∈ g.methods, ∀ s ∈ g.sitesIn m, e'.siteIndex s = e.siteIndex s
  text_eq : ∀ m ∈ g.methods, ∀ s ∈ g.sitesIn m, e'.siteText s = e.siteText s
  callees : ∀ s m, m ∈ g'.calleesOf s ↔ m ∈ g.calleesOf s
  edgeCount_eq : g'.edgeCount = g.edgeCount

variable {e e' : Elements} {g g' : MethodGraph}

namespace Matches

variable (h : Matches e e' g g')

include h

theorem isResolved_eq (s : SiteId) : isResolved g' s = isResolved g s := by
  have hempty : (g'.calleesOf s).isEmpty = true ↔ (g.calleesOf s).isEmpty = true := by
    simp only [OrderedSet.isEmpty_iff, h.callees s]
  rw [isResolved, isResolved, Bool.eq_iff_iff.2 hempty]

theorem calleeSignatures_eq (s : SiteId) :
    calleeSignatures e' g' s = calleeSignatures e g s := by
  have hnodup : ∀ l : List String, l.eraseDups.Nodup := fun l => by
    have hid := (eraseDupsBy_spec id l).1
    rwa [List.map_id] at hid
  refine Sorting.sort_key_eq ((List.perm_ext_iff_of_nodup (hnodup _) (hnodup _)).2 fun x => ?_)
    (fun _ _ => rfl) fun _ _ _ _ => id
  simp only [List.mem_eraseDups, List.mem_map, OrderedSet.mem_toList, h.program_eq, h.callees s]

/-- The dumps are the same, if signatures tell the methods apart, and indices the call sites of a
method. -/
theorem dump_eq
    (hsig : ∀ m ∈ g.methods, ∀ m' ∈ g.methods,
      e.program.signature m = e.program.signature m' → m = m')
    (hindex : ∀ m ∈ g.methods, ∀ s ∈ g.sitesIn m, ∀ s' ∈ g.sitesIn m,
      e.siteIndex s = e.siteIndex s' → s = s') :
    dump e' g' = dump e g := by
  have hp := h.program_eq
  have hmethods : sortedMethods e' g' = sortedMethods e g :=
    (Sorting.sort_key_eq h.methods (fun m _ => by rw [hp]) hsig).symm
  have hsitesIn : ∀ m ∈ g.methods, sortedSitesIn e' g' m = sortedSitesIn e g m := fun m hm =>
    (Sorting.sort_key_eq (h.sites m hm) (h.index_eq m hm) (hindex m hm)).symm
  have hmem : ∀ m ∈ sortedMethods e g, m ∈ g.methods := fun m hm => (Sorting.mem_sort _).1 hm
  have hsites : sortedSites e' g' = sortedSites e g := by
    rw [sortedSites, sortedSites, hmethods, List.flatMap_def, List.flatMap_def,
      List.map_congr_left fun m hm => hsitesIn m (hmem m hm)]
  have hresolved : isResolved g' = isResolved g := funext h.isResolved_eq
  have hlines : ((sortedSites e g).filter (isResolved g)).map (edgeLine e' g') =
      ((sortedSites e g).filter (isResolved g)).map (edgeLine e g) := by
    refine List.map_congr_left fun s hs => ?_
    obtain ⟨m, hm, hs⟩ := List.mem_flatMap.1 (List.mem_filter.1 hs).1
    rw [edgeLine, edgeLine, calleesText, calleesText, h.calleeSignatures_eq,
      h.text_eq m (hmem m hm) s ((Sorting.mem_sort _).1 hs)]
  have hmethodCount : g'.methodCount = g.methodCount := h.methods.length_eq.symm
  rw [dump, dump, dumpLines, dumpLines, hmethods, hsites, hresolved, hlines, hmethodCount,
    h.edgeCount_eq, hp]

end Matches

/-- Graphs with the same members have the same dump, if the signatures tell the methods apart. -/
theorem SameMembers.dump_eq (h : g.SameMembers g') (hg : g.Fits e) (hg' : g'.Fits e')
    (hagree : ∀ m ∈ g.methods, Elements.Agree m e e') (hp : e'.program = e.program)
    (hsig : ∀ m ∈ g.methods, ∀ m' ∈ g.methods,
      e.program.signature m = e.program.signature m' → m = m') :
    dump e' g' = dump e g := by
  have hcallees : ∀ s m, m ∈ g'.calleesOf s ↔ m ∈ g.calleesOf s := fun s m => by
    rw [hg.consistent.indexed, hg'.consistent.indexed, hg.consistent.recorded,
      hg'.consistent.recorded]
    exact exists_congr fun x => and_congr_left fun _ => h.calls x.1 x.2
  have hmatches : Matches e e' g g' :=
    { program_eq := hp
      methods := (List.perm_ext_iff_of_nodup g.methods.nodup g'.methods.nodup).2
        fun m => (h.methods m).symm
      sites := fun m _ => (List.perm_ext_iff_of_nodup (hg.nodup m) (hg'.nodup m)).2
        fun s => (h.sites m s).symm
      index_eq := fun m hm s hs => (hagree m hm).siteIndex_eq (hg.sites m hm s hs)
      text_eq := fun m hm s hs => (hagree m hm).siteText_eq (hg.sites m hm s hs)
      callees := hcallees
      edgeCount_eq := hg.consistent.edgeCount_eq hg'.consistent hcallees }
  exact hmatches.dump_eq hsig fun m hm s hs s' hs' =>
    (hg.sites m hm s hs).eq_of_siteIndex_eq (hg.sites m hm s' hs') (hg.code m hm)

end MethodGraph

end PointsTo
