import Slicing.Listing
import Slicing.Proofs.Construction
import Slicing.Proofs.SourceOrder
import Slicing.Proofs.Sorting

/-!
# Listing a slice

Sorting by source, making an order of the result and writing it out can each report a violation.
None of them does for a set of nodes of the graph. The order by source lists every node, a set
repeats none, and every node has a statement. The sorted list is the part of the order by source
that lies in the set.
-/
namespace Slicing

namespace FlowGraph

variable {cfg : FlowGraph} {S : NodeSet} {nodes : List NodeId} {v : NodeId}

theorem exists_statement? (hv : v < cfg.size) : ∃ s, cfg.statement? v = some s := by
  have hlt : v < cfg.statements.size := cfg.size_statements.symm ▸ hv
  exact ⟨_, Array.getElem?_eq_getElem hlt⟩

theorem exists_lines (h : ∀ v ∈ nodes, v < cfg.size) :
    ∃ statements : List Statement, nodes.map cfg.statement? = statements.map some ∧
      nodes.mapM (NodeOrder.line cfg) = .ok (statements.map fun s => toString s ++ "\n") := by
  induction nodes with
  | nil => exact ⟨[], rfl, rfl⟩
  | cons v nodes ih =>
    obtain ⟨s, hs⟩ := exists_statement? (h v List.mem_cons_self)
    obtain ⟨statements, hmap, hlines⟩ := ih fun w hw => h w (List.mem_cons_of_mem v hw)
    refine ⟨s :: statements, ?_, ?_⟩
    · rw [List.map_cons, List.map_cons, hs, hmap]
    · rw [List.mapM_cons, hlines, NodeOrder.line, hs]
      rfl

/-- The members of a set of nodes as they stand in the source. -/
def inSource (cfg : FlowGraph) (S : NodeSet) : List NodeId :=
  (NodeOrder.bySource cfg).nodes.filter (· ∈ S)

theorem mem_inSource (h : ∀ v ∈ S, v < cfg.size) : v ∈ cfg.inSource S ↔ v ∈ S := by
  rw [inSource, List.mem_filter, mem_bySource, decide_eq_true_iff]
  exact ⟨And.right, fun hv => ⟨h v hv, hv⟩⟩

theorem nodup_inSource (cfg : FlowGraph) (S : NodeSet) : (cfg.inSource S).Nodup :=
  (NodeOrder.bySource cfg).nodup.filter _

theorem head?_inSource (h : cfg.start ∈ cfg.inSource S) :
    (cfg.inSource S).head? = some cfg.start := by
  have hsorted : (cfg.inSource S).Pairwise cfg.SourceLE := cfg.pairwise_bySource.filter _
  cases hnodes : cfg.inSource S with
  | nil => exact absurd (hnodes ▸ h) List.not_mem_nil
  | cons v rest =>
    rw [hnodes] at h hsorted
    rw [List.head?_cons, Option.some.injEq]
    cases List.mem_cons.mp h with
    | inl heq => exact heq.symm
    | inr hrest =>
      exact (List.rel_of_pairwise_cons hsorted hrest).antisymm (cfg.start_sourceLE v)

/-- However the members of a set are arranged, sorting them by source gives the same list. -/
theorem sort_bySource (h : ∀ v ∈ S, v < cfg.size) {xs : List NodeId} (hperm : xs.Perm S.toList) :
    (NodeOrder.bySource cfg).sort xs = .ok (cfg.inSource S) := by
  have hmem : ∀ v, v ∈ xs ↔ v ∈ S := fun v => hperm.mem_iff
  have hnodup : xs.Nodup := hperm.nodup_iff.mpr (S.ascending.imp Nat.ne_of_lt)
  rw [NodeOrder.sort_eq_filter hnodup fun v hv => mem_bySource.mpr (h v ((hmem v).mp hv))]
  simp only [hmem, inSource]

theorem exists_listSet (h : ∀ v ∈ S, v < cfg.size) :
    ∃ o statements text, NodeOrder.ofList (cfg.inSource S) = .ok o ∧ o.listing cfg = .ok text ∧
      (cfg.inSource S).map cfg.statement? = List.map some statements ∧
      text = String.join (statements.map fun s => toString s ++ "\n") ∧
      cfg.listSet S = .ok text := by
  let o : NodeOrder := .ofNodup (cfg.inSource S) (cfg.nodup_inSource S)
  have ho : NodeOrder.ofList (cfg.inSource S) = .ok o := NodeOrder.ofList_eq_ok_iff.mpr rfl
  obtain ⟨statements, hmap, hlines⟩ :=
    exists_lines fun v hv => h v ((mem_inSource h).mp hv)
  have hlisting : o.listing cfg =
      .ok (String.join (statements.map fun s => toString s ++ "\n")) := by
    have hnodes : o.nodes = cfg.inSource S := rfl
    rw [NodeOrder.listing, hnodes, hlines]
    rfl
  refine ⟨o, statements, _, ho, hlisting, hmap, rfl, ?_⟩
  simp only [listSet, sort_bySource h (.refl _), bind, Except.bind, ho]
  exact hlisting

/-- A slice asked for by a location can always be listed. Sorted by source it is the part of the
order by source that lies in it, with each of its nodes once, the start first and no finish, and the
listing shows the statements of these nodes line by line. -/
theorem slices_listed_in_source_order (cfg : FlowGraph) (config : Config)
    (h : config.checked → cfg.checkReachability = .ok ()) :
    ∃ g, (cfg.buildDependenceGraph config).result = .ok g ∧ ∀ l S, g.sliceAt? l = some S →
      (∀ xs, xs.Perm S.toList → (NodeOrder.bySource cfg).sort xs = .ok (cfg.inSource S)) ∧
      (cfg.inSource S).Nodup ∧ (∀ v, v ∈ cfg.inSource S ↔ v ∈ S) ∧
      cfg.finish ∉ cfg.inSource S ∧
      (cfg.start ∈ S → (cfg.inSource S).head? = some cfg.start) ∧
      ∃ o statements text, NodeOrder.ofList (cfg.inSource S) = .ok o ∧ o.listing cfg = .ok text ∧
        (cfg.inSource S).map cfg.statement? = List.map some statements ∧
        text = String.join (statements.map fun s => toString s ++ "\n") ∧
        g.listSliceAt? cfg l = .ok (some text) := by
  obtain ⟨t, hok, _⟩ := cfg.exists_exact
  refine ⟨cfg.dependenceGraph config t, result_of_admitted h hok, fun l S hS => ?_⟩
  obtain ⟨c, _, rfl⟩ := Option.map_eq_some_iff.mp hS
  have hclosed := cfg.closed_slice (t := t) config c
  have hmem : ∀ v, v ∈ cfg.inSource ((cfg.dependenceGraph config t).slice c) ↔
      v ∈ (cfg.dependenceGraph config t).slice c := fun v => mem_inSource fun _ => hclosed.lt_size
  obtain ⟨o, statements, text, ho, hlisting, hmap, htext, hset⟩ :=
    exists_listSet fun _ => hclosed.lt_size
  refine ⟨fun xs => sort_bySource fun _ => hclosed.lt_size, cfg.nodup_inSource _, hmem, ?_, ?_,
    o, statements, text, ho, hlisting, hmap, htext, ?_⟩
  · intro hfinish
    exact hclosed.ne_finish ((hmem _).mp hfinish) rfl
  · intro hstart
    exact head?_inSource ((hmem _).mpr hstart)
  · simp only [DependenceGraph.listSliceAt?, hS, hset]
    rfl

/-- A graph whose nodes are numbered against the source, with a start that assigns a variable and
whose range lies behind all others. -/
def numberedBackwards : FlowGraph :=
  .ofEdges
    #[.finish,
      Statement.addUses { range := ⟨⟨3, 1⟩, ⟨3, 8⟩⟩, text := some "print(x)" } ["x"],
      Statement.addDefs { range := ⟨⟨2, 1⟩, ⟨2, 5⟩⟩ } ["y"],
      (Statement.addDefs { range := ⟨⟨1, 1⟩, ⟨1, 9⟩⟩ } ["x"]).addUses ["x"],
      Statement.addDefs { kind := .start, range := ⟨⟨4, 1⟩, ⟨4, 1⟩⟩ } ["x"]]
    [(4, 3), (3, 2), (2, 1), (1, 0)] 4 0 (by decide)

theorem numberedBackwards_listed :
    (Config.strict.checked → numberedBackwards.checkReachability = .ok ()) ∧
      ∃ g S, (numberedBackwards.buildDependenceGraph .strict).result = .ok g ∧
        g.sliceAt? ⟨3, 4⟩ = some S ∧ S.toList = [1, 3, 4] ∧
        (NodeOrder.bySource numberedBackwards).sort [3, 1, 4] = .ok [4, 3, 1] ∧
        g.listSliceAt? numberedBackwards ⟨3, 4⟩ = .ok (some "START\n<1:1-1:9>\nprint(x)\n") := by
  have hcheck : Config.strict.checked → numberedBackwards.checkReachability = .ok () :=
    fun _ => by decide +kernel
  have hslice : (numberedBackwards.buildDependenceGraph .strict).result.map (fun g =>
      (g.sliceAt? ⟨3, 4⟩).map SortedSet.toList) = .ok (some [1, 3, 4]) := by decide +kernel
  have hsource : [4, 3, 2, 1, 0] = (NodeOrder.bySource numberedBackwards).nodes :=
    eq_bySource (by decide +kernel) (by decide +kernel)
  obtain ⟨g, hok, hlisted⟩ := slices_listed_in_source_order numberedBackwards .strict hcheck
  rw [hok] at hslice
  obtain ⟨S, hS, hlist⟩ := Option.map_eq_some_iff.mp (Except.ok.inj hslice)
  obtain ⟨hsort, _, _, _, _, _, statements, text, _, _, hmap, htext, htotal⟩ := hlisted _ S hS
  have hinSource : numberedBackwards.inSource S = [4, 3, 1] := by
    simp only [inSource, ← hsource, ← SortedSet.mem_toList, hlist]
    decide
  have hlines : statements.map (fun s => toString s ++ "\n") =
      ((numberedBackwards.inSource S).map numberedBackwards.statement?).map fun s =>
        s.elim "" fun s => toString s ++ "\n" := by
    rw [hmap, List.map_map]
    rfl
  have hwritten : text = "START\n<1:1-1:9>\nprint(x)\n" := by
    rw [htext, hlines, hinSource]
    decide +kernel
  have hperm : [3, 1, 4].Perm S.toList := by
    rw [hlist]
    decide
  exact ⟨hcheck, g, S, hok, hS, hlist, hinSource ▸ hsort _ hperm, hwritten ▸ htotal⟩

end FlowGraph

end Slicing
