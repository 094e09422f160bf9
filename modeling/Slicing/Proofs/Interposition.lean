import Slicing.Proofs.Drafts
import Slicing.Proofs.Relays

/-!
# A statement that does nothing changes no slice

A statement that neither assigns nor reads anything may be put on an edge of a flow graph: control
goes through it from the source of the edge to the target. The new node is a relay, and all other
nodes keep their numbers. It may itself depend on a branch, and so it may be in forward slices; but
nothing depends on it, and the dependences between the other nodes are what they were.
-/
namespace Slicing

/-- The placement that keeps all numbers and has a relay at `n`, from which `v` is met next. -/
def Placement.detour (n v : NodeId) : Placement where
  place := id
  origin x := if x = n then v else x

namespace Placement

variable {n v x : NodeId}

theorem origin_detour_self (n v : NodeId) : (detour n v).origin n = v := if_pos rfl

theorem origin_detour_of_ne (hx : x ≠ n) : (detour n v).origin x = x := if_neg hx

theorem origin_detour_lt (hv : v < n) (hx : x < n + 1) : (detour n v).origin x < n := by
  by_cases hn : x = n
  · rw [hn, origin_detour_self]
    exact hv
  · rw [origin_detour_of_ne hn]
    exact Nat.lt_of_le_of_ne (Nat.le_of_lt_succ hx) hn

theorem isRelay_detour_iff (hv : v < n) : (detour n v).IsRelay x ↔ x = n := by
  by_cases hx : x = n
  · rw [hx, IsRelay, origin_detour_self]
    exact iff_of_true (Nat.ne_of_lt hv) rfl
  · rw [IsRelay, origin_detour_of_ne hx]
    exact iff_of_false (not_not.mpr rfl) hx

end Placement

namespace FlowGraph

namespace Relaid

variable {cfg cfg' : FlowGraph} {t t' : PostdominatorTree} {n v : Nat} {a : NodeId}
variable (h : cfg.Relaid (.detour n v) cfg') (ht : cfg.Exact cfg.finish t)
  (ht' : cfg'.Exact cfg'.finish t') (config config' : Config)
include h ht ht'

/-- A relay that is put on an edge is in no slice, and all other nodes keep their places. -/
theorem slice_detour (ha : a < cfg.size) :
    (cfg'.dependenceGraph config' t').slice a = (cfg.dependenceGraph config t).slice a := by
  apply SortedSet.ext
  intro x
  refine (h.mem_slice_place_iff ht ht' config config' ha).trans ?_
  constructor
  · intro ⟨b, hb, hbx⟩
    exact hbx ▸ hb
  · intro hx
    exact ⟨x, hx, rfl⟩

theorem forwardSlice_detour (hsize : cfg.size = n) (hsize' : cfg'.size = n + 1)
    (ha : a < cfg.size) :
    ((cfg'.dependenceGraph config' t').forwardSlice a).diff (.singleton n) =
      (cfg.dependenceGraph config t).forwardSlice a := by
  apply SortedSet.ext
  intro x
  rw [SortedSet.mem_diff, SortedSet.mem_singleton]
  by_cases hx : x < cfg.size
  · have hne : x ≠ n := Nat.ne_of_lt (hsize ▸ hx)
    rw [and_iff_left hne]
    exact h.place_mem_forwardSlice_iff ht ht' config config' hx ha
  · refine iff_of_false (fun hx' => ?_) fun hx' => hx (lt_size_of_mem_sliceAlong ht hx')
    have hlt := lt_size_of_mem_sliceAlong ht' hx'.1
    rw [hsize] at hx
    rw [hsize'] at hlt
    exact hx (Nat.lt_of_le_of_ne (Nat.le_of_lt_succ hlt) hx'.2)

end Relaid

end FlowGraph

namespace Draft

variable {d d' : Draft} {cfg cfg' : FlowGraph} {s : Statement} {k : StatementKind} {t : Terminal}
variable {a u v w x : NodeId}

/-- The second draft has one statement more than the first one, at the end, which stands on the
edge from `u` to `v` and does nothing. The terminals found in the first draft are designated in the
second one, or they are not designated and are the only statements of their kinds. -/
structure Interposed (d : Draft) (u v : NodeId) (s : Statement) (d' : Draft) : Prop where
  kind_eq : s.kind = .other
  defs_eq : s.defs = ∅
  uses_eq : s.uses = ∅
  statements_eq : d'.statements = d.statements.push s
  mem_edges_iff : ∀ e, e ∈ d'.edges ↔
    e ∈ d.edges ∧ e ≠ (u, v) ∨ e = (u, d.size) ∨ e = (d.size, v)
  terminal : ∀ t x, d.findTerminal t = .ok x →
    d'.designated? t = some x ∨ d'.designated? t = none ∧ ∀ w, w ∈ d.ofKind t.kind ↔ w = x

namespace Interposed

variable (h : d.Interposed u v s d')
include h

theorem size_eq : d'.size = d.size + 1 := by
  rw [size, h.statements_eq, Array.size_push]
  rfl

theorem statement_eq (w : NodeId) :
    d'.statements[w]? = if w = d.size then some s else d.statements[w]? := by
  rw [h.statements_eq, Array.getElem?_push]
  rfl

theorem mem_ofKind_iff (hk : k ≠ .other) : w ∈ d'.ofKind k ↔ w ∈ d.ofKind k := by
  rw [mem_ofKind, mem_ofKind, h.statement_eq]
  split
  · next hw =>
    have hnone : d.statements[w]? = none := Array.getElem?_eq_none (Nat.le_of_eq hw.symm)
    rw [hnone]
    refine iff_of_false ?_ nofun
    intro ⟨s', hs', hkind⟩
    obtain rfl := Option.some.inj hs'
    exact hk (hkind.symm.trans h.kind_eq)
  · rfl

theorem findTerminal_eq (hx : d.findTerminal t = .ok x) : d'.findTerminal t = .ok x := by
  have hlt : x < d'.size := h.size_eq ▸ Nat.lt_succ_of_lt (lt_size_of_findTerminal hx)
  refine findTerminal_eq_ok_iff.mpr ⟨hlt, (h.terminal t x hx).imp_right fun honly => ?_⟩
  have hkind : t.kind ≠ .other := by cases t <;> exact nofun
  exact ⟨honly.1, fun w => (h.mem_ofKind_iff hkind).trans (honly.2 w)⟩

theorem exists_build (hcfg : d.Yields cfg) (he : v ∈ cfg.succ u) :
    ∃ cfg', d'.build = .ok cfg' ∧ cfg'.start = cfg.start ∧ cfg'.finish = cfg.finish := by
  have hfinish : cfg.finish < d.size := hcfg.size_eq ▸ cfg.finish_lt
  obtain ⟨⟨hu, hv⟩, hne⟩ := hcfg.edges_below _ (hcfg.mem_succ_iff.mp he)
  apply Draft.exists_build (h.findTerminal_eq hcfg.start) (h.findTerminal_eq hcfg.finish)
    cfg.start_ne_finish
  intro e he'
  rw [h.size_eq]
  rcases (h.mem_edges_iff e).mp he' with ⟨hold, _⟩ | rfl | rfl
  · obtain ⟨⟨hsource, htarget⟩, hne⟩ := hcfg.edges_below e hold
    exact ⟨⟨Nat.lt_succ_of_lt hsource, Nat.lt_succ_of_lt htarget⟩, hne⟩
  · exact ⟨⟨Nat.lt_succ_of_lt hu, Nat.lt_succ_self _⟩, hne⟩
  · exact ⟨⟨Nat.lt_succ_self _, Nat.lt_succ_of_lt hv⟩, Nat.ne_of_gt hfinish⟩

section
variable (hcfg : d.Yields cfg) (hcfg' : d'.Yields cfg')
include hcfg hcfg'

theorem mem_succ_iff (he : v ∈ cfg.succ u) (ha : a < d.size) :
    w ∈ cfg.succ a ↔ ∃ x ∈ cfg'.succ a, (Placement.detour d.size v).origin x = w := by
  have hedge := hcfg.mem_succ_iff.mp he
  simp only [hcfg.mem_succ_iff, hcfg'.mem_succ_iff, h.mem_edges_iff]
  constructor
  · intro haw
    by_cases heq : (a, w) = (u, v)
    · obtain ⟨rfl, rfl⟩ := Prod.mk.inj heq
      exact ⟨d.size, .inr (.inl rfl), Placement.origin_detour_self _ _⟩
    · have hw : w ≠ d.size := Nat.ne_of_lt (hcfg.edges_below _ haw).1.2
      exact ⟨w, .inl ⟨haw, heq⟩, Placement.origin_detour_of_ne hw⟩
  · rintro ⟨x, ⟨hax, _⟩ | hax | hax, rfl⟩
    · have hx : x ≠ d.size := Nat.ne_of_lt (hcfg.edges_below _ hax).1.2
      rwa [Placement.origin_detour_of_ne hx]
    · obtain ⟨rfl, rfl⟩ := Prod.mk.inj hax
      rwa [Placement.origin_detour_self]
    · exact absurd (congrArg Prod.fst hax) (Nat.ne_of_lt ha)

theorem mem_succ_size_iff (he : v ∈ cfg.succ u) : w ∈ cfg'.succ d.size ↔ w = v := by
  have hu : u < d.size := hcfg.size_eq ▸ Digraph.lt_size_of_succ he
  rw [hcfg'.mem_succ_iff, h.mem_edges_iff]
  constructor
  · rintro (⟨hold, _⟩ | hnew | hnew)
    · exact absurd (hcfg.edges_below _ hold).1.1 (Nat.lt_irrefl _)
    · exact absurd (congrArg Prod.fst hnew) (Nat.ne_of_gt hu)
    · exact congrArg Prod.snd hnew
  · intro hw
    exact .inr (.inr (Prod.ext rfl hw))

theorem statement?_eq_of_lt (hx : x < d.size) : cfg'.statement? x = cfg.statement? x := by
  rw [hcfg.statement?_eq, hcfg'.statement?_eq, h.statement_eq, if_neg (Nat.ne_of_lt hx)]

omit hcfg in
theorem defs_size : cfg'.defs d.size = ∅ := by
  rw [FlowGraph.defs, hcfg'.statement?_eq, h.statement_eq, if_pos rfl]
  exact h.defs_eq

/-- The new node is a relay on the way to `v`. -/
theorem relaid (he : v ∈ cfg.succ u) (hr : cfg.Reaches v cfg.finish)
    (hstart : cfg'.start = cfg.start) (hfinish : cfg'.finish = cfg.finish) :
    cfg.Relaid (.detour d.size v) cfg' := by
  have hsize : cfg.size = d.size := hcfg.size_eq
  have hsize' : cfg'.size = d.size + 1 := hcfg'.size_eq.trans h.size_eq
  have hu : u < d.size := hsize ▸ Digraph.lt_size_of_succ he
  have hv : v < d.size := hsize ▸ Digraph.lt_size_of_mem_succ he
  have hrelay : ∀ {x}, (Placement.detour d.size v).IsRelay x → x = d.size :=
    (Placement.isRelay_detour_iff hv).mp
  have hstatement : ∀ {x}, x < cfg.size → cfg'.statement? x = cfg.statement? x := fun hx =>
    h.statement?_eq_of_lt hcfg hcfg' (hsize ▸ hx)
  exact
    { place_lt := by
        rw [hsize, hsize']
        exact Nat.lt_succ_of_lt
      origin_lt := by
        rw [hsize, hsize']
        exact Placement.origin_detour_lt hv
      origin_place := fun hx => Placement.origin_detour_of_ne (Nat.ne_of_lt (hsize ▸ hx))
      mem_succ_iff := fun hx => h.mem_succ_iff hcfg hcfg' he (hsize ▸ hx)
      exists_pred_relay := by
        intro x _ hx
        obtain rfl := hrelay hx
        refine ⟨u, hsize ▸ hu, hcfg'.mem_succ_iff.mpr ?_⟩
        exact (h.mem_edges_iff _).mpr (.inr (.inl rfl))
      mem_succ_relay_iff := by
        intro x w _ hx
        obtain rfl := hrelay hx
        rw [Placement.origin_detour_self]
        exact h.mem_succ_size_iff hcfg hcfg' he
      start_eq := hstart
      finish_eq := hfinish
      defs_place := fun hx => congrArg (·.elim ∅ Statement.defs) (hstatement hx)
      uses_place := fun hx => congrArg (·.elim ∅ Statement.uses) (hstatement hx)
      defs_relay := fun _ hx => hrelay hx ▸ h.defs_size hcfg'
      reaches_relay := by
        intro x _ hx
        rw [hrelay hx, Placement.origin_detour_self]
        exact hr }

end

end Interposed

/-- If a flow graph passes the check of reachability and a statement that does nothing is put on
one of its edges, then the result can be built and passes the check. Nothing depends on the new
node. Every node of the first dependence graph has the same slice in the second one, and the same
forward slice apart from the new node. -/
theorem slices_unchanged_by_interposition (h : d.Interposed u v s d') (hb : d.build = .ok cfg)
    (hcheck : cfg.checkReachability = .ok ()) (he : v ∈ cfg.succ u) :
    ∃ cfg', d'.build = .ok cfg' ∧ cfg'.start = cfg.start ∧ cfg'.finish = cfg.finish ∧
      cfg'.checkReachability = .ok () ∧
      ∀ config config', ∃ g g', (cfg.buildDependenceGraph config).result = .ok g ∧
        (cfg'.buildDependenceGraph config').result = .ok g' ∧
        g'.dependents d.size = {} ∧
        ∀ a ∈ g, g'.slice a = g.slice a ∧
          (g'.forwardSlice a).diff (.singleton d.size) = g.forwardSlice a := by
  have hcfg := yields_of_build hb
  obtain ⟨cfg', hb', hstart, hfinish⟩ := h.exists_build hcfg he
  have hcfg' := yields_of_build hb'
  have hr := (FlowGraph.checkReachability_eq_ok_iff.mp hcheck v (Digraph.lt_size_of_mem_succ he)).2
  have hrelaid := h.relaid hcfg hcfg' he hr hstart hfinish
  have hcheck' := hrelaid.checkReachability_iff.mpr hcheck
  refine ⟨cfg', hb', hstart, hfinish, hcheck', fun config config' => ?_⟩
  obtain ⟨t, hok, ht⟩ := cfg.exists_exact
  obtain ⟨t', hok', ht'⟩ := cfg'.exists_exact
  have hsize : cfg.size = d.size := hcfg.size_eq
  have hsize' : cfg'.size = d.size + 1 := hcfg'.size_eq.trans h.size_eq
  refine ⟨_, _, FlowGraph.result_buildDependenceGraph config hcheck hok,
    FlowGraph.result_buildDependenceGraph config' hcheck' hok', ?_, fun a ha => ?_⟩
  · have hv : v < d.size := hsize ▸ Digraph.lt_size_of_mem_succ he
    exact hrelaid.dependents_relay ht' config' (hsize' ▸ Nat.lt_succ_self _)
      ((Placement.isRelay_detour_iff hv).mpr rfl)
  · have hlt := (FlowGraph.mem_dependenceGraph.mp ha).1
    exact ⟨hrelaid.slice_detour ht ht' config config' hlt,
      hrelaid.forwardSlice_detour ht ht' config config' hsize hsize' hlt⟩

/-- A statement that repeats itself, and one that reads the result. -/
def spinning : Draft where
  statements := #[.start, Statement.addDefs {} ["x"], (Statement.addDefs {} ["x"]).addUses ["x"],
    Statement.addUses {} ["x"], .finish]
  edges := #[(0, 1), (1, 2), (2, 2), (2, 3), (2, 2), (3, 4)]

/-- The same with a pause before each repetition. -/
def paused : Draft where
  statements := spinning.statements.push {}
  edges := #[(2, 5), (5, 2), (0, 1), (1, 2), (2, 3), (3, 4)]
  start? := some 0

theorem interposed_paused : spinning.Interposed 2 2 {} paused where
  kind_eq := rfl
  defs_eq := rfl
  uses_eq := rfl
  statements_eq := rfl
  mem_edges_iff := by
    have hforward : ∀ e ∈ paused.edges,
        e ∈ spinning.edges ∧ e ≠ (2, 2) ∨ e = (2, 5) ∨ e = (5, 2) := by decide +kernel
    have hback : ∀ e ∈ spinning.edges, e ≠ (2, 2) → e ∈ paused.edges := by decide +kernel
    have hnew : (2, 5) ∈ paused.edges ∧ (5, 2) ∈ paused.edges := by decide +kernel
    intro e
    constructor
    · exact hforward e
    · rintro (⟨he, hne⟩ | rfl | rfl)
      · exact hback e he hne
      · exact hnew.1
      · exact hnew.2
  terminal := by
    have hstart : spinning.findTerminal .start = .ok 0 := by decide +kernel
    have hfinish : spinning.findTerminal .finish = .ok 4 := by decide +kernel
    have honly : spinning.ofKind .finish = [4] := by decide +kernel
    intro t x hx
    cases t with
    | start => exact .inl (congrArg some (Except.ok.inj (hstart.symm.trans hx)))
    | finish =>
      obtain rfl := Except.ok.inj (hfinish.symm.trans hx)
      exact .inr ⟨rfl, ofKind_eq_singleton_iff.mp honly⟩

theorem paused_slices :
    spinning.Interposed 2 2 {} paused ∧
      ∃ cfg cfg', spinning.build = .ok cfg ∧ cfg.checkReachability = .ok () ∧ 2 ∈ cfg.succ 2 ∧
        paused.build = .ok cfg' ∧ cfg'.checkReachability = .ok () ∧
        ∃ g g', cfg.buildDependenceGraph.result = .ok g ∧
          cfg'.buildDependenceGraph.result = .ok g' ∧ g'.dependents 5 = {} ∧
          (g.slice 3).toList = [1, 2, 3] ∧ g'.slice 3 = g.slice 3 ∧
          (g.forwardSlice 2).toList = [2, 3] ∧
          (g'.forwardSlice 2).diff (.singleton 5) = g.forwardSlice 2 := by
  have hvalues : (spinning.build.toOption.bind fun cfg =>
      cfg.buildDependenceGraph.result.toOption.map fun g =>
        (decide (cfg.checkReachability = .ok () ∧ 2 ∈ cfg.succ 2 ∧ 2 ∈ g ∧ 3 ∈ g),
          (g.slice 3).toList, (g.forwardSlice 2).toList)) = some (true, [1, 2, 3], [2, 3]) := by
    decide +kernel
  cases hb : spinning.build with
  | error e =>
    rw [hb] at hvalues
    exact nomatch hvalues
  | ok cfg =>
    rw [hb] at hvalues
    obtain ⟨g, hg, hvalues⟩ := Option.map_eq_some_iff.mp hvalues
    simp only [Prod.mk.injEq, decide_eq_true_eq] at hvalues
    obtain ⟨⟨hcheck, hedge, htwo, hthree⟩, hslice, hforward⟩ := hvalues
    obtain ⟨cfg', hb', _, _, hcheck', hgraphs⟩ :=
      slices_unchanged_by_interposition interposed_paused hb hcheck hedge
    obtain ⟨g₀, g', hg₀, hg', hnone, hslices⟩ := hgraphs {} {}
    rw [hg₀] at hg
    obtain rfl := Option.some.inj hg
    exact ⟨interposed_paused, cfg, cfg', rfl, hcheck, hedge, hb', hcheck', g₀, g', hg₀, hg', hnone,
      hslice, (hslices 3 hthree).1, hforward, (hslices 2 htwo).2⟩

end Draft

end Slicing
