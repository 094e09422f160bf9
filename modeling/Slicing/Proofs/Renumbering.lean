import Mathlib.Data.Set.Function
import Slicing.Proofs.Drafts
import Slicing.Proofs.Relays

/-!
# Results do not depend on the numbering

A draft may list the same statements and edges in another order. Its nodes then have other
numbers, and all searches, sweeps and slices go through them in other orders. The flow graph that
it is built into is nevertheless the same up to the numbers, which is a placement without relays,
and so are all results: terminals, the outcome of the check, immediate postdominators,
dependences and slices.
-/
namespace Slicing

def SortedSet.image (s : NodeSet) (p : NodeId → NodeId) : NodeSet := .ofList (s.toList.map p)

@[simp]
theorem SortedSet.mem_image {s : NodeSet} {p : NodeId → NodeId} {w : NodeId} :
    w ∈ s.image p ↔ ∃ v ∈ s, p v = w := by
  simp [image]

def EdgeSet.image (s : EdgeSet) (p : NodeId → NodeId) : EdgeSet :=
  ⟨s.data.image p, s.control.image p⟩

theorem EdgeSet.eq_image {s s' : EdgeSet} {p : NodeId → NodeId}
    (h : ∀ kind, s'.ofKind kind = (s.ofKind kind).image p) : s' = s.image p := by
  obtain ⟨data, control⟩ := s'
  have hdata : data = s.data.image p := h .data
  have hcontrol : control = s.control.image p := h .control
  rw [image, hdata, hcontrol]

/-- The placement that gives the nodes below `n` other numbers. -/
noncomputable def Placement.renumber (n : Nat) (p : NodeId → NodeId) : Placement where
  place := p
  origin := Function.invFunOn p (Set.Iio n)

theorem Placement.not_isRelay_renumber {n : Nat} {p : NodeId → NodeId} {v : NodeId}
    (hp : Set.BijOn p (Set.Iio n) (Set.Iio n)) (hv : v < n) : ¬(renumber n p).IsRelay v :=
  not_not.mpr (hp.invOn_invFunOn.2 hv)

namespace FlowGraph

namespace Relaid

variable {f : Placement} {cfg cfg' : FlowGraph} {t t' : PostdominatorTree} {d v : NodeId}
variable (h : cfg.Relaid f cfg') (hnodes : ∀ v < cfg'.size, ¬f.IsRelay v)
include h hnodes

theorem isImmediatePostdominator_place (hv : v < cfg.size)
    (hd : cfg.IsImmediatePostdominator cfg.finish d v) :
    cfg'.IsImmediatePostdominator cfg'.finish (f.place d) (f.place v) := by
  have hlt : d < cfg.size := hd.1.2.lt_size hv
  have hiff : ∀ {a b}, a < cfg.size → b < cfg.size →
      (cfg'.Postdominates cfg'.finish (f.place a) (f.place b) ↔
        cfg.Postdominates cfg.finish a b) := by
    intro a b ha hb
    rw [h.postdominates_place_iff ha (h.place_lt hb), h.origin_place hb]
  refine ⟨⟨mt (h.place_inj hlt hv).mp hd.1.1, (hiff hlt hv).mpr hd.1.2⟩, ?_⟩
  intro a ha hne
  have halt : a < cfg'.size := ha.2.lt_size (h.place_lt hv)
  have horigin := h.origin_lt halt
  rw [← Placement.place_origin (hnodes a halt)] at ha hne ⊢
  have hstrict : cfg.StrictlyPostdominates cfg.finish (f.origin a) v :=
    ⟨mt (congrArg f.place) ha.1, (hiff horigin hv).mp ha.2⟩
  exact (hiff horigin hlt).mpr (hd.2 _ hstrict (mt (congrArg f.place) hne))

theorem eq_image {S S' : NodeSet} (hS : ∀ v ∈ S, v < cfg.size) (hS' : ∀ v ∈ S', v < cfg'.size)
    (hiff : ∀ v < cfg.size, (f.place v ∈ S' ↔ v ∈ S)) : S' = S.image f.place := by
  apply SortedSet.ext
  intro w
  rw [SortedSet.mem_image]
  constructor
  · intro hw
    have hplace := Placement.place_origin (hnodes w (hS' w hw))
    exact ⟨f.origin w, (hiff _ (h.origin_lt (hS' w hw))).mp (hplace.symm ▸ hw), hplace⟩
  · intro ⟨v, hv, hplace⟩
    exact hplace ▸ (hiff v (hS v hv)).mpr hv

section
variable (ht : cfg.Exact cfg.finish t) (ht' : cfg'.Exact cfg'.finish t')
include ht ht'

theorem immediate?_place (hv : v < cfg.size) :
    t'.immediate? (f.place v) = (t.immediate? v).map f.place := by
  have hreaches : cfg'.Reaches (f.place v) cfg'.finish ↔ cfg.Reaches v cfg.finish := by
    rw [h.finish_eq, h.reaches_place_iff hv cfg.finish_lt]
  by_cases hfinish : v = cfg.finish
  · rw [hfinish, ht.immediate?_exit, ← h.finish_eq, ht'.immediate?_exit]
    exact congrArg some h.finish_eq
  · cases hd : t.immediate? v with
    | none =>
      have hnot : v ∉ t := by
        rw [PostdominatorTree.mem_def, hd]
        exact nofun
      have hnot' : f.place v ∉ t' := fun hmem =>
        hnot (ht.mem_iff.mpr (hreaches.mp (ht'.mem_iff.mp hmem)))
      exact Option.not_isSome_iff_eq_none.mp hnot'
    | some d =>
      have hmem : v ∈ t := by
        rw [PostdominatorTree.mem_def, hd]
        rfl
      have hr := hreaches.mpr (ht.mem_iff.mp hmem)
      obtain ⟨d', hd'⟩ := ht'.exists_immediate? hr
      have himm := h.isImmediatePostdominator_place hnodes hv
        (ht.isImmediatePostdominator hd hfinish)
      have himm' := ht'.isImmediatePostdominator hd' ((h.place_ne_finish_iff hv).mpr hfinish)
      rw [hd', himm'.unique himm hr]
      rfl

theorem dependentsOf_place (hv : v < cfg.size) (kind : Dependence) :
    cfg'.dependentsOf t' (f.place v) kind = (cfg.dependentsOf t v kind).image f.place :=
  h.eq_image hnodes (fun _ => lt_size_of_mem_dependentsOf ht)
    (fun _ => lt_size_of_mem_dependentsOf ht')
    fun _ hw => h.place_mem_dependentsOf_iff ht ht' hv hw

theorem edges_place {config config' : Config} (dir : Direction) (hv : v < cfg.size) :
    (cfg'.dependenceGraph config' t').edges dir (f.place v) =
      ((cfg.dependenceGraph config t).edges dir v).image f.place := by
  have hg := mirrored_dependenceGraph ht config
  have hg' := mirrored_dependenceGraph ht' config'
  apply EdgeSet.eq_image
  intro kind
  refine h.eq_image hnodes (fun _ hw => (lt_size_of_mem_edges ht hw).2)
    (fun _ hw => (lt_size_of_mem_edges ht' hw).2) ?_
  intro w hw
  cases dir with
  | backward =>
    exact hg'.mem_iff.symm.trans
      ((h.place_mem_dependents_iff ht ht' config config' hw hv).trans hg.mem_iff)
  | forward => exact h.place_mem_dependents_iff ht ht' config config' hv hw

theorem sliceAlong_place {config config' : Config} (dir : Direction) (hv : v < cfg.size) :
    (cfg'.dependenceGraph config' t').sliceAlong dir (f.place v) =
      ((cfg.dependenceGraph config t).sliceAlong dir v).image f.place := by
  refine h.eq_image hnodes (fun _ => lt_size_of_mem_sliceAlong ht)
    (fun _ => lt_size_of_mem_sliceAlong ht') ?_
  intro w hw
  cases dir with
  | backward => exact h.place_mem_slice_iff ht ht' config config' hw hv
  | forward => exact h.place_mem_forwardSlice_iff ht ht' config config' hw hv

end

end Relaid

end FlowGraph

namespace Draft

variable {d d' : Draft} {p : NodeId → NodeId} {cfg cfg' : FlowGraph} {t : Terminal}
variable {v w : NodeId}

/-- The second draft lists the statements of the first one at other numbers, has the same edges
between them, in any order and with any repetitions, and designates the same terminals. -/
structure Renumbered (d : Draft) (p : NodeId → NodeId) (d' : Draft) : Prop where
  bijOn : Set.BijOn p (Set.Iio d.size) (Set.Iio d.size)
  size_eq : d'.size = d.size
  statement_eq : ∀ v < d.size, d'.statements[p v]? = d.statements[v]?
  mem_edges_iff : ∀ e, e ∈ d'.edges ↔ ∃ e₀ ∈ d.edges, (p e₀.1, p e₀.2) = e
  designated?_eq : ∀ t, d'.designated? t = (d.designated? t).map p

namespace Renumbered

theorem findTerminal_eq (h : d.Renumbered p d') (hv : d.findTerminal t = .ok v) :
    d'.findTerminal t = .ok (p v) := by
  rw [findTerminal_eq_ok_iff] at hv ⊢
  obtain ⟨hlt, hfound⟩ := hv
  refine ⟨h.size_eq ▸ h.bijOn.mapsTo hlt, ?_⟩
  rw [h.designated?_eq]
  cases hfound with
  | inl hsome => exact .inl (congrArg (Option.map p) hsome)
  | inr honly =>
    refine .inr ⟨congrArg (Option.map p) honly.1, fun w => ?_⟩
    constructor
    · intro hw
      obtain ⟨s, hs, hkind⟩ := mem_ofKind.mp hw
      have hwlt : w < d.size := h.size_eq ▸ (Array.getElem?_eq_some_iff.mp hs).1
      obtain ⟨u, hu, rfl⟩ := h.bijOn.surjOn hwlt
      rw [h.statement_eq u hu] at hs
      exact congrArg p ((honly.2 u).mp (mem_ofKind.mpr ⟨s, hs, hkind⟩))
    · intro hw
      obtain ⟨s, hs, hkind⟩ := mem_ofKind.mp ((honly.2 v).mpr rfl)
      rw [hw, mem_ofKind, h.statement_eq v hlt]
      exact ⟨s, hs, hkind⟩

theorem exists_build (h : d.Renumbered p d') (hcfg : d.Yields cfg) :
    ∃ cfg', d'.build = .ok cfg' ∧ cfg'.start = p cfg.start ∧ cfg'.finish = p cfg.finish := by
  have hsize := hcfg.size_eq
  apply Draft.exists_build (h.findTerminal_eq hcfg.start) (h.findTerminal_eq hcfg.finish)
  · intro heq
    exact cfg.start_ne_finish (h.bijOn.injOn (hsize ▸ cfg.start_lt) (hsize ▸ cfg.finish_lt) heq)
  · intro e he
    obtain ⟨e₀, he₀, rfl⟩ := (h.mem_edges_iff e).mp he
    obtain ⟨⟨hsource, htarget⟩, hne⟩ := hcfg.edges_below e₀ he₀
    rw [h.size_eq]
    refine ⟨⟨h.bijOn.mapsTo hsource, h.bijOn.mapsTo htarget⟩, ?_⟩
    exact fun heq => hne (h.bijOn.injOn hsource (hsize ▸ cfg.finish_lt) heq)

theorem mem_succ_iff (h : d.Renumbered p d') (hcfg : d.Yields cfg) (hcfg' : d'.Yields cfg')
    (hv : v < d.size) :
    w ∈ cfg.succ v ↔ ∃ s ∈ cfg'.succ (p v), (Placement.renumber d.size p).origin s = w := by
  have horigin : ∀ {v}, v < d.size → (Placement.renumber d.size p).origin (p v) = v := fun hv =>
    h.bijOn.invOn_invFunOn.1 hv
  simp only [hcfg.mem_succ_iff, hcfg'.mem_succ_iff, h.mem_edges_iff]
  constructor
  · intro he
    exact ⟨p w, ⟨(v, w), he, rfl⟩, horigin (hcfg.edges_below _ he).1.2⟩
  · intro ⟨s, ⟨⟨a, b⟩, he, heq⟩, hs⟩
    obtain ⟨⟨ha, hb⟩, _⟩ := hcfg.edges_below _ he
    obtain ⟨hav, rfl⟩ := Prod.mk.inj heq
    rw [horigin hb] at hs
    rwa [← h.bijOn.injOn ha hv hav, ← hs]

/-- The flow graphs of the two drafts differ in the numbers of their nodes only. -/
theorem relaid (h : d.Renumbered p d') (hcfg : d.Yields cfg) (hcfg' : d'.Yields cfg')
    (hstart : cfg'.start = p cfg.start) (hfinish : cfg'.finish = p cfg.finish) :
    cfg.Relaid (.renumber d.size p) cfg' := by
  have hsize : cfg.size = d.size := hcfg.size_eq
  have hsize' : cfg'.size = d.size := hcfg'.size_eq.trans h.size_eq
  have hnode : ∀ {v}, v < cfg'.size → ¬(Placement.renumber d.size p).IsRelay v := fun hv =>
    Placement.not_isRelay_renumber h.bijOn (hsize' ▸ hv)
  have hstatement : ∀ {v}, v < cfg.size → cfg'.statement? (p v) = cfg.statement? v := by
    intro v hv
    rw [hcfg.statement?_eq, hcfg'.statement?_eq, h.statement_eq v (hsize ▸ hv)]
  exact
    { place_lt := by
        rw [hsize, hsize']
        exact fun hv => h.bijOn.mapsTo hv
      origin_lt := by
        rw [hsize, hsize']
        exact fun hv => h.bijOn.surjOn.mapsTo_invFunOn hv
      origin_place := by
        rw [hsize]
        exact fun hv => h.bijOn.invOn_invFunOn.1 hv
      mem_succ_iff := fun hv => h.mem_succ_iff hcfg hcfg' (hsize ▸ hv)
      exists_pred_relay := fun hv hrelay => absurd hrelay (hnode hv)
      mem_succ_relay_iff := fun hv hrelay => absurd hrelay (hnode hv)
      start_eq := hstart
      finish_eq := hfinish
      defs_place := fun hv => congrArg (·.elim ∅ Statement.defs) (hstatement hv)
      uses_place := fun hv => congrArg (·.elim ∅ Statement.uses) (hstatement hv)
      defs_relay := fun hv hrelay => absurd hrelay (hnode hv)
      reaches_relay := fun hv hrelay => absurd hrelay (hnode hv) }

end Renumbered

/-- If a draft can be built, so can every draft that lists the same statements and edges with
other numbers. All results are the same up to the numbers: the terminals, whether the check of
reachability passes, the immediate postdominator of each node, what it controls and feeds, its
edges in the dependence graph, and its slices in both directions. -/
theorem results_follow_renumbering (h : d.Renumbered p d') (hb : d.build = .ok cfg) :
    ∃ cfg', d'.build = .ok cfg' ∧ cfg'.start = p cfg.start ∧ cfg'.finish = p cfg.finish ∧
      (cfg'.checkReachability = .ok () ↔ cfg.checkReachability = .ok ()) ∧
      ∃ t t', cfg.postdominatorTree = .ok t ∧ cfg'.postdominatorTree = .ok t' ∧
        (∀ v < d.size,
          t'.immediate? (p v) = (t.immediate? v).map p ∧
          cfg'.controlledBy t' (p v) = (cfg.controlledBy t v).image p ∧
          cfg'.fedBy (p v) = (cfg.fedBy v).image p) ∧
        ∀ config config', (config.checked → cfg.checkReachability = .ok ()) →
          (config'.checked → cfg'.checkReachability = .ok ()) →
          ∃ g g', (cfg.buildDependenceGraph config).result = .ok g ∧
            (cfg'.buildDependenceGraph config').result = .ok g' ∧
            ∀ v < d.size,
              g'.dependents (p v) = (g.dependents v).image p ∧
              g'.dependencies (p v) = (g.dependencies v).image p ∧
              g'.slice (p v) = (g.slice v).image p ∧
              g'.forwardSlice (p v) = (g.forwardSlice v).image p := by
  have hcfg := yields_of_build hb
  obtain ⟨cfg', hb', hstart, hfinish⟩ := h.exists_build hcfg
  have hcfg' := yields_of_build hb'
  have hrelaid := h.relaid hcfg hcfg' hstart hfinish
  have hnodes : ∀ v < cfg'.size, ¬(Placement.renumber d.size p).IsRelay v := fun v hv =>
    Placement.not_isRelay_renumber h.bijOn (hcfg'.size_eq.trans h.size_eq ▸ hv)
  obtain ⟨t, hok, ht⟩ := cfg.exists_exact
  obtain ⟨t', hok', ht'⟩ := cfg'.exists_exact
  refine ⟨cfg', hb', hstart, hfinish, hrelaid.checkReachability_iff, t, t', hok, hok', ?_, ?_⟩
  · intro v hv
    have hlt : v < cfg.size := hcfg.size_eq ▸ hv
    exact ⟨hrelaid.immediate?_place hnodes ht ht' hlt,
      hrelaid.dependentsOf_place hnodes ht ht' hlt .control,
      hrelaid.dependentsOf_place hnodes ht ht' hlt .data⟩
  · intro config config' hadmitted hadmitted'
    refine ⟨_, _, FlowGraph.result_of_admitted hadmitted hok,
      FlowGraph.result_of_admitted hadmitted' hok', ?_⟩
    intro v hv
    have hlt : v < cfg.size := hcfg.size_eq ▸ hv
    exact ⟨hrelaid.edges_place hnodes ht ht' .forward hlt,
      hrelaid.edges_place hnodes ht ht' .backward hlt,
      hrelaid.sliceAlong_place hnodes ht ht' .backward hlt,
      hrelaid.sliceAlong_place hnodes ht ht' .forward hlt⟩

/-- A counting loop whose header may also lead to a statement that is repeated for ever. -/
def looping : Draft where
  statements := #[.start, Statement.addDefs {} ["x"], Statement.addUses {} ["x"],
    (Statement.addDefs {} ["x"]).addUses ["x"], .finish, {}]
  edges := #[(0, 1), (1, 2), (2, 3), (2, 4), (2, 5), (3, 2), (5, 5)]
  start? := some 0

def shuffle (v : NodeId) : NodeId := [3, 0, 5, 1, 2, 4].getD v v

/-- The same loop, listed in another order and with two edges given twice. -/
def shuffled : Draft where
  statements := #[Statement.addDefs {} ["x"], (Statement.addDefs {} ["x"]).addUses ["x"], .finish,
    .start, {}, Statement.addUses {} ["x"]]
  edges := #[(4, 4), (5, 2), (1, 5), (5, 4), (1, 5), (5, 1), (0, 5), (3, 0), (5, 2)]
  start? := some 3

theorem renumbered_shuffled : looping.Renumbered shuffle shuffled where
  bijOn := by
    have hmaps : ∀ v < 6, shuffle v < 6 := by decide
    have hinj : ∀ v < 6, ∀ w < 6, shuffle v = shuffle w → v = w := by decide
    have hsurj : ∀ w < 6, ∃ v < 6, shuffle v = w := by decide
    exact ⟨hmaps, fun v hv w hw => hinj v hv w hw, hsurj⟩
  size_eq := rfl
  statement_eq := by decide +kernel
  mem_edges_iff := by
    have hforward : ∀ e ∈ shuffled.edges,
        ∃ e₀ ∈ looping.edges, (shuffle e₀.1, shuffle e₀.2) = e := by decide +kernel
    have hback : ∀ e₀ ∈ looping.edges, (shuffle e₀.1, shuffle e₀.2) ∈ shuffled.edges := by
      decide +kernel
    intro e
    constructor
    · exact hforward e
    · intro ⟨e₀, he₀, heq⟩
      exact heq ▸ hback e₀ he₀
  designated?_eq := by
    intro t
    cases t <;> rfl

theorem shuffled_results :
    looping.Renumbered shuffle shuffled ∧
      ∃ cfg cfg', looping.build = .ok cfg ∧ shuffled.build = .ok cfg' ∧ cfg'.finish = 2 ∧
        (∃ t t', cfg.postdominatorTree = .ok t ∧ cfg'.postdominatorTree = .ok t' ∧
          t'.immediate? 5 = (t.immediate? 2).map shuffle ∧
          t'.immediate? 4 = (t.immediate? 5).map shuffle) ∧
        ∃ g g', cfg.buildDependenceGraph.result = .ok g ∧
          cfg'.buildDependenceGraph.result = .ok g' ∧ (g.slice 3).toList = [1, 2, 3] ∧
          g'.slice 1 = (g.slice 3).image shuffle ∧
          g'.dependents 5 = (g.dependents 2).image shuffle := by
  have hvalues : looping.build.toOption.bind (fun cfg =>
      cfg.buildDependenceGraph.result.toOption.map fun g => (cfg.finish, (g.slice 3).toList)) =
        some (4, [1, 2, 3]) := by decide +kernel
  cases hb : looping.build with
  | error e =>
    rw [hb] at hvalues
    exact nomatch hvalues
  | ok cfg =>
    obtain ⟨cfg', hb', _, hfinish, _, t, t', hok, hok', htrees, hgraphs⟩ :=
      results_follow_renumbering renumbered_shuffled hb
    obtain ⟨g, g', hg, hg', hall⟩ := hgraphs {} {} nofun nofun
    rw [hb] at hvalues
    have hvalues : (cfg.buildDependenceGraph.result.toOption.map fun g =>
        (cfg.finish, (g.slice 3).toList)) = some (4, [1, 2, 3]) := hvalues
    rw [hg] at hvalues
    obtain ⟨hfour, hslice⟩ := Prod.mk.inj (Option.some.inj hvalues)
    rw [hfour] at hfinish
    exact ⟨renumbered_shuffled, cfg, cfg', rfl, hb', hfinish,
      ⟨t, t', hok, hok', (htrees 2 (by decide)).1, (htrees 5 (by decide)).1⟩,
      g, g', hg, hg', hslice, (hall 3 (by decide)).2.2.1, (hall 2 (by decide)).1⟩

end Draft

end Slicing
