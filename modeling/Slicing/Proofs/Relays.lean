import Slicing.Proofs.Branches
import Slicing.Proofs.EdgeMirror
import Slicing.Proofs.ReachingDefinitions

/-!
# Other numbers and relays

Two flow graphs stand for the same procedure if they differ in the numbers of their nodes only,
or if one of them has relays on some edges: nodes with one successor that assign nothing. A
`Placement` says where the nodes of one graph stand in the other, and which node is met next from
each place. The relation `Relaid` covers both cases at once.

Nothing that the analyses compute can be compared step by step, since all orders change. What is
compared are paths: the nodes that a path passes, relays apart, make a path of the other graph,
and every path comes from one. Reachability, postdominance and the ways of values are determined
by paths, dependences by these, and slices by dependences.

A relay on the way to nowhere is different: it has no postdominator but itself. So relays must
lead to the finish.
-/
namespace Slicing

/-- Where each node of one graph stands in another one, and which node stands at each place or is
met next from there. -/
structure Placement where
  place : NodeId → NodeId
  origin : NodeId → NodeId

namespace Placement

variable {f : Placement} {v : NodeId} {p : List NodeId}

/-- At a relay no node stands. -/
def IsRelay (f : Placement) (v : NodeId) : Prop := f.place (f.origin v) ≠ v

instance (f : Placement) (v : NodeId) : Decidable (f.IsRelay v) :=
  inferInstanceAs (Decidable (f.place (f.origin v) ≠ v))

theorem place_origin (h : ¬f.IsRelay v) : f.place (f.origin v) = v := not_not.mp h

def passed (f : Placement) (p : List NodeId) : List NodeId :=
  (p.filter (¬f.IsRelay ·)).map f.origin

theorem passed_cons_of_isRelay (h : f.IsRelay v) : f.passed (v :: p) = f.passed p := by
  simp [passed, h]

theorem passed_cons_of_not_isRelay (h : ¬f.IsRelay v) :
    f.passed (v :: p) = f.origin v :: f.passed p := by
  simp [passed, h]

end Placement

variable {f : Placement}

namespace Digraph

variable {g g' : Digraph} {a b exit u v w : NodeId} {p : List NodeId}

/-- The second graph is the first one with its nodes at other places and with relays on some of
its edges. From the place of a node one gets where the node leads, a relay follows some node, and
from a relay one gets to the next node and nowhere else. -/
structure Relaid (g : Digraph) (f : Placement) (g' : Digraph) : Prop where
  place_lt : ∀ {v}, v < g.size → f.place v < g'.size
  origin_lt : ∀ {v}, v < g'.size → f.origin v < g.size
  origin_place : ∀ {v}, v < g.size → f.origin (f.place v) = v
  mem_succ_iff : ∀ {v w}, v < g.size →
    (w ∈ g.succ v ↔ ∃ s ∈ g'.succ (f.place v), f.origin s = w)
  exists_pred_relay : ∀ {v}, v < g'.size → f.IsRelay v → ∃ u < g.size, v ∈ g'.succ (f.place u)
  mem_succ_relay_iff : ∀ {v w}, v < g'.size → f.IsRelay v →
    (w ∈ g'.succ v ↔ w = f.place (f.origin v))

namespace Relaid

variable (h : g.Relaid f g')
include h

theorem not_isRelay_place (hv : v < g.size) : ¬f.IsRelay (f.place v) := by
  rw [Placement.IsRelay, h.origin_place hv]
  exact not_not.mpr rfl

theorem place_inj (hv : v < g.size) (hw : w < g.size) : f.place v = f.place w ↔ v = w := by
  constructor
  · intro heq
    rw [← h.origin_place hv, heq, h.origin_place hw]
  · exact congrArg f.place

theorem exists_succ_iff {Q : NodeId → Prop} (hv : v < g.size) :
    (∃ s ∈ g'.succ (f.place v), Q (f.origin s)) ↔ ∃ w ∈ g.succ v, Q w := by
  constructor
  · intro ⟨s, hs, hQ⟩
    exact ⟨_, (h.mem_succ_iff hv).mpr ⟨s, hs, rfl⟩, hQ⟩
  · intro ⟨w, hw, hQ⟩
    obtain ⟨s, hs, rfl⟩ := (h.mem_succ_iff hv).mp hw
    exact ⟨s, hs, hQ⟩

/-! ## Paths -/

theorem mem_passed_iff (hv : v < g.size) : v ∈ f.passed p ↔ f.place v ∈ p := by
  rw [Placement.passed, List.mem_map]
  constructor
  · intro ⟨s, hs, horigin⟩
    rw [List.mem_filter, decide_eq_true_eq] at hs
    rw [← horigin, Placement.place_origin hs.2]
    exact hs.1
  · intro hp
    refine ⟨f.place v, ?_, h.origin_place hv⟩
    rw [List.mem_filter, decide_eq_true_eq]
    exact ⟨hp, h.not_isRelay_place hv⟩

theorem passed_place_cons (hv : v < g.size) :
    f.passed (f.place v :: p) = v :: f.passed p := by
  rw [Placement.passed_cons_of_not_isRelay (h.not_isRelay_place hv), h.origin_place hv]

theorem exists_path (hp : g.Path u p v) :
    ∃ q, g'.Path (f.place u) q (f.place v) ∧ f.passed q = p := by
  induction hp with
  | @single v hv =>
    exact ⟨[f.place v], .single (h.place_lt hv), h.passed_place_cons hv⟩
  | @cons u w v p hw _ ih =>
    obtain ⟨q, hq, hpassed⟩ := ih
    have hu := lt_size_of_succ hw
    obtain ⟨s, hs, rfl⟩ := (h.mem_succ_iff hu).mp hw
    by_cases hrelay : f.IsRelay s
    · have hnext := (h.mem_succ_relay_iff (lt_size_of_mem_succ hs) hrelay).mpr rfl
      refine ⟨f.place u :: s :: q, .cons hs (.cons hnext hq), ?_⟩
      rw [h.passed_place_cons hu, Placement.passed_cons_of_isRelay hrelay, hpassed]
    · rw [Placement.place_origin hrelay] at hq
      refine ⟨f.place u :: q, .cons hs hq, ?_⟩
      rw [h.passed_place_cons hu, hpassed]

theorem path_passed (hv : v < g.size) (hp : g'.Path u p (f.place v)) :
    g.Path (f.origin u) (f.passed p) v := by
  generalize hz : f.place v = z at hp
  induction hp with
  | single _ =>
    rw [← hz, h.passed_place_cons hv, h.origin_place hv]
    exact .single hv
  | @cons u s z p hs _ ih =>
    have hu := lt_size_of_succ hs
    by_cases hrelay : f.IsRelay u
    · have hnext := (h.mem_succ_relay_iff hu hrelay).mp hs
      have horigin : f.origin s = f.origin u := by rw [hnext, h.origin_place (h.origin_lt hu)]
      rw [Placement.passed_cons_of_isRelay hrelay, ← horigin]
      exact ih hz
    · rw [Placement.passed_cons_of_not_isRelay hrelay]
      refine .cons ((h.mem_succ_iff (h.origin_lt hu)).mpr ⟨s, ?_, rfl⟩) (ih hz)
      rwa [Placement.place_origin hrelay]

/-- From every place one can go on to the place of its origin. -/
theorem reaches_place_origin (hu : u < g'.size) : g'.Reaches u (f.place (f.origin u)) := by
  by_cases hrelay : f.IsRelay u
  · have hnext := (h.mem_succ_relay_iff hu hrelay).mpr rfl
    exact .head hnext (.refl (lt_size_of_mem_succ hnext))
  · rw [Placement.place_origin hrelay]
    exact .refl hu

theorem reaches_iff (hu : u < g'.size) (hv : v < g.size) :
    g'.Reaches u (f.place v) ↔ g.Reaches (f.origin u) v := by
  constructor
  · intro ⟨p, hp⟩
    exact ⟨_, h.path_passed hv hp⟩
  · intro ⟨p, hp⟩
    obtain ⟨q, hq, _⟩ := h.exists_path hp
    exact (h.reaches_place_origin hu).trans ⟨q, hq⟩

theorem reaches_place_iff (hu : u < g.size) (hv : v < g.size) :
    g'.Reaches (f.place u) (f.place v) ↔ g.Reaches u v := by
  rw [h.reaches_iff (h.place_lt hu) hv, h.origin_place hu]

theorem exists_path_of_origin (hb : b < g'.size) (hp : g.Path (f.origin b) p v) :
    ∃ q, g'.Path b q (f.place v) ∧ f.passed q = p := by
  obtain ⟨q, hq, hpassed⟩ := h.exists_path hp
  by_cases hrelay : f.IsRelay b
  · refine ⟨b :: q, .cons ((h.mem_succ_relay_iff hb hrelay).mpr rfl) hq, ?_⟩
    rw [Placement.passed_cons_of_isRelay hrelay, hpassed]
  · exact ⟨q, Placement.place_origin hrelay ▸ hq, hpassed⟩

/-- A place is postdominated by the places of the nodes that postdominate its origin, provided
that relays lead to the exit. -/
theorem postdominates_iff (he : exit < g.size) (ha : a < g.size) (hb : b < g'.size)
    (hrelay : f.IsRelay b → g.Reaches (f.origin b) exit) :
    g'.Postdominates (f.place exit) (f.place a) b ↔ g.Postdominates exit a (f.origin b) := by
  by_cases hr : g.Reaches (f.origin b) exit
  · constructor
    · intro hd
      apply Postdominates.of_forall_mem hr
      intro p hp
      obtain ⟨q, hq, rfl⟩ := h.exists_path_of_origin hb hp
      exact (h.mem_passed_iff ha).mpr (hd.mem hq)
    · intro hd
      apply Postdominates.of_forall_mem ((h.reaches_iff hb he).mpr hr)
      intro q hq
      exact (h.mem_passed_iff ha).mp (hd.mem (h.path_passed he hq))
  · have hnode := Placement.place_origin fun hb => hr (hrelay hb)
    have hself : g'.Postdominates (f.place exit) (f.place a) b ↔ f.place a = b :=
      or_iff_left fun hd => hr ((h.reaches_iff hb he).mp hd.1)
    have hself' : g.Postdominates exit a (f.origin b) ↔ a = f.origin b :=
      or_iff_left fun hd => hr hd.1
    rw [hself, hself', ← h.place_inj ha (h.origin_lt hb), hnode]

end Relaid

end Digraph

namespace FlowGraph

variable {cfg cfg' : FlowGraph} {t t' : PostdominatorTree}
variable {kind : Dependence} {a b c s v w : NodeId} {x : Symbol}

/-- The second flow graph is the first one with its nodes at other places and with relays on some
of its edges. The terminals stand at their places, the nodes assign and read what they did, and
relays assign nothing and lead to the finish. -/
structure Relaid (cfg : FlowGraph) (f : Placement) (cfg' : FlowGraph) : Prop
    extends cfg.toDigraph.Relaid f cfg'.toDigraph where
  start_eq : cfg'.start = f.place cfg.start
  finish_eq : cfg'.finish = f.place cfg.finish
  defs_place : ∀ {v}, v < cfg.size → cfg'.defs (f.place v) = cfg.defs v
  uses_place : ∀ {v}, v < cfg.size → cfg'.uses (f.place v) = cfg.uses v
  defs_relay : ∀ {v}, v < cfg'.size → f.IsRelay v → cfg'.defs v = ∅
  reaches_relay : ∀ {v}, v < cfg'.size → f.IsRelay v → cfg.Reaches (f.origin v) cfg.finish

namespace Relaid

variable (h : cfg.Relaid f cfg')
include h

theorem place_ne_finish_iff (hv : v < cfg.size) :
    f.place v ≠ cfg'.finish ↔ v ≠ cfg.finish := by
  rw [h.finish_eq]
  exact not_congr (h.place_inj hv cfg.finish_lt)

/-- A relay can be reached because the node before it can. -/
theorem checkReachability_iff :
    cfg'.checkReachability = .ok () ↔ cfg.checkReachability = .ok () := by
  rw [checkReachability_eq_ok_iff, checkReachability_eq_ok_iff, h.start_eq, h.finish_eq]
  constructor
  · intro hall v hv
    obtain ⟨hstart, hfinish⟩ := hall _ (h.place_lt hv)
    exact ⟨(h.reaches_place_iff cfg.start_lt hv).mp hstart,
      (h.reaches_place_iff hv cfg.finish_lt).mp hfinish⟩
  · intro hall v hv
    refine ⟨?_, (h.reaches_iff hv cfg.finish_lt).mpr (hall _ (h.origin_lt hv)).2⟩
    by_cases hrelay : f.IsRelay v
    · obtain ⟨u, hu, hsucc⟩ := h.exists_pred_relay hv hrelay
      exact ((h.reaches_place_iff cfg.start_lt hu).mpr (hall u hu).1).tail hsucc
    · rw [← Placement.place_origin hrelay]
      exact (h.reaches_place_iff cfg.start_lt (h.origin_lt hv)).mpr (hall _ (h.origin_lt hv)).1

/-! ## Dependences -/

theorem postdominates_place_iff (ha : a < cfg.size) (hb : b < cfg'.size) :
    cfg'.Postdominates cfg'.finish (f.place a) b ↔
      cfg.Postdominates cfg.finish a (f.origin b) := by
  rw [h.finish_eq]
  exact h.postdominates_iff cfg.finish_lt ha hb (h.reaches_relay hb)

theorem place_mem_controlledBy_iff (ht : cfg.Exact cfg.finish t)
    (ht' : cfg'.Exact cfg'.finish t') (hv : v < cfg.size) (hw : w < cfg.size) :
    f.place w ∈ cfg'.controlledBy t' (f.place v) ↔ w ∈ cfg.controlledBy t v := by
  have hdom : ∀ s ∈ cfg'.succ (f.place v),
      (cfg'.Postdominates cfg'.finish (f.place w) s ↔
        cfg.Postdominates cfg.finish w (f.origin s)) := fun s hs =>
    h.postdominates_place_iff hw (Digraph.lt_size_of_mem_succ hs)
  simp only [Digraph.mem_controlledBy, ht.postdominates_iff, ht'.postdominates_iff]
  rw [← h.exists_succ_iff hv, ← h.exists_succ_iff hv]
  exact and_congr (exists_congr fun s => and_congr_right fun hs => hdom s hs)
    (exists_congr fun s => and_congr_right fun hs => not_congr (hdom s hs))

theorem reachable_origin (hv : v < cfg.size)
    (hs : Search.Reachable cfg'.size (cfg'.flowOn x) (cfg'.succ (f.place v)) s) :
    Search.Reachable cfg.size (cfg.flowOn x) (cfg.succ v) (f.origin s) := by
  induction hs with
  | @seed s hs hlt =>
    exact .seed ((h.mem_succ_iff hv).mpr ⟨s, hs, rfl⟩) (h.origin_lt hlt)
  | @step u s hu hs hlt ih =>
    have hult := hu.lt_bound
    obtain ⟨hx, hsucc⟩ := mem_flowOn.mp hs
    by_cases hrelay : f.IsRelay u
    · have hnext := (h.mem_succ_relay_iff hult hrelay).mp hsucc
      have horigin : f.origin s = f.origin u := by rw [hnext, h.origin_place (h.origin_lt hult)]
      exact horigin ▸ ih
    · have hplace := Placement.place_origin hrelay
      rw [← hplace, h.defs_place (h.origin_lt hult)] at hx
      rw [← hplace] at hsucc
      have hflow : f.origin s ∈ cfg.flowOn x (f.origin u) :=
        mem_flowOn.mpr ⟨hx, (h.mem_succ_iff (h.origin_lt hult)).mpr ⟨s, hsucc, rfl⟩⟩
      exact .step ih hflow (h.origin_lt hlt)

/-- If the search has found what follows the place of a node, it finds the places of the node's
successors, since values pass through relays. -/
theorem reachable_place_of_mem_succ {seeds : List NodeId}
    (hfound : ∀ s ∈ cfg'.succ (f.place v), Search.Reachable cfg'.size (cfg'.flowOn x) seeds s)
    (hw : w ∈ cfg.succ v) : Search.Reachable cfg'.size (cfg'.flowOn x) seeds (f.place w) := by
  obtain ⟨s, hs, rfl⟩ := (h.mem_succ_iff (Digraph.lt_size_of_succ hw)).mp hw
  have hlt := Digraph.lt_size_of_mem_succ hs
  by_cases hrelay : f.IsRelay s
  · have hnext := (h.mem_succ_relay_iff hlt hrelay).mpr rfl
    have hflow : f.place (f.origin s) ∈ cfg'.flowOn x s := by
      rw [mem_flowOn, h.defs_relay hlt hrelay]
      exact ⟨SortedSet.not_mem_empty x, hnext⟩
    exact .step (hfound s hs) hflow (Digraph.lt_size_of_mem_succ hnext)
  · rw [Placement.place_origin hrelay]
    exact hfound s hs

theorem reachable_place (hw : Search.Reachable cfg.size (cfg.flowOn x) (cfg.succ v) w) :
    Search.Reachable cfg'.size (cfg'.flowOn x) (cfg'.succ (f.place v)) (f.place w) := by
  induction hw with
  | seed hw _ =>
    apply h.reachable_place_of_mem_succ _ hw
    intro s hs
    exact .seed hs (Digraph.lt_size_of_mem_succ hs)
  | @step u w hu hw _ ih =>
    obtain ⟨hx, hsucc⟩ := mem_flowOn.mp hw
    apply h.reachable_place_of_mem_succ _ hsucc
    intro s hs
    have hflow : s ∈ cfg'.flowOn x (f.place u) := by
      rw [mem_flowOn, h.defs_place hu.lt_bound]
      exact ⟨hx, hs⟩
    exact .step ih hflow (Digraph.lt_size_of_mem_succ hs)

theorem place_mem_fedBy_iff (hv : v < cfg.size) (hw : w < cfg.size) :
    f.place w ∈ cfg'.fedBy (f.place v) ↔ w ∈ cfg.fedBy v := by
  simp only [mem_fedBy, mem_readersOf, h.defs_place hv, h.uses_place hw]
  refine exists_congr fun x => and_congr_right fun _ => and_congr_left fun _ => ?_
  constructor
  · intro hreach
    have horigin := h.reachable_origin hv hreach
    rwa [h.origin_place hw] at horigin
  · exact h.reachable_place

/-- Nothing depends on a relay: it assigns nothing and has one successor. -/
theorem not_mem_dependentsOf_relay (hv : v < cfg'.size) (hrelay : f.IsRelay v) :
    w ∉ cfg'.dependentsOf t' v kind := by
  intro hw
  cases kind with
  | data =>
    obtain ⟨x, hx, _⟩ := mem_fedBy.mp hw
    rw [h.defs_relay hv hrelay] at hx
    exact SortedSet.not_mem_empty x hx
  | control =>
    obtain ⟨s, hs, s', hs', hne⟩ := Digraph.exists_ne_of_mem_controlledBy hw
    have hnext := (h.mem_succ_relay_iff hv hrelay).mp hs
    exact hne (hnext.trans ((h.mem_succ_relay_iff hv hrelay).mp hs').symm)

theorem place_mem_dependentsOf_iff (ht : cfg.Exact cfg.finish t)
    (ht' : cfg'.Exact cfg'.finish t') (hv : v < cfg.size) (hw : w < cfg.size) :
    f.place w ∈ cfg'.dependentsOf t' (f.place v) kind ↔ w ∈ cfg.dependentsOf t v kind := by
  cases kind with
  | data => exact h.place_mem_fedBy_iff hv hw
  | control => exact h.place_mem_controlledBy_iff ht ht' hv hw

/-! ## Slices -/

section
variable (ht : cfg.Exact cfg.finish t) (ht' : cfg'.Exact cfg'.finish t') (config config' : Config)
include ht ht'

theorem place_mem_dependents_iff (ha : a < cfg.size) (hb : b < cfg.size) :
    ⟨kind, f.place b⟩ ∈ (cfg'.dependenceGraph config' t').dependents (f.place a) ↔
      ⟨kind, b⟩ ∈ (cfg.dependenceGraph config t).dependents a := by
  rw [mem_dependents_iff ht, mem_dependents_iff ht', h.place_ne_finish_iff ha,
    h.place_ne_finish_iff hb, h.place_mem_dependentsOf_iff ht ht' ha hb]

omit ht in
theorem dependents_relay (hv : v < cfg'.size) (hrelay : f.IsRelay v) :
    (cfg'.dependenceGraph config' t').dependents v = {} := by
  apply EdgeSet.ext
  intro e
  refine iff_of_false (fun he => ?_) (EdgeSet.not_mem_empty e)
  exact h.not_mem_dependentsOf_relay hv hrelay ((mem_dependents_iff ht').mp he).2.2

/-- The place of a node depends on the places of what the node depends on. -/
theorem mem_related_place_iff (hb : b < cfg.size) :
    s ∈ (cfg'.dependenceGraph config' t').related .backward (f.place b) ↔
      ∃ a ∈ (cfg.dependenceGraph config t).related .backward b, f.place a = s := by
  have hg := mirrored_dependenceGraph ht config
  have hg' := mirrored_dependenceGraph ht' config'
  rw [← hg'.mem_related_forward_iff]
  simp only [← hg.mem_related_forward_iff, DependenceGraph.mem_related, DependenceGraph.edges]
  constructor
  · rintro ⟨kind, he⟩
    have hlt : s < cfg'.size := (lt_size_of_mem_edges ht' (d := .forward) he).1
    have hnode : f.place (f.origin s) = s := by
      apply Placement.place_origin
      intro hrelay
      exact h.not_mem_dependentsOf_relay hlt hrelay ((mem_dependents_iff ht').mp he).2.2
    refine ⟨f.origin s, ⟨kind, ?_⟩, hnode⟩
    rw [← h.place_mem_dependents_iff ht ht' config config' (h.origin_lt hlt) hb, hnode]
    exact he
  · rintro ⟨a, ⟨kind, he⟩, hplace⟩
    have hlt : a < cfg.size := (lt_size_of_mem_edges ht (d := .forward) he).1
    exact ⟨kind, hplace ▸ (h.place_mem_dependents_iff ht ht' config config' hlt hb).mpr he⟩

/-- The slice at the place of a node consists of the places of its slice. -/
theorem mem_slice_place_iff (hc : c < cfg.size) :
    s ∈ (cfg'.dependenceGraph config' t').slice (f.place c) ↔
      ∃ a ∈ (cfg.dependenceGraph config t).slice c, f.place a = s := by
  have hg := mirrored_dependenceGraph ht config
  have hg' := mirrored_dependenceGraph ht' config'
  have hmem : f.place c ∈ cfg'.dependenceGraph config' t' ↔ c ∈ cfg.dependenceGraph config t := by
    rw [mem_dependenceGraph, mem_dependenceGraph, h.place_ne_finish_iff hc]
    exact and_congr_left fun _ => iff_of_true (h.place_lt hc) hc
  simp only [DependenceGraph.slice, hg.mem_sliceAlong_iff, hg'.mem_sliceAlong_iff, hmem]
  constructor
  · intro ⟨hinner, hreach⟩
    induction hreach with
    | refl => exact ⟨c, ⟨hinner, .refl⟩, rfl⟩
    | tail _ hstep ih =>
      obtain ⟨a, ⟨_, ha⟩, rfl⟩ := ih
      have hlt := lt_size_of_mem_sliceAlong ht (hg.mem_sliceAlong_iff.mpr ⟨hinner, ha⟩)
      obtain ⟨b, hb, rfl⟩ := (h.mem_related_place_iff ht ht' config config' hlt).mp hstep
      exact ⟨b, ⟨hinner, ha.tail hb⟩, rfl⟩
  · intro ⟨a, ⟨hinner, hreach⟩, hplace⟩
    refine ⟨hinner, hplace ▸ ?_⟩
    clear hplace
    induction hreach with
    | refl => exact .refl
    | tail _ hstep ih =>
      have hlt := (mem_dependenceGraph.mp (hg.mem_of_mem_related hstep).1).1
      exact ih.tail ((h.mem_related_place_iff ht ht' config config' hlt).mpr ⟨_, hstep, rfl⟩)

theorem place_mem_slice_iff (ha : a < cfg.size) (hc : c < cfg.size) :
    f.place a ∈ (cfg'.dependenceGraph config' t').slice (f.place c) ↔
      a ∈ (cfg.dependenceGraph config t).slice c := by
  rw [h.mem_slice_place_iff ht ht' config config' hc]
  constructor
  · intro ⟨b, hb, hplace⟩
    have hlt := (closed_slice config c).lt_size hb
    exact (h.place_inj hlt ha).mp hplace ▸ hb
  · intro ha
    exact ⟨a, ha, rfl⟩

theorem place_mem_forwardSlice_iff (ha : a < cfg.size) (hc : c < cfg.size) :
    f.place a ∈ (cfg'.dependenceGraph config' t').forwardSlice (f.place c) ↔
      a ∈ (cfg.dependenceGraph config t).forwardSlice c := by
  rw [← (mirrored_dependenceGraph ht config).mem_slice_iff,
    ← (mirrored_dependenceGraph ht' config').mem_slice_iff,
    h.place_mem_slice_iff ht ht' config config' hc ha]

end

end Relaid

end FlowGraph

end Slicing
