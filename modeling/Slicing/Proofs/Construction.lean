import Slicing.Proofs.SliceClosure

/-!
# The construction of a dependence graph under observation

The construction records the boundaries of its phases in a journal. An observer may instead be
told of each boundary when it is met, and keep a state of its own: `Monitor` is any such
observer, and `FlowGraph.buildUnder` is the construction that goes from phase to phase and
notifies it. Both give the same result, and the observer is told what the journal says.

A flow graph always has postdominators, so the construction fails only if the check of
reachability is asked for and fails, before any phase has begun. The configuration is stored in
the dependence graph and has no influence on the rest of it.
-/
namespace Slicing

def Phase.boundaries : List PhaseEvent := all.flatMap fun p => [.started p, .finished p]

/-- An observer with a state of its own, which each boundary of a phase may change. -/
structure Monitor (σ : Type) where
  notify : σ → PhaseEvent → σ

/-- Does the work of a phase and notifies the observer before and, unless it fails, after. -/
def Monitor.observe {σ α : Type} (m : Monitor σ) (p : Phase) (work : Except Violation α) :
    ExceptT Violation (StateM σ) α := do
  modify (m.notify · (.started p))
  let a ← work
  modify (m.notify · (.finished p))
  return a

namespace DependenceGraph

theorem connectAll_config (g : DependenceGraph) (config : Config) (links : List Link) :
    { g with config }.connectAll links = { g.connectAll links with config } := by
  induction links generalizing g with
  | nil => rfl
  | cons l links ih => exact ih (g.connect l)

end DependenceGraph

namespace FlowGraph

variable {cfg : FlowGraph} {t : PostdominatorTree} {config : Config} {σ : Type}

def assemble (cfg : FlowGraph) (config : Config) (control data : List NodeSet) :
    DependenceGraph :=
  (cfg.unconnected config).connectAll <|
    (cfg.innerNodes.zip (control.zip data)).flatMap fun (v, controlled, readers) =>
      cfg.linksFrom .control v controlled ++ cfg.linksFrom .data v readers

/-- The phases of the construction, each of them observed. -/
def phases (cfg : FlowGraph) (config : Config) (m : Monitor σ) :
    ExceptT Violation (StateM σ) DependenceGraph := do
  if config.checked then
    cfg.checkReachability
  let t ← m.observe .postdominators cfg.postdominatorTree
  let control ← m.observe .controlDependence (.ok (cfg.innerNodes.map (cfg.controlledBy t)))
  let data ← m.observe .dataDependence (.ok (cfg.innerNodes.map cfg.fedBy))
  m.observe .assembly (.ok (cfg.assemble config control data))

/-- The outcome of the construction, and the state in which it leaves an observer. -/
def buildUnder (cfg : FlowGraph) (config : Config) (m : Monitor σ) (s : σ) :
    Except Violation DependenceGraph × σ :=
  (cfg.phases config m).run s

theorem assemble_eq_dependenceGraph (cfg : FlowGraph) (config : Config) (t : PostdominatorTree) :
    cfg.assemble config (cfg.innerNodes.map (cfg.controlledBy t)) (cfg.innerNodes.map cfg.fedBy) =
      cfg.dependenceGraph config t := by
  have hzip : ∀ nodes : List NodeId,
      nodes.zip ((nodes.map (cfg.controlledBy t)).zip (nodes.map cfg.fedBy)) =
        nodes.map fun v => (v, cfg.controlledBy t v, cfg.fedBy v) := by
    intro nodes
    induction nodes with
    | nil => rfl
    | cons v nodes ih => simp only [List.map_cons, List.zip_cons_cons, ih]
  rw [assemble, hzip, List.flatMap_map]
  rfl

theorem buildUnder_of_error {v : Violation} (hchecked : config.checked)
    (h : cfg.checkReachability = .error v) (m : Monitor σ) (s : σ) :
    cfg.buildUnder config m s = (.error v, s) := by
  rw [buildUnder, phases, if_pos hchecked, h]
  rfl

theorem buildUnder_of_admitted (h : config.checked → cfg.checkReachability = .ok ())
    (ht : cfg.postdominatorTree = .ok t) (m : Monitor σ) (s : σ) :
    cfg.buildUnder config m s =
      (.ok (cfg.dependenceGraph config t), Phase.boundaries.foldl m.notify s) := by
  rw [← assemble_eq_dependenceGraph, buildUnder, phases, ht]
  split
  · next hchecked =>
    rw [h hchecked]
    rfl
  · rfl

theorem buildDependenceGraph_of_error {v : Violation} (hchecked : config.checked)
    (h : cfg.checkReachability = .error v) :
    cfg.buildDependenceGraph config = ⟨[], .error v⟩ := by
  rw [buildDependenceGraph, if_pos hchecked, h]

theorem phaseEvents_of_admitted (h : config.checked → cfg.checkReachability = .ok ())
    (ht : cfg.postdominatorTree = .ok t) :
    (cfg.buildDependenceGraph config).journal.phaseEvents = Phase.boundaries := by
  rw [buildDependenceGraph, check_of_admitted h, ht]
  rfl

theorem admitted_or_error (cfg : FlowGraph) (config : Config) :
    (config.checked → cfg.checkReachability = .ok ()) ∨
      ∃ v, config.checked ∧ cfg.checkReachability = .error v := by
  cases hcheck : cfg.checkReachability with
  | ok _ => exact .inl fun _ => rfl
  | error v =>
    cases hchecked : config.checked with
    | false => exact .inl nofun
    | true => exact .inr ⟨v, rfl, rfl⟩

theorem eq_dependenceGraph_of_buildUnder {m : Monitor σ} {s : σ} {g : DependenceGraph}
    (ht : cfg.postdominatorTree = .ok t) (h : (cfg.buildUnder config m s).1 = .ok g) :
    g = cfg.dependenceGraph config t := by
  cases cfg.admitted_or_error config with
  | inl hadmitted =>
    rw [buildUnder_of_admitted hadmitted ht] at h
    exact (Except.ok.inj h).symm
  | inr herror =>
    obtain ⟨v, hchecked, hv⟩ := herror
    rw [buildUnder_of_error hchecked hv] at h
    exact nomatch h

theorem dependenceGraph_config (cfg : FlowGraph) (t : PostdominatorTree) (config config' : Config) :
    cfg.dependenceGraph config t = { cfg.dependenceGraph config' t with config } :=
  (cfg.unconnected config').connectAll_config config (cfg.links t)

/-- The construction fails exactly if the check of reachability is asked for and fails. Then it
gives the error of the check, and nothing is recorded and no observer is notified. Otherwise
every observer is told of the start and the end of the four phases in turn. All graphs that are
built of one flow graph, under any configurations and observers, have the same nodes, edges and
slices, and with the same way to break ties they find the same statement at every location. -/
theorem construction_fails_only_by_check (cfg : FlowGraph) :
    (∀ config v, config.checked → cfg.checkReachability = .error v →
      cfg.buildDependenceGraph config = ⟨[], .error v⟩ ∧
      ∀ (σ : Type) (m : Monitor σ) (s : σ), cfg.buildUnder config m s = (.error v, s)) ∧
    (∀ config, (config.checked → cfg.checkReachability = .ok ()) →
      ∃ g, (cfg.buildDependenceGraph config).result = .ok g ∧
        (cfg.buildDependenceGraph config).journal.phaseEvents = Phase.boundaries ∧
        ∀ (σ : Type) (m : Monitor σ) (s : σ),
          cfg.buildUnder config m s = (.ok g, Phase.boundaries.foldl m.notify s)) ∧
    ∀ config config' (σ σ' : Type) (m : Monitor σ) (m' : Monitor σ') (s : σ) (s' : σ') g g',
      (cfg.buildUnder config m s).1 = .ok g → (cfg.buildUnder config' m' s').1 = .ok g' →
        g.nodes = g'.nodes ∧ g.edgeCount = g'.edgeCount ∧
        (∀ v, g.dependents v = g'.dependents v ∧ g.dependencies v = g'.dependencies v ∧
          g.slice v = g'.slice v ∧ g.forwardSlice v = g'.forwardSlice v) ∧
        (config.tieBreak = config'.tieBreak → ∀ l, g.statementAt? l = g'.statementAt? l) := by
  obtain ⟨t, hok, _⟩ := cfg.exists_exact
  refine ⟨?_, ?_, ?_⟩
  · intro config v hchecked hv
    exact ⟨buildDependenceGraph_of_error hchecked hv,
      fun σ m s => buildUnder_of_error hchecked hv m s⟩
  · intro config hadmitted
    exact ⟨cfg.dependenceGraph config t, result_of_admitted hadmitted hok,
      phaseEvents_of_admitted hadmitted hok,
      fun σ m s => buildUnder_of_admitted hadmitted hok m s⟩
  · intro config config' σ σ' m m' s s' g g' hg hg'
    rw [eq_dependenceGraph_of_buildUnder hok hg, eq_dependenceGraph_of_buildUnder hok hg',
      cfg.dependenceGraph_config t config config']
    refine ⟨rfl, rfl, fun v => ⟨rfl, rfl, rfl, rfl⟩, fun htie l => ?_⟩
    have hconfig : (cfg.dependenceGraph config' t).config = config' := by
      rw [cfg.dependenceGraph_config t config' config]
    simp only [DependenceGraph.statementAt?, hconfig, htie]
    rfl

end FlowGraph

end Slicing
