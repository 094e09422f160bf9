import Slicing.Dependence.Control
import Slicing.Dependence.Data
import Slicing.DependenceGraph.Basic
import Slicing.Journal

/-!
# Building dependence graphs

The postdominators come first, then the control and the data dependents of every
node but the finish, and last the edges. Dependents that are the finish are left
out. The construction can fail only before the first phase, when the check of
reachability was asked for, or for want of postdominators.
-/
namespace Slicing

structure Build where
  journal : Journal
  result : Except Violation DependenceGraph

namespace FlowGraph

def innerNodes (cfg : FlowGraph) : List NodeId := cfg.nodes.filter (· ≠ cfg.finish)

/-- The dependences of one kind on a node, towards nodes other than the finish. -/
def linksFrom (cfg : FlowGraph) (kind : Dependence) (v : NodeId) (dependents : NodeSet) :
    List Link :=
  (dependents.toList.filter (· ≠ cfg.finish)).map (.mk kind v)

/-- All dependences between nodes other than the finish. -/
def links (cfg : FlowGraph) (t : PostdominatorTree) : List Link :=
  cfg.innerNodes.flatMap fun v =>
    cfg.linksFrom .control v (cfg.controlledBy t v) ++
      cfg.linksFrom .data v (cfg.fedBy v)

/-- The range by which a node is found: only real statements other than the finish have one. -/
def searchRange? (cfg : FlowGraph) (v : NodeId) : Option SourceRange :=
  if v = cfg.finish then none
  else (cfg.statement? v).bind fun s => if s.kind = .other then some s.range else none

def unconnected (cfg : FlowGraph) (config : Config) : DependenceGraph where
  entries := (cfg.nodes.map fun v => { range? := cfg.searchRange? v }).toArray
  start := cfg.start
  finish := cfg.finish
  config := config

def buildDependenceGraph (cfg : FlowGraph) (config : Config := {}) : Build :=
  match if config.checked then cfg.checkReachability else .ok () with
  | .error v => ⟨[], .error v⟩
  | .ok () =>
    match cfg.postdominatorTree with
    | .error v => ⟨[.event (.started .postdominators)], .error v⟩
    | .ok t =>
      let g := (cfg.unconnected config).connectAll (cfg.links t)
      ⟨Phase.postdominators.record [.converged t.sweeps t.memberCount t.size] ++
        Phase.controlDependence.record [] ++
        Phase.dataDependence.record [] ++
        Phase.assembly.record [] ++
        [.built g.nodeCount g.edgeCount t.sweeps], .ok g⟩

end FlowGraph

structure Batch where
  builds : List Build

namespace Batch

def build (cfgs : List FlowGraph) (config : Config := {}) : Batch :=
  ⟨cfgs.map (·.buildDependenceGraph config)⟩

def journal (b : Batch) : Journal :=
  .batch b.builds.length :: b.builds.flatMap Build.journal

end Batch

end Slicing
