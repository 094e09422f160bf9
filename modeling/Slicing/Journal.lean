/-!
# Journals of a construction

The construction of a dependence graph goes through four phases. What happens in
it is recorded in a journal, in order. An observer decides what of a journal is
seen: phases can be listed as events, or reported as log lines, or ignored. The
outcome of a phase is logged whoever observes.
-/
namespace Slicing

inductive Phase where
  | postdominators
  | controlDependence
  | dataDependence
  | assembly
deriving DecidableEq, Inhabited

namespace Phase

instance : ToString Phase where
  toString
    | postdominators => "postdominators"
    | controlDependence => "control_dependence"
    | dataDependence => "data_dependence"
    | assembly => "assembly"

def all : List Phase := [postdominators, controlDependence, dataDependence, assembly]

end Phase

/-- A boundary of a phase. -/
inductive PhaseEvent where
  | started (phase : Phase)
  | finished (phase : Phase)
deriving DecidableEq

instance : ToString PhaseEvent where
  toString
    | .started p => s!"start {p}"
    | .finished p => s!"finish {p}"

inductive JournalEntry where
  | event (e : PhaseEvent)
  /-- The postdominators of some of the nodes were found after a number of sweeps. -/
  | converged (sweeps found total : Nat)
  | built (nodes edges sweeps : Nat)
  | batch (count : Nat)
deriving DecidableEq

abbrev Journal := List JournalEntry

/-- The records of one phase, with what was recorded during it. -/
def Phase.record (p : Phase) (during : Journal) : Journal :=
  .event (.started p) :: during ++ [.event (.finished p)]

inductive LogLevel where
  | trace
  | debug
deriving DecidableEq

instance : ToString LogLevel where
  toString
    | .trace => "TRACE"
    | .debug => "DEBUG"

structure LogLine where
  level : LogLevel
  message : String
deriving DecidableEq

instance : ToString LogLine := ⟨fun l => s!"{l.level} {l.message}"⟩

/-- A journal keeps no times, so the line of a finished phase does not say how long it took. -/
def PhaseEvent.logLine : PhaseEvent → LogLine
  | started p => ⟨.debug, s!"{p}: started"⟩
  | finished p => ⟨.debug, s!"{p}: finished"⟩

/-- What is done about the boundaries of phases. -/
inductive Observer where
  | silent
  | recorder
  | logger
deriving DecidableEq

/-- The boundaries of phases in a journal. -/
def Journal.phaseEvents (j : Journal) : List PhaseEvent :=
  j.filterMap fun
    | .event e => some e
    | _ => none

def Observer.events (o : Observer) (j : Journal) : List PhaseEvent :=
  if o = .recorder then j.phaseEvents else []

/-- The log line of a record, if there is one under this observer. -/
def Observer.logLine? (o : Observer) : JournalEntry → Option LogLine
  | .event e => if o = .logger then some e.logLine else none
  | .converged sweeps found total =>
    some ⟨.trace, s!"postdominators converged after {sweeps} passes over {found} of {total} nodes"⟩
  | .built nodes edges sweeps =>
    some ⟨.debug, s!"built PDG with {nodes} nodes and {edges} edges " ++
      s!"(postdominators converged in {sweeps} passes)"⟩
  | .batch count => some ⟨.debug, s!"building {count} PDGs"⟩

def Observer.logLines (o : Observer) (j : Journal) : List LogLine := j.filterMap o.logLine?

end Slicing
