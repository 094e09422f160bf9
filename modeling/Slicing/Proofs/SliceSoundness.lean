import Slicing.Proofs.Execution
import Slicing.Proofs.SliceClosure

/-!
# Slices preserve what is observed

Two interpretations that agree on a slice are observed alike on it. The argument needs
only that the slice is closed under dependence and that the finish can be reached from
everywhere.

Outside a closed set no decision matters. All ways from a node that lead to the set meet it
first at the same node, and a symbol whose value is still to be read in the set is not
assigned on these ways. Two runs are matched if they are about to meet the set at the same
node with the same values of all symbols that matter from there on. Steps outside the set
keep two runs matched, whichever run makes them, and so does a step that both make inside.
-/
namespace Slicing

namespace FlowGraph

variable {cfg : FlowGraph} {t : PostdominatorTree} {S : NodeSet} {m m' v w : NodeId} {x : Symbol}

/-- Some way from the first node meets the set, and first in the second node. -/
inductive Meets (cfg : FlowGraph) (S : NodeSet) : NodeId → NodeId → Prop where
  | here {v : NodeId} : v ∈ S → Meets cfg S v v
  | step {v w m : NodeId} : v ∉ S → w ∈ cfg.succ v → Meets cfg S w m → Meets cfg S v m

/-- The value of a symbol at a node may yet be read in the set. -/
inductive Matters (cfg : FlowGraph) (S : NodeSet) (x : Symbol) : NodeId → Prop where
  | read {v : NodeId} : v ∈ S → x ∈ cfg.uses v → Matters cfg S x v
  | pass {v w : NodeId} : x ∉ cfg.defs v → w ∈ cfg.succ v → Matters cfg S x w →
      Matters cfg S x v

namespace Meets

theorem mem (h : cfg.Meets S v m) : m ∈ S := by
  induction h with
  | here hm => exact hm
  | step _ _ _ ih => exact ih

theorem eq_of_mem (h : cfg.Meets S v m) (hv : v ∈ S) : m = v := by
  cases h with
  | here _ => rfl
  | step hv' _ _ => exact absurd hv hv'

theorem exists_of_path {p : List NodeId} {u : NodeId} (hp : cfg.Path v p u) (hm : m ∈ p)
    (hS : m ∈ S) : ∃ m', cfg.Meets S v m' := by
  induction hp with
  | single _ =>
    rw [List.mem_singleton] at hm
    exact ⟨m, hm ▸ .here hS⟩
  | @cons v w u p hw _ ih =>
    by_cases hv : v ∈ S
    · exact ⟨v, .here hv⟩
    · have hmp : m ∈ p := (List.mem_cons.mp hm).resolve_left fun h => hv (h ▸ hS)
      obtain ⟨m', hm'⟩ := ih hmp
      exact ⟨m', .step hv hw hm'⟩

theorem not_finish (hS : cfg.Closed t S) : ¬cfg.Meets S cfg.finish m := by
  intro h
  cases h with
  | here hm => exact hS.ne_finish hm rfl
  | step _ hw _ => exact ne_finish_of_mem_succ hw rfl

section
variable (ht : cfg.Exact cfg.finish t) (hS : cfg.Closed t S)
  (hreach : ∀ v < cfg.size, cfg.Reaches v cfg.finish)
include ht hS hreach

/-- Where a closed set is met first, there every way to the finish passes: a node that could
avoid it would control it, and so would be in the set. -/
theorem postdominates (h : cfg.Meets S v m) : cfg.Postdominates cfg.finish m v := by
  induction h with
  | here _ => exact .inl rfl
  | @step v w m hv hw hmeet ih =>
    have hne := ne_finish_of_mem_succ hw
    have hsucc : ∀ s ∈ cfg.succ v, cfg.Reaches s cfg.finish := fun s hs =>
      hreach s (Digraph.lt_size_of_mem_succ hs)
    by_contra hnot
    have hcontrol : m ∈ cfg.dependentsOf t v .control :=
      (ht.mem_controlledBy_iff (hreach v (Digraph.lt_size_of_succ hw)) hne hsucc).mpr
        ⟨⟨w, hw, ih⟩, fun h => hnot h.2⟩
    exact hv (hS.mem hmeet.mem hcontrol)

omit ht hS in
theorem postdominates_met (h : cfg.Meets S v m) (hm' : m' ∈ S)
    (hdom : cfg.Postdominates cfg.finish m' v) : cfg.Postdominates cfg.finish m' m := by
  induction h with
  | here _ => exact hdom
  | @step v w m hv hw _ ih =>
    apply ih
    exact hdom.succ (fun h => hv (h ▸ hm')) hw (hreach w (Digraph.lt_size_of_mem_succ hw))

theorem unique (h : cfg.Meets S v m) (h' : cfg.Meets S v m') : m = m' := by
  have hdom := h.postdominates_met hreach h'.mem (h'.postdominates ht hS hreach)
  have hdom' := h'.postdominates_met hreach h.mem (h.postdominates ht hS hreach)
  exact hdom'.antisymm hdom (hreach m (hS.lt_size h.mem))

theorem succ_iff (hv : v ∉ S) (hw : w ∈ cfg.succ v) : cfg.Meets S w m ↔ cfg.Meets S v m := by
  constructor
  · intro h
    exact .step hv hw h
  · intro h
    have hlt := Digraph.lt_size_of_mem_succ hw
    have hdom : cfg.Postdominates cfg.finish m w :=
      (h.postdominates ht hS hreach).succ (fun heq => hv (heq ▸ h.mem)) hw (hreach w hlt)
    obtain ⟨p, hp⟩ := hreach w hlt
    obtain ⟨m', hm'⟩ := exists_of_path hp (hdom.mem hp) h.mem
    have heq : m = m' := h.unique ht hS hreach (.step hv hw hm')
    exact heq ▸ hm'

end

end Meets

namespace Matters

theorem exists_reader {seeds : List NodeId} (h : cfg.Matters S x w)
    (hw : Search.Reachable cfg.size (cfg.flowOn x) seeds w) :
    ∃ y ∈ S, x ∈ cfg.uses y ∧ Search.Reachable cfg.size (cfg.flowOn x) seeds y := by
  induction h with
  | read hv hx => exact ⟨_, hv, hx, hw⟩
  | @pass v w hx hsucc _ ih =>
    apply ih
    have hflow : w ∈ cfg.flowOn x v := by rwa [flowOn, if_neg hx]
    exact .step hw hflow (Digraph.lt_size_of_mem_succ hsucc)

/-- What matters after a node outside the set is not assigned by it: otherwise the node would
feed a node of the set. -/
theorem not_mem_defs (hS : cfg.Closed t S) (h : cfg.Matters S x w) (hv : v ∉ S)
    (hw : w ∈ cfg.succ v) : x ∉ cfg.defs v := by
  intro hx
  obtain ⟨y, hy, hread, harrive⟩ := h.exists_reader (.seed hw (Digraph.lt_size_of_mem_succ hw))
  have hfed : y ∈ cfg.dependentsOf t v .data :=
    mem_fedBy.mpr ⟨x, hx, mem_readersOf.mpr ⟨harrive, hread⟩⟩
  exact hv (hS.mem hy hfed)

theorem of_meets (hS : cfg.Closed t S) (h : cfg.Matters S x m) (hm : cfg.Meets S v m) :
    cfg.Matters S x v := by
  induction hm with
  | here _ => exact h
  | step hv hw _ ih => exact .pass ((ih h).not_mem_defs hS hv hw) hw (ih h)

end Matters

end FlowGraph

universe u

namespace Interpretation

variable {cfg : FlowGraph} {Val : Type u} {t : PostdominatorTree} {S : NodeSet}
variable {I J : Interpretation cfg Val} {a b : State cfg Val}

/-- Two states are about to meet the set at the same node, and there they will agree on all
symbols that matter. -/
structure Matched (S : NodeSet) (a b : State cfg Val) : Prop where
  meets_iff : ∀ m, cfg.Meets S a.node m ↔ cfg.Meets S b.node m
  store_eq : ∀ {m x}, cfg.Meets S a.node m → cfg.Matters S x m → a.store x = b.store x

/-- Of two lists of visits one begins with the other, and they are equal if both runs are at the
finish. -/
structure Alike (S : NodeSet) (I J : Interpretation cfg Val) (k l : Nat) (a b : State cfg Val) :
    Prop where
  isPrefix : I.record S k a <+: J.record S l b ∨ J.record S l b <+: I.record S k a
  eq_of_finish : (I.run k a).node = cfg.finish → (J.run l b).node = cfg.finish →
    I.record S k a = J.record S l b

theorem Alike.symm {k l : Nat} (h : Alike S I J k l a b) : Alike S J I l k b a :=
  ⟨h.isPrefix.symm, fun hb ha => (h.eq_of_finish ha hb).symm⟩

namespace Matched

theorem refl (S : NodeSet) (a : State cfg Val) : Matched S a a :=
  ⟨fun _ => Iff.rfl, fun _ _ => rfl⟩

theorem symm (h : Matched S a b) : Matched S b a :=
  ⟨fun m => (h.meets_iff m).symm, fun hm hx => (h.store_eq ((h.meets_iff _).mpr hm) hx).symm⟩

theorem visit_eq (h : Matched S a b) (ha : a.node ∈ S) (hb : b.node ∈ S) :
    a.visit = b.visit := by
  have hmeet : cfg.Meets S b.node a.node := (h.meets_iff a.node).mp (.here ha)
  apply State.visit_eq_visit (hmeet.eq_of_mem hb)
  intro x hx
  exact h.store_eq (.here ha) (.read ha hx)

end Matched

section
variable (ht : cfg.Exact cfg.finish t) (hS : cfg.Closed t S)
  (hreach : ∀ v < cfg.size, cfg.Reaches v cfg.finish)
include ht hS hreach

/-- A step outside the set changes nothing that matters. -/
theorem Matched.step_left (h : Matched S a b) (ha : a.node ∉ S) : Matched S (I.step a) b := by
  by_cases hfinish : a.node = cfg.finish
  · rwa [step_of_eq_finish hfinish]
  · have hsucc := node_step_mem_succ (I := I) hfinish
    have hiff : ∀ m, cfg.Meets S (I.step a).node m ↔ cfg.Meets S a.node m := fun m =>
      FlowGraph.Meets.succ_iff ht hS hreach ha hsucc
    constructor
    · intro m
      rw [hiff, h.meets_iff]
    · intro m x hm hx
      have hkept : x ∉ cfg.defs a.node := (hx.of_meets hS hm).not_mem_defs hS ha hsucc
      rw [store_step hfinish, write_of_not_mem hkept]
      exact h.store_eq ((hiff m).mp hm) hx

omit ht hreach in
theorem Matched.step_both (hIJ : I.AgreesOn S J) (h : Matched S a b) (ha : a.node ∈ S)
    (hb : b.node ∈ S) : Matched S (I.step a) (J.step b) := by
  have hvisit := h.visit_eq ha hb
  have hnode : b.node = a.node := (congrArg Visit.node hvisit).symm
  have hfa := hS.ne_finish ha
  have hfb := hS.ne_finish hb
  have hnext : (I.step a).node = (J.step b).node := by
    rw [node_step hfa, node_step hfb, ← hvisit, (hIJ a.visit ha).2]
  constructor
  · intro m
    rw [hnext]
  · intro m x hm hx
    rw [store_step hfa, store_step hfb, ← hvisit, hIJ.write_eq (a := a.visit) ha]
    by_cases hdef : x ∈ cfg.defs a.node
    · exact write_of_mem hdef
    · have hmatters : cfg.Matters S x a.node :=
        .pass hdef (node_step_mem_succ hfa) (hx.of_meets hS hm)
      rw [h.store_eq (.here ha) hmatters]

theorem record_eq_nil (ha : ∀ m, ¬cfg.Meets S a.node m) (k : Nat) : I.record S k a = [] := by
  have hmem : a.node ∉ S := fun h => ha a.node (.here h)
  induction k generalizing a with
  | zero => exact if_neg hmem
  | succ k ih =>
    rw [record_succ_of_not_mem hmem]
    have hnone : ∀ m, ¬cfg.Meets S (I.step a).node m := by
      intro m hm
      exact ha m (((Matched.refl S a).step_left ht hS hreach hmem).meets_iff m |>.mp hm)
    exact ih hnone fun h => hnone _ (.here h)

theorem Matched.alike_of_not_mem {k l : Nat} (h : Matched S a b) (ha : a.node ∉ S)
    (ih : ∀ k', k = k' + 1 → Alike S I J k' l (I.step a) b) : Alike S I J k l a b := by
  cases k with
  | zero =>
    have hnil : I.record S 0 a = [] := if_neg ha
    constructor
    · rw [hnil]
      exact .inl List.nil_prefix
    · intro hfinish _
      have hnone : ∀ m, ¬cfg.Meets S b.node m := by
        intro m hm
        have hmeet : cfg.Meets S a.node m := (h.meets_iff m).mpr hm
        rw [show a.node = cfg.finish from hfinish] at hmeet
        exact FlowGraph.Meets.not_finish hS hmeet
      rw [hnil, record_eq_nil ht hS hreach hnone]
  | succ k =>
    have hrest := ih k rfl
    constructor
    · rw [record_succ_of_not_mem ha]
      exact hrest.isPrefix
    · rw [record_succ_of_not_mem ha]
      exact hrest.eq_of_finish

omit ht hreach in
/-- Both runs are inside the set, so they make the same visit and then a step each. -/
theorem Matched.alike_of_mem {k l : Nat} (h : Matched S a b) (ha : a.node ∈ S) (hb : b.node ∈ S)
    (ih : ∀ k' l', k = k' + 1 → l = l' + 1 → Alike S I J k' l' (I.step a) (J.step b)) :
    Alike S I J k l a b := by
  have hvisit := h.visit_eq ha hb
  cases k with
  | zero =>
    obtain ⟨rest, hrest⟩ := exists_record_eq_cons (I := J) hb l
    have hone : I.record S 0 a = [a.visit] := if_pos ha
    constructor
    · rw [hone, hrest, hvisit]
      exact .inl ⟨rest, rfl⟩
    · intro hfinish _
      exact absurd hfinish (hS.ne_finish ha)
  | succ k =>
    cases l with
    | zero =>
      have hone : J.record S 0 b = [b.visit] := if_pos hb
      constructor
      · rw [hone, record_succ_of_mem ha, hvisit]
        exact .inr ⟨_, rfl⟩
      · intro _ hfinish
        exact absurd hfinish (hS.ne_finish hb)
    | succ l =>
      have hrest := ih k l rfl rfl
      constructor
      · rw [record_succ_of_mem ha, record_succ_of_mem hb, hvisit]
        exact hrest.isPrefix.imp (List.prefix_cons_inj _).mpr (List.prefix_cons_inj _).mpr
      · intro hfa hfb
        rw [record_succ_of_mem ha, record_succ_of_mem hb, hvisit, hrest.eq_of_finish hfa hfb]

/-- Runs from matched states are observed alike, however many steps each of them makes. -/
theorem Matched.alike (hIJ : I.AgreesOn S J) (h : Matched S a b) (k l : Nat) :
    Alike S I J k l a b := by
  induction hn : k + l using Nat.strongRecOn generalizing a b k l with
  | _ n ih =>
    by_cases ha : a.node ∈ S
    · by_cases hb : b.node ∈ S
      · apply h.alike_of_mem hS ha hb
        intro k' l' hk hl
        exact ih (k' + l') (by omega) (h.step_both hS hIJ ha hb) k' l' rfl
      · apply Alike.symm
        apply h.symm.alike_of_not_mem ht hS hreach hb
        intro l' hl
        exact (ih (k + l') (by omega) (h.symm.step_left ht hS hreach hb).symm k l' rfl).symm
    · apply h.alike_of_not_mem ht hS hreach ha
      intro k' hk
      exact ih (k' + l) (by omega) (h.step_left ht hS hreach ha) k' l rfl

end

end Interpretation

/-- On a graph that passes the check of reachability the dependence graph is built, and its
slices are sound: if two interpretations agree on the slice of a node, then in runs from the
start with the same store, of any lengths, the visits to the slice and the values read there are
the same as far as both runs have come, and altogether the same if both are at the finish. -/
theorem FlowGraph.slice_observed_alike (cfg : FlowGraph) (config : Config)
    (h : cfg.checkReachability = .ok ()) :
    ∃ g, (cfg.buildDependenceGraph config).result = .ok g ∧
      (∀ c, c ∈ g ↔ c < cfg.size ∧ c ≠ cfg.finish) ∧
      ∀ c ∈ g, c ∈ g.slice c ∧
        ∀ (Val : Type u) (I J : Interpretation cfg Val), I.AgreesOn (g.slice c) J →
          ∀ (store : Symbol → Val) (k l : Nat),
            (I.record (g.slice c) k (.initial cfg store) <+:
                J.record (g.slice c) l (.initial cfg store) ∨
              J.record (g.slice c) l (.initial cfg store) <+:
                I.record (g.slice c) k (.initial cfg store)) ∧
            ((I.run k (.initial cfg store)).node = cfg.finish →
              (J.run l (.initial cfg store)).node = cfg.finish →
              I.record (g.slice c) k (.initial cfg store) =
                J.record (g.slice c) l (.initial cfg store)) := by
  obtain ⟨t, hok, ht⟩ := cfg.exists_exact
  have hreach : ∀ v < cfg.size, cfg.Reaches v cfg.finish := fun v hv =>
    (checkReachability_eq_ok_iff.mp h v hv).2
  refine ⟨cfg.dependenceGraph config t, result_buildDependenceGraph config h hok,
    fun c => mem_dependenceGraph, fun c hc => ⟨DependenceGraph.mem_slice_self hc, ?_⟩⟩
  intro Val I J hIJ store k l
  have hmatched := Interpretation.Matched.refl ((cfg.dependenceGraph config t).slice c)
    (.initial cfg store)
  have halike := hmatched.alike ht (closed_slice config c) hreach hIJ k l
  exact ⟨halike.isPrefix, halike.eq_of_finish⟩

namespace FlowGraph

/-- A counting loop, and in front of it one that counts something else. -/
def idling : FlowGraph :=
  .ofEdges
    #[.start, Statement.addDefs {} ["x"], (Statement.addDefs {} ["y"]).addUses ["y"],
      Statement.addUses {} ["x"], (Statement.addDefs {} ["x"]).addUses ["x"],
      Statement.addUses {} ["x"], .finish]
    [(0, 1), (1, 2), (2, 2), (2, 3), (3, 4), (3, 5), (4, 3), (5, 6)] 0 6 (by decide)

def idling.value (a : Visit idling Nat) (x : Symbol) : Nat :=
  if h : x ∈ idling.uses a.node then a.values ⟨x, h⟩ else 0

/-- The first loop is left at the given bound, the second one at two. -/
def idling.leaves (bound : Nat) (a : Visit idling Nat) : Bool :=
  if a.node = 2 then bound ≤ idling.value a "y" else 2 ≤ idling.value a "x"

def idling.counting (bound : Nat) : Interpretation idling Nat where
  assign a x := idling.value a x.1 + 1
  next a :=
    if idling.leaves bound a then (idling.succ a.node).getLast?.getD 0
    else (idling.succ a.node).head?.getD 0
  next_mem := by
    intro a hlt hne
    have hsucc : ∀ v < idling.size, v ≠ 6 → idling.succ v ≠ [] := by decide +kernel
    have hnil := hsucc a.node hlt hne
    rw [List.getLast?_eq_some_getLast hnil, List.head?_eq_some_head hnil]
    split
    · exact List.getLast_mem hnil
    · exact List.head_mem hnil

theorem idling_slice_observed_alike :
    idling.checkReachability = .ok () ∧
      ∃ g, idling.buildDependenceGraph.result = .ok g ∧ (g.slice 5).toList = [1, 3, 4, 5] ∧
        (idling.counting 0).AgreesOn (g.slice 5) (idling.counting 1) ∧
        (idling.counting 0).record (g.slice 5) 7 (.initial idling fun _ => 0) =
          (idling.counting 1).record (g.slice 5) 8 (.initial idling fun _ => 0) := by
  have hcheck : idling.checkReachability = .ok () := by decide +kernel
  have hslice : idling.buildDependenceGraph.result.map (fun g => (g.slice 5).toList) =
      .ok [1, 3, 4, 5] := by decide +kernel
  obtain ⟨g, hok, hmem, hsound⟩ := slice_observed_alike idling {} hcheck
  rw [hok] at hslice
  have hlist : (g.slice 5).toList = [1, 3, 4, 5] := Except.ok.inj hslice
  have hagrees : (idling.counting 0).AgreesOn (g.slice 5) (idling.counting 1) := by
    intro a ha
    have hne : a.node ≠ 2 := by
      rw [← SortedSet.mem_toList, hlist] at ha
      intro h
      rw [h] at ha
      exact absurd ha (by decide)
    refine ⟨rfl, ?_⟩
    simp only [idling.counting, idling.leaves, if_neg hne]
  have hfive : 5 ∈ g := (hmem 5).mpr (by decide +kernel)
  refine ⟨hcheck, g, hok, hlist, hagrees, ?_⟩
  apply ((hsound 5 hfive).2 Nat _ _ hagrees (fun _ => 0) 7 8).2
  · decide +kernel
  · decide +kernel

end FlowGraph

end Slicing
