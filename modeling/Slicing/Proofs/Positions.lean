import Mathlib.Order.Bounds.Defs
import Slicing.Proofs.Construction
import Slicing.Proofs.SourceOrder

/-!
# The statement at a place in the source

The statements whose ranges contain a location are compared two by two, and the preferred one is
kept. Preference is a strict order in which candidates with different nodes are never equal, so
the result is the one candidate that is preferred to all others, in whatever order they come.

With ranges that overlap arbitrarily the innermost statement is the one with the latest start;
ends are compared only between equal starts. Its range contains no other candidate's range except
an equal one, and if the ranges are nested it lies in all of them.
-/
namespace Slicing

namespace SourceRange

variable {a b : SourceRange} {l : SourceLocation}

theorem eq_of_ends (hstart : a.start = b.start) (hstop : a.stop = b.stop) : a = b := by
  obtain ⟨_, _⟩ := a
  obtain ⟨_, _⟩ := b
  exact congrArg₂ mk hstart hstop

/-- Every location of the first range belongs to the second one. -/
def Within (a b : SourceRange) : Prop := ∀ l ∈ a, l ∈ b

/-- For a range that is not empty it is enough to compare the ends. -/
theorem within_iff (h : l ∈ a) : a.Within b ↔ b.start ≤ a.start ∧ a.stop ≤ b.stop := by
  have hle : a.start ≤ a.stop := SourceLocation.le_trans h.1 h.2
  constructor
  · intro hw
    exact ⟨(hw a.start ⟨Std.le_refl _, hle⟩).1, (hw a.stop ⟨hle, Std.le_refl _⟩).2⟩
  · intro hends m hm
    exact ⟨SourceLocation.le_trans hends.1 hm.1, SourceLocation.le_trans hm.2 hends.2⟩

end SourceRange

namespace TieBreak

variable {t : TieBreak} {a b c : Candidate} {cs : List Candidate}

theorem Prefers.asymm (h : t.Prefers a b) : ¬t.Prefers b a := by
  cases t with
  | first => exact Nat.lt_asymm h
  | innermost =>
    unfold Prefers at *
    grind

theorem Prefers.total (t : TieBreak) (h : a.node ≠ b.node) : t.Prefers a b ∨ t.Prefers b a := by
  cases t with
  | first => exact Nat.lt_or_gt_of_ne h
  | innermost =>
    unfold Prefers
    grind

theorem not_prefers_trans (hab : ¬t.Prefers a b) (hbc : ¬t.Prefers b c) : ¬t.Prefers a c := by
  cases t with
  | first => exact Nat.not_lt.mpr (Nat.le_trans (Nat.not_lt.mp hbc) (Nat.not_lt.mp hab))
  | innermost =>
    unfold Prefers at *
    grind

theorem not_prefers_kept (t : TieBreak) (a b : Candidate) :
    ¬t.Prefers a (if t.Prefers b a then b else a) ∧
      ¬t.Prefers b (if t.Prefers b a then b else a) := by
  split
  · next hb => exact ⟨hb.asymm, fun h => h.asymm h⟩
  · next hb => exact ⟨fun h => h.asymm h, hb⟩

/-- What is kept was compared, and nothing that was compared is preferred to it. -/
theorem foldl_kept (t : TieBreak) (cs : List Candidate) (c : Candidate) :
    cs.foldl (fun best d => if t.Prefers d best then d else best) c ∈ c :: cs ∧
      ∀ d ∈ c :: cs,
        ¬t.Prefers d (cs.foldl (fun best d => if t.Prefers d best then d else best) c) := by
  induction cs generalizing c with
  | nil =>
    refine ⟨List.mem_cons_self, fun d hd hd' => ?_⟩
    rw [List.mem_singleton.mp hd] at hd'
    exact hd'.asymm hd'
  | cons b cs ih =>
    have hkept := not_prefers_kept t c b
    have hmem : (if t.Prefers b c then b else c) ∈ [c, b] := by
      split <;> simp
    rw [List.foldl_cons]
    generalize (if t.Prefers b c then b else c) = m at hkept hmem
    obtain ⟨hin, hbest⟩ := ih m
    have hm := hbest m List.mem_cons_self
    constructor
    · simp only [List.mem_cons, List.not_mem_nil, or_false] at hin hmem ⊢
      grind
    · intro d hd
      rcases List.mem_cons.mp hd with rfl | hd
      · exact not_prefers_trans hkept.1 hm
      · rcases List.mem_cons.mp hd with rfl | hd
        · exact not_prefers_trans hkept.2 hm
        · exact hbest d (List.mem_cons_of_mem m hd)

theorem choose?_eq_none_iff : t.choose? cs = none ↔ cs = [] := by
  cases cs <;> simp [choose?]

/-- Among candidates with different nodes the chosen one is preferred to all others. -/
theorem choose?_eq_some_iff (hinj : ∀ a ∈ cs, ∀ b ∈ cs, a.node = b.node → a = b) :
    t.choose? cs = some c ↔ c ∈ cs ∧ ∀ d ∈ cs, d ≠ c → t.Prefers c d := by
  cases cs with
  | nil => simp [choose?]
  | cons b cs =>
    obtain ⟨hmem, hbest⟩ := foldl_kept t cs b
    rw [choose?, Option.some.injEq]
    constructor
    · rintro rfl
      refine ⟨hmem, fun d hd hne => ?_⟩
      have hnode : d.node ≠ _ := fun heq => hne (hinj d hd _ hmem heq)
      exact (Prefers.total t hnode).resolve_left (hbest d hd)
    · rintro ⟨hc, hpref⟩
      by_contra hne
      exact hbest c hc (hpref _ hmem hne)

end TieBreak

namespace DependenceGraph

variable {g : DependenceGraph} {l : SourceLocation} {v : NodeId} {c : Candidate}

theorem range?_connectAll (g : DependenceGraph) (links : List Link) (v : NodeId) :
    ((g.connectAll links).entry v).range? = (g.entry v).range? := by
  induction links generalizing g with
  | nil => rfl
  | cons k links ih =>
    have hstep : ((g.connect k).entry v).range? = (g.entry v).range? := by
      rw [entry_connect]
      split <;> rfl
    exact (ih (g.connect k)).trans hstep

theorem mem_candidates :
    c ∈ g.candidates l ↔
      c.node < g.size ∧ (g.entry c.node).range? = some c.range ∧ l ∈ c.range := by
  simp only [candidates, List.mem_filterMap, List.mem_range, Option.map_eq_some_iff,
    Option.filter_eq_some_iff, decide_eq_true_eq]
  constructor
  · rintro ⟨v, hv, r, ⟨hr, hl⟩, rfl⟩
    exact ⟨hv, hr, hl⟩
  · rintro ⟨hv, hr, hl⟩
    exact ⟨c.node, hv, c.range, ⟨hr, hl⟩, rfl⟩

theorem statementAt?_eq_none_iff : g.statementAt? l = none ↔ ∀ c, c ∉ g.candidates l := by
  rw [statementAt?, Option.map_eq_none_iff, TieBreak.choose?_eq_none_iff,
    List.eq_nil_iff_forall_not_mem]

theorem statementAt?_eq_some_iff :
    g.statementAt? l = some v ↔
      ∃ c ∈ g.candidates l, c.node = v ∧
        ∀ d ∈ g.candidates l, d ≠ c → g.config.tieBreak.Prefers c d := by
  have hinj : ∀ a ∈ g.candidates l, ∀ b ∈ g.candidates l, a.node = b.node → a = b := by
    intro a ha b hb hnode
    have hra := (mem_candidates.mp ha).2.1
    have hrb := (mem_candidates.mp hb).2.1
    rw [hnode] at hra
    obtain ⟨_, _⟩ := a
    obtain ⟨_, _⟩ := b
    simp_all
  simp only [statementAt?, Option.map_eq_some_iff, TieBreak.choose?_eq_some_iff hinj]
  grind

end DependenceGraph

namespace FlowGraph

variable {cfg : FlowGraph} {t : PostdominatorTree} {config : Config} {l : SourceLocation}
variable {v w : NodeId}

/-- The node is a real statement other than the finish, and its range contains the location. -/
def StandsAt (cfg : FlowGraph) (l : SourceLocation) (v : NodeId) : Prop :=
  v ≠ cfg.finish ∧ ∃ s, cfg.statement? v = some s ∧ s.kind = .other ∧ l ∈ s.range

theorem searchRange?_eq_some_iff {r : SourceRange} :
    cfg.searchRange? v = some r ↔
      v ≠ cfg.finish ∧ ∃ s, cfg.statement? v = some s ∧ s.kind = .other ∧ s.range = r := by
  simp only [searchRange?, Option.ite_none_left_eq_some, Option.bind_eq_some_iff,
    Option.ite_none_right_eq_some, Option.some.injEq]

theorem range_eq {s : Statement} (h : cfg.statement? v = some s) : cfg.range v = s.range := by
  rw [range, h, Option.elim_some]

theorem lt_size_of_statement? {s : Statement} (h : cfg.statement? v = some s) : v < cfg.size := by
  obtain ⟨hlt, _⟩ := Array.getElem?_eq_some_iff.mp h
  exact cfg.size_statements ▸ hlt

theorem range?_dependenceGraph (hv : v < cfg.size) :
    ((cfg.dependenceGraph config t).entry v).range? = cfg.searchRange? v := by
  rw [dependenceGraph, DependenceGraph.range?_connectAll]
  simp [DependenceGraph.entry, unconnected, Digraph.nodes, hv]

theorem mem_candidates_iff {c : Candidate} :
    c ∈ (cfg.dependenceGraph config t).candidates l ↔
      cfg.StandsAt l c.node ∧ c.range = cfg.range c.node := by
  have hsize : (cfg.dependenceGraph config t).size = cfg.size := by
    rw [dependenceGraph, DependenceGraph.size_connectAll, size_unconnected]
  rw [DependenceGraph.mem_candidates, hsize]
  constructor
  · rintro ⟨hlt, hr, hl⟩
    rw [range?_dependenceGraph hlt, searchRange?_eq_some_iff] at hr
    obtain ⟨hne, s, hs, hkind, hrange⟩ := hr
    exact ⟨⟨hne, s, hs, hkind, hrange ▸ hl⟩, hrange ▸ (range_eq hs).symm⟩
  · rintro ⟨⟨hne, s, hs, hkind, hl⟩, hrange⟩
    have hlt := lt_size_of_statement? hs
    have hrange' : s.range = c.range := (hrange.trans (range_eq hs)).symm
    rw [range?_dependenceGraph hlt, searchRange?_eq_some_iff]
    exact ⟨hlt, ⟨hne, s, hs, hkind, hrange'⟩, hrange' ▸ hl⟩

theorem statementAt?_dependenceGraph_iff :
    (cfg.dependenceGraph config t).statementAt? l = some v ↔
      cfg.StandsAt l v ∧ ∀ w, cfg.StandsAt l w → w ≠ v →
        config.tieBreak.Prefers ⟨v, cfg.range v⟩ ⟨w, cfg.range w⟩ := by
  have hconfig : (cfg.dependenceGraph config t).config = config :=
    congrArg DependenceGraph.config (cfg.dependenceGraph_config t config config)
  rw [DependenceGraph.statementAt?_eq_some_iff, hconfig]
  constructor
  · rintro ⟨⟨u, r⟩, hc, rfl, hpref⟩
    obtain ⟨hu, hr⟩ := mem_candidates_iff.mp hc
    dsimp only at hu hr
    subst hr
    refine ⟨hu, fun w hw hne => hpref ⟨w, cfg.range w⟩ (mem_candidates_iff.mpr ⟨hw, rfl⟩) ?_⟩
    exact fun heq => hne (congrArg Candidate.node heq)
  · rintro ⟨hv, hpref⟩
    refine ⟨⟨v, cfg.range v⟩, mem_candidates_iff.mpr ⟨hv, rfl⟩, rfl, ?_⟩
    rintro ⟨w, r⟩ hd hne
    obtain ⟨hw, hr⟩ := mem_candidates_iff.mp hd
    dsimp only at hw hr
    subst hr
    exact hpref w hw fun heq => hne (by rw [heq])

theorem statementAt?_dependenceGraph_eq_none_iff :
    (cfg.dependenceGraph config t).statementAt? l = none ↔ ∀ v, ¬cfg.StandsAt l v := by
  rw [DependenceGraph.statementAt?_eq_none_iff]
  constructor
  · intro hnone v hv
    exact hnone ⟨v, cfg.range v⟩ (mem_candidates_iff.mpr ⟨hv, rfl⟩)
  · intro hnone c hc
    exact hnone c.node (mem_candidates_iff.mp hc).1

/-! ## The lowest and the innermost statement -/

theorem first_iff_isLeast :
    (cfg.StandsAt l v ∧ ∀ w, cfg.StandsAt l w → w ≠ v →
        TieBreak.first.Prefers ⟨v, cfg.range v⟩ ⟨w, cfg.range w⟩) ↔
      IsLeast {w | cfg.StandsAt l w} v := by
  refine and_congr_right fun _ => ⟨fun hpref w hw => ?_, fun hleast w hw hne => ?_⟩
  · by_cases heq : w = v
    · exact Nat.le_of_eq heq.symm
    · exact Nat.le_of_lt (hpref w hw heq)
  · exact Nat.lt_of_le_of_ne (hleast hw) hne.symm

/-- Of the statements at a location the one that starts last, of those the one that ends first,
and the lowest one of equal range. -/
structure Innermost (cfg : FlowGraph) (l : SourceLocation) (v : NodeId) : Prop where
  standsAt : cfg.StandsAt l v
  start_le : ∀ w, cfg.StandsAt l w → (cfg.range w).start ≤ (cfg.range v).start
  le_stop : ∀ w, cfg.StandsAt l w → (cfg.range w).start = (cfg.range v).start →
    (cfg.range v).stop ≤ (cfg.range w).stop
  le_node : ∀ w, cfg.StandsAt l w → cfg.range w = cfg.range v → v ≤ w

theorem innermost_iff :
    (cfg.StandsAt l v ∧ ∀ w, cfg.StandsAt l w → w ≠ v →
        TieBreak.innermost.Prefers ⟨v, cfg.range v⟩ ⟨w, cfg.range w⟩) ↔
      cfg.Innermost l v := by
  constructor
  · rintro ⟨hv, hpref⟩
    refine ⟨hv, fun w hw => ?_, fun w hw hstart => ?_, fun w hw hrange => ?_⟩
    all_goals
      by_cases heq : w = v
      · subst heq
        exact Std.le_refl _
      · have h := hpref w hw heq
        simp only [TieBreak.Prefers] at h
        grind
  · intro h
    refine ⟨h.standsAt, fun w hw hne => ?_⟩
    by_cases hstart : (cfg.range w).start = (cfg.range v).start
    · by_cases hstop : (cfg.range v).stop = (cfg.range w).stop
      · have hrange : cfg.range w = cfg.range v := SourceRange.eq_of_ends hstart hstop.symm
        have hlt : v < w := Nat.lt_of_le_of_ne (h.le_node w hw hrange) hne.symm
        exact .inr ⟨hstart, .inr ⟨hstop, hlt⟩⟩
      · exact .inr ⟨hstart, .inl (Std.lt_of_le_of_ne (h.le_stop w hw hstart) hstop)⟩
    · exact .inl (Std.lt_of_le_of_ne (h.start_le w hw) hstart)

theorem StandsAt.mem_range (h : cfg.StandsAt l v) : l ∈ cfg.range v := by
  obtain ⟨_, s, hs, _, hl⟩ := h
  rw [range_eq hs]
  exact hl

namespace Innermost

/-- No range of another candidate lies inside the chosen one, except an equal one. -/
theorem eq_of_within (h : cfg.Innermost l v) (hw : cfg.StandsAt l w)
    (hin : (cfg.range w).Within (cfg.range v)) : cfg.range w = cfg.range v := by
  have hends := (SourceRange.within_iff hw.mem_range).mp hin
  have hstart := SourceLocation.le_antisymm (h.start_le w hw) hends.1
  exact SourceRange.eq_of_ends hstart
    (SourceLocation.le_antisymm hends.2 (h.le_stop w hw hstart))

/-- The chosen range lies inside each range that it is nested with. -/
theorem within_of_nested (h : cfg.Innermost l v) (hw : cfg.StandsAt l w)
    (hnested : (cfg.range v).Within (cfg.range w) ∨ (cfg.range w).Within (cfg.range v)) :
    (cfg.range v).Within (cfg.range w) := by
  cases hnested with
  | inl hin => exact hin
  | inr hin =>
    rw [h.eq_of_within hw hin]
    exact fun _ hm => hm

end Innermost

/-- A location finds a statement exactly if some real statement other than the finish covers it.
Depending on the configuration this is the lowest one, or the innermost one, whose range contains
no other candidate's range but an equal one and lies in all of them if they are nested. The slice
at a location is the slice of the statement there. -/
theorem location_picks_innermost (cfg : FlowGraph) (config : Config)
    (h : config.checked → cfg.checkReachability = .ok ()) :
    ∃ g, (cfg.buildDependenceGraph config).result = .ok g ∧ ∀ l,
      (g.statementAt? l = none ↔ ∀ v, ¬cfg.StandsAt l v) ∧
      (config.tieBreak = .first →
        ∀ v, g.statementAt? l = some v ↔ IsLeast {w | cfg.StandsAt l w} v) ∧
      (config.tieBreak = .innermost → ∀ v,
        (g.statementAt? l = some v ↔ cfg.Innermost l v) ∧
        (g.statementAt? l = some v →
          (∀ w, cfg.StandsAt l w → (cfg.range w).Within (cfg.range v) →
            cfg.range w = cfg.range v) ∧
          ((∀ u w, cfg.StandsAt l u → cfg.StandsAt l w →
              (cfg.range u).Within (cfg.range w) ∨ (cfg.range w).Within (cfg.range u)) →
            ∀ w, cfg.StandsAt l w → (cfg.range v).Within (cfg.range w)))) ∧
      g.sliceAt? l = (g.statementAt? l).map g.slice ∧
      (g.sliceAt? l = none ↔ g.statementAt? l = none) := by
  obtain ⟨t, hok, _⟩ := cfg.exists_exact
  refine ⟨cfg.dependenceGraph config t, result_of_admitted h hok, fun l => ?_⟩
  refine ⟨statementAt?_dependenceGraph_eq_none_iff, fun htie v => ?_, fun htie v => ?_, rfl,
    Option.map_eq_none_iff⟩
  · rw [statementAt?_dependenceGraph_iff, htie, first_iff_isLeast]
  · have hiff : (cfg.dependenceGraph config t).statementAt? l = some v ↔ cfg.Innermost l v := by
      rw [statementAt?_dependenceGraph_iff, htie, innermost_iff]
    refine ⟨hiff, fun hv => ?_⟩
    have hinner := hiff.mp hv
    refine ⟨fun w hw => hinner.eq_of_within hw, fun hnested w hw => ?_⟩
    exact hinner.within_of_nested hw (hnested v w hinner.standsAt hw)

/-- Statements that overlap in every way: a start that covers all, nested and equal ranges, one that
overlaps others in part, one whose end lies before its start, and a finish with a range. -/
def overlapping : FlowGraph :=
  .ofEdges
    #[{ range := ⟨⟨1, 1⟩, ⟨9, 9⟩⟩ }, { range := ⟨⟨1, 1⟩, ⟨9, 9⟩⟩ },
      { range := ⟨⟨2, 1⟩, ⟨6, 5⟩⟩ }, { range := ⟨⟨3, 4⟩, ⟨5, 2⟩⟩ },
      { range := ⟨⟨3, 4⟩, ⟨5, 2⟩⟩ }, { range := ⟨⟨7, 1⟩, ⟨2, 1⟩⟩ },
      { range := ⟨⟨3, 2⟩, ⟨4, 8⟩⟩ }, { kind := .start, range := ⟨⟨4, 1⟩, ⟨4, 1⟩⟩ }]
    [(1, 2), (2, 3), (3, 4), (4, 5), (5, 6), (6, 7), (7, 0)] 1 0 (by decide)

theorem overlapping_picks_innermost :
    (Config.strict.checked → overlapping.checkReachability = .ok ()) ∧
      ∃ g, (overlapping.buildDependenceGraph .strict).result = .ok g ∧
        g.statementAt? ⟨4, 1⟩ = some 3 ∧ overlapping.Innermost ⟨4, 1⟩ 3 ∧
        overlapping.StandsAt ⟨4, 1⟩ 6 ∧
        ¬(overlapping.range 3).Within (overlapping.range 6) ∧
        g.statementAt? ⟨9, 10⟩ = none ∧ ¬overlapping.StandsAt ⟨9, 10⟩ 1 := by
  have hcheck : Config.strict.checked → overlapping.checkReachability = .ok () := fun _ => by
    decide +kernel
  have hfound : (overlapping.buildDependenceGraph .strict).result.map (fun g =>
      (g.statementAt? ⟨4, 1⟩, g.statementAt? ⟨9, 10⟩)) = .ok (some 3, none) := by decide +kernel
  obtain ⟨g, hok, hall⟩ := location_picks_innermost overlapping .strict hcheck
  rw [hok] at hfound
  have hthree : g.statementAt? ⟨4, 1⟩ = some 3 := congrArg Prod.fst (Except.ok.inj hfound)
  have hnone : g.statementAt? ⟨9, 10⟩ = none := congrArg Prod.snd (Except.ok.inj hfound)
  have hsix : overlapping.StandsAt ⟨4, 1⟩ 6 :=
    ⟨by decide, { range := ⟨⟨3, 2⟩, ⟨4, 8⟩⟩ }, by decide +kernel, rfl, by decide⟩
  have hout : ¬(overlapping.range 3).Within (overlapping.range 6) := fun hin =>
    absurd (hin ⟨5, 2⟩ (by decide +kernel)) (by decide +kernel)
  exact ⟨hcheck, g, hok, hthree, ((hall ⟨4, 1⟩).2.2.1 rfl 3).1.mp hthree, hsix, hout, hnone,
    (hall ⟨9, 10⟩).1.mp hnone 1⟩

end FlowGraph

end Slicing
