import Slicing.Proofs.Drafts
import Slicing.Proofs.Messages

/-!
# Which drafts build, and what is wrong with the others

A draft builds exactly if it determines two different terminals, all its edges lie between its
nodes and none leaves the finish. The requirements are looked at in this order, the edges in the
order in which they were added and each of them for its range first; `Draft.FirstDefect` says which
defect that singles out. A draft with several defects is rejected for the first of them.
-/
namespace Slicing

namespace Draft

variable {d : Draft} {cfg : FlowGraph} {t : Terminal} {k : StatementKind} {x : Defect}
variable {f s v w : NodeId}

def HasKind (d : Draft) (k : StatementKind) (v : NodeId) : Prop :=
  ∃ s, d.statements[v]? = some s ∧ s.kind = k

/-- The draft says which node a terminal is: a node is designated for it and in range, or none is
designated and exactly one node has its kind. -/
def Determines (d : Draft) (t : Terminal) (v : NodeId) : Prop :=
  d.designated? t = some v ∧ v < d.size ∨
    d.designated? t = none ∧ ∀ w, d.HasKind t.kind w ↔ w = v

def SoundEdge (d : Draft) (finish : NodeId) (e : NodeId × NodeId) : Prop :=
  (e.1 < d.size ∧ e.2 < d.size) ∧ e.1 ≠ finish

/-- The first two nodes that have a property. -/
structure FirstTwo (P : NodeId → Prop) (v w : NodeId) : Prop where
  left : P v
  right : P w
  lt : v < w
  eq_or_le : ∀ u, P u → u = v ∨ w ≤ u

/-- What keeps a draft from determining a terminal. Of several nodes of its kind the first two are
named. -/
inductive TerminalDefect (d : Draft) (t : Terminal) : Defect → Prop where
  | outside {v : NodeId} :
      d.designated? t = some v → d.size ≤ v → TerminalDefect d t (.terminalOutside t v d.size)
  | missing :
      d.designated? t = none → (∀ v, ¬d.HasKind t.kind v) → TerminalDefect d t (.noTerminal t)
  | several {v w : NodeId} :
      d.designated? t = none → FirstTwo (d.HasKind t.kind) v w →
      TerminalDefect d t (.severalTerminals t v w)

/-- What is wrong with an edge. The range of its ends comes first. -/
inductive EdgeDefect (d : Draft) (finish : NodeId) : NodeId × NodeId → Defect → Prop where
  | outside {u v : NodeId} :
      ¬(u < d.size ∧ v < d.size) → EdgeDefect d finish (u, v) (.edgeOutside u v d.size)
  | fromFinish {v : NodeId} :
      finish < d.size → v < d.size → EdgeDefect d finish (finish, v) (.edgeFromFinish finish v)

/-- The first requirement that a draft fails to meet: the start, the finish, that they differ, and
the edges in the order in which they were added. -/
inductive FirstDefect (d : Draft) : Defect → Prop where
  | start {x : Defect} : d.TerminalDefect .start x → FirstDefect d x
  | finish {s : NodeId} {x : Defect} :
      d.Determines .start s → d.TerminalDefect .finish x → FirstDefect d x
  | same {s : NodeId} :
      d.Determines .start s → d.Determines .finish s → FirstDefect d (.sameTerminals s)
  | edge {s f : NodeId} {before after : List (NodeId × NodeId)} {e : NodeId × NodeId} {x : Defect} :
      d.Determines .start s → d.Determines .finish f → s ≠ f →
      d.edges.toList = before ++ e :: after → (∀ e' ∈ before, d.SoundEdge f e') →
      d.EdgeDefect f e x → FirstDefect d x

theorem mem_ofKind_iff_hasKind : v ∈ d.ofKind k ↔ d.HasKind k v := mem_ofKind

theorem findTerminal_eq_ok_iff_determines : d.findTerminal t = .ok v ↔ d.Determines t v := by
  rw [findTerminal_eq_ok_iff]
  simp only [mem_ofKind_iff_hasKind]
  constructor
  · intro ⟨hlt, hfound⟩
    exact hfound.imp_left fun hsome => ⟨hsome, hlt⟩
  · intro h
    cases h with
    | inl hsome => exact ⟨hsome.2, .inl hsome.1⟩
    | inr honly =>
      obtain ⟨s, hs, _⟩ := (honly.2 v).mpr rfl
      exact ⟨(Array.getElem?_eq_some_iff.mp hs).1, .inr honly⟩

theorem FirstTwo.unique {P : Nat → Prop} {a b v w : Nat} (h : FirstTwo P a b)
    (h' : FirstTwo P v w) : a = v ∧ b = w := by
  have hab : a < b := h.lt
  have hvw : v < w := h'.lt
  have hv : v = a ∨ b ≤ v := h.eq_or_le v h'.left
  have hw : w = a ∨ b ≤ w := h.eq_or_le w h'.right
  have ha : a = v ∨ w ≤ a := h'.eq_or_le a h.left
  have hb : b = v ∨ w ≤ b := h'.eq_or_le b h.right
  omega

/-- The list of the nodes of a kind is ascending, so that it begins with the first two. -/
theorem firstTwo_of_ofKind {rest : List NodeId} (h : d.ofKind k = v :: w :: rest) :
    FirstTwo (d.HasKind k) v w := by
  have hmem : ∀ u, d.HasKind k u ↔ u ∈ v :: w :: rest := by
    intro u
    rw [← h, mem_ofKind_iff_hasKind]
  have hascending : (d.ofKind k).Pairwise (· < ·) := List.pairwise_lt_range.filter _
  rw [h, List.pairwise_cons, List.pairwise_cons] at hascending
  obtain ⟨hv, hw, _⟩ := hascending
  refine ⟨(hmem v).mpr List.mem_cons_self,
    (hmem w).mpr (List.mem_cons_of_mem v List.mem_cons_self), hv w List.mem_cons_self, ?_⟩
  intro u hu
  cases List.mem_cons.mp ((hmem u).mp hu) with
  | inl huv => exact .inl huv
  | inr hu =>
    cases List.mem_cons.mp hu with
    | inl huw => exact .inr (Nat.le_of_eq huw.symm)
    | inr hrest => exact .inr (Nat.le_of_lt (hw u hrest))

theorem exists_ofKind_eq_cons_cons_iff :
    (∃ rest, d.ofKind k = v :: w :: rest) ↔ FirstTwo (d.HasKind k) v w := by
  constructor
  · rintro ⟨rest, h⟩
    exact firstTwo_of_ofKind h
  · intro h
    have hv := mem_ofKind_iff_hasKind.mpr h.left
    have hw := mem_ofKind_iff_hasKind.mpr h.right
    cases hlist : d.ofKind k with
    | nil =>
      rw [hlist] at hv
      exact absurd hv List.not_mem_nil
    | cons a l =>
      cases l with
      | nil =>
        rw [hlist, List.mem_singleton] at hv hw
        exact absurd (hv.trans hw.symm) (Nat.ne_of_lt h.lt)
      | cons b rest =>
        obtain ⟨rfl, rfl⟩ := (firstTwo_of_ofKind hlist).unique h
        exact ⟨rest, rfl⟩

theorem ofKind_eq_nil_iff : d.ofKind k = [] ↔ ∀ v, ¬d.HasKind k v := by
  rw [List.eq_nil_iff_forall_not_mem]
  simp only [mem_ofKind_iff_hasKind]

theorem findTerminal_eq_error_iff : d.findTerminal t = .error x ↔ d.TerminalDefect t x := by
  constructor
  · intro h
    unfold findTerminal at h
    split at h
    · next v hv =>
      split at h
      · exact nomatch h
      · next hlt => exact Except.error.inj h ▸ .outside hv (Nat.le_of_not_lt hlt)
    · next hnone =>
      split at h
      · next hnil => exact Except.error.inj h ▸ .missing hnone (ofKind_eq_nil_iff.mp hnil)
      · exact nomatch h
      · next hlist => exact Except.error.inj h ▸ .several hnone (firstTwo_of_ofKind hlist)
  · intro h
    unfold findTerminal
    cases h with
    | outside hsome hle =>
      rw [hsome]
      exact if_neg (Nat.not_lt_of_le hle)
    | missing hnone hmissing => rw [hnone, ofKind_eq_nil_iff.mpr hmissing]
    | several hnone htwo =>
      obtain ⟨rest, hlist⟩ := exists_ofKind_eq_cons_cons_iff.mpr htwo
      rw [hnone, hlist]

theorem edgeDefect?_eq_some_iff {e : NodeId × NodeId} :
    d.edgeDefect? f e = some x ↔ d.EdgeDefect f e x := by
  obtain ⟨u, v⟩ := e
  unfold edgeDefect?
  split
  · next hlt =>
    split
    · next heq =>
      obtain rfl : u = f := heq
      constructor
      · intro h
        obtain rfl := Option.some.inj h
        exact .fromFinish hlt.1 hlt.2
      · intro h
        cases h with
        | outside hnot => exact absurd hlt hnot
        | fromFinish _ _ => rfl
    · next hne =>
      refine iff_of_false nofun fun h => ?_
      cases h with
      | outside hnot => exact hnot hlt
      | fromFinish _ _ => exact hne rfl
  · next hnot =>
    constructor
    · intro h
      obtain rfl := Option.some.inj h
      exact .outside hnot
    · intro h
      cases h with
      | outside _ => rfl
      | fromFinish hu hv => exact absurd ⟨hu, hv⟩ hnot

theorem firstEdgeDefect?_eq_some_iff :
    d.firstEdgeDefect? f = some x ↔
      ∃ before e after, d.edges.toList = before ++ e :: after ∧
        (∀ e' ∈ before, d.SoundEdge f e') ∧ d.EdgeDefect f e x := by
  rw [firstEdgeDefect?, List.findSome?_eq_some_iff]
  simp only [edgeDefect?_eq_none_iff, edgeDefect?_eq_some_iff, SoundEdge, and_comm]

theorem build_eq_error_iff :
    d.build = .error x ↔
      d.findTerminal .start = .error x ∨
      ∃ s, d.findTerminal .start = .ok s ∧
        (d.findTerminal .finish = .error x ∨
        ∃ f, d.findTerminal .finish = .ok f ∧
          if s = f then .sameTerminals s = x else d.firstEdgeDefect? f = some x) := by
  unfold build
  split
  · next hs => simp [hs]
  · next hs hf => simp [hs, hf]
  · next hs hf =>
    split
    · next heq => simp [hs, hf, heq]
    · next hne =>
      split
      · next hdefect => simp [hs, hf, hne, hdefect]
      · next hdefect => simp [hs, hf, hne, hdefect]

theorem build_eq_error_iff_firstDefect : d.build = .error x ↔ d.FirstDefect x := by
  rw [build_eq_error_iff]
  simp only [findTerminal_eq_error_iff, findTerminal_eq_ok_iff_determines,
    firstEdgeDefect?_eq_some_iff]
  constructor
  · intro h
    obtain hstart | ⟨s, hs, hfinish | ⟨f, hf, hrest⟩⟩ := h
    · exact .start hstart
    · exact .finish hs hfinish
    · split at hrest
      · next heq =>
        obtain rfl := heq
        exact hrest ▸ .same hs hf
      · next hne =>
        obtain ⟨before, e, after, hsplit, hsound, he⟩ := hrest
        exact .edge hs hf hne hsplit hsound he
  · intro h
    cases h with
    | start hstart => exact .inl hstart
    | finish hs hfinish => exact .inr ⟨_, hs, .inl hfinish⟩
    | same hs hf =>
      refine .inr ⟨_, hs, .inr ⟨_, hf, ?_⟩⟩
      rw [if_pos rfl]
    | edge hs hf hne hsplit hsound he =>
      refine .inr ⟨_, hs, .inr ⟨_, hf, ?_⟩⟩
      rw [if_neg hne]
      exact ⟨_, _, _, hsplit, hsound, he⟩

theorem Yields.determines (h : d.Yields cfg) :
    d.Determines .start cfg.start ∧ d.Determines .finish cfg.finish :=
  ⟨findTerminal_eq_ok_iff_determines.mp h.start, findTerminal_eq_ok_iff_determines.mp h.finish⟩

theorem exists_build_iff :
    (∃ cfg, d.build = .ok cfg) ↔
      ∃ s f, d.Determines .start s ∧ d.Determines .finish f ∧ s ≠ f ∧
        ∀ e ∈ d.edges, d.SoundEdge f e := by
  constructor
  · intro ⟨cfg, hcfg⟩
    have h := yields_of_build hcfg
    exact ⟨cfg.start, cfg.finish, h.determines.1, h.determines.2, cfg.start_ne_finish,
      h.edges_below⟩
  · intro ⟨s, f, hs, hf, hne, hedges⟩
    obtain ⟨cfg, hcfg, _⟩ := exists_build (findTerminal_eq_ok_iff_determines.mpr hs)
      (findTerminal_eq_ok_iff_determines.mpr hf) hne hedges
    exact ⟨cfg, hcfg⟩

/-- A draft builds exactly if it determines two different terminals and its edges are sound, and
otherwise it is rejected for its first defect. The message of a defect names its nodes and tells it
from every other defect. -/
theorem build_reports_first_defect (d : Draft) :
    ((∃ cfg, d.build = .ok cfg) ↔
      ∃ s f, d.Determines .start s ∧ d.Determines .finish f ∧ s ≠ f ∧
        ∀ e ∈ d.edges, d.SoundEdge f e) ∧
    (∀ cfg, d.build = .ok cfg → d.Determines .start cfg.start ∧ d.Determines .finish cfg.finish) ∧
    (∀ x, d.build = .error x ↔ d.FirstDefect x) ∧
    ∀ x : Defect, (∀ v ∈ x.nodes, v.label.toList <:+: x.message.toList) ∧
      ∀ y : Defect, y.message = x.message → y = x := by
  refine ⟨exists_build_iff, ?_, fun x => build_eq_error_iff_firstDefect, ?_⟩
  · intro cfg hcfg
    exact (yields_of_build hcfg).determines
  · intro x
    exact ⟨x.label_infix_message, fun y hy => Defect.message_injective hy⟩

/-- The designated start may have any kind, of the three ends the first two are named, and the edge
that leads nowhere is not looked at. -/
example :
    ({ statements := #[.finish, {}, .finish, .finish]
       edges := #[(0, 7)]
       start? := some 1 } : Draft).build = .error (.severalTerminals .finish 0 2) := by
  rfl

end Draft

end Slicing
