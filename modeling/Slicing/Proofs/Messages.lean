import Slicing.Diagnostic

/-!
# Messages tell defects apart

A message is made of fixed words, the name of a terminal and decimal numerals, and it can be read
back part by part: a numeral ends before the first character that is no digit. Hence the message of
a defect names the nodes that the defect is about, and no two defects have the same message. The
messages of the reachability check name the node at which it failed.
-/
namespace Slicing

variable {s s' : String}

theorem head?_toList_append {c : Char} (h : s.toList.head? = some c) (s' : String) :
    (s ++ s').toList.head? = some c := by
  rw [String.toList_append, List.head?_append, h, Option.some_or]

theorem infix_append {l : List Char} (s' : String) (h : l <:+: s.toList) :
    l <:+: (s ++ s').toList := by
  rw [String.toList_append]
  exact h.trans (List.prefix_append _ _).isInfix

theorem infix_append_self (s s' : String) : s'.toList <:+: (s ++ s').toList := by
  rw [String.toList_append]
  exact (List.suffix_append _ _).isInfix

/-- The text begins with a character that is no digit, so that a numeral before it is complete. -/
def EndsNumeral (s : String) : Prop := s.toList.head?.any (!·.isDigit) = true

instance (s : String) : Decidable (EndsNumeral s) := inferInstanceAs (Decidable (_ = true))

theorem EndsNumeral.append (h : EndsNumeral s) (s' : String) : EndsNumeral (s ++ s') := by
  obtain ⟨c, hc, hdigit⟩ := (Option.any_eq_true _ _).mp h
  exact (Option.any_eq_true _ _).mpr ⟨c, head?_toList_append hc s', hdigit⟩

theorem takeWhile_isDigit_repr_append (n : Nat) (hs : EndsNumeral s) :
    (n.repr ++ s).toList.takeWhile Char.isDigit = n.repr.toList := by
  obtain ⟨c, hc, hdigit⟩ := (Option.any_eq_true _ _).mp hs
  have hdigits : ∀ a ∈ n.repr.toList, a.isDigit := by
    intro a ha
    rw [Nat.toList_repr] at ha
    exact Nat.isDigit_of_mem_toDigits (by decide) (by decide) ha
  have hstop : s.toList.takeWhile Char.isDigit = [] := by
    obtain ⟨r, hr⟩ := List.head?_eq_some_iff.mp hc
    rw [hr, List.takeWhile_cons_of_neg (by simpa using hdigit)]
  rw [String.toList_append, List.takeWhile_append_of_pos hdigits, hstop, List.append_nil]

/-- A numeral and what follows it can be told apart. -/
theorem repr_append_inj {m n : Nat} (h : m.repr ++ s = n.repr ++ s') (hs : EndsNumeral s)
    (hs' : EndsNumeral s') : m = n ∧ s = s' := by
  have hdigits : m.repr.toList = n.repr.toList := by
    rw [← takeWhile_isDigit_repr_append m hs, h, takeWhile_isDigit_repr_append n hs']
  have hmn : m = n := by
    rw [Nat.toList_repr, Nat.toList_repr] at hdigits
    rw [← @Nat.ofDigitChars_ten_toDigits m, hdigits, Nat.ofDigitChars_ten_toDigits]
  rw [hmn] at h
  exact ⟨hmn, (String.append_right_inj _).mp h⟩

theorem NodeId.label_append_inj {u v : NodeId} (h : u.label ++ s = v.label ++ s')
    (hs : EndsNumeral s) (hs' : EndsNumeral s') : u = v ∧ s = s' := by
  have hlabel : ∀ w : NodeId, w.label = "n" ++ w.repr := fun _ => rfl
  rw [hlabel, hlabel, String.append_assoc, String.append_assoc, String.append_right_inj] at h
  exact repr_append_inj h hs hs'

theorem NodeId.label_word_append_inj {u v : NodeId} {word : String}
    (h : u.label ++ (word ++ s) = v.label ++ (word ++ s')) (hword : EndsNumeral word) :
    u = v ∧ s = s' := by
  have hlabel := label_append_inj h (hword.append s) (hword.append s')
  exact ⟨hlabel.1, (String.append_right_inj word).mp hlabel.2⟩

theorem Terminal.toString_append_inj {t t' : Terminal} (h : toString t ++ s = toString t' ++ s') :
    t = t' ∧ s = s' := by
  have hstart : ∀ r, (toString Terminal.start ++ r).toList.head? = some 's' :=
    head?_toList_append (by decide)
  have hfinish : ∀ r, (toString Terminal.finish ++ r).toList.head? = some 'e' :=
    head?_toList_append (by decide)
  have hfirst := congrArg (·.toList.head?) h
  cases t <;> cases t'
  · exact ⟨rfl, (String.append_right_inj _).mp h⟩
  · simp only [hstart, hfinish] at hfirst
    exact absurd hfirst (by decide)
  · simp only [hstart, hfinish] at hfirst
    exact absurd hfirst (by decide)
  · exact ⟨rfl, (String.append_right_inj _).mp h⟩

namespace Defect

/-- The nodes that a defect is about, in the order in which its message names them. -/
def nodes : Defect → List NodeId
  | noTerminal _ => []
  | severalTerminals _ v w => [v, w]
  | terminalOutside _ v _ => [v]
  | sameTerminals v => [v]
  | edgeOutside u v _ => [u, v]
  | edgeFromFinish u v => [u, v]

def opening : Fin 6 → String
  | 0 => "graph has n"
  | 1 => "graph has m"
  | 2 => "designated "
  | 3 => "start and end "
  | 4 => "edge "
  | 5 => "end node "

def subject : Defect → Fin 6
  | noTerminal _ => 0
  | severalTerminals .. => 1
  | terminalOutside .. => 2
  | sameTerminals _ => 3
  | edgeOutside .. => 4
  | edgeFromFinish .. => 5

theorem opening_prefix_message (x : Defect) :
    (opening x.subject).toList <+: x.message.toList := by
  unfold message
  cases x <;> simp only [subject, String.append_assoc, String.toList_append] <;>
    exact .trans (by decide) (List.prefix_append _ _)

theorem subject_eq_of_message_eq {x y : Defect} (h : x.message = y.message) :
    x.subject = y.subject := by
  have hfree : ∀ i j, (opening i).toList <+: (opening j).toList → i = j := by decide
  have hx := x.opening_prefix_message
  rw [h] at hx
  cases List.prefix_or_prefix_of_prefix hx y.opening_prefix_message with
  | inl hxy => exact hfree _ _ hxy
  | inr hyx => exact (hfree _ _ hyx).symm

/-- Different defects have different messages. -/
theorem message_injective : Function.Injective message := by
  intro x y h
  have hsubject := subject_eq_of_message_eq h
  unfold message at h
  cases x with
  | noTerminal t =>
    cases y with
    | noTerminal t' =>
      simp only [String.append_assoc, String.append_right_inj] at h
      obtain ⟨rfl, _⟩ := Terminal.toString_append_inj h
      rfl
    | _ => exact absurd hsubject (by simp [subject])
  | severalTerminals t v w =>
    cases y with
    | severalTerminals t' v' w' =>
      simp only [String.append_assoc, String.append_right_inj] at h
      obtain ⟨rfl, hnodes⟩ := Terminal.toString_append_inj h
      rw [String.append_right_inj] at hnodes
      obtain ⟨rfl, hsecond⟩ := NodeId.label_word_append_inj hnodes (by decide)
      obtain ⟨rfl, _⟩ := NodeId.label_append_inj hsecond (by decide) (by decide)
      rfl
    | _ => exact absurd hsubject (by simp [subject])
  | terminalOutside t v n =>
    cases y with
    | terminalOutside t' v' n' =>
      simp only [String.append_assoc, String.append_right_inj] at h
      obtain ⟨rfl, hnode⟩ := Terminal.toString_append_inj h
      rw [String.append_right_inj] at hnode
      obtain ⟨rfl, hsize⟩ := NodeId.label_word_append_inj hnode (by decide)
      obtain ⟨rfl, _⟩ := repr_append_inj hsize (by decide) (by decide)
      rfl
    | _ => exact absurd hsubject (by simp [subject])
  | sameTerminals v =>
    cases y with
    | sameTerminals v' =>
      simp only [String.append_assoc, String.append_right_inj] at h
      obtain ⟨rfl, _⟩ := NodeId.label_append_inj h (by decide) (by decide)
      rfl
    | _ => exact absurd hsubject (by simp [subject])
  | edgeOutside u v n =>
    cases y with
    | edgeOutside u' v' n' =>
      simp only [String.append_assoc, String.append_right_inj] at h
      obtain ⟨rfl, htarget⟩ := NodeId.label_word_append_inj h (by decide)
      obtain ⟨rfl, hsize⟩ := NodeId.label_word_append_inj htarget (by decide)
      obtain ⟨rfl, _⟩ := repr_append_inj hsize (by decide) (by decide)
      rfl
    | _ => exact absurd hsubject (by simp [subject])
  | edgeFromFinish u v =>
    cases y with
    | edgeFromFinish u' v' =>
      simp only [String.append_assoc, String.append_right_inj] at h
      obtain ⟨rfl, hedge⟩ := NodeId.label_word_append_inj h (by decide)
      simp only [String.append_right_inj] at hedge
      obtain ⟨rfl, _⟩ := NodeId.label_append_inj hedge (by decide) (by decide)
      rfl
    | _ => exact absurd hsubject (by simp [subject])

theorem label_infix_message (x : Defect) :
    ∀ v ∈ x.nodes, v.label.toList <:+: x.message.toList := by
  unfold message
  cases x with
  | noTerminal t => exact List.forall_mem_nil _
  | severalTerminals t v w =>
    refine List.forall_mem_cons.mpr ⟨?_, List.forall_mem_singleton.mpr ?_⟩
    · iterate 3 apply infix_append
      exact infix_append_self _ _
    · apply infix_append
      exact infix_append_self _ _
  | terminalOutside t v n =>
    refine List.forall_mem_singleton.mpr ?_
    iterate 3 apply infix_append
    exact infix_append_self _ _
  | sameTerminals v =>
    refine List.forall_mem_singleton.mpr ?_
    apply infix_append
    exact infix_append_self _ _
  | edgeOutside u v n =>
    refine List.forall_mem_cons.mpr ⟨?_, List.forall_mem_singleton.mpr ?_⟩
    · iterate 5 apply infix_append
      exact infix_append_self _ _
    · iterate 3 apply infix_append
      exact infix_append_self _ _
  | edgeFromFinish u v =>
    refine List.forall_mem_cons.mpr ⟨?_, List.forall_mem_singleton.mpr ?_⟩
    · iterate 3 apply infix_append
      exact infix_append_self _ _
    · apply infix_append
      exact infix_append_self _ _

end Defect

namespace Violation

theorem label_infix_unreachable (s v : NodeId) :
    v.label.toList <:+: (unreachable s v).message.toList := by
  unfold message
  iterate 2 apply infix_append
  exact infix_append_self _ _

theorem label_infix_endless (f v : NodeId) :
    v.label.toList <:+: (endless f v).message.toList := by
  unfold message
  exact infix_append_self _ _

end Violation

end Slicing
