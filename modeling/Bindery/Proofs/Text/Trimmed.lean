import Bindery.Proofs.Source.Outline

/-! Texts without blanks at their ends: what trimming gives, and what it leaves alone. -/

namespace Bindery

open ParamText (trimEnd_initial span_none)

variable {cs front : List Char} {c : Char}

/-- Neither the first nor the last character is a blank. -/
structure Trimmed (cs : List Char) : Prop where
  start : ∀ c ∈ cs.head?, isBlank c = false
  stop : ∀ c ∈ cs.getLast?, isBlank c = false

theorem trimmed_iff : Trimmed cs ↔
    cs.head?.all (!isBlank ·) = true ∧ cs.getLast?.all (!isBlank ·) = true := by
  simp only [Option.all_eq_true, Bool.not_eq_true']
  exact ⟨fun h => ⟨h.start, h.stop⟩, fun h => ⟨h.1, h.2⟩⟩

theorem head?_of_initial (h : front <+: cs) (hc : c ∈ front.head?) : c ∈ cs.head? := by
  obtain ⟨back, rfl⟩ := h
  rw [List.head?_append, Option.mem_def.mp hc]
  rfl

theorem trimStart_start (cs : List Char) : ∀ c ∈ (trimStart cs).head?, isBlank c = false := by
  intro c hc
  have hfirst := List.head?_dropWhile_not isBlank cs
  rw [show (cs.dropWhile isBlank).head? = some c from hc] at hfirst
  exact hfirst

theorem trimEnd_stop (cs : List Char) : ∀ c ∈ (trimEnd cs).getLast?, isBlank c = false := by
  intro c hc
  rw [trimEnd, List.getLast?_reverse] at hc
  exact trimStart_start cs.reverse c hc

theorem trimmed_trimEnd (h : ∀ c ∈ cs.head?, isBlank c = false) : Trimmed (trimEnd cs) :=
  ⟨fun c hc => h c (head?_of_initial (trimEnd_initial cs) hc), trimEnd_stop cs⟩

theorem trimmed_trim (cs : List Char) : Trimmed (trim cs) :=
  trimmed_trimEnd (trimStart_start cs)

namespace Trimmed

variable (h : Trimmed cs)
include h

theorem trimEnd_eq : trimEnd cs = cs := by
  rw [trimEnd, (span_none fun c hc => h.stop c (List.head?_reverse ▸ hc)).2, List.reverse_reverse]

theorem trim_eq : trim cs = cs := by
  rw [trim, trimStart, (span_none h.start).2, h.trimEnd_eq]

end Trimmed

end Bindery
