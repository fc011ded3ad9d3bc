/-! Prefixes of a list that are found one after the other. -/

namespace Sketchwright.Text

/-- A prefix and a prefix of what follows it make a prefix. -/
theorem append_isPrefix {α : Type} {as bs cs : List α} (ha : as <+: cs)
    (hb : bs <+: cs.drop as.length) : as ++ bs <+: cs := by
  obtain ⟨rest, rfl⟩ := ha
  rw [List.drop_left] at hb
  exact (List.prefix_append_right_inj as).mpr hb

theorem prefix_append_drop {α : Type} {as cs : List α} (h : as <+: cs) :
    as ++ cs.drop as.length = cs := by
  obtain ⟨rest, rfl⟩ := h
  rw [List.drop_left]

theorem length_drop_lt {α : Type} {as cs : List α} (h : as <+: cs) (hne : as ≠ []) :
    (cs.drop as.length).length < cs.length := by
  have hpos := List.length_pos_iff.mpr hne
  have := h.length_le
  rw [List.length_drop]
  omega

end Sketchwright.Text
