/-!
# Where a text is cut

A run of characters with a property ends where the first character without it stands, so that
a text of two parts, where the first part has such characters only and the second one begins with
another, can be cut in one way (`append_inj_of_stops`).
-/

namespace Boot386.Text

variable {p : Char → Bool}

/-- What can follow a run of characters with a property: nothing, or something that begins with a
character without it. -/
def Stops (p : Char → Bool) : List Char → Prop
  | [] => True
  | c :: _ => p c = false

/-- The run is the longest one. -/
theorem takeWhile_of_stops {s rest : List Char} (hs : ∀ c ∈ s, p c = true)
    (hrest : Stops p rest) : (s ++ rest).takeWhile p = s := by
  rw [List.takeWhile_append_of_pos hs]
  cases rest with
  | nil => exact List.append_nil _
  | cons c rest =>
    have hc : p c = false := hrest
    rw [List.takeWhile_cons_of_neg (by simp [hc]), List.append_nil]

/-- **A run is taken off the front.** -/
theorem append_inj_of_stops {s t : String} {rest rest' : List Char}
    (hs : ∀ c ∈ s.toList, p c = true) (ht : ∀ c ∈ t.toList, p c = true) (hrest : Stops p rest)
    (hrest' : Stops p rest') :
    s.toList ++ rest = t.toList ++ rest' ↔ s = t ∧ rest = rest' := by
  refine ⟨fun h => ?_, fun ⟨h, h'⟩ => by rw [h, h']⟩
  have hst : s.toList = t.toList := by
    rw [← takeWhile_of_stops hs hrest, h, takeWhile_of_stops ht hrest']
  rw [hst] at h
  exact ⟨String.toList_inj.1 hst, List.append_cancel_left h⟩

end Boot386.Text
