import ComponentConverter.Text.Span

namespace ComponentConverter

theorem eq_nil_of_bytes_eq_zero {t : Text} (h : bytes t = 0) : t = [] := by
  cases t with
  | nil => rfl
  | cons c t =>
    have := c.utf8Size_pos
    rw [bytes_cons] at h
    omega

theorem append_of_bytes_le {u v u' v' : Text} (h : u ++ v = u' ++ v') (hb : bytes u ≤ bytes u') :
    ∃ w, u' = u ++ w := by
  rcases List.append_eq_append_iff.mp h with ⟨w, hu, -⟩ | ⟨w, hu, -⟩
  · exact ⟨w, hu⟩
  · have hw : w = [] := eq_nil_of_bytes_eq_zero (by rw [hu, bytes_append] at hb; omega)
    exact ⟨[], by rw [hu, hw]; simp⟩

theorem splitBytes?_append (u v : Text) : splitBytes? (bytes u) (u ++ v) = some (u, v) := by
  induction u with
  | nil => cases v <;> rfl
  | cons c u ih =>
    have hc := c.utf8Size_pos
    obtain ⟨n, hn⟩ : ∃ n, bytes (c :: u) = n + 1 := ⟨c.utf8Size + bytes u - 1, by
      rw [bytes_cons]
      omega⟩
    have hle : c.utf8Size ≤ n + 1 := by
      rw [← hn, bytes_cons]
      omega
    have hrest : n + 1 - c.utf8Size = bytes u := by
      rw [← hn, bytes_cons]
      omega
    rw [hn, List.cons_append, splitBytes?, if_pos hle, hrest, ih]
    rfl

theorem splitBytes?_eq_some_iff {n : Nat} {t u v : Text} :
    splitBytes? n t = some (u, v) ↔ t = u ++ v ∧ n = bytes u := by
  constructor
  · intro h
    induction t generalizing n u with
    | nil =>
      cases n with
      | zero =>
        obtain ⟨rfl, rfl⟩ : u = [] ∧ v = [] := by simpa [splitBytes?, eq_comm] using h
        exact ⟨rfl, rfl⟩
      | succ n => simp [splitBytes?] at h
    | cons c t ih =>
      cases n with
      | zero =>
        obtain ⟨rfl, rfl⟩ : u = [] ∧ v = c :: t := by simpa [splitBytes?, eq_comm] using h
        exact ⟨rfl, rfl⟩
      | succ n =>
        rw [splitBytes?] at h
        split at h
        next hle =>
          simp only [Option.map_eq_some_iff, Prod.exists, Prod.mk.injEq] at h
          obtain ⟨u', v', hs, rfl, rfl⟩ := h
          obtain ⟨rfl, hn⟩ := ih hs
          refine ⟨rfl, ?_⟩
          rw [bytes_cons]
          omega
        · simp at h
  · rintro ⟨rfl, rfl⟩
    exact splitBytes?_append u v

namespace Span

theorem slice?_append (u v w : Text) : (Span.mk (bytes u) (bytes u + bytes v)).slice? (u ++ (v ++ w)) = some v := by
  rw [slice?, if_pos (Nat.le_add_right _ _), splitBytes?_append]
  dsimp only
  rw [Nat.add_sub_cancel_left, splitBytes?_append]
  rfl

end Span

end ComponentConverter
