import ComponentConverter.Text.Blank

namespace ComponentConverter

open List

variable {s t : Text}

theorem isBlank_append : isBlank (s ++ t) = (isBlank s && isBlank t) := all_append

theorem dropWhile_blank {w : Text} (hw : isBlank w = true) (ht : ∀ c ∈ t.head?, isSpace c = false) :
    (w ++ t).dropWhile isSpace = t := by
  rw [dropWhile_append_of_pos (all_eq_true.mp hw)]
  cases t with
  | nil => rfl
  | cons c t => rw [dropWhile_cons_of_neg (by simp [ht c rfl])]

theorem trimEnd_append (u v : Text) : trimEnd (u ++ v) = if trimEnd v = [] then trimEnd u else u ++ trimEnd v := by
  rw [trimEnd, reverse_append, dropWhile_append]
  simp only [trimEnd, reverse_eq_nil_iff, List.isEmpty_iff]
  split
  · rfl
  · simp

theorem trimEnd_eq_self (h : ∀ c, t.getLast? = some c → isSpace c = false) : trimEnd t = t := by
  cases ht : t.reverse with
  | nil => rw [reverse_eq_nil_iff.mp ht]; rfl
  | cons c r =>
    have hc : isSpace c = false := h c (by rw [← head?_reverse, ht]; rfl)
    rw [trimEnd, ht, dropWhile_cons, if_neg (by simp [hc]), ← ht, reverse_reverse]

theorem trimEnd_append_eq (hs : trimEnd s = s) (ht : trimEnd t = t) : trimEnd (s ++ t) = s ++ t := by
  rw [trimEnd_append]
  split
  next hnil =>
    rw [ht] at hnil
    rw [hs, hnil, append_nil]
  · rw [ht]

theorem trimEnd_blank (h : isBlank t = true) : trimEnd t = [] := by
  have hdrop := dropWhile_blank (w := t.reverse) (t := []) (by rwa [isBlank, all_reverse]) (by simp)
  rw [append_nil] at hdrop
  rw [trimEnd, hdrop, reverse_nil]

theorem trim_blank (h : isBlank t = true) : trim t = [] := by
  have hstart := dropWhile_blank (t := []) h (by simp)
  rw [append_nil] at hstart
  rw [trim, trimStart, hstart]
  rfl

theorem trimEnd_spec (t : Text) : ∃ b, t = trimEnd t ++ b ∧ ∀ c ∈ b, isSpace c = true := by
  refine ⟨(t.reverse.takeWhile isSpace).reverse, ?_, fun c hc => ?_⟩
  · rw [trimEnd, ← reverse_append, takeWhile_append_dropWhile, reverse_reverse]
  · exact all_eq_true.mp all_takeWhile c (mem_reverse.mp hc)

theorem trimStart_eq_self (h : trim t = t) : trimStart t = t := by
  obtain ⟨b, hb, -⟩ := trimEnd_spec (trimStart t)
  rw [← trim, h] at hb
  have hlen : (trimStart t).length ≤ t.length := (dropWhile_sublist isSpace).length_le
  have hnil : b = [] := by
    rw [hb, length_append] at hlen
    exact eq_nil_of_length_eq_zero (by omega)
  rw [hb, hnil, append_nil]

theorem trim_spec (t : Text) : ∃ a b, isBlank a = true ∧ isBlank b = true ∧ t = a ++ trim t ++ b := by
  obtain ⟨b, hb, hspace⟩ := trimEnd_spec (trimStart t)
  refine ⟨t.takeWhile isSpace, b, all_takeWhile, all_eq_true.mpr hspace, ?_⟩
  rw [trim, append_assoc, ← hb, trimStart, takeWhile_append_dropWhile]

theorem trim_eq_self (hstart : ∀ c ∈ t.head?, isSpace c = false)
    (hstop : ∀ c ∈ t.getLast?, isSpace c = false) : trim t = t := by
  have hdrop : t.dropWhile isSpace = t := dropWhile_blank (w := []) rfl hstart
  rw [trim, trimStart, hdrop, trimEnd_eq_self fun c hc => hstop c hc]

theorem trim_trim (t : Text) : trim (trim t) = trim t := by
  refine trim_eq_self (fun c hc => ?_) (fun c hc => ?_)
  · obtain ⟨b, hb, -⟩ := trimEnd_spec (trimStart t)
    have hhead : (trimStart t).head? = some c := by rw [hb, ← trim, head?_append, Option.mem_def.mp hc, Option.some_or]
    have hnot := head?_dropWhile_not isSpace t
    rw [← trimStart, hhead] at hnot
    exact hnot
  · have hnot := head?_dropWhile_not isSpace (trimStart t).reverse
    rw [← getLast?_reverse, ← trimEnd, ← trim, Option.mem_def.mp hc] at hnot
    exact hnot

theorem trim_surrounded {a b : Text} (ha : isBlank a = true) (hb : isBlank b = true) (h : trim t = t) :
    trim (a ++ t ++ b) = t := by
  have hstart := trimStart_eq_self h
  have hend : trimEnd (t ++ b) = t := by
    rw [trimEnd_append, if_pos (trimEnd_blank hb)]
    rwa [trim, hstart] at h
  cases t with
  | nil =>
    apply trim_blank
    rw [isBlank_append, isBlank_append, ha, hb]
    rfl
  | cons c t =>
    have hc : isSpace c = false := by
      have hnot := head?_dropWhile_not isSpace (c :: t)
      rw [← trimStart, hstart] at hnot
      exact hnot
    have hhead : ∀ d ∈ (c :: t ++ b).head?, isSpace d = false := by
      intro d hd
      cases hd
      exact hc
    rw [trim, trimStart, append_assoc, dropWhile_blank ha hhead, hend]

theorem intercalate_cons (separator x : Text) (xs : List Text) :
    separator.intercalate (x :: xs) = x ++ xs.flatMap (separator ++ ·) := by
  induction xs generalizing x with
  | nil => simp [List.intercalate]
  | cons y xs ih =>
    have hy := ih y
    simp only [List.intercalate, intersperse_cons_cons, flatten_cons, flatMap_cons, append_assoc] at hy ⊢
    rw [hy]

end ComponentConverter
