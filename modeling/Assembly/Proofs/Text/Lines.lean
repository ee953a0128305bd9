import Assembly.Text

/-!
# Lines

Splitting a text and joining the parts again are inverse to each other: a text is the join of its
parts, and parts without the separator are the parts of their join.
-/

namespace Assembly.Text

variable {sep : UInt8}

theorem split_append_cons {t : Text} (h : sep ∉ t) (r : Text) :
    split sep (t ++ sep :: r) = t :: split sep r := by
  induction t with
  | nil =>
    rw [List.nil_append, split]
    cases hr : split sep r with
    | nil => exact absurd hr (split_ne_nil sep r)
    | cons p ps => simp
  | cons c t ih =>
    rw [List.mem_cons, not_or] at h
    rw [List.cons_append, split, ih h.2]
    exact if_neg (Ne.symm h.1)

theorem split_of_notMem {t : Text} (h : sep ∉ t) : split sep t = [t] := by
  induction t with
  | nil => rfl
  | cons c t ih =>
    rw [List.mem_cons, not_or] at h
    rw [split, ih h.2]
    exact if_neg (Ne.symm h.1)

/-- Parts without the separator are found again in their join. -/
theorem split_join {ts : List Text} (hne : ts ≠ []) (h : ∀ t ∈ ts, sep ∉ t) :
    split sep (join [sep] ts) = ts := by
  induction ts with
  | nil => exact absurd rfl hne
  | cons t ts ih =>
    have ht := h t List.mem_cons_self
    cases ts with
    | nil => exact split_of_notMem ht
    | cons u ts =>
      have hrest := ih (List.cons_ne_nil u ts) fun v hv => h v (List.mem_cons_of_mem t hv)
      rw [join, List.singleton_append, split_append_cons ht, hrest]

theorem mem_of_mem_split {t u : Text} (hu : u ∈ split sep t) {c : UInt8} (hc : c ∈ u) :
    c ∈ t ∧ c ≠ sep := by
  induction t generalizing u with
  | nil =>
    rw [List.mem_singleton.mp hu] at hc
    cases hc
  | cons d t ih =>
    rw [split] at hu
    cases hr : split sep t with
    | nil => exact absurd hr (split_ne_nil sep t)
    | cons p ps =>
      have hsplit : ∀ v ∈ p :: ps, c ∈ v → c ∈ d :: t ∧ c ≠ sep := fun v hv hcv =>
        have hrest := ih (hr ▸ hv) hcv
        ⟨List.mem_cons_of_mem d hrest.1, hrest.2⟩
      rw [hr] at hu
      dsimp only at hu
      split at hu
      · rcases List.mem_cons.mp hu with rfl | hu
        · cases hc
        · exact hsplit u hu hc
      next hd =>
        rcases List.mem_cons.mp hu with rfl | hu
        · rcases List.mem_cons.mp hc with rfl | hc
          · exact ⟨List.mem_cons_self, hd⟩
          · exact hsplit p List.mem_cons_self hc
        · exact hsplit u (List.mem_cons_of_mem p hu) hc

theorem length_split (sep : UInt8) (t : Text) : (split sep t).length = t.count sep + 1 := by
  induction t with
  | nil => rfl
  | cons c t ih =>
    rw [split]
    cases hs : split sep t with
    | nil => exact absurd hs (split_ne_nil sep t)
    | cons p ps =>
      rw [hs] at ih
      dsimp only
      by_cases hc : c = sep
      · subst hc
        rw [if_pos rfl, List.count_cons_self, ← ih]
        rfl
      · rw [if_neg hc, List.count_cons_of_ne hc, ← ih]
        rfl

/-- The last part of a text and the first part of what follows it are one part. -/
theorem join_append_join (s : Text) (ps : List Text) (p q : Text) (qs : List Text) :
    join s (ps ++ [p]) ++ join s (q :: qs) = join s (ps ++ (p ++ q) :: qs) := by
  induction ps with
  | nil => cases qs <;> simp [join]
  | cons x ps ih =>
    cases ps with
    | nil => simpa [join] using ih
    | cons y ps => simpa [join] using ih

theorem split_append {t u p q : Text} {ps qs : List Text} (ht : split sep t = ps ++ [p])
    (hu : split sep u = q :: qs) : split sep (t ++ u) = ps ++ (p ++ q) :: qs := by
  have hparts : ∀ v ∈ ps ++ (p ++ q) :: qs, sep ∉ v := by
    have hfront : ∀ v ∈ ps ++ [p], sep ∉ v := fun v hv hc => (mem_of_mem_split (ht ▸ hv) hc).2 rfl
    have hback : ∀ v ∈ q :: qs, sep ∉ v := fun v hv hc => (mem_of_mem_split (hu ▸ hv) hc).2 rfl
    simp only [List.mem_append, List.mem_cons, List.not_mem_nil, or_false] at hfront hback ⊢
    rintro v (hv | rfl | hv)
    · exact hfront v (.inl hv)
    · exact fun hc => (List.mem_append.mp hc).elim (hfront p (.inr rfl)) (hback q (.inl rfl))
    · exact hback v (.inr hv)
  calc split sep (t ++ u)
      = split sep (join [sep] (split sep t) ++ join [sep] (split sep u)) := by
        rw [join_split, join_split]
    _ = split sep (join [sep] (ps ++ (p ++ q) :: qs)) := by rw [ht, hu, join_append_join]
    _ = ps ++ (p ++ q) :: qs := split_join (by simp) hparts

theorem split_eq_concat (sep : UInt8) (t : Text) : ∃ ps p, split sep t = ps ++ [p] :=
  ⟨_, _, (List.dropLast_concat_getLast (split_ne_nil sep t)).symm⟩

theorem split_append_separator (sep : UInt8) (t u : Text) :
    split sep (t ++ sep :: u) = split sep t ++ split sep u := by
  obtain ⟨ps, p, ht⟩ := split_eq_concat sep t
  have hu : split sep (sep :: u) = [] :: split sep u := split_append_cons List.not_mem_nil u
  rw [split_append ht hu, ht]
  simp

theorem lines_unlines {ls : List Text} (hne : ls ≠ []) (h : ∀ l ∈ ls, 10 ∉ l) :
    lines (unlines ls) = ls := split_join hne h

theorem lines_ne_nil (t : Text) : lines t ≠ [] := split_ne_nil 10 t

theorem newline_notMem_of_mem_lines {t l : Text} (hl : l ∈ lines t) : 10 ∉ l :=
  fun hc => (mem_of_mem_split hl hc).2 rfl

/-- Texts made line by line from the lines of a text have the new lines as theirs. -/
theorem lines_unlines_map {f : Text → Text} (t : Text) (h : ∀ l ∈ lines t, 10 ∉ f l) :
    lines (unlines ((lines t).map f)) = (lines t).map f := by
  refine lines_unlines (by simpa using lines_ne_nil t) fun l hl => ?_
  obtain ⟨k, hk, rfl⟩ := List.mem_map.mp hl
  exact h k hk

end Assembly.Text
