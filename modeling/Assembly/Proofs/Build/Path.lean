import Assembly.Build.Path
import Assembly.Proofs.Text.Lines

/-!
# Names in directories

A clean path is its steps with slashes between them.  A name at the end of a path is its last
step, whatever stands before it, so a name put behind a clean path is a step of its own:
`join_child`.

The steps of a path are found with a stack.  What can be on it is an invariant, `Settled`: steps
up stand at its bottom, where there is nothing left to cancel.
-/

namespace Assembly

namespace Path

/-! ## Names -/

/-- Whether a text is the name of something in a directory, and not a way through it. -/
def isName (n : Text) : Bool :=
  !n.isEmpty && !n.contains 47 && n != Text.ofString "." && n != Text.ofString ".."

/-- The path of something that lies directly in a directory. -/
def IsChild (dir p : Text) : Prop := ∃ n, isName n ∧ p = dir ++ 47 :: n

/-- Whether a text can be an element of a path. -/
def isElement (e : Text) : Bool := !e.isEmpty && !e.contains 47 && e != Text.ofString "."

theorem isElement_of_isName {n : Text} (h : isName n) : isElement n := by
  simp only [isName, Bool.and_eq_true] at h
  simp only [isElement, Bool.and_eq_true]
  exact h.1

theorem ne_up_of_isName {n : Text} (h : isName n) : n ≠ Text.ofString ".." := by
  simp only [isName, Bool.and_eq_true] at h
  simpa using h.2

theorem ne_nil_of_isElement {e : Text} (h : isElement e) : e ≠ [] := by
  simp only [isElement, Bool.and_eq_true] at h
  simpa using h.1.1

theorem slash_notMem_of_isElement {e : Text} (h : isElement e) : 47 ∉ e := by
  simp only [isElement, Bool.and_eq_true] at h
  simpa using h.1.2

/-! ## Elements -/

theorem isElement_of_mem_elements {p e : Text} (h : e ∈ elements p) : isElement e := by
  obtain ⟨hsplit, hkept⟩ := List.mem_filter.mp h
  have hslash : 47 ∉ e := fun hc => (Text.mem_of_mem_split hsplit hc).2 rfl
  simp only [Bool.and_eq_true] at hkept
  simp [isElement, hkept.1, hkept.2, hslash]

theorem elements_append_slash (p q : Text) :
    elements (p ++ 47 :: q) = elements p ++ elements q := by
  rw [elements, Text.split_append_separator, List.filter_append]
  rfl

theorem filter_elements {es : List Text} (h : ∀ e ∈ es, isElement e) :
    es.filter (fun e => !e.isEmpty && e != Text.ofString ".") = es := by
  rw [List.filter_eq_self]
  intro e he
  have helement := h e he
  simp only [isElement, Bool.and_eq_true] at helement
  rw [helement.1.1, helement.2]
  rfl

theorem elements_of_isElement {e : Text} (h : isElement e) : elements e = [e] := by
  rw [elements, Text.split_of_notMem (slash_notMem_of_isElement h)]
  exact filter_elements (List.forall_mem_singleton.mpr h)

theorem elements_join {es : List Text} (hne : es ≠ []) (h : ∀ e ∈ es, isElement e) :
    elements (Text.join [47] es) = es := by
  rw [elements, Text.split_join hne fun e he => slash_notMem_of_isElement (h e he)]
  exact filter_elements h

/-! ## Steps -/

/-- The steps of a path: its elements, as far as no step up cancels them. -/
def steps (p : Text) : List Text := ((elements p).foldl (pushElement (isRooted p)) []).reverse

/-- Elements in reverse among which nothing can be cancelled: below a step up there are steps up
only, and there are none at all below the root. -/
def Settled (rooted : Bool) : List Text → Prop
  | [] => True
  | a :: r =>
    (a = Text.ofString ".." → rooted = false ∧ ∀ b ∈ r, b = Text.ofString "..") ∧ Settled rooted r

theorem pushElement_of_ne_up (rooted : Bool) (above : List Text) {e : Text}
    (he : e ≠ Text.ofString "..") : pushElement rooted above e = e :: above := by
  unfold pushElement
  exact if_neg (by simpa using he)

theorem settled_pushElement {rooted : Bool} {above : List Text} (h : Settled rooted above)
    (e : Text) : Settled rooted (pushElement rooted above e) := by
  by_cases he : e = Text.ofString ".."
  · unfold pushElement
    rw [if_pos (by simpa using he)]
    cases above with
    | nil => cases rooted <;> simp [Settled]
    | cons a r =>
      obtain ⟨hup, hrest⟩ := h
      dsimp only
      by_cases ha : a = Text.ofString ".."
      · rw [if_pos (by simpa using ha)]
        obtain ⟨hroot, hall⟩ := hup ha
        refine ⟨fun _ => ⟨hroot, ?_⟩, hup, hrest⟩
        exact List.forall_mem_cons.mpr ⟨ha, hall⟩
      · rw [if_neg (by simpa using ha)]
        exact hrest
  · rw [pushElement_of_ne_up rooted above he]
    exact ⟨fun hup => absurd hup he, h⟩

theorem settled_foldl {rooted : Bool} {above : List Text} (h : Settled rooted above)
    (es : List Text) : Settled rooted (es.foldl (pushElement rooted) above) := by
  induction es generalizing above with
  | nil => exact h
  | cons e es ih => exact ih (settled_pushElement h e)

theorem pushElement_subset (rooted : Bool) (above : List Text) (e : Text) :
    pushElement rooted above e ⊆ e :: above := by
  unfold pushElement
  split
  · cases above with
    | nil => cases rooted <;> simp
    | cons a r =>
      dsimp only
      split
      · exact List.Subset.refl _
      · exact List.subset_cons_of_subset _ (List.subset_cons_self a r)
  · exact List.Subset.refl _

theorem foldl_pushElement_subset (rooted : Bool) (above es : List Text) :
    es.foldl (pushElement rooted) above ⊆ es ++ above := by
  induction es generalizing above with
  | nil => exact List.Subset.refl _
  | cons e es ih =>
    intro x hx
    rcases List.mem_append.mp (ih _ hx) with hx | hx
    · exact List.mem_append_left _ (List.mem_cons_of_mem e hx)
    · rcases List.mem_cons.mp (pushElement_subset rooted above e hx) with rfl | hx
      · exact List.mem_append_left _ List.mem_cons_self
      · exact List.mem_append_right _ hx

theorem isElement_of_mem_steps {p e : Text} (h : e ∈ steps p) : isElement e := by
  have hmem := foldl_pushElement_subset _ _ _ (List.mem_reverse.mp h)
  rw [List.append_nil] at hmem
  exact isElement_of_mem_elements hmem

/-- An element on top of settled ones cancels nothing if it settles there. -/
theorem pushElement_of_settled {rooted : Bool} {a : Text} {r : List Text}
    (h : Settled rooted (a :: r)) : pushElement rooted r a = a :: r := by
  by_cases ha : a = Text.ofString ".."
  · obtain ⟨hroot, hall⟩ := h.1 ha
    unfold pushElement
    rw [if_pos (by simpa using ha)]
    cases r with
    | nil => simp [hroot]
    | cons b s => simp [hall b List.mem_cons_self]
  · exact pushElement_of_ne_up rooted r ha

theorem foldl_of_settled {rooted : Bool} {stack : List Text} (h : Settled rooted stack) :
    stack.reverse.foldl (pushElement rooted) [] = stack := by
  induction stack with
  | nil => rfl
  | cons a r ih =>
    rw [List.reverse_cons, List.foldl_append, ih h.2]
    exact pushElement_of_settled h

/-! ## Clean paths -/

/-- The path with the given steps. -/
def ofSteps (rooted : Bool) (ss : List Text) : Text :=
  if rooted then 47 :: Text.join [47] ss
  else if (Text.join [47] ss).isEmpty then Text.ofString "." else Text.join [47] ss

theorem clean_eq (p : Text) : clean p = ofSteps (isRooted p) (steps p) := rfl

theorem join_concat {es : List Text} (hne : es ≠ []) (e : Text) :
    Text.join [47] (es ++ [e]) = Text.join [47] es ++ 47 :: e := by
  induction es with
  | nil => exact absurd rfl hne
  | cons a r ih =>
    cases r with
    | nil => rfl
    | cons b s =>
      rw [List.cons_append, List.cons_append, Text.join, ← List.cons_append,
        ih (List.cons_ne_nil b s)]
      simp [Text.join]

theorem join_ne_nil {es : List Text} (hne : es ≠ []) (h : ∀ e ∈ es, isElement e) :
    Text.join [47] es ≠ [] := by
  cases es with
  | nil => exact absurd rfl hne
  | cons a r =>
    have ha := ne_nil_of_isElement (h a List.mem_cons_self)
    cases r with
    | nil => exact ha
    | cons b s => simp [Text.join]

/-- A path of steps that are there is its steps with slashes between them. -/
theorem ofSteps_eq {rooted : Bool} {ss : List Text} (hne : ss ≠ []) (h : ∀ e ∈ ss, isElement e) :
    ofSteps rooted ss = (if rooted then [47] else []) ++ Text.join [47] ss := by
  cases rooted with
  | true => rfl
  | false =>
    have hjoin : (Text.join [47] ss).isEmpty = false := by simpa using join_ne_nil hne h
    simp [ofSteps, hjoin]

theorem head?_join {es : List Text} (hne : es ≠ []) (h : ∀ e ∈ es, isElement e) :
    (Text.join [47] es).head? ≠ some 47 := by
  cases es with
  | nil => exact absurd rfl hne
  | cons a r =>
    have ha := h a List.mem_cons_self
    have hslash := slash_notMem_of_isElement ha
    cases a with
    | nil => exact absurd rfl (ne_nil_of_isElement ha)
    | cons c a =>
      rw [Text.join_cons_cons]
      intro hc
      rw [List.head?_cons, Option.some.injEq] at hc
      exact hslash (hc ▸ List.mem_cons_self)

theorem isRooted_ofSteps {rooted : Bool} {ss : List Text} (hne : ss ≠ [])
    (h : ∀ e ∈ ss, isElement e) : isRooted (ofSteps rooted ss) = rooted := by
  rw [ofSteps_eq hne h]
  cases rooted with
  | true => rfl
  | false => simpa [isRooted] using head?_join hne h

theorem elements_ofSteps {rooted : Bool} {ss : List Text} (hne : ss ≠ [])
    (h : ∀ e ∈ ss, isElement e) : elements (ofSteps rooted ss) = ss := by
  rw [ofSteps_eq hne h]
  cases rooted with
  | false => exact elements_join hne h
  | true =>
    have hroot : elements (47 :: Text.join [47] ss) = elements [] ++ elements (Text.join [47] ss) :=
      elements_append_slash [] _
    show elements (47 :: Text.join [47] ss) = ss
    rw [hroot, elements_join hne h]
    rfl

theorem isRooted_append {p : Text} (hp : p ≠ []) (q : Text) : isRooted (p ++ q) = isRooted p := by
  cases p with
  | nil => exact absurd rfl hp
  | cons c p => rfl

theorem steps_append_name {p n : Text} (hp : p ≠ []) (hn : isName n) :
    steps (p ++ 47 :: n) = steps p ++ [n] := by
  rw [steps, elements_append_slash, elements_of_isElement (isElement_of_isName hn),
    List.foldl_append, isRooted_append hp, List.foldl_cons, List.foldl_nil,
    pushElement_of_ne_up _ _ (ne_up_of_isName hn), List.reverse_cons]
  rfl

theorem settled_steps (p : Text) : Settled (isRooted p) (steps p).reverse := by
  rw [steps, List.reverse_reverse]
  have hnil : Settled (isRooted p) [] := trivial
  exact settled_foldl hnil _

theorem clean_ne_nil (p : Text) : clean p ≠ [] := by
  unfold clean
  dsimp only
  split
  · exact List.cons_ne_nil _ _
  · split
    · exact List.cons_ne_nil _ _
    case isFalse h => simpa using h

/-- What stands in front of a name is clean, and the name stays what it is. -/
theorem join_child {p n m : Text} (hp : p ≠ []) (hn : isName n) (hm : isName m) :
    join (clean (p ++ 47 :: n)) m = clean (p ++ 47 :: n) ++ 47 :: m := by
  obtain ⟨ss, hss⟩ : ∃ ss, ss = steps p ++ [n] := ⟨_, rfl⟩
  have hne : ss ≠ [] := by simp [hss]
  have helements : ∀ e ∈ ss, isElement e := by
    rw [hss]
    intro e he
    rcases List.mem_append.mp he with he | he
    · exact isElement_of_mem_steps he
    · rw [List.mem_singleton.mp he]
      exact isElement_of_isName hn
  have hdir : clean (p ++ 47 :: n) = ofSteps (isRooted p) ss := by
    rw [clean_eq, isRooted_append hp, steps_append_name hp hn, hss]
  have hdir_ne : ofSteps (isRooted p) ss ≠ [] := by
    rw [ofSteps_eq hne helements]
    exact fun hnil => join_ne_nil hne helements (List.append_eq_nil_iff.mp hnil).2
  -- The steps of the directory settle, so they are its steps again.
  have hsteps : steps (ofSteps (isRooted p) ss) = ss := by
    have hsettled : Settled (isRooted p) ss.reverse := by
      have hall := settled_steps (p ++ 47 :: n)
      rwa [isRooted_append hp, steps_append_name hp hn, ← hss] at hall
    have hfold := foldl_of_settled hsettled
    rw [List.reverse_reverse] at hfold
    rw [steps, isRooted_ofSteps hne helements, elements_ofSteps hne helements, hfold,
      List.reverse_reverse]
  have hall : ∀ e ∈ ss ++ [m], isElement e := by
    intro e he
    rcases List.mem_append.mp he with he | he
    · exact helements e he
    · rw [List.mem_singleton.mp he]
      exact isElement_of_isName hm
  rw [hdir, join, if_neg (by simpa using hdir_ne), clean_eq, isRooted_append hdir_ne,
    isRooted_ofSteps hne helements, steps_append_name hdir_ne hm, hsteps,
    ofSteps_eq (by simp) hall, ofSteps_eq hne helements, join_concat hne, List.append_assoc]

end Path

end Assembly
