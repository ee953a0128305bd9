import Assembly.Script.Parser

/-!
# What parsers do

Equations for parsers and their combinators, and what the success of a combined parser says
about its parts.  Three properties are closed under the combinators: a steady parser takes
nothing when it finds its subject absent, a definite one never finds it absent, and no parser
gives tokens back.
-/

namespace Assembly.Script

namespace Cursor

@[simp] theorem rest_note (c : Cursor) (u : Unexpected) : (c.note u).rest = c.rest := by
  rw [note]
  split <;> rfl

@[simp] theorem taken_note (c : Cursor) (u : Unexpected) : (c.note u).taken = c.taken := by
  rw [note]
  split <;> rfl

@[simp] theorem rest_noteBranch (c : Cursor) (u : Unexpected) (b : Cursor) :
    (c.noteBranch u b).rest = c.rest := by
  rw [noteBranch]
  split <;> rfl

@[simp] theorem taken_noteBranch (c : Cursor) (u : Unexpected) (b : Cursor) :
    (c.noteBranch u b).taken = c.taken := by
  rw [noteBranch]
  split <;> rfl

@[simp] theorem taken_accept (c b : Cursor) : (c.accept b).taken = b.taken := by
  rw [accept]
  split <;> rfl

end Cursor

namespace Parser

variable {α β : Type}

/-! ## Running -/

theorem run_bind (p : Parser α) (f : α → Parser β) (c : Cursor) :
    (p >>= f) c = match p c with
      | (.ok a, b) => f a b
      | (.error m, b) => (.error m, b) := by
  show ExceptT.bindCont f (p c).1 (p c).2 = _
  rcases p c with ⟨_ | _, _⟩ <;> rfl

theorem run_map (f : α → β) (p : Parser α) (c : Cursor) :
    (f <$> p) c = match p c with
      | (.ok a, b) => (.ok (f a), b)
      | (.error m, b) => (.error m, b) := by
  simp only [Functor.map, ExceptT.map, ExceptT.mk, bind, StateT.bind]
  rcases p c with ⟨_ | _, _⟩ <;> rfl

theorem run_satisfy (wanted : Token → Bool) (c : Cursor) :
    satisfy wanted c = match c.rest with
      | [] => (.error .absent, c)
      | t :: _ => if wanted t then (.ok t, c.advance) else (.error .absent, c) := by
  obtain ⟨rest, eof, taken, furthest, depth⟩ := c
  cases rest with
  | nil => rfl
  | cons t r =>
    change (if wanted t then _ else _ : Parser Token) _ = if wanted t then _ else _
    cases wanted t <;> rfl

theorem run_need (e : Expected) (p : Parser α) (c : Cursor) :
    need e p c = match p c with
      | (.ok a, b) => (.ok a, b)
      | (.error .absent, b) => (.error (.wrong ⟨b.next, some e⟩), b)
      | (.error (.wrong u), b) => (.error (.wrong u), b) := by
  simp only [need, tryCatch, tryCatchThe, MonadExceptOf.tryCatch, ExceptT.tryCatch, ExceptT.mk, bind,
    StateT.bind]
  rcases p c with ⟨(_ | _) | _, _⟩ <;> rfl

theorem run_node (p : Parser α) (c : Cursor) :
    node p c = match p c with
      | (.ok a, b) => (.ok a, b)
      | (.error .absent, b) => (.error .absent, b)
      | (.error (.wrong u), b) => (.error (.wrong u), b.note u) := by
  simp only [node, tryCatch, tryCatchThe, MonadExceptOf.tryCatch, ExceptT.tryCatch, ExceptT.mk, bind,
    StateT.bind]
  rcases p c with ⟨(_ | _) | _, _⟩ <;> rfl

theorem choiceFrom_cons_cases (best : Option (Nat × Unexpected)) (p : Parser α)
    (ps : List (Parser α)) (c : Cursor) :
    (∃ a b, p c = (.ok a, b) ∧ choiceFrom best (p :: ps) c = (.ok a, b)) ∨
    (∃ b, p c = (.error .absent, b) ∧ choiceFrom best (p :: ps) c = choiceFrom best ps c) ∨
    (∃ u b, p c = (.error (.wrong u), b) ∧ c.commits b ∧
      choiceFrom best (p :: ps) c = (.error (.wrong u), (c.noteBranch u b).accept b)) ∨
    (∃ u b next, p c = (.error (.wrong u), b) ∧ c.commits b = false ∧
      choiceFrom best (p :: ps) c = choiceFrom (some next) ps (c.noteBranch u b)) := by
  simp only [choiceFrom.eq_def best (p :: ps)]
  rcases p c with ⟨(_ | u) | a, b⟩
  · exact .inr (.inl ⟨b, rfl, rfl⟩)
  · cases hcommit : c.commits b with
    | true => exact .inr (.inr (.inl ⟨u, b, rfl, hcommit, by simp [hcommit]⟩))
    | false =>
      refine .inr (.inr (.inr ⟨u, b, ?_⟩))
      cases best with
      | none => exact ⟨(b.taken, u), rfl, hcommit, by simp [hcommit]⟩
      | some deep =>
        by_cases hdeep : deep.1 ≤ b.taken
        · exact ⟨(b.taken, u), rfl, hcommit, by simp [hcommit, hdeep]⟩
        · exact ⟨deep, rfl, hcommit, by simp [hcommit, hdeep]⟩
  · exact .inl ⟨a, b, rfl, rfl⟩

/-! ## What success says -/

theorem bind_ok {p : Parser α} {f : α → Parser β} {c d : Cursor} {b : β}
    (h : (p >>= f) c = (.ok b, d)) : ∃ a m, p c = (.ok a, m) ∧ f a m = (.ok b, d) := by
  rw [run_bind] at h
  split at h
  next a m hp => exact ⟨a, m, hp, h⟩
  next => cases h

theorem map_ok {f : α → β} {p : Parser α} {c d : Cursor} {b : β} (h : (f <$> p) c = (.ok b, d)) :
    ∃ a, p c = (.ok a, d) ∧ f a = b := by
  rw [run_map] at h
  split at h
  next a m hp =>
    cases h
    exact ⟨a, hp, rfl⟩
  next => cases h

theorem pure_ok {a b : α} {c d : Cursor} (h : (pure a : Parser α) c = (.ok b, d)) :
    a = b ∧ c = d := by
  cases h
  exact ⟨rfl, rfl⟩

theorem satisfy_ok {wanted : Token → Bool} {c d : Cursor} {t : Token}
    (h : satisfy wanted c = (.ok t, d)) : wanted t ∧ c.rest = t :: d.rest := by
  rw [run_satisfy] at h
  cases hrest : c.rest with
  | nil =>
    rw [hrest] at h
    cases h
  | cons t' r =>
    simp only [hrest] at h
    split at h
    next hw =>
      cases h
      exact ⟨hw, by rw [Cursor.advance, hrest]; rfl⟩
    next => cases h

theorem word_ok {w : Text} {c d : Cursor} (h : word w c = (.ok (), d)) :
    ∃ t, t.value = w ∧ c.rest = t :: d.rest := by
  obtain ⟨t, m, hsat, hpure⟩ := bind_ok h
  obtain ⟨-, rfl⟩ := pure_ok hpure
  obtain ⟨hw, hrest⟩ := satisfy_ok hsat
  exact ⟨t, eq_of_beq hw, hrest⟩

theorem ofKind_ok {k : TokenKind} {c d : Cursor} {v : Text} (h : ofKind k c = (.ok v, d)) :
    ∃ t, t.kind = k ∧ t.value = v ∧ c.rest = t :: d.rest := by
  obtain ⟨t, m, hsat, hpure⟩ := bind_ok h
  obtain ⟨rfl, rfl⟩ := pure_ok hpure
  obtain ⟨hk, hrest⟩ := satisfy_ok hsat
  exact ⟨t, of_decide_eq_true hk, rfl, hrest⟩

theorem need_ok {e : Expected} {p : Parser α} {c d : Cursor} {a : α}
    (h : need e p c = (.ok a, d)) : p c = (.ok a, d) := by
  rw [run_need] at h
  split at h
  next hp =>
    cases h
    exact hp
  next => cases h
  next => cases h

theorem node_ok {p : Parser α} {c d : Cursor} {a : α} (h : node p c = (.ok a, d)) :
    p c = (.ok a, d) := by
  rw [run_node] at h
  split at h
  next hp =>
    cases h
    exact hp
  next => cases h
  next => cases h

/-- An alternative that was passed over: it failed, and not after it had committed itself. -/
def Passed (p : Parser α) (c : Cursor) : Prop :=
  ∃ m d, p c = (.error m, d) ∧ (m = .absent ∨ c.commits d = false)

theorem choiceFrom_ok {best : Option (Nat × Unexpected)} {p : Parser α} {ps : List (Parser α)}
    {c d : Cursor} {a : α} (h : choiceFrom best (p :: ps) c = (.ok a, d)) :
    p c = (.ok a, d) ∨
      Passed p c ∧ ∃ best' c', c'.rest = c.rest ∧ choiceFrom best' ps c' = (.ok a, d) := by
  rcases choiceFrom_cons_cases best p ps c with ⟨a', b, hp, hrun⟩ | ⟨b, hp, hrun⟩ |
    ⟨u, b, -, -, hrun⟩ | ⟨u, b, next, hp, hcommit, hrun⟩
  · exact .inl (hp.trans (hrun.symm.trans h))
  · exact .inr ⟨⟨_, b, hp, .inl rfl⟩, best, c, rfl, hrun.symm.trans h⟩
  · cases hrun.symm.trans h
  · exact .inr ⟨⟨_, b, hp, .inr hcommit⟩, some next, _, Cursor.rest_noteBranch ..,
      hrun.symm.trans h⟩

theorem choiceFrom_nil_ne_ok {best : Option (Nat × Unexpected)} {c d : Cursor} {a : α} :
    choiceFrom best [] c ≠ (.ok a, d) := by
  intro h
  rw [choiceFrom.eq_def] at h
  cases best <;> cases h

/-! ## Absence -/

/-- When the parser finds its subject absent, it has taken nothing. -/
def Steady (p : Parser α) : Prop := ∀ c d, p c = (.error .absent, d) → d.rest = c.rest

/-- The parser never finds its subject absent. -/
def Definite (p : Parser α) : Prop := ∀ c d, p c ≠ (.error .absent, d)

theorem Definite.steady {p : Parser α} (h : Definite p) : Steady p :=
  fun c d hp => absurd hp (h c d)

theorem Definite.pure (a : α) : Definite (pure a) := by
  intro c d h
  cases h

theorem Definite.here : Definite here := by
  intro c d h
  cases h

theorem Definite.need (e : Expected) (p : Parser α) : Definite (need e p) := by
  intro c d h
  rw [run_need] at h
  split at h <;> cases h

theorem Definite.optional (p : Parser α) : Definite (optional p) := by
  intro c d h
  rw [Parser.optional] at h
  split at h
  next => cases h
  next => cases h
  next =>
    dsimp only at h
    split at h <;> cases h

theorem Definite.bind {p : Parser α} {f : α → Parser β} (hp : Definite p)
    (hf : ∀ a, Definite (f a)) : Definite (p >>= f) := by
  intro c d h
  rw [run_bind] at h
  split at h
  next a m _ => exact hf a m d h
  next m b hpc =>
    cases h
    exact hp c d hpc

theorem Definite.node {p : Parser α} (hp : Definite p) : Definite (node p) := by
  intro c d h
  rw [run_node] at h
  split at h
  next => cases h
  next hpc => exact hp _ _ hpc
  next => cases h

theorem Definite.map {p : Parser α} (hp : Definite p) (f : α → β) : Definite (f <$> p) := by
  intro c d h
  rw [run_map] at h
  split at h
  next => cases h
  next m b hpc =>
    cases h
    exact hp c d hpc

theorem Definite.repeated (p : Parser α) (fuel : Nat) : Definite (repeated p fuel) := by
  induction fuel with
  | zero => exact .pure []
  | succ fuel ih =>
    refine .bind (.optional p) fun o => ?_
    cases o with
    | none => exact .pure []
    | some a => exact .bind ih fun as => .pure (a :: as)

theorem Definite.many (p : Parser α) : Definite (many p) := by
  intro c d h
  exact Definite.repeated p _ c d h

theorem Steady.satisfy (wanted : Token → Bool) : Steady (satisfy wanted) := by
  intro c d h
  rw [run_satisfy] at h
  split at h
  next => cases h; rfl
  next =>
    split at h
    next => cases h
    next => cases h; rfl

theorem Steady.bind {p : Parser α} {f : α → Parser β} (hp : Steady p)
    (hf : ∀ a, Definite (f a)) : Steady (p >>= f) := by
  intro c d h
  rw [run_bind] at h
  split at h
  next a m _ => exact absurd h (hf a m d)
  next m b hpc =>
    cases h
    exact hp c d hpc

theorem Steady.here_bind {f : Pos → Parser β} (h : ∀ p, Steady (f p)) : Steady (here >>= f) :=
  fun c d hf => h c.next.pos c d hf

theorem Steady.word (w : Text) : Steady (word w) := .bind (.satisfy _) fun _ => .pure ()

theorem Steady.ofKind (k : TokenKind) : Steady (ofKind k) := .bind (.satisfy _) fun t => .pure t.value

theorem Steady.node {p : Parser α} (hp : Steady p) : Steady (node p) := by
  intro c d h
  rw [run_node] at h
  split at h
  next => cases h
  next hpc =>
    cases h
    exact hp _ _ hpc
  next => cases h

theorem Steady.choice (ps : List (Parser α)) : Steady (choice ps) := by
  have hfrom : ∀ best, Steady (choiceFrom best ps) := by
    induction ps with
    | nil =>
      intro best c d h
      rw [choiceFrom.eq_def] at h
      cases best <;> cases h
      rfl
    | cons p ps ih =>
      intro best c d h
      rcases choiceFrom_cons_cases best p ps c with ⟨a, b, -, hrun⟩ | ⟨b, -, hrun⟩ |
        ⟨u, b, -, -, hrun⟩ | ⟨u, b, next, -, -, hrun⟩
      · cases hrun.symm.trans h
      · exact ih best c d (hrun.symm.trans h)
      · cases hrun.symm.trans h
      · rw [ih _ _ _ (hrun.symm.trans h), Cursor.rest_noteBranch]
  exact hfrom none

theorem Definite.choice {p : Parser α} {ps : List (Parser α)} (hp : Definite p) (hmem : p ∈ ps) :
    Definite (choice ps) := by
  have hsome : ∀ (ps : List (Parser α)) best, Definite (choiceFrom (some best) ps) := by
    intro ps
    induction ps with
    | nil =>
      intro best c d h
      cases h
    | cons q ps ih =>
      intro best c d h
      rcases choiceFrom_cons_cases (some best) q ps c with ⟨a, b, -, hrun⟩ | ⟨b, -, hrun⟩ |
        ⟨u, b, -, -, hrun⟩ | ⟨u, b, next, -, -, hrun⟩
      · cases hrun.symm.trans h
      · exact ih best c d (hrun.symm.trans h)
      · cases hrun.symm.trans h
      · exact ih next _ d (hrun.symm.trans h)
  show Definite (choiceFrom none ps)
  induction ps with
  | nil => cases hmem
  | cons q ps ih =>
    intro c d h
    rcases choiceFrom_cons_cases none q ps c with ⟨a, b, -, hrun⟩ | ⟨b, hq, hrun⟩ |
      ⟨u, b, -, -, hrun⟩ | ⟨u, b, next, -, -, hrun⟩
    · cases hrun.symm.trans h
    · rcases List.mem_cons.mp hmem with rfl | hmem
      · exact hp c b hq
      · exact ih hmem c d (hrun.symm.trans h)
    · cases hrun.symm.trans h
    · exact hsome ps next _ d (hrun.symm.trans h)

theorem optional_ok {p : Parser α} (hp : Steady p) {c d : Cursor} {o : Option α}
    (h : optional p c = (.ok o, d)) :
    (∃ a, o = some a ∧ p c = (.ok a, d)) ∨ o = none ∧ d.rest = c.rest ∧ ∃ m b, p c = (.error m, b) := by
  rw [optional] at h
  split at h
  next a b hpc =>
    cases h
    exact .inl ⟨a, rfl, hpc⟩
  next b hpc =>
    cases h
    exact .inr ⟨rfl, hp _ _ hpc, _, _, hpc⟩
  next u b hpc =>
    dsimp only at h
    split at h
    next => cases h
    next =>
      cases h
      exact .inr ⟨rfl, by simp, _, _, hpc⟩

/-! ## Taking tokens -/

/-- The parser gives no token back. -/
def Onward (p : Parser α) : Prop := ∀ c, c.taken ≤ (p c).2.taken

theorem Onward.pure (a : α) : Onward (pure a) := fun c => Nat.le_refl c.taken

theorem Onward.satisfy (wanted : Token → Bool) : Onward (satisfy wanted) := by
  intro c
  rw [run_satisfy]
  split
  next => exact Nat.le_refl _
  next =>
    split
    · exact Nat.le_succ _
    · exact Nat.le_refl _

theorem Onward.bind {p : Parser α} {f : α → Parser β} (hp : Onward p) (hf : ∀ a, Onward (f a)) :
    Onward (p >>= f) := by
  intro c
  have hpc := hp c
  rw [run_bind]
  split
  next a b heq =>
    rw [heq] at hpc
    exact Nat.le_trans hpc (hf a b)
  next m b heq =>
    rw [heq] at hpc
    exact hpc

theorem Onward.map {p : Parser α} (hp : Onward p) (f : α → β) : Onward (f <$> p) := by
  intro c
  have hpc := hp c
  rw [run_map]
  split <;> simp_all

theorem Onward.need {p : Parser α} (hp : Onward p) (e : Expected) : Onward (need e p) := by
  intro c
  have hpc := hp c
  rw [run_need]
  split <;> simp_all

theorem Onward.node {p : Parser α} (hp : Onward p) : Onward (node p) := by
  intro c
  have hpc := hp c
  rw [run_node]
  split <;> simp_all

theorem Onward.optional {p : Parser α} (hp : Onward p) : Onward (optional p) := by
  intro c
  have hpc := hp c
  rw [Parser.optional]
  split
  next heq => simp_all
  next heq => simp_all
  next heq =>
    dsimp only
    split <;> simp_all

theorem Onward.repeated {p : Parser α} (hp : Onward p) (fuel : Nat) : Onward (repeated p fuel) := by
  induction fuel with
  | zero => exact .pure []
  | succ fuel ih =>
    refine .bind hp.optional fun o => ?_
    cases o with
    | none => exact .pure []
    | some a => exact .bind ih fun as => .pure (a :: as)

theorem Onward.many {p : Parser α} (hp : Onward p) : Onward (many p) :=
  fun c => Onward.repeated hp _ c

theorem Onward.word (w : Text) : Onward (word w) := .bind (.satisfy _) fun _ => .pure ()

theorem Onward.ofKind (k : TokenKind) : Onward (ofKind k) := .bind (.satisfy _) fun t => .pure t.value

theorem Onward.choice {ps : List (Parser α)} (h : ∀ p ∈ ps, Onward p) : Onward (choice ps) := by
  have hfrom : ∀ best, Onward (choiceFrom best ps) := by
    induction ps with
    | nil =>
      intro best c
      cases best with
      | none => exact Nat.le_refl _
      | some deep => exact Nat.le_of_eq (Cursor.taken_note c _).symm
    | cons p ps ih =>
      intro best c
      have hpc := h p List.mem_cons_self c
      have hps := ih fun q hq => h q (List.mem_cons_of_mem p hq)
      rcases choiceFrom_cons_cases best p ps c with ⟨a, b, heq, hrun⟩ | ⟨b, -, hrun⟩ |
        ⟨u, b, heq, -, hrun⟩ | ⟨u, b, next, -, -, hrun⟩
      · rw [hrun]
        rwa [heq] at hpc
      · rw [hrun]
        exact hps best c
      · rw [hrun, Cursor.taken_accept]
        rwa [heq] at hpc
      · rw [hrun]
        exact Nat.le_trans (Nat.le_of_eq (Cursor.taken_noteBranch ..).symm) (hps _ _)
  exact hfrom none

end Parser

end Assembly.Script
