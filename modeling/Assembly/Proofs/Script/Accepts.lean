import Assembly.Proofs.Script.Spelling

/-!
# Parsers that accept and parsers that refuse

What parsers do with tokens that are known.  A choice takes the first alternative that accepts
if those in front of it fail before they commit themselves, that is, with at most one token
taken.
-/

namespace Assembly.Script.Parser

variable {α β : Type}

/-- On tokens `ts` the parser returns a result with the property, leaves `rest`, and counts what it
has taken. -/
def Accepts (p : Parser α) (S : α → Prop) (ts rest : List Token) : Prop :=
  ∀ c, c.rest = ts → ∃ a d, p c = (.ok a, d) ∧ S a ∧ d.rest = rest ∧
    d.taken + rest.length = c.taken + ts.length

/-- On tokens `ts` the parser fails without taking one. -/
def Refuses (p : Parser α) (ts : List Token) : Prop :=
  ∀ c, c.rest = ts → ∃ m d, p c = (.error m, d) ∧ d.rest = c.rest ∧ d.taken = c.taken

/-- On tokens `ts` the parser fails before it commits itself. -/
def Balks (p : Parser α) (ts : List Token) : Prop :=
  ∀ c, c.rest = ts → ∃ m d, p c = (.error m, d) ∧ c.commits d = false

theorem Refuses.balks {p : Parser α} {ts : List Token} (h : Refuses p ts) : Balks p ts := by
  intro c hc
  obtain ⟨m, d, hp, -, htaken⟩ := h c hc
  refine ⟨m, d, hp, ?_⟩
  simp only [Cursor.commits, htaken, decide_eq_false_iff_not]
  omega

theorem Refuses.bind {p : Parser α} {f : α → Parser β} {ts : List Token} (h : Refuses p ts) :
    Refuses (p >>= f) ts := by
  intro c hc
  obtain ⟨m, d, hp, hd⟩ := h c hc
  exact ⟨m, d, by rw [run_bind, hp], hd⟩

theorem Refuses.here_bind {f : Pos → Parser β} {ts : List Token} (h : ∀ pos, Refuses (f pos) ts) :
    Refuses (here >>= f) ts := fun c hc => h c.next.pos c hc

theorem Refuses.satisfy {wanted : Token → Bool} {ts : List Token}
    (h : ∀ t ∈ ts.head?, wanted t = false) : Refuses (satisfy wanted) ts := by
  intro c hc
  refine ⟨.absent, c, ?_, rfl, rfl⟩
  rw [run_satisfy, hc]
  cases ts with
  | nil => rfl
  | cons t ts =>
    have ht : wanted t = false := h t rfl
    simp [ht]

theorem Refuses.word {w : Text} {ts : List Token} (h : ∀ t ∈ ts.head?, t.value ≠ w) :
    Refuses (word w) ts :=
  .bind (.satisfy fun t ht => beq_eq_false_iff_ne.mpr (h t ht))

theorem Refuses.ofKind {k : TokenKind} {ts : List Token} (h : ∀ t ∈ ts.head?, t.kind ≠ k) :
    Refuses (ofKind k) ts :=
  .bind (.satisfy fun t ht => decide_eq_false (h t ht))

theorem Refuses.need {p : Parser α} {ts : List Token} (h : Refuses p ts) (e : Expected) :
    Refuses (need e p) ts := by
  intro c hc
  obtain ⟨m, d, hp, hd⟩ := h c hc
  rw [run_need, hp]
  cases m with
  | absent => exact ⟨_, d, rfl, hd⟩
  | wrong u => exact ⟨_, d, rfl, hd⟩

theorem Refuses.node {p : Parser α} {ts : List Token} (h : Refuses p ts) : Refuses (node p) ts := by
  intro c hc
  obtain ⟨m, d, hp, hrest, htaken⟩ := h c hc
  rw [run_node, hp]
  cases m with
  | absent => exact ⟨_, d, rfl, hrest, htaken⟩
  | wrong u => exact ⟨_, d.note u, rfl, by rw [Cursor.rest_note, hrest], by rw [Cursor.taken_note, htaken]⟩

theorem Refuses.map {p : Parser α} {ts : List Token} (h : Refuses p ts) (f : α → β) :
    Refuses (f <$> p) ts := by
  intro c hc
  obtain ⟨m, d, hp, hd⟩ := h c hc
  exact ⟨m, d, by rw [run_map, hp], hd⟩

theorem Balks.node {p : Parser α} {ts : List Token} (h : Balks p ts) : Balks (node p) ts := by
  intro c hc
  obtain ⟨m, d, hp, hd⟩ := h c hc
  rw [run_node, hp]
  cases m with
  | absent => exact ⟨_, d, rfl, hd⟩
  | wrong u => exact ⟨_, d.note u, rfl, by simpa [Cursor.commits] using hd⟩

theorem Balks.map {p : Parser α} {ts : List Token} (h : Balks p ts) (f : α → β) : Balks (f <$> p) ts := by
  intro c hc
  obtain ⟨m, d, hp, hd⟩ := h c hc
  exact ⟨m, d, by rw [run_map, hp], hd⟩

theorem run_word {w : Text} {t : Token} {ts : List Token} (ht : t.value = w) {c : Cursor}
    (hc : c.rest = t :: ts) : word w c = (.ok (), c.advance) := by
  have hsatisfy : satisfy (·.value == w) c = (.ok t, c.advance) := by
    rw [run_satisfy, hc]
    exact if_pos (beq_iff_eq.mpr ht)
  rw [word, run_bind, hsatisfy]
  rfl

/-- A parser that fails behind its first word has not committed itself. -/
theorem Balks.word_bind {w : Text} {f : Unit → Parser β} {t : Token} {ts : List Token}
    (h : Refuses (f ()) ts) : Balks (word w >>= f) (t :: ts) := by
  intro c hc
  by_cases ht : t.value = w
  · obtain ⟨m, d, hf, -, htaken⟩ := h c.advance (by rw [Cursor.advance, hc]; rfl)
    refine ⟨m, d, by rw [run_bind, run_word ht hc]; exact hf, ?_⟩
    simp only [Cursor.commits, htaken, Cursor.advance, decide_eq_false_iff_not]
    omega
  · have hword : Refuses (word w) (t :: ts) := .word fun x hx => by
      cases hx
      exact ht
    exact (Refuses.bind hword).balks c hc

theorem Refuses.choice {ps : List (Parser α)} {ts : List Token} (h : ∀ p ∈ ps, Balks p ts) :
    Refuses (choice ps) ts := by
  have hfrom : ∀ best, Refuses (choiceFrom best ps) ts := by
    induction ps with
    | nil =>
      intro best c _
      cases best with
      | none => exact ⟨.absent, c, rfl, rfl, rfl⟩
      | some next => exact ⟨.wrong next.2, c.note next.2, rfl, Cursor.rest_note .., Cursor.taken_note ..⟩
    | cons p ps ih =>
      intro best c hc
      have hps := ih fun q hq => h q (List.mem_cons_of_mem p hq)
      obtain ⟨m, d, hp, hbalk⟩ := h p List.mem_cons_self c hc
      rcases choiceFrom_cons_cases best p ps c with ⟨a, b, heq, -⟩ | ⟨b, -, hrun⟩ |
        ⟨u, b, heq, hcommit, -⟩ | ⟨u, b, next, -, -, hrun⟩
      · cases hp.symm.trans heq
      · rw [hrun]
        exact hps best c hc
      · cases hp.symm.trans heq
        rw [hbalk] at hcommit
        cases hcommit
      · obtain ⟨m', d', hrun', hrest, htaken⟩ :=
          hps (some next) (c.noteBranch u b) (by rw [Cursor.rest_noteBranch, hc])
        rw [Cursor.rest_noteBranch] at hrest
        rw [Cursor.taken_noteBranch] at htaken
        exact ⟨m', d', hrun.trans hrun', hrest, htaken⟩
  exact hfrom none

section

variable {S : α → Prop} {ts rest : List Token}

theorem Accepts.pure {a : α} (h : S a) (ts : List Token) : Accepts (pure a) S ts ts :=
  fun c hc => ⟨a, c, rfl, h, hc, rfl⟩

theorem Accepts.mono {p : Parser α} {T : α → Prop} (h : Accepts p S ts rest) (hT : ∀ a, S a → T a) :
    Accepts p T ts rest := by
  intro c hc
  obtain ⟨a, d, hp, ha, hd⟩ := h c hc
  exact ⟨a, d, hp, hT a ha, hd⟩

theorem Accepts.bind {p : Parser α} {f : α → Parser β} {T : β → Prop} {mid : List Token}
    (hp : Accepts p S ts mid) (hf : ∀ a, S a → Accepts (f a) T mid rest) :
    Accepts (p >>= f) T ts rest := by
  intro c hc
  obtain ⟨a, d, hpa, ha, hd, hcount⟩ := hp c hc
  obtain ⟨b, e, hfa, hb, he, hcount'⟩ := hf a ha d hd
  exact ⟨b, e, by rw [run_bind, hpa]; exact hfa, hb, he, hcount'.trans hcount⟩

theorem Accepts.here_bind {f : Pos → Parser α} (h : ∀ pos, Accepts (f pos) S ts rest) :
    Accepts (here >>= f) S ts rest := fun c hc => h c.next.pos c hc

theorem advance_count {c : Cursor} {t : Token} {rest : List Token} (hc : c.rest = t :: rest) :
    c.advance.rest = rest ∧ c.advance.taken + rest.length = c.taken + (t :: rest).length := by
  rw [Cursor.advance, hc, List.length_cons]
  exact ⟨rfl, by dsimp only; omega⟩

theorem Accepts.word {w : Text} {t : Token} (ht : t.value = w) (rest : List Token) :
    Accepts (word w) (fun _ => True) (t :: rest) rest :=
  fun c hc => ⟨(), c.advance, run_word ht hc, trivial, advance_count hc⟩

theorem Accepts.ofKind {k : TokenKind} {t : Token} (ht : t.kind = k) (rest : List Token) :
    Accepts (ofKind k) (· = t.value) (t :: rest) rest := by
  intro c hc
  have hsatisfy : satisfy (·.kind = k) c = (.ok t, c.advance) := by
    rw [run_satisfy, hc]
    exact if_pos (decide_eq_true ht)
  refine ⟨t.value, c.advance, ?_, rfl, advance_count hc⟩
  rw [Parser.ofKind, run_bind, hsatisfy]
  rfl

theorem Accepts.need {p : Parser α} (h : Accepts p S ts rest) (e : Expected) :
    Accepts (need e p) S ts rest := by
  intro c hc
  obtain ⟨a, d, hp, hd⟩ := h c hc
  exact ⟨a, d, by rw [run_need, hp], hd⟩

theorem Accepts.node {p : Parser α} (h : Accepts p S ts rest) : Accepts (node p) S ts rest := by
  intro c hc
  obtain ⟨a, d, hp, hd⟩ := h c hc
  exact ⟨a, d, by rw [run_node, hp], hd⟩

theorem Accepts.map {p : Parser α} (h : Accepts p S ts rest) {f : α → β} {T : β → Prop}
    (hf : ∀ a, S a → T (f a)) : Accepts (f <$> p) T ts rest := by
  intro c hc
  obtain ⟨a, d, hp, ha, hd⟩ := h c hc
  exact ⟨f a, d, by rw [run_map, hp], hf a ha, hd⟩

/-- One of the alternatives is taken, whatever failed before them. -/
def Picks (ps : List (Parser α)) (S : α → Prop) (ts rest : List Token) : Prop :=
  ∀ best, Accepts (choiceFrom best ps) S ts rest

theorem Picks.choice {ps : List (Parser α)} (h : Picks ps S ts rest) : Accepts (choice ps) S ts rest :=
  h none

theorem Picks.first {p : Parser α} (h : Accepts p S ts rest) (ps : List (Parser α)) :
    Picks (p :: ps) S ts rest := by
  intro best c hc
  obtain ⟨a, d, hp, hd⟩ := h c hc
  refine ⟨a, d, ?_, hd⟩
  rcases choiceFrom_cons_cases best p ps c with ⟨a', b, heq, hrun⟩ | ⟨b, heq, -⟩ |
    ⟨u, b, heq, -, -⟩ | ⟨u, b, next, heq, -, -⟩
  · exact hrun.trans (heq.symm.trans hp)
  · cases hp.symm.trans heq
  · cases hp.symm.trans heq
  · cases hp.symm.trans heq

theorem Picks.skip {p : Parser α} (hp : Balks p ts) {ps : List (Parser α)} (h : Picks ps S ts rest) :
    Picks (p :: ps) S ts rest := by
  intro best c hc
  obtain ⟨m, d, hpc, hbalk⟩ := hp c hc
  rcases choiceFrom_cons_cases best p ps c with ⟨a, b, heq, -⟩ | ⟨b, -, hrun⟩ |
    ⟨u, b, heq, hcommit, -⟩ | ⟨u, b, next, -, -, hrun⟩
  · cases hpc.symm.trans heq
  · rw [hrun]
    exact h best c hc
  · cases hpc.symm.trans heq
    rw [hbalk] at hcommit
    cases hcommit
  · obtain ⟨a, e, hrun', ha, he, hcount⟩ :=
      h (some next) (c.noteBranch u b) (by rw [Cursor.rest_noteBranch, hc])
    rw [Cursor.taken_noteBranch] at hcount
    exact ⟨a, e, hrun.trans hrun', ha, he, hcount⟩

theorem Accepts.optional {p : Parser α} (h : Accepts p S ts rest) :
    Accepts (optional p) (fun o => ∃ a, o = some a ∧ S a) ts rest := by
  intro c hc
  obtain ⟨a, d, hp, ha, hd⟩ := h c hc
  exact ⟨some a, d, by rw [Parser.optional, hp], ⟨a, rfl, ha⟩, hd⟩

theorem run_optional_of_refuses {p : Parser α} (h : Refuses p ts) {c : Cursor} (hc : c.rest = ts) :
    ∃ d, Parser.optional p c = (.ok none, d) ∧ d.rest = c.rest ∧ d.taken = c.taken := by
  obtain ⟨m, d, hp, hrest, htaken⟩ := h c hc
  cases m with
  | absent => exact ⟨d, by rw [Parser.optional, hp], hrest, htaken⟩
  | wrong u =>
    have hcommit : c.commits d = false := by
      simp only [Cursor.commits, htaken, decide_eq_false_iff_not]
      omega
    refine ⟨(c.note u).noteBranch u d, ?_, by simp, by simp⟩
    rw [Parser.optional, hp]
    simp [hcommit]

theorem Refuses.optional {p : Parser α} (h : Refuses p ts) :
    Accepts (Parser.optional p) (· = none) ts ts := by
  intro c hc
  obtain ⟨d, hp, hrest, htaken⟩ := run_optional_of_refuses h hc
  exact ⟨none, d, hp, rfl, by rw [hrest, hc], by rw [htaken]⟩

theorem Refuses.optional_bind {p : Parser α} {f : Option α → Parser β} (h : Refuses p ts)
    (hf : Refuses (f none) ts) : Refuses (Parser.optional p >>= f) ts := by
  intro c hc
  obtain ⟨d, hp, hrest, htaken⟩ := run_optional_of_refuses h hc
  obtain ⟨m, e, hfd, hrest', htaken'⟩ := hf d (by rw [hrest, hc])
  exact ⟨m, e, by rw [run_bind, hp]; exact hfd, hrest'.trans hrest, htaken'.trans htaken⟩

end

/-! ## Alternatives with keywords -/

/-- The parser refuses tokens that do not begin with the word. -/
def Starts (p : Parser α) (w : Text) : Prop :=
  ∀ ts : List Token, (∀ t ∈ ts.head?, t.value ≠ w) → Refuses p ts

theorem Starts.word_bind (w : Text) (f : Unit → Parser α) : Starts (word w >>= f) w :=
  fun _ h => .bind (.word h)

theorem Starts.node {p : Parser α} {w : Text} (h : Starts p w) : Starts (node p) w :=
  fun ts ht => (h ts ht).node

theorem Starts.map {p : Parser α} {w : Text} (h : Starts p w) (f : α → β) : Starts (f <$> p) w :=
  fun ts ht => (h ts ht).map f

/-- Of alternatives with different keywords the one with the right keyword is taken. -/
theorem Picks.keyed {ps : List (Parser α)} {ws : List Text} (h : List.Forall₂ Starts ps ws)
    (hnodup : ws.Nodup) {p : Parser α} {w : Text} (hmem : (p, w) ∈ ps.zip ws) {t : Token}
    (ht : t.value = w) {S : α → Prop} {ts rest : List Token} (hp : Accepts p S (t :: ts) rest)
    (more : List (Parser α)) : Picks (ps ++ more) S (t :: ts) rest := by
  induction h with
  | nil => cases hmem
  | @cons q v ps ws hq _ ih =>
    rw [List.nodup_cons] at hnodup
    rw [List.zip_cons_cons, List.mem_cons] at hmem
    rcases hmem with heq | hmem
    · cases heq
      exact .first hp _
    · have hne : w ≠ v := by
        rintro rfl
        exact hnodup.1 (List.of_mem_zip hmem).2
      refine .skip (Refuses.balks (hq (t :: ts) fun x hx => ?_)) (ih hnodup.2 hmem)
      cases hx
      rwa [ht]

theorem Picks.skipAll {ps more : List (Parser α)} {S : α → Prop} {ts rest : List Token}
    (hps : ∀ p ∈ ps, Balks p ts) (h : Picks more S ts rest) : Picks (ps ++ more) S ts rest := by
  induction ps with
  | nil => exact h
  | cons p ps ih =>
    exact .skip (hps p List.mem_cons_self) (ih fun q hq => hps q (List.mem_cons_of_mem p hq))

theorem balks_of_starts {ps : List (Parser α)} {ws : List Text} (h : List.Forall₂ Starts ps ws)
    {ts : List Token} (ht : ∀ t ∈ ts.head?, t.value ∉ ws) : ∀ p ∈ ps, Balks p ts := by
  induction h with
  | nil => exact List.forall_mem_nil _
  | @cons q v ps ws hq _ ih =>
    refine List.forall_mem_cons.mpr ⟨(hq ts fun t htt heq => ?_).balks, ih fun t htt hmem => ?_⟩
    · exact ht t htt (heq ▸ List.mem_cons_self)
    · exact ht t htt (List.mem_cons_of_mem v hmem)

/-! ## Repetition -/

/-- What is accepted one after another, each time taking a token, is accepted as a list. -/
theorem Accepts.many {p : Parser α} {S : α → α → Prop} {P : α → List Token → List Token → Prop}
    (hP : ∀ a ts rest, P a ts rest → Accepts p (S a) ts rest ∧ rest.length < ts.length)
    {as : List α} {ts rest : List Token} (h : Sequence P as ts rest) (hend : Refuses p rest) :
    Accepts (many p) (List.Forall₂ S as) ts rest := by
  have hrepeated : ∀ fuel, ts.length < fuel → Accepts (repeated p fuel) (List.Forall₂ S as) ts rest := by
    intro fuel hfuel
    induction h generalizing fuel with
    | nil ts =>
      cases fuel with
      | zero => cases hfuel
      | succ fuel =>
        refine Accepts.bind hend.optional fun o ho => ?_
        subst ho
        exact .pure .nil ts
    | @cons a as ts mid rest first others ih =>
      cases fuel with
      | zero => cases hfuel
      | succ fuel =>
        obtain ⟨haccepts, hlength⟩ := hP a ts mid first
        refine Accepts.bind haccepts.optional fun o ho => ?_
        obtain ⟨b, rfl, hb⟩ := ho
        refine Accepts.bind (ih hend fuel (by omega)) fun bs hbs => ?_
        exact .pure (.cons hb hbs) rest
  intro c hc
  exact hrepeated (c.rest.length + 1) (by rw [hc]; exact Nat.lt_succ_self _) c hc

end Assembly.Script.Parser
