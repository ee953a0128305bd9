import Assembly.Proofs.Frame.Account

/-!
# Where code goes

The body of an engine is the code that goes out at present: that of the open function, or
the entry code when no function is open.  The saves of registers are not part of it; they
are put in front of it.

`body_serve` says that a request that neither begins nor ends a function appends its lines to the
body.  `Bodies.follow` carries a property of code from the lines of single
requests to the code of whole functions.
-/

namespace Assembly

open Move

namespace Request

/-- Whether a request emits text of its caller. -/
def raw : Request → Bool
  | rawLine _ | rawInstr _ | rawBlock _ => true
  | _ => false

end Request

theorem Move.lines_of_quiet {m : Move} (h : m.quiet) : m.lines = [] := by
  cases m with
  | instr | raw => cases h
  | _ => rfl

theorem Move.flatMap_lines_essence (ms : List Move) :
    (essence ms).flatMap lines = ms.flatMap lines := by
  induction ms with
  | nil => rfl
  | cons m ms ih =>
    rw [essence_cons, List.flatMap_cons]
    by_cases hq : m.quiet = true
    · rw [if_pos hq, ih, lines_of_quiet hq, List.nil_append]
    · rw [if_neg hq, List.flatMap_cons, ih]

/-! ## The body -/

namespace Engine

/-- The code that goes out at present, without the saves of registers in front. -/
def body (e : Engine) : List Line :=
  match e.current with
  | some f => f.lines.drop f.saved.length
  | none => e.text

/-- The lines that a request emits. -/
def linesOf (e : Engine) (q : Request) : List Line := (e.movesOf q).flatMap Move.lines

variable {e : Engine} {h : Chronicle}

theorem body_mapCurrent {k : Frame → Frame}
    (hk : ∀ f, (k f).lines.drop (k f).saved.length = f.lines.drop f.saved.length) :
    (e.mapCurrent k).body = e.body := by
  simp only [body, mapCurrent]
  cases e.current with
  | none => rfl
  | some f => exact hk f

theorem body_addLine (d : h.Describes e) (l : Line) : (e.addLine l).body = e.body ++ [l] := by
  obtain ⟨-, hc⟩ | ⟨p, f, -, hc, hpf⟩ := d.open_cases
  · simp only [addLine, hc, body]
  · have hsaves : f.saved.length ≤ f.lines.length := by
      rw [hpf.lines, hpf.saved, List.length_append, List.length_map, List.length_reverse]
      omega
    simp only [addLine, hc, body, Frame.addLine]
    exact List.drop_append_of_le_length hsaves

/-- A save goes in front, so the rest stays as it is. -/
theorem drop_noteClobber (f : Frame) (r : Text) :
    (f.noteClobber r).lines.drop (f.noteClobber r).saved.length = f.lines.drop f.saved.length := by
  rw [Frame.noteClobber]
  split
  · rfl
  · simp

theorem body_make (d : h.Describes e) {m : Move} (hm : m.inner) :
    (e.make m).body = e.body ++ m.lines := by
  cases m with
  | enter | leave => cases hm
  | instr i => exact body_addLine d _
  | raw t => exact body_addLine d _
  | take c =>
    rw [lines_take, List.append_nil, make]
    obtain h | ⟨a, g, -, h | h⟩ := e.take_cases c
    · rw [h]
    · rw [h]; rfl
    · rw [h]; exact body_mapCurrent (e := e) fun f => drop_noteClobber f a.reg
  | addLocal name type =>
    have hsame : (e.mapCurrent (·.addLocal e.target name type)).body = e.body :=
      body_mapCurrent fun _ => rfl
    exact hsame.trans (List.append_nil _).symm
  | cache name v =>
    have hsame : (e.mapCurrent (·.cache name v)).body = e.body := body_mapCurrent fun _ => rfl
    exact hsame.trans (List.append_nil _).symm
  | define name =>
    simp only [make, addSymbol]
    split <;> exact (List.append_nil _).symm
  | link b => cases b <;> exact (List.append_nil _).symm
  | _ => exact (List.append_nil _).symm

theorem body_makeAll (d : h.Describes e) {ms : List Move} (hms : ∀ m ∈ ms, m.inner) :
    (e.makeAll ms).body = e.body ++ ms.flatMap Move.lines := by
  induction ms generalizing e h with
  | nil => exact (List.append_nil _).symm
  | cons m ms ih =>
    have hm := body_make d (hms m List.mem_cons_self)
    rw [makeAll_cons, ih (d.make m) fun n hn => hms n (List.mem_cons_of_mem m hn), hm,
      List.flatMap_cons, List.append_assoc]

theorem body_serve (d : h.Describes e) {q : Request} (hq : q.within) :
    (e.serve q).body = e.body ++ e.linesOf q :=
  body_makeAll d (Request.inner_moves hq e)

theorem regs_target_serveAll (h : e.regs.target = e.target) (qs : List Request) :
    (e.serveAll qs).regs.target = (e.serveAll qs).target := by
  induction qs generalizing e with
  | nil => exact h
  | cons q qs ih => exact ih (e.regs_target_serve h q)

end Engine

/-! ## The code of functions -/

namespace Chronicle

/-- The code of every function has a property. -/
structure Bodies (h : Chronicle) (P : List Line → Prop) : Prop where
  closed : ∀ p ∈ h.closed, P p.emitted
  opened : ∀ p, h.opened = some p → P p.emitted

namespace Bodies

variable {P : List Line → Prop} {h : Chronicle} {e : Engine}

theorem empty (P : List Line → Prop) : Chronicle.empty.Bodies P :=
  ⟨List.forall_mem_nil _, fun _ hp => nomatch hp⟩

theorem ask (b : h.Bodies P) (d : h.Describes e) {q : Request} {r : Reply}
    (hr : e.reply q = .ok r) (hnil : P [])
    (hstep : q.within → ∀ code, P code → P (code ++ e.linesOf q)) : (h.ask e q).Bodies P := by
  have hgrant : q.emit.Grants e r (e.movesOf q) := Prod.ext hr rfl
  by_cases hq : q.within = true
  · have hgains := Gains.noteAll (h.addRequest q) e (Request.inner_moves hq e)
    refine ⟨fun p hp => ?_, fun p' hp' => ?_⟩
    · rw [Chronicle.ask, hgains.closed] at hp
      exact b.closed p hp
    · obtain ⟨p₁, hp₁, hg⟩ := hgains.opened p' hp'
      obtain ⟨p, hp, rfl⟩ := Option.map_eq_some_iff.mp hp₁
      rw [hg.emitted]
      exact hstep hq _ (b.opened p hp)
  · cases q with
    | beginFunction name params =>
      obtain ⟨f, hf, -⟩ := Emit.grants_map.mp hgrant
      obtain ⟨hclosed, hopened⟩ := Prod.mk.inj (functions_ask_begin d hf rfl)
      refine ⟨hclosed ▸ b.closed, fun p hp => ?_⟩
      rw [hopened, Option.some.injEq] at hp
      subst hp
      exact hnil
    | endFunction f =>
      obtain ⟨u, hu, -⟩ := Emit.grants_map.mp hgrant
      obtain ⟨hclosed, hopened⟩ := Prod.mk.inj (functions_ask_end (h := h) hu rfl)
      refine ⟨fun p hp => ?_, fun p hp => ?_⟩
      · rw [hclosed] at hp
        rcases List.mem_append.mp hp with hp | hp
        · exact b.closed p hp
        · obtain ⟨p₀, hp₀, rfl⟩ := Option.map_eq_some_iff.mp (Option.mem_toList.mp hp)
          exact b.opened p₀ hp₀
      · rw [hopened] at hp
        cases hp
    | _ => exact absurd rfl hq

/-- What holds of no code, and stays when the lines of a granted request are appended, holds
of the code of every function. -/
theorem follow {qs : List Request} (b : h.Bodies P) (d : h.Describes e)
    (hall : e.grantsAll qs) (hnil : P [])
    (hstep : ∀ (e' : Engine) (q : Request) (r : Reply), e'.target = e.target → q ∈ qs →
      q.within → e'.reply q = .ok r → ∀ code, P code → P (code ++ e'.linesOf q)) :
    (h.follow e qs).Bodies P := by
  induction qs generalizing h e with
  | nil => exact b
  | cons q qs ih =>
    obtain ⟨hq, hrest⟩ := (Bool.and_eq_true ..).mp hall
    cases hr : e.reply q with
    | error x =>
      rw [hr] at hq
      cases hq
    | ok r =>
      have hask := b.ask d hr hnil fun hw => hstep e q r rfl List.mem_cons_self hw hr
      refine ih hask (d.ask q) hrest fun e' q' r' he' hq' => ?_
      exact hstep e' q' r' (he'.trans (e.serve_target q)) (List.mem_cons_of_mem q hq')

end Bodies

end Chronicle

end Assembly
