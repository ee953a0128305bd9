import Assembly.Proofs.Engine.Refusal
import Assembly.Proofs.Symbol.Unique

/-!
# Declarations and function requests that are refused

A declaration and a request about a function check first and act afterwards, so that a
refusal leaves the engine as it was.  There is one that does not: a function takes its name
before the types of its parameters are checked.  If a strict engine does not know one of
them, the name stays taken, and the function can never be begun with the right types.
`refused_unchanged_iff` says that nothing else goes wrong.
-/

namespace Assembly

namespace Request

/-- Whether a request declares something or is about a function. -/
def structural : Request → Bool
  | declareGlobal _ _ | declareConst _ _ _ | beginFunction _ _ | declareLocal _ _ _ | param _ _
  | returnValue _ _ | endFunction _ => true
  | _ => false

/-- The request begins a function under a name that is free, and a strict engine does not know
the type of a parameter. -/
def claimsInVain (e : Engine) : Request → Prop
  | beginFunction name params => e.strict = true ∧ e.current = none ∧ e.defines name = false ∧
      ∃ p ∈ params, e.target.knows p.type = false
  | _ => False

end Request

namespace Emit

variable {e : Engine} {x : EmitError} {ms : List Move} {name type : Text} {v : Value}
  {f : FunctionRef}

/-! ## Checks in a row -/

/-- A check is refused without a move, and in strict engines it is granted without one, so a
refusal later on finds no moves before it. -/
theorem checkType_then_refused {α : Type} {k : Unit → Emit α}
    (hk : ∀ {e ms}, (k ()).Refuses e x ms → e.strict = true ∧ ms = [])
    (h : (checkType type >>= k).Refuses e x ms) : ms = [] := by
  rcases refuses_bind.mp h with h | ⟨⟨⟩, ms₁, hcheck, ms₂, hrest, rfl⟩
  · exact (checkType_refused.mp h).2.2.2
  · obtain ⟨hs, rfl⟩ := hk hrest
    rw [e.makeAll_strict] at hs
    rw [checkType_strict hs hcheck]
    rfl

theorem claimSymbol_then_refused {α : Type} {k : Unit → Emit α} (hk : ∀ u, (k u).Total)
    (h : (claimSymbol name >>= k).Refuses e x ms) : e.strict = true ∧ ms = [] := by
  obtain ⟨-, hs, -, hms⟩ := claimSymbol_refused.mp (h.of_bind_total hk)
  exact ⟨hs, hms⟩

theorem declareGlobal_refused (h : (declareGlobal name type).Refuses e x ms) : ms = [] :=
  checkType_then_refused (claimSymbol_then_refused fun _ =>
    .reading fun _ => .bind (.moves _) fun _ => .pure _) h

theorem declareConst_refused {lit : Value} (h : (declareConst name lit type).Refuses e x ms) :
    ms = [] := by
  rw [declareConst, refuses_ite] at h
  split at h
  · rcases refuses_bind.mp h with h | ⟨_, _, h, -⟩
    · exact (refuses_throw.mp h).2
    · exact (grants_throw.mp h).elim
  · exact checkType_then_refused (claimSymbol_then_refused fun _ =>
      .bind (.moves _) fun _ => .pure _) (refuses_read_bind.mp h)

/-! ## Requests about the open function -/

/-- What is asked of a function begins with a look at it, which makes no move. -/
theorem openFrame_then_refused {α : Type} {k : Frame → Emit α}
    (hk : ∀ g, (k g).Refuses e x ms → ms = []) (h : (openFrame f >>= k).Refuses e x ms) :
    ms = [] := by
  rcases refuses_bind.mp h with h | ⟨g, ms₁, hg, ms₂, hrest, rfl⟩
  · have hms := openFrame_moves f e
    rw [Refuses] at h
    rwa [h] at hms
  · obtain ⟨rfl, -⟩ := openFrame_granted hg
    exact hk g hrest

theorem declareLocal_refused (h : (declareLocal f name type).Refuses e x ms) : ms = [] := by
  refine openFrame_then_refused (fun g hg => checkType_then_refused (fun {e ms} hrest => ?_) hg) h
  have hrun : (addLocal g name type).Refuses e x ms := hrest
  rw [Refuses, addLocal_run] at hrun
  split at hrun
  case isTrue hdup => exact ⟨hdup.2, (congrArg Prod.snd hrun).symm⟩
  case isFalse => cases congrArg Prod.fst hrun

theorem param_refused (h : (param f name).Refuses e x ms) : ms = [] := by
  refine openFrame_then_refused (fun g hg => ?_) h
  split at hg
  · exact (refuses_pure.mp hg).elim
  · split at hg
    · exact (refuses_throw.mp hg).2
    · have halloc := (refuses_read_bind.mp hg).of_bind_total fun r =>
        .bind (.moves _) fun _ => .bind (.moves _) fun _ => .pure r
      exact (allocRegAs_refused halloc).2.2

theorem returnValue_refused (h : (returnValue f v).Refuses e x ms) : ms = [] := by
  refine openFrame_then_refused (fun g hg => ?_) h
  simp only [refuses_read_bind, refuses_ite, refuses_throw] at hg
  split at hg
  · exact absurd hg (Total.bind (total_materialize v v.type) (fun _ => .moves _) _ _ _)
  · split at hg
    · exact hg.2
    · exact absurd hg (Total.moves _ _ _ _)

theorem endFunction_refused (h : (endFunction f).Refuses e x ms) : ms = [] :=
  openFrame_then_refused
    (fun _ hg => absurd hg (Total.bind (.moves _) (fun _ => .moves _) _ _ _)) h

/-! ## The beginning of a function -/

variable {params : List Param}

theorem checkParams_refused {words : Param → EmitError → EmitError}
    (h : (params.forM fun p => (checkType p.type).rewording (words p)).Refuses e x ms) :
    e.strict = true ∧ (∃ p ∈ params, e.target.knows p.type = false) ∧ ms = [] := by
  induction params generalizing e ms with
  | nil => exact (refuses_pure.mp h).elim
  | cons p params ih =>
    rcases refuses_bind.mp h with h | ⟨_, ms₁, hp, ms₂, hrest, rfl⟩
    · obtain ⟨y, hp, -⟩ := refuses_rewording.mp h
      obtain ⟨hunknown, hs, -, hms⟩ := checkType_refused.mp hp
      exact ⟨hs, ⟨p, List.mem_cons_self, hunknown⟩, hms⟩
    · obtain ⟨hs, ⟨p', hp', hunknown⟩, rfl⟩ := ih hrest
      rw [e.makeAll_strict] at hs
      rw [e.makeAll_target] at hunknown
      rw [checkType_strict hs (grants_rewording.mp hp)]
      exact ⟨hs, ⟨p', List.mem_cons_of_mem p hp', hunknown⟩, rfl⟩

theorem checkParams_known (words : Param → EmitError → EmitError)
    (h : ∀ p ∈ params, e.target.knows p.type = true) :
    (params.forM fun p => (checkType p.type).rewording (words p)).Grants e () [] := by
  induction params with
  | nil => exact grants_pure.mpr ⟨rfl, rfl⟩
  | cons p params ih =>
    have hp : (checkType p.type).Grants e () [] := by
      rw [Grants, checkType_run, if_pos (h p List.mem_cons_self)]
    exact grants_bind.mpr ⟨(), [], grants_rewording.mpr hp, [],
      ih fun p' hp' => h p' (List.mem_cons_of_mem p hp'), rfl⟩

theorem beginFunction_refused (h : (beginFunction name params).Refuses e x ms) :
    (¬ (Request.beginFunction name params).claimsInVain e ∧ ms = []) ∨
      (Request.beginFunction name params).claimsInVain e ∧ ms = [.define name] := by
  rw [Refuses, beginFunction_run] at h
  cases hopen : e.current with
  | some g =>
    rw [hopen] at h
    refine .inl ⟨fun hvain => ?_, (congrArg Prod.snd h).symm⟩
    rw [hvain.2.1] at hopen
    cases hopen
  | none =>
    rw [hopen] at h
    have hclaim : (claimFunction name params).Refuses e x ms :=
      Refuses.of_bind_total (f := fun _ => enterFunction name params)
        (fun _ => .reading fun _ => .bind (.moves _) fun _ => .pure _) h
    rcases refuses_bind.mp hclaim with htaken | ⟨_, ms₁, hname, ms₂, hparams, rfl⟩
    · obtain ⟨hdefined, -, -, hms⟩ := claimSymbol_refused.mp htaken
      refine .inl ⟨fun hvain => ?_, hms⟩
      rw [hvain.2.2.1] at hdefined
      cases hdefined
    · obtain ⟨hs, ⟨p, hp, hunknown⟩, rfl⟩ := checkParams_refused hparams
      rw [e.makeAll_strict] at hs
      rw [e.makeAll_target] at hunknown
      obtain ⟨hnew, rfl⟩ := claimSymbol_strict hs hname
      exact .inr ⟨⟨hs, hopen, hnew, p, hp, hunknown⟩, rfl⟩

/-- A function whose name is free and whose parameters have known types can be begun. -/
theorem beginFunction_known (hopen : e.current = none) (hnew : e.defines name = false)
    (hknown : ∀ p ∈ params, e.target.knows p.type = true) :
    (beginFunction name params e).1 = .ok ⟨e.nextId, name⟩ := by
  have hname : (claimSymbol name).Grants e () [.define name] := by
    rw [Grants, claimSymbol_run, hnew]
    rfl
  have hparams := checkParams_known (fun p => .parameter name p.name)
    (e := e.makeAll [.define name]) (by rwa [e.makeAll_target])
  have hid : (e.makeAll [.define name]).nextId = e.nextId := by
    show (e.addSymbol name).nextId = e.nextId
    rw [Engine.addSymbol]
    split <;> rfl
  have hclaim : (claimFunction name params).Grants e () ([.define name] ++ []) :=
    grants_bind.mpr ⟨(), _, hname, _, hparams, rfl⟩
  rw [Grants] at hclaim
  rw [beginFunction_run, hopen]
  show ((bind _ _ : Emit FunctionRef) e).1 = _
  rw [bind_apply, hclaim, List.append_nil]
  dsimp only
  rw [enterFunction_run, hid]

theorem beginFunction_taken (params : List Param) (hs : e.strict = true)
    (hopen : e.current = none) (htaken : e.defines name = true) :
    (beginFunction name params e).1 = .error (.duplicateSymbol name) := by
  have hname : (claimSymbol name).Refuses e (.duplicateSymbol name) [] :=
    claimSymbol_refused.mpr ⟨htaken, hs, rfl, rfl⟩
  have hclaim : (claimFunction name params >>= fun _ => enterFunction name params).Refuses e
      (.duplicateSymbol name) [] := refuses_bind.mpr (.inl (refuses_bind.mpr (.inl hname)))
  rw [beginFunction_run, hopen]
  exact congrArg Prod.fst hclaim

end Emit

/-! ## In a run -/

open Emit

/-- A refused request of this kind has made no move, or it has taken the name of a function. -/
theorem Request.refused_moves {e : Engine} {q : Request} {x : EmitError} {ms : List Move}
    (hq : q.structural = true) (h : q.emit.Refuses e x ms) :
    (¬ q.claimsInVain e ∧ ms = []) ∨
      ∃ name params, q = .beginFunction name params ∧ q.claimsInVain e ∧ ms = [.define name] := by
  cases q with
  | declareGlobal => exact .inl ⟨id, declareGlobal_refused (refuses_map.mp h)⟩
  | declareConst => exact .inl ⟨id, declareConst_refused (refuses_map.mp h)⟩
  | declareLocal => exact .inl ⟨id, declareLocal_refused (refuses_map.mp h)⟩
  | param => exact .inl ⟨id, param_refused (refuses_map.mp h)⟩
  | returnValue => exact .inl ⟨id, returnValue_refused (refuses_map.mp h)⟩
  | endFunction => exact .inl ⟨id, endFunction_refused (refuses_map.mp h)⟩
  | beginFunction name params =>
    exact (beginFunction_refused (refuses_map.mp h)).imp_right fun hvain =>
      ⟨name, params, rfl, hvain⟩
  | _ => cases hq

namespace Engine

theorem make_define_of_new {e : Engine} {name : Text} (h : e.defines name = false) :
    e.make (.define name) = { e with symbols := e.symbols ++ [name] } := by
  rw [make, addSymbol, h]
  rfl

/-- A refused declaration, or request about a function, leaves the whole engine as it was, in
either mode and after any run, unless it has taken a name in vain.  Then that name is one more
symbol, nothing else has changed, and the function, which could have been begun with parameters
of known types, is refused with them. -/
theorem refused_unchanged_iff (t : Target) (strict : Bool) (qs : List Request) (q : Request)
    (x : EmitError) (hq : q.structural = true)
    (hreply : ((Engine.new t strict).serveAll qs).reply q = .error x) :
    let e := (Engine.new t strict).serveAll qs
    (e.serve q = e ↔ ¬ q.claimsInVain e) ∧
      ∀ name params, q = .beginFunction name params → q.claimsInVain e →
        e.serve q = { e with symbols := e.symbols ++ [name] } ∧
        ∀ params', (∀ p ∈ params', t.knows p.type = true) →
          e.reply (.beginFunction name params') = .ok (.function ⟨e.nextId, name⟩) ∧
          (e.serve q).reply (.beginFunction name params') = .error (.duplicateSymbol name) := by
  intro e
  have htarget : e.target = t := Engine.serveAll_target _ qs
  have hrefused : q.emit.Refuses e x (e.movesOf q) := Prod.ext hreply rfl
  -- Whatever is taken in vain is a symbol afterwards.
  have hserve : ∀ name params, q = .beginFunction name params → q.claimsInVain e →
      e.serve q = { e with symbols := e.symbols ++ [name] } := by
    intro name params hname hvain
    rcases Request.refused_moves hq hrefused with ⟨hnot, -⟩ | ⟨name', _, hname', -, hms⟩
    · exact absurd hvain hnot
    · cases hname.symm.trans hname'
      rw [serve, hms]
      subst hname
      exact make_define_of_new hvain.2.2.1
  refine ⟨⟨fun hsame hvain => ?_, fun hnot => ?_⟩, fun name params hname hvain => ?_⟩
  · rcases Request.refused_moves hq hrefused with ⟨hnot, -⟩ | ⟨name, params, hname, -, -⟩
    · exact hnot hvain
    · have hafter := hsame.symm.trans (hserve name params hname hvain)
      have hlength := congrArg (·.symbols.length) hafter
      simp at hlength
  · rcases Request.refused_moves hq hrefused with ⟨-, hms⟩ | ⟨_, _, -, hvain, -⟩
    · rw [serve, hms]
      rfl
    · exact absurd hvain hnot
  · have hafter := hserve name params hname hvain
    subst hname
    obtain ⟨hs, hopen, hnew, -⟩ := hvain
    refine ⟨hafter, fun params' hknown => ⟨?_, ?_⟩⟩
    · have hbegin := beginFunction_known hopen hnew (htarget.symm ▸ hknown)
      show ((Reply.function <$> beginFunction name params') e).1 = _
      rw [map_apply, hbegin]
      rfl
    · have htaken : (e.serve (.beginFunction name params)).defines name = true := by
        rw [hafter]
        simp [defines]
      have hbegin := beginFunction_taken params'
        (e := e.serve (.beginFunction name params)) (by rw [hafter]; exact hs)
        (by rw [hafter]; exact hopen) htaken
      show ((Reply.function <$> beginFunction name params') _).1 = _
      rw [map_apply, hbegin]
      rfl

/-- A function with a parameter of an unknown type takes its name away from the function with
the right type; a local of an unknown type takes nothing. -/
theorem refused_unchanged_iff_retry :
    let e := Engine.new .bits64 true
    let q := Request.beginFunction "f" [⟨"x", "wide"⟩]
    let right := Request.beginFunction "f" [⟨"x", "int32"⟩]
    let e' := (Engine.new .bits64 true).serveAll [right]
    let q' := Request.declareLocal ⟨0, "f"⟩ "a" "wide"
    (e.reply q = .error (.parameter "f" "x" (.unknownType "wide")) ∧ e.serve q ≠ e ∧
        e.reply right = .ok (.function ⟨0, "f"⟩) ∧
        (e.serve q).reply right = .error (.duplicateSymbol "f")) ∧
      e'.reply q' = .error (.unknownType "wide") ∧ e'.serve q' = e' := by
  intro e q right e' q'
  have hreply : e.reply q = .error (.parameter "f" "x" (.unknownType "wide")) := by decide +kernel
  have hreply' : e'.reply q' = .error (.unknownType "wide") := by decide +kernel
  have hvain : q.claimsInVain e := ⟨rfl, rfl, rfl, _, List.mem_singleton_self _, by decide +kernel⟩
  obtain ⟨hiff, hretry⟩ := refused_unchanged_iff .bits64 true [] q _ rfl hreply
  obtain ⟨-, hright⟩ := hretry "f" _ rfl hvain
  obtain ⟨hgranted, hrefused⟩ := hright [⟨"x", "int32"⟩] (by decide +kernel)
  refine ⟨⟨hreply, fun hsame => hiff.mp hsame hvain, hgranted, hrefused⟩, hreply', ?_⟩
  exact (refused_unchanged_iff .bits64 true [right] q' _ rfl hreply').1.mpr id

end Engine

end Assembly
