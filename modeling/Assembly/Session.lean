import Assembly.Engine.Request

/-!
# Sessions

A session drives an engine step by step.  Steps are data, so that a whole run can be
written down, replayed and reasoned about.  The values that steps return are kept in named
slots, functions under names of their own, and every step is answered by a report with the
engine after it and what was logged since the report before.
-/

namespace Assembly

/-! ## Steps -/

/-- Where a step takes a value from. -/
inductive Source
  | empty
  | slot (name : Text)
  | text (t : Text)
  | int (n : Int) (type : Option Text)
  | float (x : Binary64) (type : Option Text)
  | numeral (spelling : Text)
  | value (v : Value)
deriving DecidableEq, Repr

/-- A source whose value may be given another type. -/
structure Spec where
  source : Source
  type : Option Text
deriving DecidableEq, Repr

/-- An operation of a session.  `slot` is where its value goes, `fn` the function it is
about, the last one begun if none is named. -/
inductive Op
  | bind (slot : Option Text)
  | declareGlobal (name type : Text) (slot : Option Text)
  | declareConst (name type : Text) (slot : Option Text)
  | alloc (type : Text) (slot : Option Text)
  | release
  | load (type : Text) (slot : Option Text)
  | call (name : Text) (args : List Spec) (slot : Option Text)
  | callAs (name : Text) (args : List Spec) (type : Text) (slot : Option Text)
  | cast (type : Text) (slot : Option Text)
  | print
  | printFloat
  | exit (code : Int)
  | rawLine (t : Text)
  | rawInstr (t : Text)
  | rawBlock (t : Text)
  | beginFunction (name : Text) (params : List Param) (as : Option Text)
  | declareLocal (name type : Text) (slot fn : Option Text)
  | findLocal (name : Text) (slot fn : Option Text)
  | param (name : Text) (slot fn : Option Text)
  | returnValue (fn : Option Text)
  | endFunction (fn : Option Text)
  | savedRegs (fn : Option Text)
  | localSize (fn : Option Text)
  | currentFunction
  | info
  | resetRegs
  | finalize
deriving DecidableEq, Repr

/-- A step of a session: an operation, or steps run with a temporary register, which may
be made to fail at their end.  Every step names an operand.  Its value is found before
anything else is done, so a step whose operand has none does nothing, whether or not the
operation would use it. -/
inductive Step
  | op (operand : Spec) (o : Op)
  | withTemp (operand : Spec) (type : Text) (slot : Option Text) (inner : List Step)
    (failure : Option Text)

/-! ## Answers -/

/-- Why a step failed: the engine refused it, or it names something that is not there. -/
inductive StepError
  | emit (e : EmitError)
  | unknownSlot (name : Text)
  | noFunction
deriving DecidableEq, Repr

def StepError.message : StepError → Text
  | emit e => e.message
  | unknownSlot name => "unknown slot " ++ name
  | noFunction => "no such function"

inductive Answer
  | done
  | value (v : Value)
  | lookup (v : Option Value)
  | names (ts : List Text)
  | number (n : Nat)
  | current (name : Option Text)
  | info (target : Target) (strict : Bool)
  | program (t : Text)
deriving DecidableEq, Repr

/-- The value that an answer gives; the empty value if it gives none. -/
def Answer.result : Answer → Value
  | value v => v
  | _ => {}

/-- The outcome of a step, the reports of the steps inside it if it has some, the engine
after it, and what was logged since the report before. -/
inductive Report
  | mk (outcome : Except StepError Answer) (inner : Option (List Report)) (engine : Engine)
    (logged : List Log.Entry)

/-! ## Runs -/

structure Session where
  engine : Engine
  slots : Bindings
  functions : List (Text × FunctionRef)
  last : Option FunctionRef
  /-- The number of log entries that reports have covered. -/
  reported : Nat

namespace Session

def new (e : Engine) : Session := ⟨e, [], [], none, e.log.length⟩

/-- Parts of a step.  Like the engine, a session keeps what was done before a failure. -/
abbrev Run := ExceptT StepError (StateM Session)

/-- Makes a request of the engine. -/
def ask (q : Request) : Run Reply :=
  ExceptT.mk do
    let s ← get
    set { s with engine := s.engine.serve q }
    return (s.engine.reply q).mapError .emit

/-- The value of a literal source; the value in a slot. -/
def sourceValue : Source → Run Value
  | .empty => return {}
  | .slot name => do
    match (← get).slots.get? name with
    | some v => return v
    | none => throw (.unknownSlot name)
  | .text t => return .ofText t
  | .int n type => return .ofIntAs n (type.getD "int64")
  | .float x type => return .ofFloatAs x (type.getD "float")
  | .numeral t =>
    match Value.ofNumeral? t with
    | some v => return v
    | none => throw (.emit (.badNumeral t))
  | .value v => return v

def value (s : Spec) : Run Value := do
  let v ← sourceValue s.source
  match s.type with
  | some type => return v.withType type
  | none => return v

def store (slot : Option Text) (v : Value) : Run Unit :=
  match slot with
  | some name => modify fun s => { s with slots := s.slots.insert name v }
  | none => pure ()

/-- Makes a request and answers with the reply.  A value is kept in the slot `name`, a
function that was begun under that name and as the last one. -/
def asking (name : Option Text) (q : Request) : Run Answer := do
  match ← ask q with
  | .done => return .done
  | .value v =>
    store name v
    return .value v
  | .function f =>
    modify fun s =>
      { s with
        last := some f
        functions := name.toList.map (·, f) ++ s.functions }
    return .done
  | .program t => return .program t

/-- The function a step is about. -/
def function (fn : Option Text) : Run FunctionRef := do
  let s ← get
  match fn with
  | some name =>
    match s.functions.lookup name with
    | some f => return f
    | none => throw .noFunction
  | none =>
    match s.last with
    | some f => return f
    | none => throw .noFunction

/-- The frame of the function a step is about, open or ended. -/
def frame (fn : Option Text) : Run Frame := do
  let f ← function fn
  match (← get).engine.frame? f.id with
  | some frame => return frame
  | none => throw .noFunction

/-- Performs an operation on the value of its step's operand. -/
def perform (v : Value) : Op → Run Answer
  | .bind slot => do
    store slot v
    return .value v
  | .declareGlobal name type slot => asking slot (.declareGlobal name type)
  | .declareConst name type slot => asking slot (.declareConst name v type)
  | .alloc type slot => asking slot (.alloc type)
  | .release => asking none (.release v)
  | .load type slot => asking slot (.load v type)
  | .call name args slot => do
    let args ← args.mapM value
    asking slot (.call name args)
  | .callAs name args type slot => do
    let args ← args.mapM value
    asking slot (.callAs name args type)
  | .cast type slot => asking slot (.cast v type)
  | .print => asking none (.print v)
  | .printFloat => asking none (.printFloat v)
  | .exit code => asking none (.exit code)
  | .rawLine t => asking none (.rawLine t)
  | .rawInstr t => asking none (.rawInstr t)
  | .rawBlock t => asking none (.rawBlock t)
  | .beginFunction name params as => asking as (.beginFunction name params)
  | .declareLocal name type slot fn => do
    let f ← function fn
    asking slot (.declareLocal f name type)
  | .findLocal name slot fn => do
    let f ← frame fn
    let v := f.locals.get? name
    store slot (v.getD {})
    return .lookup v
  | .param name slot fn => do
    let f ← function fn
    asking slot (.param f name)
  | .returnValue fn => do
    let f ← function fn
    asking none (.returnValue f v)
  | .endFunction fn => do
    let f ← function fn
    asking none (.endFunction f)
  | .savedRegs fn => do
    let f ← frame fn
    return .names f.saved
  | .localSize fn => do
    let f ← frame fn
    return .number f.localSize
  | .currentFunction => do
    let s ← get
    return .current (s.engine.current.map (·.name))
  | .info => do
    let s ← get
    return .info s.engine.target s.engine.strict
  | .resetRegs => asking none .resetRegs
  | .finalize => asking none .finalize

/-- The report of a step that has just run. -/
def report (outcome : Except StepError Answer) (inner : Option (List Report)) :
    StateM Session Report := do
  let s ← get
  set { s with reported := s.engine.log.length }
  return .mk outcome inner s.engine (s.engine.log.drop s.reported)

mutual

/-- Runs one step. -/
def step : Step → StateM Session Report
  | .withTemp operand type slot inner failure => do
    match ← (value operand).run with
    | .error e => report (.error e) none
    | .ok _ =>
      match ← (asking slot (.alloc type)).run with
      | .error e => report (.error e) (some [])
      | .ok answer =>
        let reports ← steps inner
        let _ ← (ask (.release answer.result)).run
        let outcome := match failure with
          | some message => .error (.emit (.raised message))
          | none => .ok .done
        report outcome (some reports)
  | .op operand o => do
    let outcome ← (value operand >>= fun v => perform v o).run
    report outcome none

/-- Runs steps in turn; a step that fails does not stop those after it. -/
def steps : List Step → StateM Session (List Report)
  | [] => return []
  | s :: rest => do
    let r ← step s
    let rs ← steps rest
    return r :: rs

end

/-- The reports of a run on an engine, and the engine after it. -/
def run (e : Engine) (program : List Step) : List Report × Engine :=
  let (reports, s) := (steps program).run (new e)
  (reports, s.engine)

end Session

end Assembly
