import Assembly.Engine.State

/-!
# Moves

Everything that happens to an engine is one of a few moves: a line goes out, a register is
handed out or taken back, storage is added, a function is entered or left.  Operations are
built from moves, so whatever every move keeps, every operation keeps.
-/

namespace Assembly

/-- A move.  There is none for a label: labels come with functions and routines only. -/
inductive Move
  /-- An instruction goes to the open function, or to the entry code. -/
  | instr (i : Instr)
  /-- A line of a caller's text goes there. -/
  | raw (t : Text)
  | reserve (r : Reservation)
  | store (d : Datum)
  /-- A symbol counts as defined. -/
  | define (name : Text)
  /-- A number is used up for the name of a generated constant. -/
  | countLiteral
  /-- A number is used up for the name of a printed text. -/
  | countPrint
  /-- A routine joins the program. -/
  | link (b : Builtin)
  /-- The next register of a class is handed out. -/
  | take (c : RegClass)
  /-- A register is taken back. -/
  | give (c : RegClass) (reg : Text)
  | resetRegs
  /-- A function is begun; all registers are free in it. -/
  | enter (name : Text) (params : List Param)
  | addLocal (name type : Text)
  /-- The open function keeps the register of a parameter. -/
  | cache (name : Text) (v : Value)
  /-- The open function ends, and its code is written. -/
  | leave
  | log (level : Log.Level) (message : Text) (fields : List (Text × Text))
deriving DecidableEq, Repr

namespace Engine

/-- Changes the open function, if there is one. -/
def mapCurrent (e : Engine) (f : Frame → Frame) : Engine := { e with current := e.current.map f }

def addLine (e : Engine) (l : Line) : Engine :=
  match e.current with
  | some f => { e with current := some (f.addLine l) }
  | none => { e with text := e.text ++ [l] }

def addSymbol (e : Engine) (name : Text) : Engine :=
  if e.defines name then e else { e with symbols := e.symbols ++ [name] }

def link (e : Engine) (b : Builtin) : Engine :=
  let e := { e with builtins := e.builtins ++ b.code e.target }
  match b with
  | .printInt => { e with printIntAdded := true }
  | .printFloat => { e with printFloatAdded := true }

/-- Hands out a register.  A fresh integer register is one that the open function has to
save. -/
def take (e : Engine) (c : RegClass) : Engine :=
  match e.regs.alloc? c with
  | some (a, regs) =>
    if a.fresh ∧ c = .int then { e with regs := regs }.mapCurrent (·.noteClobber a.reg)
    else { e with regs := regs }
  | none => e

/-- Begins a function, unless one is open. -/
def enter (e : Engine) (name : Text) (params : List Param) : Engine :=
  match e.current with
  | some _ => e
  | none =>
    { e with
      funcs := e.funcs ++ Routine.enter e.target name
      current := some (.new e.nextId name params)
      regs := e.regs.reset }

def leave (e : Engine) : Engine :=
  match e.current with
  | some f =>
    { e with
      funcs := e.funcs ++ f.code e.target
      current := none
      ended := e.ended ++ [f] }
  | none => e

/-- Adds a log entry; every entry of the engine names the word width first. -/
def record (e : Engine) (level : Log.Level) (message : Text) (fields : List (Text × Text)) :
    Engine :=
  { e with log := e.log ++ [⟨level, message, ("bits", Text.ofNat e.target.bits) :: fields⟩] }

/-- Makes a move. -/
def make (e : Engine) : Move → Engine
  | .instr i => e.addLine (.instr i)
  | .raw t => e.addLine (.raw t)
  | .reserve r => { e with bss := e.bss ++ [r] }
  | .store d => { e with data := e.data ++ [d] }
  | .define name => e.addSymbol name
  | .countLiteral => { e with literals := e.literals + 1 }
  | .countPrint => { e with printBuffers := e.printBuffers + 1 }
  | .link b => e.link b
  | .take c => e.take c
  | .give c reg => { e with regs := e.regs.free c reg }
  | .resetRegs => { e with regs := e.regs.reset }
  | .enter name params => e.enter name params
  | .addLocal name type => e.mapCurrent (·.addLocal e.target name type)
  | .cache name v => e.mapCurrent (·.cache name v)
  | .leave => e.leave
  | .log level message fields => e.record level message fields

/-- Makes moves one after the other. -/
def makeAll (e : Engine) (ms : List Move) : Engine := ms.foldl make e

@[simp] theorem makeAll_nil (e : Engine) : e.makeAll [] = e := rfl

@[simp] theorem makeAll_cons (e : Engine) (m : Move) (ms : List Move) :
    e.makeAll (m :: ms) = (e.make m).makeAll ms := rfl

@[simp] theorem makeAll_append (e : Engine) (ms ns : List Move) :
    e.makeAll (ms ++ ns) = (e.makeAll ms).makeAll ns := List.foldl_append

end Engine

end Assembly
