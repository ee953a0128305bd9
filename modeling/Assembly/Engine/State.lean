import Assembly.Engine.Error
import Assembly.Log
import Assembly.Machine.Register
import Assembly.Routine.PrintFloat

/-!
# The state of the engine

The engine gathers a program in segments: reserved storage, initialized storage, function
code, runtime routines, and entry code.  Code goes to the open function, or to the entry
code when no function is open.
-/

namespace Assembly

/-- A formal parameter. -/
structure Param where
  name : Text
  type : Text
deriving DecidableEq, Repr

/-- A function that was begun.  The label and the two instructions that set up the base
pointer are in the function segment already; the rest of its code is known only when it
ends.  `saved` are the integer registers it overwrites, in the order of their first use,
and `lines` is the code gathered so far, with a save for each of them in front. -/
structure Frame where
  id : Nat
  name : Text
  params : List Param
  saved : List Text
  lines : List Line
  localSize : Nat
  locals : Bindings
  cached : Bindings
deriving DecidableEq, Repr

namespace Frame

/-- A function in which nothing has been done. -/
def new (id : Nat) (name : Text) (params : List Param) : Frame :=
  ⟨id, name, params, [], [], 0, [], []⟩

def addLine (f : Frame) (l : Line) : Frame := { f with lines := f.lines ++ [l] }

/-- Notes that a register is overwritten.  The first time, its save goes in front of the
code. -/
def noteClobber (f : Frame) (reg : Text) : Frame :=
  if f.saved.contains reg then f
  else { f with saved := f.saved ++ [reg], lines := .op .push [.reg reg] :: f.lines }

/-- The stack slot of the next local, just below the locals declared before it. -/
def nextSlot (t : Target) (f : Frame) (name type : Text) : Value :=
  .ofSlot name type t.basePointer (f.localSize + t.typeSize type : Nat)

def addLocal (t : Target) (f : Frame) (name type : Text) : Frame :=
  { f with
    localSize := f.localSize + t.typeSize type
    locals := f.locals.insert name (f.nextSlot t name type) }

/-- Keeps the register of a parameter for later uses. -/
def cache (f : Frame) (name : Text) (v : Value) : Frame :=
  { f with cached := f.cached.insert name v }

/-- The code between the base pointer's setup and the end of a function.  The saves were
put in front one by one, so the restores run in the order of first use. -/
def code (t : Target) (f : Frame) : List Line :=
  (if 0 < f.localSize then [Line.op .sub [.reg t.stackPointer, .num f.localSize]] else []) ++
    f.lines ++ f.saved.map (fun r => Line.op .pop [.reg r]) ++ Routine.leave t

end Frame

/-- The routines of the runtime. -/
inductive Builtin
  | printInt | printFloat
deriving DecidableEq, Repr

namespace Builtin

def label : Builtin → Text
  | printInt => "print_int"
  | printFloat => "print_float"

def code (t : Target) : Builtin → List Line
  | printInt => Routine.PrintInt.routine t
  | printFloat => Routine.PrintFloat.routine t

end Builtin

/-- The state of an engine. -/
structure Engine where
  target : Target
  strict : Bool
  bss : List Reservation
  data : List Datum
  funcs : List Line
  builtins : List Line
  text : List Line
  symbols : List Text
  regs : RegisterFile
  current : Option Frame
  ended : List Frame
  printBuffers : Nat
  literals : Nat
  printIntAdded : Bool
  printFloatAdded : Bool
  log : List Log.Entry
deriving DecidableEq, Repr

namespace Engine

/-- An engine that has emitted nothing. -/
def new (target : Target) (strict : Bool) : Engine where
  target := target
  strict := strict
  bss := []
  data := []
  funcs := []
  builtins := []
  text := []
  symbols := []
  regs := .new target strict
  current := none
  ended := []
  printBuffers := 0
  literals := 0
  printIntAdded := false
  printFloatAdded := false
  log := []

def defines (e : Engine) (name : Text) : Bool := e.symbols.contains name

def hasBuiltin (e : Engine) : Builtin → Bool
  | .printInt => e.printIntAdded
  | .printFloat => e.printFloatAdded

/-- The frame with an identity, open or ended. -/
def frame? (e : Engine) (id : Nat) : Option Frame :=
  match e.current with
  | some f => if f.id = id then some f else e.ended.find? (·.id = id)
  | none => e.ended.find? (·.id = id)

/-- The identity of the next function. -/
def nextId (e : Engine) : Nat := e.ended.length + e.current.toList.length

end Engine

end Assembly
