import Assembly.Engine.Cast
import Assembly.Engine.Function
import Assembly.Engine.Output
import Assembly.Engine.Print

/-!
# Requests

An operation of the engine as data, with everything it needs, so that a run of operations
is a list of requests.  A scoped temporary is a request for a register, the requests made
with it, and the release of it.
-/

namespace Assembly

inductive Request
  | declareGlobal (name type : Text)
  | declareConst (name : Text) (lit : Value) (type : Text)
  | alloc (type : Text)
  | release (v : Value)
  | load (v : Value) (type : Text)
  | call (name : Text) (args : List Value)
  | callAs (name : Text) (args : List Value) (type : Text)
  | cast (v : Value) (type : Text)
  | print (v : Value)
  | printFloat (v : Value)
  | exit (code : Int)
  | rawLine (t : Text)
  | rawInstr (t : Text)
  | rawBlock (t : Text)
  | beginFunction (name : Text) (params : List Param)
  | declareLocal (f : FunctionRef) (name type : Text)
  | param (f : FunctionRef) (name : Text)
  | returnValue (f : FunctionRef) (v : Value)
  | endFunction (f : FunctionRef)
  | resetRegs
  | finalize
deriving DecidableEq, Repr

/-- What the engine replies to a request that it grants. -/
inductive Reply
  | done
  | value (v : Value)
  | function (f : FunctionRef)
  | program (t : Text)
deriving DecidableEq, Repr

/-- The reply to a request that has no result. -/
def Reply.ofUnit (_ : Unit) : Reply := .done

namespace Request

/-- The operation that a request asks for. -/
def emit : Request → Emit Reply
  | declareGlobal name type => .value <$> Emit.declareGlobal name type
  | declareConst name lit type => .value <$> Emit.declareConst name lit type
  | alloc type => .value <$> Emit.allocReg type
  | release v => Reply.ofUnit <$> Emit.release v
  | load v type => .value <$> Emit.loadValue v type
  | call name args => .value <$> Emit.call name args
  | callAs name args type => .value <$> Emit.callAs name args type
  | cast v type => .value <$> Emit.cast v type
  | print v => Reply.ofUnit <$> Emit.print v
  | printFloat v => Reply.ofUnit <$> Emit.printFloat v
  | exit code => Reply.ofUnit <$> Emit.exit code
  | rawLine t => Reply.ofUnit <$> Emit.rawLine t
  | rawInstr t => Reply.ofUnit <$> Emit.rawInstr t
  | rawBlock t => Reply.ofUnit <$> Emit.block t
  | beginFunction name params => .function <$> Emit.beginFunction name params
  | declareLocal f name type => .value <$> Emit.declareLocal f name type
  | param f name => .value <$> Emit.param f name
  | returnValue f v => Reply.ofUnit <$> Emit.returnValue f v
  | endFunction f => Reply.ofUnit <$> Emit.endFunction f
  | resetRegs => Reply.ofUnit <$> Emit.move .resetRegs
  | finalize => .program <$> Emit.finalize

end Request

namespace Engine

/-- The reply to a request. -/
def reply (e : Engine) (q : Request) : Except EmitError Reply := (q.emit e).1

/-- The moves that a request leads to. -/
def movesOf (e : Engine) (q : Request) : List Move := (q.emit e).2

/-- The engine after a request. -/
def serve (e : Engine) (q : Request) : Engine := e.makeAll (e.movesOf q)

/-- The engine after requests made in turn; one that is refused does not stop the others. -/
def serveAll (e : Engine) (qs : List Request) : Engine := qs.foldl serve e

end Engine

end Assembly
