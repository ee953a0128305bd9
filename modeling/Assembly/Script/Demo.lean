import Assembly.Text

/-!
# A sample script

A script with constants, a function with locals, a call, casts and every way to print.
-/

namespace Assembly.Script

/-- The lines of the sample script. -/
def demoLines : List String :=
  [ "// Emission demo: constants, a framed function with locals, a call, casts",
    "// and the print builtins.",
    "bits 64",
    "",
    "const pi float = 3.14159",
    "const number int32 = 42",
    "global scratch float",
    "",
    "print \"=== Test ===\"",
    "",
    "func f(x int32) \x7b",
    "    local a int32",
    "    local b float",
    "",
    "    let rx = param x",
    "    let r1 = load rx as int32",
    "    let r2 = alloc int32",
    "    asm \"mov \x7br2\x7d, \x7br1\x7d\"",
    "    asm \"add \x7br2\x7d, 10\"",
    "    asm \"mov \x7ba\x7d, \x7br2:4\x7d\"",
    "    free r2",
    "",
    "    let fr = load pi as float",
    "    asm \"movss \x7bb\x7d, \x7bfr\x7d\"",
    "    free fr",
    "",
    "    return a",
    "\x7d",
    "",
    "let v = call f(5)",
    "print v",
    "free v",
    "",
    "print number",
    "print pi",
    "",
    "let d = cast pi to double",
    "let n = cast d to int32",
    "print n",
    "free n",
    "free d",
    "",
    "let s = load pi",
    "asm \"movss \x7bscratch\x7d, \x7bs\x7d\"",
    "free s",
    "",
    "print \"done\"",
    "exit 0",
    "" ]

/-- The sample script. -/
def demo : Text := Text.unlines (demoLines.map Text.ofString)

end Assembly.Script
