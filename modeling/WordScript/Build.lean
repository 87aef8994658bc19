/-
Programs from source text and from bytes.

Modules are tokenized and compiled one after the other, and the first error ends
the build.  A program that comes as bytes is verified before it is used; one that
was compiled needs no check.

* `compileModules`, `compileSource` — from source;
* `decodeProgram` — from bytes;
* `BuildError.message`, `BuildError.render` — the wording of errors, without and
  with the line they are about.
-/
import WordScript.Compiler.Module
import WordScript.Program.Encoding
import WordScript.Program.Verify
import WordScript.Token.Layout

namespace WordScript

/-- Why there is no program. -/
inductive BuildError where
  | scan (e : ScanError)
  | compile (e : CompileError)
  | verify (e : VerifyError)
  | encoding (e : DecodeError)

namespace BuildError

/-- The wording of an error. -/
def message : BuildError → String
  | scan e => "tokenizer error: " ++ e.message
  | compile e => "compile error: " ++ e.message
  | verify e => "runtime error: " ++ e.message
  | encoding e => "program encoding error: " ++ e.message

/-- The wording of an error, with the line of source it is about. -/
def render (source : String) : BuildError → String
  | scan e => "tokenizer error: " ++ e.render source
  | compile e => "compile error: " ++ e.render source
  | e => e.message

end BuildError

/-- Tokenizes and compiles a module after those before it. -/
def addSource (c : Compiler) (name source : String) : Except BuildError Compiler :=
  match tokenize name source with
  | .error e => .error (.scan e)
  | .ok tokens => (c.addModule name tokens).mapError .compile

/-- Compiles modules, each given by its name and its text, after those before them. -/
def addSources (c : Compiler) : List (String × String) → Except BuildError Compiler
  | [] => .ok c
  | (name, source) :: rest =>
    match addSource c name source with
    | .error e => .error e
    | .ok c => addSources c rest

/-- The program of some modules. -/
def compileModules (modules : List (String × String)) : Except BuildError Program :=
  (addSources .start modules).map Compiler.build

/-- The program of one module. -/
def compileSource (name source : String) : Except BuildError Program :=
  compileModules [(name, source)]

/-- The program that is encoded by some bytes. -/
def decodeProgram (bytes : List UInt8) : Except BuildError Program :=
  match Program.ofBytes bytes with
  | .error e => .error (.encoding e)
  | .ok p =>
    match p.verify with
    | .error e => .error (.verify e)
    | .ok () => .ok p

end WordScript
