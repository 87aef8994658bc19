/-
Scopes.

A scope holds the variables and functions declared in it and knows its parent.
Block scopes continue the frame of their parent: their first variable comes right
after the parent's words.  A function scope begins a frame of its own at offset
zero.  The scopes that are open form a stack, the global scope at the bottom, and
a parent is always below its child.

* `ScopeTree.enter`, `ScopeTree.exit` — opening and closing;
* `ScopeTree.declareVariable`, `declareFunction` — entries;
* `ScopeTree.lookupVariable?`, `lookupFunction?` — the nearest entry of a name.
-/
import WordScript.Types.Table

namespace WordScript

/-- A variable: its type and its place in the frame that owns it.  The frame of global variables
begins at the bottom of the stack. -/
structure Variable where
  ty : Ty
  offset : Nat
  global : Bool
deriving Repr, DecidableEq

/-- What opened a scope. -/
inductive ScopeKind where
  | global
  | function
  | block
deriving Repr, DecidableEq

/-- One scope.  Its word length counts the enclosing scopes of the same frame. -/
structure Scope where
  parent : Option Nat
  kind : ScopeKind
  vars : List (String × Variable) := []
  functions : List (String × FunctionHeader) := []
  depth : Nat := 0
  wordLength : Nat := 0

instance : Inhabited Scope := ⟨{ parent := none, kind := .global }⟩

/-- A name was declared twice in one scope. -/
structure Redeclared where
  name : String
deriving Repr, DecidableEq

/-- The open scopes, the global one first. -/
structure ScopeTree where
  scopes : Array Scope := #[default]

namespace ScopeTree

/-- The number of the global scope. -/
def globalScope : Nat := 0

/-- The scope with a number. -/
def get (t : ScopeTree) (id : Nat) : Scope :=
  t.scopes.getD id default

/-- The words of a scope and of the enclosing scopes of its frame. -/
def wordLength (t : ScopeTree) (id : Nat) : Nat :=
  (t.get id).wordLength

/-- Opens a scope under a parent. -/
def enter (t : ScopeTree) (parent : Nat) (kind : ScopeKind) : Nat × ScopeTree :=
  let outer := t.get parent
  let wordLength :=
    match kind with
    | .block => outer.wordLength
    | .function | .global => 0
  let scope : Scope := { parent := some parent, kind, depth := outer.depth + 1, wordLength }
  (t.scopes.size, { t with scopes := t.scopes.push scope })

/-- Closes the innermost scope and gives the words it added to its frame. -/
def exit (t : ScopeTree) : Nat × ScopeTree :=
  match t.scopes.back? with
  | none => (0, t)
  | some scope =>
    let rest : ScopeTree := { t with scopes := t.scopes.pop }
    match scope.kind, scope.parent with
    | .block, some parent => (scope.wordLength - rest.wordLength parent, rest)
    | _, _ => (scope.wordLength, rest)

/-- The scope that owns the frame of a scope. -/
def frameRoot (t : ScopeTree) (id : Nat) : Nat :=
  match (t.get id).kind, (t.get id).parent with
  | .block, some parent => if parent < id then t.frameRoot parent else id
  | _, _ => id
termination_by id

/-- Whether the variables of a scope are global. -/
def isGlobal (t : ScopeTree) (id : Nat) : Bool :=
  (t.get (t.frameRoot id)).kind == .global

/-- Declares a variable of a number of words. -/
def declareVariable (t : ScopeTree) (id : Nat) (name : String) (ty : Ty) (words : Nat) :
    Except Redeclared (Variable × ScopeTree) :=
  let scope := t.get id
  match scope.vars.lookup name with
  | some _ => .error ⟨name⟩
  | none =>
    let variable_ : Variable := ⟨ty, scope.wordLength, t.isGlobal id⟩
    let grown := { scope with
      vars := (name, variable_) :: scope.vars
      wordLength := scope.wordLength + words }
    .ok (variable_, { t with scopes := t.scopes.setIfInBounds id grown })

/-- Declares a function. -/
def declareFunction (t : ScopeTree) (id : Nat) (header : FunctionHeader) :
    Except Redeclared ScopeTree :=
  let scope := t.get id
  match scope.functions.lookup header.name with
  | some _ => .error ⟨header.name⟩
  | none =>
    let grown := { scope with functions := (header.name, header) :: scope.functions }
    .ok { t with scopes := t.scopes.setIfInBounds id grown }

/-- The first entry that `find` gives on the way from a scope to the global one. -/
def search {α : Type} (t : ScopeTree) (find : Scope → Option α) (id : Nat) : Option α :=
  match find (t.get id) with
  | some x => some x
  | none =>
    match (t.get id).parent with
    | some parent => if parent < id then t.search find parent else none
    | none => none
termination_by id

/-- The variable that a name stands for in a scope. -/
def lookupVariable? (t : ScopeTree) (id : Nat) (name : String) : Option Variable :=
  t.search (fun s => s.vars.lookup name) id

/-- The function that a name stands for in a scope. -/
def lookupFunction? (t : ScopeTree) (id : Nat) (name : String) : Option FunctionHeader :=
  t.search (fun s => s.functions.lookup name) id

end ScopeTree

end WordScript
