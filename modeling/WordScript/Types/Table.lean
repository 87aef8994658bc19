/-
The table of structures and templates.

A structure is entered empty, so that its own fields may point to it, and is
complete once its fields have been laid out one after the other.  A template
keeps its fields with placeholders and remembers where in the token sequence its
methods stand; an instance is an ordinary structure that is recorded under the
template and the arguments it was made from.

* `TypeTable.wordLength` — the size of a type in words, if it has one;
* `TypeTable.setFields` — lays out the fields of a structure;
* `TypeTable.nameOf` — how messages name a type.
-/
import WordScript.Token.Basic
import WordScript.Types.Basic

namespace WordScript

/-- A parameter of a function. -/
structure Parameter where
  name : String
  ty : Ty
deriving Repr, DecidableEq

/-- Where the code of a function is. -/
inductive FunctionKind where
  /-- in a chunk of the program -/
  | script (chunk : UInt16)
  /-- in the host, by its number among the externals -/
  | external (index : UInt16)
deriving Repr, DecidableEq

/-- What a caller has to know of a function.  A method takes a reference to its structure, the
receiver, before its other parameters. -/
structure FunctionHeader where
  name : String
  parameters : List Parameter
  returns : Ty
  kind : FunctionKind
  receiver : Option Nat := none
deriving Repr, DecidableEq

/-- A field of a structure and its place in it. -/
structure Field where
  name : String
  ty : Ty
  offset : Nat
deriving Repr, DecidableEq

/-- A structure; until it is complete it has no size. -/
structure StructureType where
  name : String
  fields : List Field := []
  methods : List FunctionHeader := []
  wordLength : Nat := 0
  complete : Bool := false
deriving Inhabited

namespace StructureType

/-- The field with a name. -/
def field? (s : StructureType) (name : String) : Option Field :=
  s.fields.find? fun f => f.name == name

/-- The method with a name. -/
def method? (s : StructureType) (name : String) : Option FunctionHeader :=
  s.methods.find? fun m => m.name == name

end StructureType

/-- A field of a template, whose type may mention placeholders. -/
structure FieldTemplate where
  name : String
  ty : Ty
  token : Token

/-- A structure that waits for type arguments.  Each instance reads the method bodies again, from
the recorded places of the token sequence. -/
structure StructureTemplate where
  name : String
  placeholders : List String
  fields : List FieldTemplate := []
  methods : List Nat := []
  memberDepth : Nat := 0
  tokens : Array Token := #[]
  token : Token

/-- What a name in the table stands for. -/
inductive TypeName where
  | structure_ (id : Nat)
  | template (id : Nat)
deriving Repr, DecidableEq

/-- Why a type has no size. -/
inductive LayoutError where
  | unresolvedPlaceholder (index : UInt8)
  | recursive (name : String)
  | tooLarge
deriving Repr, DecidableEq

/-- The structures, the templates, the names that stand for them, and the instances of templates. -/
structure TypeTable where
  structures : Array StructureType := #[]
  templates : Array StructureTemplate := #[]
  names : List (String × TypeName) := []
  instances : List ((Nat × List Ty) × Nat) := []

namespace TypeTable

/-- What a name stands for; the last entry of a name counts. -/
def lookup? (t : TypeTable) (name : String) : Option TypeName :=
  t.names.lookup name

/-- The structure with a number. -/
def structure? (t : TypeTable) (id : Nat) : Option StructureType :=
  t.structures[id]?

/-- The template with a number. -/
def template? (t : TypeTable) (id : Nat) : Option StructureTemplate :=
  t.templates[id]?

/-- The field of a structure. -/
def field? (t : TypeTable) (id : Nat) (name : String) : Option Field :=
  (t.structure? id).bind fun s => s.field? name

/-- The method of a structure. -/
def method? (t : TypeTable) (id : Nat) (name : String) : Option FunctionHeader :=
  (t.structure? id).bind fun s => s.method? name

/-- Enters an empty structure.  Instances are not entered under a name. -/
def addStructure (t : TypeTable) (name : String) (register : Bool) : Nat × TypeTable :=
  let id := t.structures.size
  let names := if register then (name, .structure_ id) :: t.names else t.names
  (id, { t with structures := t.structures.push { name }, names })

/-- Enters a template. -/
def addTemplate (t : TypeTable) (template : StructureTemplate) : Nat × TypeTable :=
  let id := t.templates.size
  (id, { t with
    templates := t.templates.push template
    names := (template.name, .template id) :: t.names })

/-- The instance of a template for some arguments. -/
def instance? (t : TypeTable) (template : Nat) (arguments : List Ty) : Option Nat :=
  t.instances.lookup (template, arguments)

/-- Records an instance. -/
def recordInstance (t : TypeTable) (template : Nat) (arguments : List Ty) (id : Nat) : TypeTable :=
  { t with instances := ((template, arguments), id) :: t.instances }

/-- The size of a type in words. -/
def wordLength (t : TypeTable) : Ty → Except LayoutError Nat
  | .void => .ok 0
  | .bool | .int | .float | .string => .ok 1
  | .list _ | .pointer _ | .reference _ => .ok 1
  | .span element length =>
    match t.wordLength element with
    | .error e => .error e
    | .ok words =>
      let total := words * length.toNat
      if total < 4294967296 then .ok total else .error .tooLarge
  | .structure_ id =>
    let s := t.structures.getD id default
    if s.complete then .ok s.wordLength else .error (.recursive s.name)
  | .placeholder index => .error (.unresolvedPlaceholder index)
  | .generic _ arguments =>
    .error (.unresolvedPlaceholder ((Ty.firstPlaceholderIn? arguments).getD 0))

/-- Lays fields out one after the other from `offset` on: the fields and the offset after them. -/
def layoutFields (t : TypeTable) : Nat → List (String × Ty) → Except LayoutError (List Field × Nat)
  | offset, [] => .ok ([], offset)
  | offset, (name, ty) :: rest =>
    match t.wordLength ty with
    | .error e => .error e
    | .ok words =>
      if offset + words < 4294967296 then
        match t.layoutFields (offset + words) rest with
        | .error e => .error e
        | .ok (fields, total) => .ok (⟨name, ty, offset⟩ :: fields, total)
      else .error .tooLarge

/-- Changes the structure with a number. -/
def modifyStructure (t : TypeTable) (id : Nat) (f : StructureType → StructureType) : TypeTable :=
  { t with structures := t.structures.modify id f }

/-- Changes the template with a number. -/
def modifyTemplate (t : TypeTable) (id : Nat) (f : StructureTemplate → StructureTemplate) :
    TypeTable :=
  { t with templates := t.templates.modify id f }

/-- Lays out the fields of a structure, which makes it complete. -/
def setFields (t : TypeTable) (id : Nat) (fields : List (String × Ty)) :
    Except LayoutError TypeTable :=
  match t.layoutFields 0 fields with
  | .error e => .error e
  | .ok (fields, wordLength) =>
    .ok (t.modifyStructure id fun s => { s with fields, wordLength, complete := true })

mutual

/-- The name of a type. -/
def nameOf (t : TypeTable) : Ty → String
  | .void => "Void"
  | .bool => "Bool"
  | .int => "Int"
  | .float => "Float"
  | .string => "String"
  | .span element length => nameOf t element ++ "<" ++ toString length.toNat ++ ">"
  | .list element => nameOf t element ++ "[]"
  | .pointer element => nameOf t element ++ "*"
  | .reference element => nameOf t element ++ "&"
  | .structure_ id => (t.structures.getD id default).name
  | .placeholder index => "$" ++ toString index.toNat
  | .generic template arguments =>
    ((t.templates[template]?).map StructureTemplate.name).getD "" ++ "<"
      ++ ", ".intercalate (namesOf t arguments) ++ ">"

/-- The names of types. -/
def namesOf (t : TypeTable) : List Ty → List String
  | [] => []
  | ty :: rest => nameOf t ty :: namesOf t rest

end

end TypeTable

end WordScript
