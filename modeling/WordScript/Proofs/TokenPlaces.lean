/-
States whose tokens stand at other positions.

The compiler reads the kind and the text of a token and keeps its position for
errors.  If all tokens that a state holds are moved to other positions, whatever is
read off the state is the same, or is moved as well.

* `Token.moved`, `TypeTable.moved`, `Compiler.moved` — a token, a table and a state with
  the tokens moved;
* `Compiler.kindAt_moved`, `Compiler.current_moved` — what is read off the state.
-/
import WordScript.Proofs.Stages

namespace WordScript

/-! ### States with moved tokens -/

section Moved

variable (f : Position → Position)

/-- The token at another position. -/
def Token.moved (t : Token) : Token :=
  { t with position := f t.position }

/-- The field with its token moved. -/
def FieldTemplate.moved (t : FieldTemplate) : FieldTemplate :=
  { t with token := t.token.moved f }

/-- The template with its tokens moved. -/
def StructureTemplate.moved (t : StructureTemplate) : StructureTemplate :=
  { t with
    fields := t.fields.map (FieldTemplate.moved f)
    tokens := t.tokens.map (Token.moved f)
    token := t.token.moved f }

/-- The table with the tokens of its templates moved. -/
def TypeTable.moved (t : TypeTable) : TypeTable :=
  { t with templates := t.templates.map (StructureTemplate.moved f) }

/-- The state with its tokens moved. -/
def Compiler.moved (c : Compiler) : Compiler :=
  { c with
    types := c.types.moved f
    tokens := c.tokens.map (Token.moved f)
    eof := c.eof.moved f }

/-- The head of a function with its name moved. -/
def Signature.moved (s : Signature) : Signature :=
  { s with name := s.name.moved f }

/-- The head of a method with its name moved. -/
def Structure.PendingMethod.moved (m : Structure.PendingMethod) : Structure.PendingMethod :=
  { m with name := m.name.moved f }

end Moved

variable {f : Position → Position}

namespace Token

@[simp, grind =] theorem kind_moved (t : Token) : (t.moved f).kind = t.kind := rfl

@[simp, grind =] theorem lexeme_moved (t : Token) : (t.moved f).lexeme = t.lexeme := rfl

end Token

namespace TypeTable

variable (t : TypeTable)

@[simp, grind =] theorem wordLength_moved : ∀ ty : Ty, (t.moved f).wordLength ty = t.wordLength ty
  | .span element _ => by rw [wordLength, wordLength, wordLength_moved element]
  | .void | .bool | .int | .float | .string | .list _ | .pointer _ | .reference _ | .structure_ _
  | .placeholder _ | .generic _ _ => rfl

mutual

@[simp, grind =] theorem nameOf_moved : ∀ ty : Ty, (t.moved f).nameOf ty = t.nameOf ty
  | .span element _ | .list element | .pointer element | .reference element => by
    rw [nameOf, nameOf, nameOf_moved element]
  | .generic template arguments => by
    rw [nameOf, nameOf, namesOf_moved arguments]
    simp only [moved, Array.getElem?_map, Option.map_map]
    rfl
  | .void | .bool | .int | .float | .string | .structure_ _ | .placeholder _ => rfl

@[simp, grind =] theorem namesOf_moved : ∀ tys : List Ty, (t.moved f).namesOf tys = t.namesOf tys
  | [] => rfl
  | ty :: tys => by rw [namesOf, namesOf, nameOf_moved ty, namesOf_moved tys]

end

@[simp, grind =] theorem structures_moved : (t.moved f).structures = t.structures := rfl

@[simp, grind =] theorem field?_moved (id : Nat) (name : String) :
    (t.moved f).field? id name = t.field? id name := rfl

@[simp, grind =] theorem method?_moved (id : Nat) (name : String) :
    (t.moved f).method? id name = t.method? id name := rfl

@[simp, grind =] theorem lookup?_moved (name : String) : (t.moved f).lookup? name = t.lookup? name := rfl

@[simp, grind =] theorem instance?_moved (template : Nat) (arguments : List Ty) :
    (t.moved f).instance? template arguments = t.instance? template arguments := rfl

@[simp, grind =] theorem template?_moved (id : Nat) :
    (t.moved f).template? id = (t.template? id).map (StructureTemplate.moved f) :=
  Array.getElem?_map

theorem layoutFields_moved (offset : Nat) (fields : List (String × Ty)) :
    (t.moved f).layoutFields offset fields = t.layoutFields offset fields := by
  induction fields generalizing offset with
  | nil => rfl
  | cons field fields ih =>
    obtain ⟨name, ty⟩ := field
    simp only [layoutFields, wordLength_moved, ih]

theorem setFields_moved (id : Nat) (fields : List (String × Ty)) :
    (t.moved f).setFields id fields = (t.setFields id fields).map (moved f) := by
  rw [setFields, setFields, layoutFields_moved]
  cases t.layoutFields 0 fields <;> rfl

theorem addTemplate_moved (template : StructureTemplate) :
    (t.moved f).addTemplate (template.moved f) =
      ((t.addTemplate template).1, (t.addTemplate template).2.moved f) := by
  simp only [addTemplate, moved, Array.size_map, Array.map_push]
  rfl

theorem modifyTemplate_moved (id : Nat) {h k : StructureTemplate → StructureTemplate}
    (hk : ∀ s, k (s.moved f) = (h s).moved f) :
    (t.moved f).modifyTemplate id k = (t.modifyTemplate id h).moved f := by
  have htemplates : (t.templates.map (StructureTemplate.moved f)).modify id k =
      (t.templates.modify id h).map (StructureTemplate.moved f) := by
    apply Array.ext
    · simp
    · intro i hi hi'
      simp only [Array.getElem_modify, Array.getElem_map]
      split
      · exact hk _
      · rfl
  exact congrArg (fun templates => { t with templates }) htemplates

end TypeTable

namespace Compiler

variable (c : Compiler)

@[simp, grind =] theorem types_moved : (c.moved f).types = c.types.moved f := rfl

@[simp, grind =] theorem scopes_moved : (c.moved f).scopes = c.scopes := rfl

@[simp, grind =] theorem chunks_moved : (c.moved f).chunks = c.chunks := rfl

@[simp, grind =] theorem externals_moved : (c.moved f).externals = c.externals := rfl

@[simp, grind =] theorem nested_moved : (c.moved f).nested = c.nested := rfl

@[simp, grind =] theorem cursor_moved : (c.moved f).cursor = c.cursor := rfl

@[simp, grind =] theorem instantiationDepth_moved :
    (c.moved f).instantiationDepth = c.instantiationDepth := rfl

@[simp, grind =] theorem builder_moved : (c.moved f).builder = c.builder := rfl

@[simp, grind =] theorem scope_moved : (c.moved f).scope = c.scope := rfl

@[simp, grind =] theorem scopeWords_moved : (c.moved f).scopeWords = c.scopeWords := rfl

@[simp, grind =] theorem isTopLevel_moved : (c.moved f).isTopLevel = c.isTopLevel := rfl

@[simp, grind =] theorem binding?_moved (name : String) : (c.moved f).binding? name = c.binding? name := rfl

@[simp, grind =] theorem typeExists_moved (name : String) :
    (c.moved f).typeExists name = c.typeExists name := rfl

@[simp, grind =] theorem isTypeName_moved (name : String) :
    (c.moved f).isTypeName name = c.isTypeName name := rfl

@[simp, grind =] theorem size_tokens_moved : (c.moved f).tokens.size = c.tokens.size :=
  Array.size_map

@[simp, grind =] theorem kindAt_moved (i : Nat) : (c.moved f).kindAt i = c.kindAt i := by
  simp only [kindAt, moved, Array.getElem?_map]
  cases c.tokens[i]? <;> rfl

theorem getD_moved (i : Nat) :
    (c.moved f).tokens.getD i (c.moved f).eof = (c.tokens.getD i c.eof).moved f := by
  simp only [moved, Array.getD_eq_getD_getElem?, Array.getElem?_map]
  cases c.tokens[i]? <;> rfl

@[simp, grind =] theorem current_moved : (c.moved f).current = c.current.moved f :=
  c.getD_moved c.cursor

theorem indentsFrom_map (tokens : Array Token) (i : Nat) :
    indentsFrom (tokens.map (Token.moved f)) i = indentsFrom tokens i := by
  fun_induction indentsFrom tokens i with
  | case1 i hlt hkind ih =>
    rw [indentsFrom, dif_pos (by simpa using hlt), if_pos (by simpa using hkind), ih]
  | case2 i hlt hkind =>
    rw [indentsFrom, dif_pos (by simpa using hlt), if_neg (by simpa using hkind)]
  | case3 i hlt => rw [indentsFrom, dif_neg (by simpa using hlt)]

@[simp, grind =] theorem indentation_moved : (c.moved f).indentation = c.indentation :=
  indentsFrom_map c.tokens c.cursor

@[simp, grind =] theorem lineStart_moved : (c.moved f).lineStart = c.lineStart.moved f := by
  rw [lineStart, indentation_moved]
  exact c.getD_moved _

@[simp, grind =] theorem atEnd_moved : (c.moved f).atEnd = c.atEnd := by
  rw [atEnd, atEnd, indentation_moved, kindAt_moved]
  rfl

theorem lineEndFrom_map (tokens : Array Token) (i : Nat) :
    lineEndFrom (tokens.map (Token.moved f)) i = lineEndFrom tokens i := by
  have hkind : ∀ (i : Nat) (h : i < tokens.size) (h' : i < (tokens.map (Token.moved f)).size),
      ((tokens.map (Token.moved f))[i]).kind = tokens[i].kind := by simp
  fun_induction lineEndFrom tokens i with
  | case1 i hlt hend =>
    rw [lineEndFrom, dif_pos (by simpa using hlt), hkind i hlt, hend]
  | case2 i hlt hend =>
    rw [lineEndFrom, dif_pos (by simpa using hlt), hkind i hlt, hend]
  | case3 i hlt hterminator hend ih =>
    rw [lineEndFrom, dif_pos (by simpa using hlt), hkind i hlt]
    split
    · next h => exact absurd h hterminator
    · next h => exact absurd h hend
    · exact ih
  | case4 i hlt => rw [lineEndFrom, dif_neg (by simpa using hlt)]

theorem blockEndFrom_map (tokens : Array Token) (depth i : Nat) :
    blockEndFrom (tokens.map (Token.moved f)) depth i = blockEndFrom tokens depth i := by
  fun_induction blockEndFrom tokens depth i with
  | case1 i level hnone =>
    rw [blockEndFrom, indentsFrom_map, Array.getElem?_map, show tokens[i + indentsFrom tokens i]? = none from hnone]
    rfl
  | case2 i level t ht hend =>
    rw [blockEndFrom, indentsFrom_map, Array.getElem?_map, show tokens[i + indentsFrom tokens i]? = some t from ht]
    exact if_pos hend
  | case3 i level t ht hend hlt ih =>
    rw [blockEndFrom, indentsFrom_map, Array.getElem?_map, show tokens[i + indentsFrom tokens i]? = some t from ht]
    refine (if_neg hend).trans ?_
    rw [dif_pos (by simpa [lineEndFrom_map] using hlt), lineEndFrom_map]
    exact ih
  | case4 i level t ht hend hlt =>
    rw [blockEndFrom, indentsFrom_map, Array.getElem?_map, show tokens[i + indentsFrom tokens i]? = some t from ht]
    refine (if_neg hend).trans ?_
    rw [dif_neg (by simpa [lineEndFrom_map] using hlt)]

/-- Tokens that stay where they are make no difference. -/
@[simp] theorem moved_id : c.moved id = c := by
  have htoken : Token.moved id = id := rfl
  have hfield : FieldTemplate.moved id = id := rfl
  have htemplate : StructureTemplate.moved id = id := by
    funext t
    simp [StructureTemplate.moved, htoken, hfield]
  simp [moved, TypeTable.moved, htoken, htemplate]

theorem longest_moved : (c.moved f).longest = c.longest := by
  simp only [longest, moved, TypeTable.moved, Array.foldl_map', Array.size_map]
  simp [StructureTemplate.moved]

theorem mapBuilder_moved (g : Builder → Builder) :
    (c.moved f).mapBuilder g = (c.mapBuilder g).moved f := by
  obtain ⟨_, _, _, nested, _⟩ := c
  cases nested <;> rfl

end Compiler

end WordScript
