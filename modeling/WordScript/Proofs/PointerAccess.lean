/-
Access through pointers.

The code of a pointer's field loads the word of the pointer and takes it as the address
of what it points to.  So where that word is the address of a heap word, a field is read
from the heap or written to the heap, and no variable is touched.  The zero word of a
pointer that has been freed or never set is not caught: it is the address of the first
variable.

* `Behind` — a place behind a pointer;
* `Compiler.PlainAt` — a literal or the name of a variable at the end of a statement;
* `reaches_of_pointer` — what reading and assigning such a place does;
* `null_overwrites_variable` — an assignment through a freed pointer.

Design notes: the code of an access is found where the compiler emits it, and is then
followed in any program that holds it.
-/
import WordScript.Proofs.IndirectAccess
import WordScript.Proofs.ReadingProgress

namespace WordScript

/-! ### The code of an access -/

namespace Compiler

/-- The instructions of the chunk under construction. -/
def code (c : Compiler) : List Instruction :=
  c.builder.code.code.toList

/-- Instructions have been emitted, and types and scopes are what they were. -/
structure Appends (c : Compiler) (code : List Instruction) (c' : Compiler) : Prop where
  code : c'.code = c.code ++ code
  types : c'.types = c.types
  scopes : c'.scopes = c.scopes
  scope : c'.scope = c.scope

namespace Appends

variable {c c₁ c₂ : Compiler} {xs ys : List Instruction}

theorem refl (c : Compiler) : c.Appends [] c :=
  ⟨(List.append_nil _).symm, rfl, rfl, rfl⟩

theorem trans (h₁ : c.Appends xs c₁) (h₂ : c₁.Appends ys c₂) : c.Appends (xs ++ ys) c₂ where
  code := by rw [h₂.code, h₁.code, List.append_assoc]
  types := h₂.types.trans h₁.types
  scopes := h₂.scopes.trans h₁.scopes
  scope := h₂.scope.trans h₁.scope

/-- Reading elsewhere emits nothing. -/
theorem on (c : Compiler) (r : Reader) : c.Appends [] (c.on r) :=
  ⟨(List.append_nil _).symm, rfl, rfl, rfl⟩

theorem push (c : Compiler) (i : Instruction) : c.Appends [i] (c.mapBuilder (·.push i)) where
  code := by
    rw [Compiler.code, builder_mapBuilder]
    exact Array.toList_push
  types := types_mapBuilder _ _
  scopes := scopes_mapBuilder _ _
  scope := by
    rw [Compiler.scope, builder_mapBuilder]
    rfl

theorem of_advance {token : Token} (h : CompileM.advance c = .ok (token, c₁)) :
    c.Appends [] c₁ := by
  obtain ⟨⟨r, rfl⟩, -⟩ := Reads.advance c.reader token c₁ h
  exact .on c r

theorem pushConstants (c : Compiler) (ws : Array Word) :
    c.Appends [] (c.mapBuilder (·.pushConstants ws)) where
  code := by
    rw [Compiler.code, builder_mapBuilder]
    exact (List.append_nil _).symm
  types := types_mapBuilder _ _
  scopes := scopes_mapBuilder _ _
  scope := by
    rw [Compiler.scope, builder_mapBuilder]
    rfl

end Appends

end Compiler

/-- A computation that only reads and leaves the reader alone changes nothing. -/
theorem Reads.eq_of_idle {α : Type} {c c' : Compiler} {x : CompileM α} {q : α → Prop} {a : α}
    (hreads : Reads c x q) (hidle : Idle x) (h : x c = .ok (a, c')) : c' = c ∧ q a := by
  obtain ⟨⟨r, rfl⟩, hq⟩ := hreads c.reader a c' h
  cases hidle c with
  | stopped hx _ _ =>
    rw [hx] at h
    cases h
  | done hx _ hbeside =>
    rw [hx] at h
    cases h
    refine ⟨?_, hq⟩
    obtain ⟨tokens, cursor, eof, depth⟩ := r
    obtain ⟨rfl, rfl, rfl, -, rfl⟩ := hbeside
    rfl

namespace CompileM

variable {c c' : Compiler} {token : Token}

theorem wordsOf_eq_ok {ty : Ty} {n : Nat} (h : wordsOf ty token c = .ok (n, c')) :
    c' = c ∧ c.types.wordLength ty = .ok n :=
  (Reads.wordsOf ty token).eq_of_idle (tracks_wordsOf (Walk.good_free ty)).idle h

theorem expectType_eq_ok {expected found : Ty} {u : Unit}
    (h : expectType token expected found c = .ok (u, c')) : c' = c ∧ expected = found :=
  (Reads.expectType token expected found).eq_of_idle (tracks_expectType expected found).idle h

theorem byte_eq_ok {n : Nat} {what : String} {b : UInt8}
    (h : byte n token what c = .ok (b, c')) : c' = c ∧ b.toNat = n :=
  (Reads.byte n token what).eq_of_idle (tracks_byte n what).idle h

theorem short_eq_ok {n : Nat} {what : String} {k : UInt16}
    (h : short n token what c = .ok (k, c')) : c' = c ∧ k.toNat = n :=
  (Reads.short n token what).eq_of_idle (tracks_short n what).idle h

/-- What an access to a place starts with: the size and the offset of the place as operands. -/
theorem operands_eq_ok {α : Type} {p : Place} {what : String} {k : UInt8 → UInt16 → CompileM α}
    {a : α}
    (h : (do
      let words ← byte (← wordsOf p.ty token) token what
      let offset ← short p.offset token "variable offset"
      k words offset) c = .ok (a, c')) :
    ∃ (words : UInt8) (offset : UInt16), c.types.wordLength p.ty = .ok words.toNat ∧
      offset.toNat = p.offset ∧ k words offset c = .ok (a, c') := by
  obtain ⟨n, c₁, hsize, h₁⟩ := bind_eq_ok h
  obtain ⟨words, c₂, hbyte, h₂⟩ := bind_eq_ok h₁
  obtain ⟨offset, c₃, hshort, hrest⟩ := bind_eq_ok h₂
  obtain ⟨rfl, hn⟩ := wordsOf_eq_ok hsize
  obtain ⟨rfl, hwords⟩ := byte_eq_ok hbyte
  obtain ⟨rfl, hoffset⟩ := short_eq_ok hshort
  rw [← hwords] at hn
  exact ⟨words, offset, hn, hoffset, hrest⟩

/-- What loading from a place emits. -/
theorem load_eq_ok {p : Place} {ty : Ty} (h : load (.place p) token c = .ok (ty, c')) :
    ty = p.ty ∧ ∃ (words : UInt8) (offset : UInt16), c.types.wordLength p.ty = .ok words.toNat ∧
      offset.toNat = p.offset ∧
      c' = c.mapBuilder (·.push (.ofByteShort p.storage.loadOp words offset)) := by
  obtain ⟨words, offset, hwords, hoffset, hrest⟩ := operands_eq_ok h
  obtain ⟨_, c₁, hemit, hreturn⟩ := bind_eq_ok hrest
  cases hemit
  cases hreturn
  refine ⟨rfl, words, offset, hwords, hoffset, ?_⟩
  cases p.storage <;> rfl

/-- What storing to a place emits. -/
theorem store_eq_ok {p : Place} (h : store p token c = .ok ((), c')) :
    ∃ (words : UInt8) (offset : UInt16), c.types.wordLength p.ty = .ok words.toNat ∧
      offset.toNat = p.offset ∧
      c' = c.mapBuilder (·.push (.ofByteShort p.storage.storeOp words offset)) := by
  obtain ⟨words, offset, hwords, hoffset, hemit⟩ := operands_eq_ok h
  cases hemit
  refine ⟨words, offset, hwords, hoffset, ?_⟩
  cases p.storage <;> rfl

/-- Following a pointer loads its word. -/
theorem deref_eq_ok {operand o : Operand} {inner : Ty} (hty : operand.ty = .pointer inner)
    (h : deref operand token c = .ok (o, c')) :
    o = .place (.atAddress inner) ∧ ∃ code, Following operand code ∧ c.Appends code c' := by
  simp only [deref, hty] at h
  obtain ⟨ty, c₁, hload, hreturn⟩ := bind_eq_ok h
  cases hreturn
  refine ⟨rfl, ?_⟩
  cases operand with
  | value ty =>
    cases hload
    exact ⟨[], .value ty, .refl c⟩
  | place p =>
    obtain ⟨-, words, offset, hwords, hoffset, rfl⟩ := load_eq_ok hload
    rw [show p.ty = .pointer inner from hty, TypeTable.wordLength] at hwords
    have hone : words.toNat = (1 : UInt8).toNat := (Except.ok.inj hwords).symm
    obtain rfl := UInt8.toNat_inj.mp hone
    exact ⟨_, .place p hoffset, .push c _⟩

theorem deref_eq_self {operand o : Operand} (hty : ∀ inner, operand.ty ≠ .pointer inner)
    (h : deref operand token c = .ok (o, c')) : o = operand ∧ c' = c := by
  simp only [deref] at h
  cases h
  exact ⟨rfl, rfl⟩

end CompileM

/-- All that a computation can give is as described. -/
def Yields {α : Type} (x : CompileM α) (q : α → Prop) : Prop :=
  ∀ c a c', x c = .ok (a, c') → q a

namespace Yields

variable {α β : Type} {q : α → Prop}

theorem pure {a : α} (h : q a) : Yields (pure a) q := by
  intro c a' c' hx
  cases hx
  exact h

theorem bind {x : CompileM β} {k : β → CompileM α} (h : ∀ b, Yields (k b) q) :
    Yields (x >>= k) q := by
  intro c a c' hx
  obtain ⟨b, c₁, -, hk⟩ := CompileM.bind_eq_ok hx
  exact h b c₁ a c' hk

theorem of_fails {x : CompileM α} (h : Fails x) : Yields x q :=
  fun _ _ _ hx => absurd hx (h _ _ _)

end Yields

/-- If the computation gives a place, it is of that kind, and nothing has been emitted. -/
def Parts (storage : Storage) (x : CompileM Operand) : Prop :=
  ∀ c place c', x c = .ok (.place place, c') → place.storage = storage ∧ c.Appends [] c'

namespace Parts

variable {storage : Storage} {x : CompileM Operand}

theorem run {place : Place} {c c' : Compiler} (hrun : x c = .ok (.place place, c'))
    (hx : Parts storage x) : place.storage = storage ∧ c.Appends [] c' :=
  hx c place c' hrun

theorem place {p : Place} (h : p.storage = storage) : Parts storage (pure (.place p)) := by
  intro c place c' hx
  cases hx
  exact ⟨h, .refl c⟩

theorem of_fails (h : Fails x) : Parts storage x :=
  fun _ _ _ hx => absurd hx (h _ _ _)

theorem of_value (h : Yields x fun o => ∃ ty, o = .value ty) : Parts storage x := by
  intro c place c' hx
  obtain ⟨ty, hvalue⟩ := h c _ c' hx
  cases hvalue

theorem bind {α : Type} {y : CompileM α} {k : α → CompileM Operand} {q : Compiler → α → Prop}
    (hy : ∀ c, Reads c y (q c)) (hk : ∀ a, Parts storage (k a)) : Parts storage (y >>= k) := by
  intro c place c' hx
  obtain ⟨a, c₁, hya, hka⟩ := CompileM.bind_eq_ok hx
  obtain ⟨⟨r, rfl⟩, -⟩ := hy c c.reader a c₁ hya
  obtain ⟨hstorage, happends⟩ := hk a _ place c' hka
  exact ⟨hstorage, (Compiler.Appends.on c r).trans happends⟩

end Parts

namespace Access

open CompileM

theorem yields_push (g : Productions) (operand : Operand) (elementTy : Ty) (name : Token) :
    Yields (push g operand elementTy name) fun o => ∃ ty, o = .value ty :=
  .bind fun _ => .bind fun _ => .bind fun _ => .bind fun _ => .bind fun _ => .bind fun _ =>
    .bind fun _ => .bind fun _ => .bind fun _ => .bind fun _ => .pure ⟨_, rfl⟩

theorem yields_memberCall (g : Productions) (operand : Operand) (name : Token) :
    Yields (memberCall g operand name) fun o => ∃ ty, o = .value ty := by
  rw [memberCall]
  split
  · split
    · exact yields_push g operand _ name
    · exact .of_fails (.failMember _ _)
  · refine .bind fun header => ?_
    split
    · exact .of_fails (.failMember _ _)
    · exact .bind fun _ => .bind fun _ => .pure ⟨_, rfl⟩
  · exact .of_fails (.failMember _ _)

variable (q : Place) (token : Token)

/-- A field of a place is a place of the same kind. -/
theorem parts_field : Parts q.storage (field (.place q) token) := by
  rw [field]
  split
  · refine .bind (fun c => .of_ask _) fun found => ?_
    split
    · exact .place rfl
    · exact .of_fails (.failMember _ _)
  · split
    · exact .of_value (.bind fun _ => .bind fun _ => .pure ⟨_, rfl⟩)
    · exact .of_fails (.failMember _ _)
  · split
    · exact .of_value (.bind fun _ => .bind fun _ => .pure ⟨_, rfl⟩)
    · exact .of_fails (.failMember _ _)
  · exact .of_fails (.failMember _ _)

/-- So is an element that is given by its number. -/
theorem parts_element : Parts q.storage (element (.place q) token) := by
  rw [element]
  split
  · split
    · exact .of_fails (.failLiteral _)
    · split
      · exact .of_fails (.bind_left (.fail _ _) _)
      · exact .bind (fun c => .wordsOf _ _) fun words => .place rfl
  · exact .of_fails (.bind fun _ => .fail _ _)

/-- What follows the dot, once pointers have been followed. -/
theorem member_eq_ok {g : Productions} {operand : Operand} {place : Place} {c c' : Compiler}
    (h : member g operand c = .ok (.place place, c')) :
    ∃ (dot : Token) (o : Operand) (c₁ c₂ : Compiler), c.Appends [] c₁ ∧
      deref operand dot c₁ = .ok (o, c₂) ∧
      ∀ q, o = .place q → place.storage = q.storage ∧ c₂.Appends [] c' := by
  obtain ⟨dot, c₁, hdot, h₁⟩ := bind_eq_ok h
  obtain ⟨o, c₂, hderef, hrest⟩ := bind_eq_ok h₁
  refine ⟨dot, o, c₁, c₂, .of_advance hdot, hderef, ?_⟩
  -- only an operand that is a place already can have a place as its member
  rintro q rfl
  refine Parts.run hrest (.bind (fun c => .advance) fun name => ?_)
  split
  · exact parts_element q name
  · refine .bind (fun c => .check _) fun called => ?_
    split
    · exact .of_value (yields_memberCall _ _ _)
    · exact parts_field q name
  · exact .of_fails (.failExpected _ _)

end Access

/-- The place lies behind a pointer: it is what the pointer leads to, or a part of that, which is
found before the program runs. -/
inductive Behind (g : Productions) (pointer : Operand) (c : Compiler) : Place → Compiler → Prop
  | member {inner : Ty} {place : Place} {c₁ : Compiler} (hty : pointer.ty = .pointer inner)
      (h : Access.member g pointer c = .ok (.place place, c₁)) : Behind g pointer c place c₁
  | part {place part : Place} {c₁ c₂ : Compiler} (hplace : Behind g pointer c place c₁)
      (hty : ∀ inner, place.ty ≠ .pointer inner)
      (h : Access.member g (.place place) c₁ = .ok (.place part, c₂)) : Behind g pointer c part c₂

/-- The word of the pointer is all the code of a place behind it. -/
theorem Behind.appends {g : Productions} {pointer : Operand} {place : Place} {c c₁ : Compiler}
    (h : Behind g pointer c place c₁) :
    place.storage = .dynamic ∧ ∃ code, Following pointer code ∧ c.Appends code c₁ := by
  induction h with
  | member hty h =>
    obtain ⟨dot, o, c₁, c₂, hdot, hderef, hrest⟩ := Access.member_eq_ok h
    obtain ⟨rfl, code, hcode, happends⟩ := CompileM.deref_eq_ok hty hderef
    obtain ⟨hstorage, hmember⟩ := hrest _ rfl
    refine ⟨hstorage, code, hcode, ?_⟩
    have hwhole := (hdot.trans happends).trans hmember
    rwa [List.nil_append, List.append_nil] at hwhole
  | part hplace hty h ih =>
    obtain ⟨hdynamic, code, hcode, happends⟩ := ih
    obtain ⟨dot, o, c₁, c₂, hdot, hderef, hrest⟩ := Access.member_eq_ok h
    obtain ⟨rfl, rfl⟩ : o = .place _ ∧ c₂ = c₁ := CompileM.deref_eq_self hty hderef
    obtain ⟨hstorage, hmember⟩ := hrest _ rfl
    refine ⟨hstorage.trans hdynamic, code, hcode, ?_⟩
    have hwhole := (happends.trans hdot).trans hmember
    rwa [List.append_nil, List.append_nil] at hwhole

/-! ### Literals and variables -/

namespace Compiler

/-- A literal or the name of a variable. -/
def Plain (c : Compiler) (token : Token) : Prop :=
  match token.kind with
  | .integer | .float | .string | .keyword .true | .keyword .false => True
  | .identifier => ∃ v, c.scopes.lookupVariable? c.scope token.lexeme = some v
  | _ => False

instance (c : Compiler) (token : Token) : Decidable (c.Plain token) :=
  decidable_of_iff (token.kind ∈ [.integer, .float, .string, .keyword .true, .keyword .false] ∨
    token.kind = .identifier ∧ (c.scopes.lookupVariable? c.scope token.lexeme).isSome) <| by
  rw [Plain]
  split <;> simp_all [Option.isSome_iff_exists]

/-- A literal or the name of a variable stands at an index, and the statement ends behind it. -/
structure PlainAt (c : Compiler) (index : Nat) : Prop where
  value : ∃ token, c.tokens[index]? = some token ∧ c.Plain token
  ends : c.kindAt (index + 1) ∈ [TokenKind.statementTerminator, .keyword .else_, .endOfFile]

/-- What the code of a literal or a variable leaves to be loaded. -/
inductive Prepares (c : Compiler) : Operand → List Instruction → Prop
  | value {ty : Ty} {words : Nat} {code : List Instruction}
      (hwords : c.types.wordLength ty = .ok words) (h : Pushing words code) :
      Prepares c (.value ty) code
  | variable_ {p : Place} (h : p.isDynamic = false) : Prepares c (.place p) []
  | reference {p : Place} {code : List Instruction} (hp : p.storage = .dynamic)
      (h : Pushing 1 code) : Prepares c (.place p) code

/-- The state behind the token at the cursor. -/
def past (c : Compiler) : Compiler :=
  { c with cursor := c.cursor + 1 }

end Compiler

theorem Idle.beside {α : Type} {x : CompileM α} {a : α} {c c' : Compiler} (h : Idle x)
    (hx : x c = .ok (a, c')) : c.Beside c' := by
  cases h c with
  | done hxa _ hbeside =>
    rw [hxa] at hx
    cases hx
    exact hbeside
  | stopped hxe _ _ =>
    rw [hxe] at hx
    cases hx

namespace CompileM

variable {c c' : Compiler} {token : Token}

theorem current_eq (h : c.tokens[c.cursor]? = some token) : c.current = token := by
  rw [Compiler.current, Array.getD_eq_getD_getElem?, h, Option.getD_some]

theorem advance_eq (h : c.tokens[c.cursor]? = some token) : advance c = .ok (token, c.past) := by
  have hlt := (Array.getElem?_eq_some_iff.mp h).1
  simp only [advance, if_pos hlt, current_eq h]
  rfl

theorem addConstant_appends {w : Word} {index : UInt16}
    (h : addConstant w token c = .ok (index, c')) : c.Appends [] c' := by
  obtain ⟨found, c₁, hfound, hrest⟩ := bind_eq_ok h
  obtain rfl : c₁ = c := by
    cases hfound
    rfl
  cases found with
  | some known =>
    obtain ⟨rfl, -⟩ := short_eq_ok hrest
    exact .refl c'
  | none =>
    obtain ⟨size, c₂, hsize, h₁⟩ := bind_eq_ok hrest
    obtain ⟨_, c₃, hpush, hshort⟩ := bind_eq_ok h₁
    cases hsize
    cases hpush
    obtain ⟨rfl, -⟩ := short_eq_ok hshort
    exact .pushConstants c₁ _

theorem emitConstant_appends {w : Word} (h : emitConstant w token c = .ok ((), c')) :
    ∃ code, Pushing 1 code ∧ c.Appends code c' := by
  obtain ⟨index, c₁, hconstant, hemit⟩ := bind_eq_ok h
  cases hemit
  exact ⟨_, .constant index, (addConstant_appends hconstant).trans (.push c₁ _)⟩

theorem emitInteger_appends {v : Int} (h : emitInteger v token c = .ok ((), c')) :
    ∃ code, Pushing 1 code ∧ c.Appends code c' := by
  rw [emitInteger] at h
  split at h
  · cases h
    exact ⟨_, .immediate v, .push c _⟩
  · exact emitConstant_appends h

theorem addString_appends {text : String} {index : UInt16}
    (h : addString text token c = .ok (index, c')) : c.Appends [] c' := by
  obtain ⟨size, c₁, hsize, h₁⟩ := bind_eq_ok h
  obtain ⟨_, c₂, hpush, hshort⟩ := bind_eq_ok h₁
  cases hsize
  cases hpush
  obtain ⟨rfl, -⟩ := short_eq_ok hshort
  exact .pushConstants c _

/-- A variable that is no reference is taken as it is. -/
theorem variableOperand_eq {v : Variable} (hv : ∀ ty, v.ty ≠ .reference ty) (token : Token) :
    variableOperand v token = pure (.place (.ofVariable v)) := by
  rw [variableOperand]
  split
  · rename_i inner hty
    exact absurd hty (hv inner)
  · rfl

/-- A name stands for its variable or, if that is a reference, for what it refers to. -/
theorem variableOperand_prepares {v : Variable} {o : Operand}
    (h : variableOperand v token c = .ok (o, c')) :
    ∃ code, c.Prepares o code ∧ c.Appends code c' := by
  have hstatic : (Place.ofVariable v).isDynamic = false := by
    rw [Place.isDynamic, Place.ofVariable]
    split <;> rfl
  by_cases hty : ∃ inner, v.ty = .reference inner
  · obtain ⟨inner, hty⟩ := hty
    simp only [variableOperand, hty] at h
    obtain ⟨ty, c₁, hload, hreturn⟩ := bind_eq_ok h
    cases hreturn
    obtain ⟨-, words, offset, hwords, -, rfl⟩ := load_eq_ok hload
    rw [show (Place.ofVariable v).ty = .reference inner from hty, TypeTable.wordLength] at hwords
    have hone : words.toNat = 1 := (Except.ok.inj hwords).symm
    refine ⟨_, .reference rfl ?_, .push c _⟩
    rw [← hone]
    cases hglobal : v.global with
    | true =>
      rw [Place.ofVariable, hglobal]
      exact .global words offset
    | false =>
      rw [Place.ofVariable, hglobal]
      exact .frame words offset
  · rw [variableOperand_eq fun inner hinner => hty ⟨inner, hinner⟩] at h
    cases h
    exact ⟨[], .variable_ hstatic, .refl c⟩

/-- What is ready is loaded. -/
theorem load_prepared {o : Operand} {code : List Instruction} {ty : Ty} {c₁ : Compiler}
    (ho : c.Prepares o code) (hcode : c.Appends code c₁) (h : load o token c₁ = .ok (ty, c')) :
    ∃ words code', c.types.wordLength ty = .ok words ∧ Pushing words code' ∧
      c.Appends code' c' := by
  cases ho with
  | value hwords hpushing =>
    cases h
    exact ⟨_, code, hwords, hpushing, hcode⟩
  | @variable_ p hp =>
    obtain ⟨rfl, words, offset, hwords, -, rfl⟩ := load_eq_ok h
    rw [hcode.types] at hwords
    refine ⟨_, _, hwords, ?_, hcode.trans (.push c₁ _)⟩
    obtain ⟨ty, storage, at_⟩ := p
    cases storage with
    | frame => exact .frame words offset
    | global => exact .global words offset
    | dynamic => cases hp
  | @reference p _ hp hpushing =>
    obtain ⟨rfl, words, offset, hwords, -, rfl⟩ := load_eq_ok h
    rw [hcode.types] at hwords
    refine ⟨_, _, hwords, ?_, hcode.trans (.push c₁ _)⟩
    rw [hp]
    exact hpushing.behind words offset

end CompileM

namespace Expression

open CompileM

variable {g : Productions} {c c' : Compiler} {token : Token} {o : Operand}

/-- The token is taken first; what comes then does not touch the reader. -/
theorem prepares_of_advance {k : Token → CompileM Operand}
    (htoken : c.tokens[c.cursor]? = some token) (h : (advance >>= k) c = .ok (o, c'))
    (hidle : Idle (k token))
    (hk : k token c.past = .ok (o, c') → ∃ code, c.past.Prepares o code ∧ c.past.Appends code c') :
    c.past.Beside c' ∧ ∃ code, c.Prepares o code ∧ c.Appends code c' := by
  obtain ⟨t, c₁, hadvance, hrest⟩ := bind_eq_ok h
  rw [advance_eq htoken] at hadvance
  cases hadvance
  obtain ⟨code, hprepares, happends⟩ := hk hrest
  have hpast : c.Appends [] c.past := .on c { c.reader with cursor := c.cursor + 1 }
  refine ⟨hidle.beside hrest, code, ?_, hpast.trans happends⟩
  cases hprepares with
  | value hwords hcode => exact .value hwords hcode
  | variable_ hp => exact .variable_ hp
  | reference hp hcode => exact .reference hp hcode

/-- A literal or the name of a variable is read. -/
theorem primary_prepares (htoken : c.tokens[c.cursor]? = some token) (hplain : c.Plain token)
    (h : primary g c = .ok (o, c')) :
    c.past.Beside c' ∧ ∃ code, c.Prepares o code ∧ c.Appends code c' := by
  obtain ⟨t, c₀, hcurrent, hrest⟩ := bind_eq_ok h
  cases hcurrent
  rw [current_eq htoken] at hrest
  rw [Compiler.Plain] at hplain
  -- one case for each kind of token that is plain
  split at hplain
  · rename_i hkind
    simp only [hkind] at hrest
    refine prepares_of_advance htoken hrest ?_ fun h => ?_
    · split
      · exact .fail (by simp)
      · exact .bind (tracks_emitInteger _).idle fun _ => .pure _
    cases hliteral : Literal.integer? token.lexeme with
    | none =>
      rw [hliteral] at h
      cases h
    | some w =>
      rw [hliteral] at h
      obtain ⟨_, c₁, hemit, hreturn⟩ := bind_eq_ok h
      cases hreturn
      obtain ⟨code, hcode, happends⟩ := emitInteger_appends hemit
      exact ⟨code, .value rfl hcode, happends⟩
  · rename_i hkind
    simp only [hkind] at hrest
    refine prepares_of_advance htoken hrest (.bind (tracks_emitConstant _).idle fun _ => .pure _)
      fun h => ?_
    obtain ⟨_, c₁, hemit, hreturn⟩ := bind_eq_ok h
    cases hreturn
    obtain ⟨code, hcode, happends⟩ := emitConstant_appends hemit
    exact ⟨code, .value rfl hcode, happends⟩
  · rename_i hkind
    simp only [hkind] at hrest
    refine prepares_of_advance htoken hrest (.bind (tracks_addString _).idle fun _ =>
      .bind (tracks_emit _).idle fun _ => .pure _) fun h => ?_
    obtain ⟨index, c₁, hstring, h₁⟩ := bind_eq_ok h
    obtain ⟨_, c₂, hemit, hreturn⟩ := bind_eq_ok h₁
    cases hemit
    cases hreturn
    exact ⟨_, .value rfl (.string index), (addString_appends hstring).trans (.push c₁ _)⟩
  · rename_i hkind
    simp only [hkind] at hrest
    refine prepares_of_advance htoken hrest (.bind (tracks_emit _).idle fun _ => .pure _) fun h => ?_
    cases h
    exact ⟨_, .value rfl (.immediate 1), .push _ _⟩
  · rename_i hkind
    simp only [hkind] at hrest
    refine prepares_of_advance htoken hrest (.bind (tracks_emit _).idle fun _ => .pure _) fun h => ?_
    cases h
    exact ⟨_, .value rfl (.immediate 0), .push _ _⟩
  · rename_i hkind
    simp only [hkind] at hrest
    obtain ⟨v, hv⟩ := hplain
    obtain ⟨t, c₁, hname, hlookup⟩ := bind_eq_ok hrest
    cases hname
    rw [current_eq htoken, ask_bind, hv] at hlookup
    exact prepares_of_advance htoken hlookup (tracks_variableOperand (Walk.good_free _)).idle variableOperand_prepares
  · exact hplain.elim

/-- What may stand behind an expression that is a single token. -/
def ends : List TokenKind :=
  [.statementTerminator, .keyword .else_, .endOfFile, .symbol .rightBracket, .symbol .comma,
    .symbol .rightBrace]

/-- There an operand has no accessors. -/
theorem accessors_eq_self {n : Nat} {o' : Operand} (hend : c.kindAt c.cursor ∈ ends)
    (h : accessors g (n + 1) o c = .ok (o', c')) : o' = o ∧ c' = c := by
  rw [accessors, kind, ask_bind] at h
  simp only [ends, List.mem_cons, List.not_mem_nil, or_false] at hend
  rcases hend with hkind | hkind | hkind | hkind | hkind | hkind <;>
  · rw [hkind] at h
    cases h
    exact ⟨rfl, rfl⟩

/-- There an expression has no operators either. -/
theorem operators_eq_self {n : Nat} {ty ty' : Ty} (hend : c.kindAt c.cursor ∈ ends)
    (h : operators g .or (n + 1) ty c = .ok (ty', c')) : ty' = ty ∧ c' = c := by
  rw [operators, kind, ask_bind] at h
  simp only [ends, List.mem_cons, List.not_mem_nil, or_false] at hend
  rcases hend with hkind | hkind | hkind | hkind | hkind | hkind <;>
  · rw [hkind] at h
    cases h
    exact ⟨rfl, rfl⟩

/-- A literal or the name of a variable is an operand without unary operators. -/
theorem operand_of_plain (htoken : c.tokens[c.cursor]? = some token) (hplain : c.Plain token) :
    operand g c = (primary g >>= fun first => budget >>= fun n => accessors g n first) c := by
  have hkind : c.kindAt c.cursor = token.kind := by rw [Compiler.kindAt, htoken]
  rw [operand, kind, ask_bind, hkind]
  rw [Compiler.Plain] at hplain
  split at hplain
  all_goals first
    | exact hplain.elim
    | (rename_i h; rw [h])

/-- A literal or a variable that is a whole expression is loaded, and that is all. -/
theorem read_of_plain {ty : Ty} (htoken : c.tokens[c.cursor]? = some token) (hplain : c.Plain token)
    (hends : c.kindAt (c.cursor + 1) ∈ ends) (hread : read g .or c = .ok (ty, c')) :
    ∃ o c₁, primary g c = .ok (o, c₁) ∧ load o token c₁ = .ok (ty, c') := by
  obtain ⟨t, c₀, hcurrent, h₁⟩ := bind_eq_ok hread
  cases hcurrent
  rw [current_eq htoken] at h₁
  obtain ⟨o, c₁, hoperand, hcontinue⟩ := bind_eq_ok h₁
  rw [operand_of_plain htoken hplain] at hoperand
  obtain ⟨first, c₂, hprimary, hrest⟩ := bind_eq_ok hoperand
  obtain ⟨hbeside, -⟩ := primary_prepares htoken hplain hprimary
  -- nothing of the statement is left behind the token
  have hend : ∀ c', c.past.Beside c' → c'.kindAt c'.cursor ∈ ends := by
    intro c' hpast
    rw [Compiler.kindAt, hpast.tokens, hpast.cursor]
    exact hends
  obtain ⟨rfl, rfl⟩ := accessors_eq_self (hend c₂ hbeside) hrest
  obtain ⟨left, c₃, hload, hoperators⟩ := bind_eq_ok hcontinue
  have hbeside₃ := hbeside.trans ((tracks_load (Walk.good_free _)).idle.beside hload)
  obtain ⟨rfl, rfl⟩ := operators_eq_self (hend c₃ hbeside₃) hoperators
  exact ⟨_, _, hprimary, hload⟩

/-- The code of a literal or a variable that is a whole expression. -/
theorem read_plain {ty : Ty} (hvalue : ∃ token, c.tokens[c.cursor]? = some token ∧ c.Plain token)
    (hends : c.kindAt (c.cursor + 1) ∈ ends) (hread : read g .or c = .ok (ty, c')) :
    ∃ words code, c.types.wordLength ty = .ok words ∧ Pushing words code ∧ c.Appends code c' := by
  obtain ⟨token, htoken, hplain⟩ := hvalue
  obtain ⟨o, c₁, hprimary, hload⟩ := read_of_plain htoken hplain hends hread
  obtain ⟨-, code, hprepares, happends⟩ := primary_prepares htoken hplain hprimary
  exact load_prepared hprepares happends hload

end Expression

/-! ### Reading and assigning -/

/-- The code of an assignment: that of its value, and a store through the address below. -/
theorem Statement.assign_appends {n : Nat} {place : Place} {token : Token} {c c' : Compiler}
    (hplace : place.storage = .dynamic) (hvalue : c.PlainAt (c.cursor + 1))
    (h : assign (productions n) (.place place) token c = .ok ((), c')) :
    ∃ (words : UInt8) (offset : UInt16) (code : List Instruction),
      c.types.wordLength place.ty = .ok words.toNat ∧ offset.toNat = place.offset ∧
      Pushing words.toNat code ∧
      c.Appends (code ++ [.ofByteShort .storeIndirect words offset]) c' := by
  obtain ⟨t, htoken, hplain⟩ := hvalue.value
  have hpast : c.Appends [] c.past := .on c { c.reader with cursor := c.cursor + 1 }
  obtain ⟨sign, c₁, hadvance, h₁⟩ := CompileM.bind_eq_ok h
  obtain ⟨target, c₂, htarget, h₂⟩ := CompileM.bind_eq_ok h₁
  obtain ⟨value, c₃, hcurrent, h₃⟩ := CompileM.bind_eq_ok h₂
  obtain ⟨ty, c₄, hexpression, h₄⟩ := CompileM.bind_eq_ok h₃
  obtain ⟨_, c₅, hexpect, hstore⟩ := CompileM.bind_eq_ok h₄
  cases htarget
  cases hcurrent
  -- there is a sign in front of the value, whichever it is
  have hlt : c.cursor < c.tokens.size := by
    have := (Array.getElem?_eq_some_iff.mp htoken).1
    omega
  rw [CompileM.advance_eq (Array.getElem?_eq_getElem hlt)] at hadvance
  cases hadvance
  -- the fuel is not at issue: without any, the value would not have been read
  cases n with
  | zero => exact absurd hexpression (Fails.failFuel _ _ _)
  | succ n =>
    have hends : c.past.kindAt (c.past.cursor + 1) ∈ Expression.ends :=
      List.mem_append_left [_, _, _] hvalue.ends
    obtain ⟨size, code, hsize, hcode, happends⟩ :=
      Expression.read_plain (c := c.past) ⟨t, htoken, hplain⟩ hends hexpression
    obtain ⟨rfl, rfl⟩ :=
      CompileM.expectType_eq_ok hexpect
    obtain ⟨words, offset, hwords, hoffset, rfl⟩ := CompileM.store_eq_ok hstore
    rw [hplace]
    rw [happends.types] at hwords
    obtain rfl : size = words.toNat := Except.ok.inj (hsize.symm.trans hwords)
    exact ⟨words, offset, code, hwords, hoffset, hcode,
      (hpast.trans happends).trans (.push c₅ _)⟩

/-- A place behind a pointer is read or assigned to where the word of the pointer leads, and nowhere
else.  If the word is the address of a heap word, reading copies heap words, and assigning a
literal or a variable replaces heap words and leaves every variable as it is.  If it is not, the
words of the place are those of the stack from there on. -/
theorem reaches_of_pointer {n : Nat} {pointer : Operand} {place : Place} {token : Token}
    {c c₁ c₂ : Compiler} {p : Program} {P : Chunk} {time : Float} {m m' : Machine} {ended : Bool}
    (hplace : Behind (productions n) pointer c place c₁) (hP : p.chunks[m.chunk]? = some P)
    (hcode : P.HoldsAt m.ip (c₂.code.drop c.code.length))
    (hrun : Exec.execute p time (c₂.code.length - c.code.length) m = .ok ended m') :
    (∀ ty, CompileM.load (.place place) token c₁ = .ok (ty, c₂) →
      ∃ base w ws, m.Follows pointer base w ∧ c.types.wordLength place.ty = .ok ws.size ∧
        m'.stack = base ++ ws ∧ m'.heap = m.heap ∧
        (Address.isHeap w = true → ws =
          Words.run m.heap.words ((w - Address.heapBit).toNat + place.offset) ws.size) ∧
        (Address.isHeap w = false →
          ∀ j < ws.size, ws[j]? = m'.stack[w.toNat + place.offset + j]?)) ∧
    (Statement.assign (productions n) (.place place) token c₁ = .ok ((), c₂) →
      c₁.PlainAt (c₁.cursor + 1) →
      ∃ base w ws k mᵥ, m.Follows pointer base w ∧ c.types.wordLength place.ty = .ok ws.size ∧
        Exec.Leads p time k m mᵥ ∧ mᵥ.stack = base.push w ++ ws ∧
        (Address.isHeap w = true → m'.stack = base ∧
          m'.heap = mᵥ.heap.put ((w - Address.heapBit).toNat + place.offset) ws.toList) ∧
        (Address.isHeap w = false → m'.heap = mᵥ.heap ∧
          Words.Overwritten base (w.toNat + place.offset) ws m'.stack)) := by
  obtain ⟨hdynamic, follow, hfollow, happends⟩ := hplace.appends
  -- all of the code of the access, from where the pointer is loaded
  have hwhole : ∀ {code}, c₁.Appends code c₂ →
      P.HoldsAt m.ip (follow ++ code) ∧
        Exec.execute p time (follow.length + code.length) m = .ok ended m' := by
    intro code hc
    have hc₂ : c₂.code = c.code ++ (follow ++ code) := (happends.trans hc).code
    rw [hc₂, List.drop_left] at hcode
    rw [hc₂, List.length_append, Nat.add_sub_cancel_left, List.length_append] at hrun
    exact ⟨hcode, hrun⟩
  refine ⟨fun ty hload => ?_, fun hassign hvalue => ?_⟩
  · obtain ⟨rfl, words, offset, hwords, hoffset, rfl⟩ := CompileM.load_eq_ok hload
    rw [hdynamic] at hcode hrun hwhole
    obtain ⟨hholds, hexecute⟩ := hwhole (.push c₁ _)
    obtain ⟨base, w, ws, hfollows, hws, hstack, hheap, hrun, hother⟩ :=
      Exec.reads_of_execute hfollow hP hholds hexecute
    rw [happends.types, ← hws] at hwords
    rw [← hoffset]
    rw [← hws] at hrun
    exact ⟨base, w, ws, hfollows, hwords, hstack, hheap, hrun, hother⟩
  · obtain ⟨words, offset, code, hwords, hoffset, hpushing, hc⟩ :=
      Statement.assign_appends hdynamic hvalue hassign
    obtain ⟨hholds, hexecute⟩ := hwhole hc
    rw [← List.append_assoc] at hholds
    rw [List.length_append, ← Nat.add_assoc] at hexecute
    obtain ⟨base, w, ws, mᵥ, hfollows, hws, hleads, hstack, hheap, hother⟩ :=
      Exec.writes_of_execute hfollow hpushing hP hholds hexecute
    rw [happends.types, ← hws] at hwords
    rw [← hoffset]
    exact ⟨base, w, ws, _, mᵥ, hfollows, hwords, hleads, hstack, hheap, hother⟩

/-- A variable, and a pointer to a cell. -/
def cellModule : String :=
  "structure Cell\n    field Int value\nvar a = 5\nvar p = new Cell \x7b value = 1 \x7d\n"

/-- The pointer, once it has been declared. -/
def cellPointer : Operand :=
  .place ⟨.pointer (.structure_ 0), .global, 1⟩

/-- The state of the compilation in front of the dot of an assignment through the pointer. -/
def cellField : Compiler :=
  match addSource .start "cell" cellModule, tokenize "main" "p.value = 9\n" with
  | .ok c, .ok tokens => { c.atModule "main" tokens with cursor := 1 }
  | _, _ => .start

theorem reaches_of_cellModule : ∃ (c₁ c₂ : Compiler) (p : Program) (P : Chunk) (m m' : Machine)
    (ended : Bool),
    Behind (productions 2) cellPointer cellField (.atAddress .int) c₁ ∧
    Statement.assign (productions 2) (.place (.atAddress .int)) c₁.current c₁ = .ok ((), c₂) ∧
    c₁.PlainAt (c₁.cursor + 1) ∧
    compileModules [("cell", cellModule), ("main", "p.value = 9\n")] = .ok p ∧
    p.chunks[m.chunk]? = some P ∧ P.HoldsAt m.ip (c₂.code.drop cellField.code.length) ∧
    Exec.execute p 0 (c₂.code.length - cellField.code.length) m = .ok ended m' ∧
    m.stack = #[5, Address.ofHeap 0] ∧ m'.stack = #[5, Address.ofHeap 0] := by
  -- five instructions lead to the assignment, three are its own
  have hcheck : ((Access.member (productions 2) cellPointer cellField).toOption.any fun r =>
      decide (r.1 = .place (.atAddress .int)) &&
      r.2.tokens[r.2.cursor + 1]?.any (fun token => decide (token.kind = .integer)) &&
      decide (r.2.kindAt (r.2.cursor + 1 + 1) = .statementTerminator) &&
      (Statement.assign (productions 2) (.place (.atAddress .int)) r.2.current r.2).toOption.any
        fun r' => (compileModules [("cell", cellModule), ("main", "p.value = 9\n")]).toOption.any
          fun p => ((Machine.new {}).boot p).toOption.any fun m₁ =>
            p.chunks[(m₁.run 5 0).2.chunk]?.any fun P =>
              decide (∀ j, j < (r'.2.code.drop cellField.code.length).length →
                P.code[(m₁.run 5 0).2.ip + j]? = (r'.2.code.drop cellField.code.length)[j]?) &&
              decide ((m₁.run 5 0).2.stack = #[5, Address.ofHeap 0]) &&
              match Exec.execute p 0 (r'.2.code.length - cellField.code.length) (m₁.run 5 0).2 with
              | .ok _ _ => true
              | .error _ _ => false) = true := by
    decide +kernel
  obtain ⟨⟨o, c₁⟩, hmember, hcheck⟩ := exists_of_any hcheck
  simp only [Bool.and_eq_true, decide_eq_true_eq] at hcheck
  obtain ⟨⟨⟨rfl, hvalue⟩, hend⟩, hcheck⟩ := hcheck
  obtain ⟨⟨⟨⟩, c₂⟩, hassign, hcheck⟩ := exists_of_any hcheck
  obtain ⟨p, hcompile, hcheck⟩ := exists_of_any hcheck
  obtain ⟨m₁, hboot, hcheck⟩ := exists_of_any hcheck
  obtain ⟨P, hP, hcheck⟩ := (Option.any_eq_true _ _).mp hcheck
  simp only [Bool.and_eq_true, decide_eq_true_eq] at hcheck
  obtain ⟨⟨hcode, hstack⟩, hran⟩ := hcheck
  obtain ⟨token, htoken, hkind⟩ := (Option.any_eq_true _ _).mp hvalue
  have hplain : c₁.PlainAt (c₁.cursor + 1) := by
    refine ⟨⟨token, htoken, ?_⟩, ?_⟩
    · rw [Compiler.Plain, of_decide_eq_true hkind]
      trivial
    · rw [hend]
      exact List.mem_cons_self
  have hplace : Behind (productions 2) cellPointer cellField (.atAddress .int) c₁ :=
    .member rfl hmember
  cases hrun : Exec.execute p 0 (c₂.code.length - cellField.code.length) (m₁.run 5 0).2 with
  | error f m' =>
    rw [hrun] at hran
    cases hran
  | ok ended m' =>
    obtain ⟨base, w, ws, k, mᵥ, ⟨rfl, hw⟩, -, -, -, hheap, -⟩ :=
      (reaches_of_pointer hplace hP hcode hrun).2 hassign hplain
    -- the pointer holds the first word of the arena
    rw [hstack] at hw
    cases hw
    have hkept := (hheap (by decide)).1.trans hstack
    exact ⟨c₁, c₂, p, P, _, m', ended, hplace, hassign, hplain, hcompile, hP, hcode, hrun, hstack,
      hkept⟩

/-- The pointer is freed, which leaves the zero word in it, and then assigned through: it is the
first variable that changes, from five to nine, and no fault is reported. -/
theorem null_overwrites_variable : ∃ (p : Program) (m₁ m₂ : Machine),
    compileModules [("main", cellModule ++ "free p\np.value = 9\n")] = .ok p ∧
    (Machine.new {}).boot p = .ok m₁ ∧ (m₁.run 7 0).2.stack = #[5, 0] ∧
    (m₁.run 7 0).2.run 4 0 = (.ok .halted, m₂) ∧ m₂.stack = #[9, 0] := by
  have hcheck :
      ((compileModules [("main", cellModule ++ "free p\np.value = 9\n")]).toOption.any fun p =>
        ((Machine.new {}).boot p).toOption.any fun m₁ =>
          decide ((m₁.run 7 0).2.stack = #[5, 0]) &&
          decide (((m₁.run 7 0).2.run 4 0).1.toOption = some .halted) &&
          decide (((m₁.run 7 0).2.run 4 0).2.stack = #[9, 0])) = true := by
    decide +kernel
  obtain ⟨p, hcompile, hcheck⟩ := exists_of_any hcheck
  obtain ⟨m₁, hboot, hcheck⟩ := exists_of_any hcheck
  simp only [Bool.and_eq_true, decide_eq_true_eq] at hcheck
  obtain ⟨⟨hbefore, hresult⟩, hafter⟩ := hcheck
  cases hrun : (m₁.run 7 0).2.run 4 0 with
  | mk result m₂ =>
    rw [hrun] at hresult hafter
    cases result with
    | error e => cases hresult
    | ok r =>
      cases hresult
      exact ⟨p, m₁, m₂, hcompile, hboot, hbefore, hrun, hafter⟩

end WordScript
