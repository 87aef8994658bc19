/-
The code of accessors.

An accessor narrows an operand, and with it the words that the operand stands for.  A name
or a number behind a dot adds to the offset of a place and emits nothing, or selects part of
a value.  An index in brackets needs an address: that of a place that is known by its offset
is put on the stack first, while the offset of any other place waits until the element is
loaded.

* `Compiler.Turns` — code that turns words on top of the stack into others;
* `Token.Names`, `Compiler.DotAt` — how an accessor is written;
* `Access.turns_member` — a name or a number behind a dot, and the words of the part;
* `Access.opened`, `Access.IndexIs` — what comes before an index, and its value;
* `Stage.Holds.turns_index`, `Stage.Holds.checks_index` — an index, and the words of the element
  or the fault.
-/
import WordScript.Proofs.AddressedWords

namespace WordScript

/-! ### Code between two states -/

/-- The code between two states of the compilation turns the words `ws` on top of the stack of the
machine into `ws'` and changes nothing else. -/
structure Compiler.Turns (c c' : Compiler) (p : Program) (time : Float) (m : Machine)
    (ws ws' : Array Word) : Prop where
  adds : c.builder.code.Extends c'.builder.code
  leads : m.Has p c c' →
    ∃ j, Exec.Leads p time j (m.at_ c.here (m.stack ++ ws)) (m.at_ c'.here (m.stack ++ ws'))

namespace Compiler.Turns

variable {c c₁ c₂ : Compiler} {p : Program} {time : Float} {m : Machine} {ws ws₁ ws₂ : Array Word}

theorem refl (c : Compiler) : c.Turns c p time m ws ws :=
  ⟨.refl _, fun _ => ⟨0, rfl⟩⟩

theorem trans (h₁ : c.Turns c₁ p time m ws ws₁) (h₂ : c₁.Turns c₂ p time m ws₁ ws₂) :
    c.Turns c₂ p time m ws ws₂ := by
  refine ⟨h₁.adds.trans h₂.adds, fun ⟨P, hP, hholds⟩ => ?_⟩
  obtain ⟨j, hfirst⟩ := h₁.leads ⟨P, hP, hholds.left h₂.adds⟩
  obtain ⟨k, hrest⟩ := h₂.leads ⟨P, hP, hholds.right h₁.adds⟩
  exact ⟨j + k, hfirst.trans hrest⟩

/-- One instruction. -/
theorem push {i : Instruction} (h : ∀ P, p.chunks[m.chunk]? = some P → P.code[c.here]? = some i →
    Exec.Leads p time 1 (m.at_ c.here (m.stack ++ ws)) (m.at_ (c.here + 1) (m.stack ++ ws₁))) :
    c.Turns (c.mapBuilder (·.push i)) p time m ws ws₁ := by
  refine ⟨extends_push c i, fun ⟨P, hP, hholds⟩ => ⟨1, ?_⟩⟩
  rw [here_push]
  exact h P hP (getElem?_of_holds_push hholds (.refl _))

end Compiler.Turns

namespace CompileM

open Compiler

variable {c c' c₁ : Compiler} (p : Program) (time : Float) {m : Machine} {ws V : Array Word}
  {o o' : Operand} {ty inner : Ty} {token : Token} {k : Nat}

theorem bind_of_ok {α β : Type} {x : CompileM α} {f : α → CompileM β} {a : α}
    (h : x c = .ok (a, c')) : (x >>= f) c = f a c' := by
  show (x c >>= fun r => f r.1 r.2) = _
  rw [h]
  rfl

theorem wordsOf_eq (h : c.types.HasSize ty) : wordsOf ty token c = .ok (c.types.words ty, c) := by
  rw [wordsOf, ask_bind, show c.types.wordLength ty = _ from h]
  rfl

/-! ### Operands -/

/-- The code of a load turns what the operand has on the stack into the words that it stands for. -/
theorem turns_load (h : m.Shows o ws V) (hV : V.size = c.types.words o.ty)
    (hload : load o token c = .ok (ty, c')) : ty = o.ty ∧ c.Turns c' p time m ws V := by
  cases o with
  | value whole =>
    cases hload
    cases h
    exact ⟨rfl, .refl c⟩
  | place q =>
    obtain ⟨rfl, words, offset, hwords, hoffset, rfl⟩ := load_eq_ok hload
    have hwords : V.size = words.toNat := hV.trans (TypeTable.words_of_wordLength hwords)
    exact ⟨rfl, .push fun P hP hi => Exec.leads_loadPlace h hP hi hwords.symm hoffset⟩

/-- A part of an operand stands for a part of the words. -/
theorem turns_select (h : m.Shows o ws V) (hV : V.size = c.types.words o.ty)
    (hin : k + c.types.words inner ≤ V.size) (hselect : select o k inner token c = .ok (o', c')) :
    o'.ty = inner ∧ ∃ ws', m.Shows o' ws' (Words.run V k (c.types.words inner)) ∧
      c.Turns c' p time m ws ws' := by
  cases o with
  | place q =>
    cases hselect
    exact ⟨rfl, ws, h.part hin, .refl c⟩
  | value whole =>
    obtain rfl : ws = V := by
      cases h
      rfl
    obtain ⟨n, c₁, hsize, h₁⟩ := bind_eq_ok hselect
    obtain ⟨total, c₂, hbyte, h₂⟩ := bind_eq_ok h₁
    obtain ⟨n', c₃, hsize', h₃⟩ := bind_eq_ok h₂
    obtain ⟨words, c₄, hbyte', h₄⟩ := bind_eq_ok h₃
    obtain ⟨from_, c₅, hfrom, h₅⟩ := bind_eq_ok h₄
    obtain ⟨_, c₆, hemit, hreturn⟩ := bind_eq_ok h₅
    obtain ⟨rfl, hn⟩ := wordsOf_eq_ok hsize
    obtain ⟨rfl, htotal⟩ := byte_eq_ok hbyte
    obtain ⟨rfl, hn'⟩ := wordsOf_eq_ok hsize'
    obtain ⟨rfl, hwords⟩ := byte_eq_ok hbyte'
    obtain ⟨rfl, hk⟩ := byte_eq_ok hfrom
    cases hemit
    cases hreturn
    have hn := TypeTable.words_of_wordLength hn
    have hn' := TypeTable.words_of_wordLength hn'
    -- a value is on the stack, where one instruction cuts the part out of it
    refine ⟨rfl, _, .value inner _, .push fun P hP hi => ?_⟩
    rw [hn', ← hwords, ← hk] at hin ⊢
    exact Exec.leads_select hP hi (htotal.trans (hn.symm.trans hV.symm)) hin

theorem ty_of_deref (hty : o.ty = ty ∨ o.ty = .pointer ty) (hne : ∀ inner, ty ≠ .pointer inner)
    (hderef : deref o token c = .ok (o', c')) : o'.ty = ty := by
  rcases hty with rfl | hty
  · rw [(deref_eq_self hne hderef).1]
  · rw [(deref_eq_ok hty hderef).1]
    rfl

/-- A pointer is followed to the words behind it; any other operand stays as it is. -/
theorem turns_deref (h : m.Denotes o ws ty V) (hty : ∀ inner, ty ≠ .pointer inner)
    (hderef : deref o token c = .ok (o', c')) :
    o'.ty = ty ∧ c'.types = c.types ∧ ∃ ws', m.Shows o' ws' V ∧ c.Turns c' p time m ws ws' := by
  cases h with
  | itself hself h =>
    subst hself
    obtain ⟨rfl, rfl⟩ := deref_eq_self hty hderef
    exact ⟨rfl, rfl, ws, h, .refl c'⟩
  | @pointer a hpointer h hlies =>
    simp only [deref, hpointer] at hderef
    obtain ⟨found, c₁, hload, hreturn⟩ := bind_eq_ok hderef
    cases hreturn
    have hword : (#[a] : Array Word).size = c.types.words o.ty := by
      rw [hpointer, TypeTable.words]
      rfl
    obtain ⟨-, hturns⟩ := turns_load p time h hword hload
    refine ⟨rfl, ?_, #[a], .address hlies, hturns⟩
    cases o with
    | value whole =>
      cases hload
      rfl
    | place q =>
      obtain ⟨-, words, offset, -, -, rfl⟩ := load_eq_ok hload
      exact types_mapBuilder _ _

/-- The address of a place on the stack. -/
theorem turns_addressOf {q : Place} (h : m.Shows (.place q) ws V) (hq : q.storage ≠ .dynamic)
    (hstack : m.stack.size < Address.heapRoom) (haddress : addressOf q token c = .ok ((), c')) :
    c'.types = c.types ∧ ∃ a, m.Lies a 0 V ∧ c.Turns c' p time m ws #[a] := by
  obtain ⟨ty, storage, offset⟩ := q
  obtain ⟨by_, c₁, hshort, hemit⟩ := bind_eq_ok haddress
  obtain ⟨rfl, hby⟩ := short_eq_ok hshort
  obtain ⟨flag, hflag, rfl⟩ : ∃ flag : UInt8, (flag = 0 ↔ storage = .frame) ∧
      c' = c₁.mapBuilder (·.push (.ofByteShort .addressOf flag by_)) := by
    cases storage with
    | frame =>
      cases hemit
      exact ⟨0, by decide, rfl⟩
    | global =>
      cases hemit
      exact ⟨1, by decide, rfl⟩
    | dynamic => exact absurd rfl hq
  obtain ⟨a, hlies, hleads⟩ := Exec.leads_addressOf h hq hstack hflag hby
  refine ⟨types_mapBuilder _ _, a, hlies, .push fun P hP hi => ?_⟩
  rw [Array.append_singleton]
  exact hleads hP hi

end CompileM

/-! ### Accessors as they are written -/

/-- The token is a decimal number. -/
structure Token.Numbers (token : Token) (n : Nat) : Prop where
  kind : token.kind = .integer
  digits : token.lexeme.toList ≠ [] ∧ token.lexeme.toList.all Text.isDigit = true
  value : Decimal.ofDigits token.lexeme.toList = n

/-- What the token behind a dot stands for. -/
def Token.Names (token : Token) : Accessor → Prop
  | .field name => token.kind = .identifier ∧ token.lexeme = name
  | .element n => token.Numbers n

/-- A number is read as long as it is a word. -/
theorem Token.Numbers.natural? {token : Token} {n : Nat} (h : token.Numbers n) :
    Literal.natural? 4294967295 token.lexeme = if n ≤ 4294967295 then some n else none := by
  obtain ⟨hne, hall⟩ := h.digits
  have hempty : token.lexeme.toList.isEmpty = false := by
    rw [Bool.eq_false_iff, ne_eq, List.isEmpty_iff]
    exact hne
  rw [Literal.natural?, hempty, hall, h.value]
  rfl

/-- There a dot and an accessor are written: a decimal number, or the name of a field, which is not
called. -/
structure Compiler.DotAt (c : Compiler) (index : Nat) (a : Accessor) : Prop where
  dot : c.kindAt index = .symbol .dot
  name : ∃ token, c.tokens[index + 1]? = some token ∧ token.Names a
  uncalled : ∀ name, a = .field name → c.kindAt (index + 2) ≠ .symbol .leftParen

namespace Access

open CompileM

/-- A field or an element of an operand. -/
def part : Accessor → Operand → Token → CompileM Operand
  | .field _ => field
  | .element _ => element

variable {g : Productions} {c c' : Compiler} {o o' : Operand} {a : Accessor} {q : Nat × Ty}
  {token : Token}

/-- An accessor selects the part that it leads to. -/
theorem part_eq (hnames : token.Names a) (hpart : c.types.component? o.ty a = some q)
    (hsize : c.types.HasSize o.ty) : part a o token c = select o q.1 q.2 token c := by
  unfold TypeTable.component? at hpart
  split at hpart
  · rename_i id name hty
    obtain ⟨-, rfl⟩ := hnames
    obtain ⟨f, hf, rfl⟩ := Option.map_eq_some_iff.mp hpart
    rw [part, field]
    simp only [hty]
    rw [ask_bind, hf]
  · rename_i elementTy length index hty
    split at hpart
    · rename_i hlt
      cases hpart
      have hlength := length.toNat_lt
      rw [hty, TypeTable.hasSize_span] at hsize
      rw [part, element]
      simp only [hty, hnames.natural?, if_pos (show index ≤ 4294967295 by omega)]
      have hwords : wordsOf elementTy token c = .ok (c.types.words elementTy, c) :=
        wordsOf_eq hsize.1
      rw [if_neg (Nat.not_le.mpr hlt)]
      exact bind_of_ok hwords
    · cases hpart
  · cases hpart

/-- What is behind a dot is read when a pointer in front of it has been followed. -/
theorem member_eq {dot : Token} {o₁ : Operand} {c₁ : Compiler} (hdot : c.tokens[c.cursor]? = some dot)
    (htoken : c.tokens[c.cursor + 1]? = some token) (hnames : token.Names a)
    (huncalled : ∀ name, a = .field name → c.kindAt (c.cursor + 2) ≠ .symbol .leftParen)
    (hderef : deref o dot c.past = .ok (o₁, c₁)) : member g o c = part a o₁ token c₁.past := by
  have hbeside := (tracks_deref (Walk.good_free _)).idle.beside hderef
  have hcursor : c₁.cursor = c.cursor + 1 := hbeside.cursor
  have htoken₁ : c₁.tokens[c₁.cursor]? = some token := by
    rw [hcursor, hbeside.tokens]
    exact htoken
  rw [member, bind_of_ok (advance_eq hdot), bind_of_ok hderef, bind_of_ok (advance_eq htoken₁)]
  cases a with
  | element n => simp only [(show token.Numbers n from hnames).kind, part]
  | field name =>
    have hcheck : check (.symbol .leftParen) c₁.past = .ok (false, c₁.past) := by
      have hkind : c₁.past.kindAt c₁.past.cursor = c.kindAt (c.cursor + 2) := by
        rw [show c₁.past.cursor = c.cursor + 2 from congrArg (· + 1) hcursor, Compiler.kindAt,
          Compiler.kindAt, Compiler.past, hbeside.tokens]
        rfl
      show Except.ok (c₁.past.kindAt c₁.past.cursor == _, _) = _
      rw [hkind, beq_eq_false_iff_ne.mpr (huncalled name rfl)]
    simp only [(show token.kind = .identifier ∧ _ from hnames).1, part]
    rw [bind_of_ok hcheck]
    rfl

variable (p : Program) (time : Float) {m : Machine} {ws V : Array Word} {ty : Ty}

/-- A type with parts is not that of a pointer. -/
theorem ne_pointer_of_component? {t : TypeTable} (h : t.component? ty a = some q) (inner : Ty) :
    ty ≠ .pointer inner := by
  rintro rfl
  cases h

/-- A name or a number behind a dot leads to the part and its words. -/
theorem turns_member (hat : c.DotAt c.cursor a) (h : m.Denotes o ws ty V)
    (hpart : c.types.component? ty a = some q) (hsize : c.types.HasSize ty)
    (hV : V.size = c.types.words ty) (hin : q.1 + c.types.words q.2 ≤ V.size)
    (hmember : member g o c = .ok (o', c')) :
    o'.ty = q.2 ∧ ∃ ws', m.Shows o' ws' (Words.run V q.1 (c.types.words q.2)) ∧
      c.Turns c' p time m ws ws' := by
  obtain ⟨token, htoken, hnames⟩ := hat.name
  have hlt : c.cursor < c.tokens.size :=
    Nat.lt_of_succ_lt (Array.getElem?_eq_some_iff.mp htoken).1
  have hdot := Array.getElem?_eq_getElem hlt
  obtain ⟨dot, c₀, hadvance, hrest⟩ := bind_eq_ok hmember
  rw [advance_eq hdot] at hadvance
  cases hadvance
  obtain ⟨o₁, c₁, hderef, -⟩ := bind_eq_ok hrest
  obtain ⟨hty, htypes, ws₁, hshows, hfirst⟩ :=
    turns_deref p time h (ne_pointer_of_component? hpart) hderef
  -- behind the pointer, if there was one, the part is selected from the whole
  rw [member_eq hdot htoken hnames hat.uncalled hderef] at hmember
  have htypes₁ : c₁.past.types = c.types := htypes
  rw [← htypes₁, ← hty] at hpart hsize hV
  rw [← htypes₁] at hin ⊢
  rw [part_eq hnames hpart hsize] at hmember
  obtain ⟨hinner, ws', hshows', hselect⟩ :=
    turns_select p time hshows hV hin hmember
  have hsecond : c₁.Turns c' p time m ws₁ ws' := ⟨hselect.adds, hselect.leads⟩
  have hwhole := hfirst.trans hsecond
  exact ⟨hinner, ws', hshows', hwhole.adds, hwhole.leads⟩

/-! ### Indices -/

/-- What is read of an access by index before the index: the span becomes a place behind an address on
the stack. -/
def opened (operand : Operand) : CompileM Place := do
  let bracket ← advance
  let operand ← deref operand bracket
  let span ← placeOf operand bracket "temporary span"
  if span.isDynamic then return span
  else
    addressOf span bracket
    return ⟨span.ty, .dynamic, 0⟩

/-- The address of the span lies on top of the stack when the index is read. -/
theorem turns_opened {span : Place} (h : m.Denotes o ws ty V) (hty : ∀ inner, ty ≠ .pointer inner)
    (hstack : m.stack.size < Address.heapRoom) (hopened : opened o c = .ok (span, c')) :
    span.ty = ty ∧ span.storage = .dynamic ∧ c'.types = c.types ∧
      ∃ a, m.Lies a span.offset V ∧ c.Turns c' p time m ws #[a] := by
  obtain ⟨bracket, c₀, hadvance, hrest⟩ := bind_eq_ok hopened
  obtain ⟨⟨r, rfl⟩, -⟩ := Reads.advance c.reader bracket c₀ hadvance
  obtain ⟨o₁, c₁, hderef, hrest⟩ := bind_eq_ok hrest
  obtain ⟨hty₁, htypes, ws₁, hshows, hfirst⟩ :=
    turns_deref p time h hty hderef
  have hfirst : c.Turns c₁ p time m ws ws₁ := ⟨hfirst.adds, hfirst.leads⟩
  have htypes : c₁.types = c.types := htypes
  obtain ⟨q, c₂, hplace, hrest⟩ := bind_eq_ok hrest
  cases o₁ with
  | value whole => exact absurd hplace (Fails.fail _ _ _ _ _)
  | place q' =>
    cases hplace
    obtain rfl : q.ty = ty := hty₁
    -- a place at an address has the address on the stack; for another one it is pushed
    split at hrest
    · rename_i hdynamic
      cases hrest
      obtain ⟨inner, storage, offset⟩ := span
      obtain rfl : storage = .dynamic := eq_of_beq hdynamic
      cases hshows with
      | fixed hstorage => exact absurd rfl hstorage
      | address hlies => exact ⟨rfl, rfl, htypes, _, hlies, hfirst⟩
    · rename_i hfixed
      obtain ⟨_, c₃, haddress, hreturn⟩ := bind_eq_ok hrest
      cases hreturn
      have hq : q.storage ≠ .dynamic := fun hdynamic => hfixed (beq_iff_eq.mpr hdynamic)
      obtain ⟨htypes', a, hlies, hsecond⟩ :=
        turns_addressOf p time hshows hq hstack haddress
      exact ⟨rfl, rfl, htypes'.trans htypes, a, hlies, hfirst.trans hsecond⟩

/-- What follows the address of the span. -/
theorem indexed_eq_ok {element : Ty} {length : UInt16} {offset : Nat} {bracket : Token}
    (h : (do
      let words ← byte (← wordsOf element bracket) bracket "span element"
      indexExpression g
      emit (.ofByteShort .indexAddress words length)
      return Operand.place ⟨element, .dynamic, offset⟩) c = .ok (o', c')) :
    ∃ (words : UInt8) (c₁ : Compiler) (r : Reader), c.types.wordLength element = .ok words.toNat ∧
      g.expression .or c = .ok (.int, c₁) ∧ o' = .place ⟨element, .dynamic, offset⟩ ∧
      c' = (c₁.on r).mapBuilder (·.push (.ofByteShort .indexAddress words length)) := by
  obtain ⟨n, c₁, hsize, h₁⟩ := bind_eq_ok h
  obtain ⟨words, c₂, hbyte, h₂⟩ := bind_eq_ok h₁
  obtain ⟨_, c₃, hexpression, h₃⟩ := bind_eq_ok h₂
  obtain ⟨_, c₄, hemit, hreturn⟩ := bind_eq_ok h₃
  obtain ⟨rfl, hn⟩ := wordsOf_eq_ok hsize
  obtain ⟨rfl, hwords⟩ := byte_eq_ok hbyte
  cases hemit
  cases hreturn
  obtain ⟨token, c₄, hcurrent, h₄⟩ := bind_eq_ok hexpression
  obtain ⟨ty, c₅, hread, h₅⟩ := bind_eq_ok h₄
  obtain ⟨_, c₆, hexpect, h₆⟩ := bind_eq_ok h₅
  obtain ⟨_, c₇, hconsume, hreturn⟩ := bind_eq_ok h₆
  cases hcurrent
  obtain ⟨rfl, rfl⟩ := expectType_eq_ok hexpect
  obtain ⟨⟨r, rfl⟩, -⟩ := Reads.consume _ _ c₆.reader _ _ hconsume
  cases hreturn
  rw [← hwords] at hn
  exact ⟨words, c₆, r, hn, hread, rfl, rfl⟩

/-- What an access by index to a span consists of. -/
theorem index_eq_ok {element : Ty} {length : UInt16}
    (hty : o.ty = .span element length ∨ o.ty = .pointer (.span element length))
    (hindex : index g o c = .ok (o', c')) :
    ∃ (span : Place) (words : UInt8) (c₁ c₂ : Compiler) (r : Reader), opened o c = .ok (span, c₁) ∧
      c₁.types.wordLength element = .ok words.toNat ∧ g.expression .or c₁ = .ok (.int, c₂) ∧
      o' = .place ⟨element, .dynamic, span.offset⟩ ∧
      c' = (c₂.on r).mapBuilder (·.push (.ofByteShort .indexAddress words length)) := by
  obtain ⟨bracket, c₀, hadvance, hrest⟩ := bind_eq_ok hindex
  obtain ⟨o₁, c₁, hderef, hrest⟩ := bind_eq_ok hrest
  have hty₁ := ty_of_deref hty (fun inner hinner => by cases hinner) hderef
  simp only [hty₁] at hrest
  obtain ⟨q, c₂, hplace, hrest⟩ := bind_eq_ok hrest
  have hopened : opened o c = (if q.isDynamic then pure q else do
      addressOf q bracket
      return ⟨q.ty, .dynamic, 0⟩) c₂ := by
    rw [opened, bind_of_ok hadvance, bind_of_ok hderef, bind_of_ok hplace]
  split at hrest
  · rename_i hdynamic
    rw [if_pos hdynamic] at hopened
    obtain ⟨words, c₃, r, hwords, hread, ho, hc⟩ := indexed_eq_ok hrest
    exact ⟨q, words, c₂, c₃, r, hopened, hwords, hread, ho, hc⟩
  · rename_i hfixed
    obtain ⟨_, c₃, haddress, hrest⟩ := bind_eq_ok hrest
    rw [if_neg hfixed, bind_of_ok haddress] at hopened
    obtain ⟨words, c₄, r, hwords, hread, ho, hc⟩ := indexed_eq_ok hrest
    exact ⟨⟨q.ty, .dynamic, 0⟩, words, c₃, c₄, r, hopened, hwords, hread, ho, hc⟩

/-- The index has the value `w`, and evaluating it changes nothing else: its code puts that word above
the address of the span. -/
def IndexIs (g : Productions) (p : Program) (time : Float) (m : Machine) (o : Operand) (c : Compiler)
    (w : Word) : Prop :=
  ∀ {span : Place} {c₁ c₂ : Compiler} {ty : Ty}, opened o c = .ok (span, c₁) →
    g.expression .or c₁ = .ok (ty, c₂) → m.Has p c₁ c₂ → ∀ a : Word, ∃ j,
      Exec.Leads p time j (m.at_ c₁.here (m.stack.push a)) (m.at_ c₂.here ((m.stack.push a).push w))

end Access

namespace Stage

open Access

variable {g : Productions} {G : Outlook} {s : Stage} {n : Nat} {o o' : Operand} {p : Program}
  {time : Float} {m : Machine} {ws V : Array Word} {w : Word} {element : Ty} {length : UInt16}
  {r : Reader} {c' : Compiler}

/-- The address of the span takes the place of what the operand has on the stack. -/
theorem Holds.opened (h : s.Holds G n o) :
    Moves .value s (Access.opened o) fun span s' => s'.Holds G n (.place span) := by
  refine Moves.read .advance fun bracket _ => ?_
  refine Moves.bind (h.deref bracket) fun o' s₁ _ hs₁ => ?_
  refine Moves.read (.placeOf _ _ _) fun span hspan => ?_
  subst hspan
  split
  · exact .pure hs₁
  · refine Moves.bind (hs₁.ready.addressOf bracket) fun _ s₂ hle₂ hs₂ => .pure ?_
    have hb : span.ty.Bounded s₁.types.structures.size := hs₁.fits.bounded
    refine ⟨⟨hle₂.types.bounded hb, Storage.noConfusion, Storage.noConfusion⟩, hs₂, ?_⟩
    rw [hle₂.scopeWords_eq]
    exact hs₁.base

/-- The code of an access by index to a span: the address of the span and the index are put on the
stack, and then comes the instruction. -/
theorem Holds.reaches_index (hs : s.Holds G n o) (hg : g.Disciplined)
    (h : m.Denotes o ws (.span element length) V) (hstack : m.stack.size < Address.heapRoom)
    (hw : IndexIs g p time m o (s.toCompiler.on r) w)
    (hindex : Access.index g o (s.toCompiler.on r) = .ok (o', c')) :
    ∃ (offset : Nat) (words : UInt8) (a : Word) (c₁ : Compiler), m.Lies a offset V ∧
      s.types.wordLength element = .ok words.toNat ∧
      (s.toCompiler.on r).Turns c₁ p time m ws #[a, w] ∧
      o' = .place ⟨element, .dynamic, offset⟩ ∧
      c' = c₁.mapBuilder (·.push (.ofByteShort .indexAddress words length)) := by
  have hty : o.ty = .span element length ∨ o.ty = .pointer (.span element length) := by
    cases h with
    | itself hty h => exact .inl hty
    | pointer hty h hlies => exact .inr hty
  obtain ⟨span, words, c₁, c₂, r₁, hopened, hwords, hread, rfl, rfl⟩ := index_eq_ok hty hindex
  obtain ⟨-, hdynamic, htypes, a, hlies, hfirst⟩ :=
    turns_opened p time h (fun inner hinner => by cases hinner) hstack hopened
  rw [htypes] at hwords
  obtain ⟨s₁, r₂, rfl, hle, hs₁⟩ := hs.opened r span c₁ hopened
  have hbase : s₁.scopeWords ≤ n + (Operand.place span).height s₁.types :=
    Nat.le_add_right_of_le hs₁.base
  obtain ⟨s₂, r₃, rfl, hle₂, -⟩ := hg.expression .or hs₁.ready hbase r₂ _ _ hread
  -- the index is computed above the address
  have hindex : (s₁.toCompiler.on r₂).Turns (s₂.toCompiler.on r₃) p time m #[a] #[a, w] :=
    ⟨hle₂.code.toExtends, fun hhas => hw hopened hread hhas a⟩
  have hwhole := hfirst.trans hindex
  exact ⟨span.offset, words, a, (s₂.toCompiler.on r₃).on r₁, hlies, hwords,
    ⟨hwhole.adds, hwhole.leads⟩, rfl, rfl⟩

/-- An index inside the span leads to the element and its words. -/
theorem Holds.turns_index (hs : s.Holds G n o) (hg : g.Disciplined)
    (h : m.Denotes o ws (.span element length) V) (hV : V.size = s.types.words element * length.toNat)
    (hstack : m.stack.size < Address.heapRoom) (hlt : w.toNat < length.toNat)
    (hw : IndexIs g p time m o (s.toCompiler.on r) w)
    (hindex : Access.index g o (s.toCompiler.on r) = .ok (o', c')) :
    o'.ty = element ∧ ∃ ws',
      m.Shows o' ws' (Words.run V (w.toNat * s.types.words element) (s.types.words element)) ∧
      (s.toCompiler.on r).Turns c' p time m ws ws' := by
  obtain ⟨offset, words, a, c₁, hlies, hwords, hturns, rfl, rfl⟩ :=
    hs.reaches_index hg h hstack hw hindex
  have hwords := TypeTable.words_of_wordLength hwords
  have hin := TypeTable.element_le s.types element hlt
  rw [← hV] at hin
  have hroom := hlies.room
  have helement := hlies.run hin
  rw [Nat.add_comm] at helement
  refine ⟨rfl, _, .address helement.add, hturns.trans (.push fun P hP hi => ?_)⟩
  have hleads : Exec.Leads p time 1 (m.at_ c₁.here ((m.stack.push a).push w)) _ :=
    Exec.leads_indexAddress hP hi hlt (by
      rw [← hwords]
      omega)
  rw [← hwords] at hleads
  exact hleads

/-- The last instruction of an access by index checks the index: it goes on if the index is inside the
span, and faults otherwise. -/
theorem Holds.checks_index (hs : s.Holds G n o) (hg : g.Disciplined)
    (h : m.Denotes o ws (.span element length) V) (hV : V.size = s.types.words element * length.toNat)
    (hstack : m.stack.size < Address.heapRoom) (hw : IndexIs g p time m o (s.toCompiler.on r) w)
    (hindex : Access.index g o (s.toCompiler.on r) = .ok (o', c'))
    (hhas : m.Has p (s.toCompiler.on r) c') :
    ∃ j m₁, Exec.Leads p time j (m.at_ s.here (m.stack ++ ws)) m₁ ∧ m₁.ip + 1 = c'.here ∧
      ((∃ m₂, Exec.step p time m₁ = .error (.indexOutOfBounds w.toInt length.toNat) m₂) ↔
        w.toInt < 0 ∨ (length.toNat : Int) ≤ w.toInt) ∧
      (0 ≤ w.toInt ∧ w.toInt < length.toNat →
        ∃ a, Exec.step p time m₁ = .ok .next (m.at_ c'.here (m.stack.push a))) := by
  obtain ⟨offset, words, a, c₁, hlies, hwords, hturns, -, rfl⟩ := hs.reaches_index hg h hstack hw hindex
  obtain ⟨P, hP, hholds⟩ := hhas
  obtain ⟨j, hleads⟩ := hturns.leads ⟨P, hP, hholds.left (Compiler.extends_push c₁ _)⟩
  have hi := Compiler.getElem?_of_holds_push hholds hturns.adds
  -- an index inside the span is a small word, so the checked sum does not wrap
  have hinside : 0 ≤ w.toInt ∧ w.toInt < length.toNat →
      ∃ a', Exec.step p time (m.at_ c₁.here ((m.stack.push a).push w)) =
        .ok .next (m.at_ (c₁.here + 1) (m.stack.push a')) := by
    intro hin
    have hlt : w.toNat < length.toNat := by
      have hword := w.toNat_lt
      rw [Word.toInt] at hin
      split at hin <;> omega
    have hend := TypeTable.element_le s.types element hlt
    rw [← hV, TypeTable.words_of_wordLength hwords] at hend
    have hroom := hlies.room
    have hnext : Exec.Leads p time 1 (m.at_ c₁.here ((m.stack.push a).push w)) _ :=
      Exec.leads_indexAddress hP hi hlt (by omega)
    obtain ⟨m₂, hstep, rfl⟩ := hnext
    exact ⟨_, hstep⟩
  refine ⟨j, _, hleads, (Compiler.here_push _ _).symm, ⟨fun hfault => ?_, fun hout => ?_⟩, ?_⟩
  · obtain ⟨m₂, hfault⟩ := hfault
    by_contra hin
    obtain ⟨a', hstep⟩ := hinside (by omega)
    have hboth := hfault.symm.trans hstep
    cases hboth
  · exact ⟨_, Exec.step_indexAddress (S := m.stack) (a := a) (w := w) hP hi (by omega)⟩
  · rw [Compiler.here_push]
    exact hinside

end Stage

end WordScript
