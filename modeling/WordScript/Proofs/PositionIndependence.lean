/-
Compiling goes along with itself when the tokens are moved.

A module is compiled to the same code wherever its tokens stand.  Text that is
indented as a whole has the tokens of the text, four columns further to the right, and
becomes the same program.

* `Walk.moving` — the walk along the compiler with the tokens moved;
* `Compiler.addModule_moved` — a module with moved tokens;
* `indentation_invisible` — indenting every line moves the tokens and changes nothing
  else.
-/
import WordScript.Build
import WordScript.Proofs.Indentation
import WordScript.Proofs.StructureWalks

namespace WordScript

variable {f : Position → Position}

/-! ### Modules -/

/-- The walk along the compiler whose tokens are moved. -/
def Walk.moving (f : Position → Position) : Walk where
  place := f
  Frame _ _ := True
  frame _ _ := trivial

instance : (Walk.moving f).Loose :=
  ⟨rfl, fun _ _ => trivial, trivial⟩

namespace Compiler

variable (c : Compiler)

/-- What a module is read to does not depend on the positions of its tokens. -/
theorem readModule_moved {c' : Compiler} (h : readModule c = .ok ((), c')) :
    readModule (c.moved f) = .ok ((), c'.moved f) := by
  have hrun := tracks_readModule (fun n => productions_track (W := .moving f) n) c c
    (Walk.at_ c c)
  rw [h] at hrun
  exact hrun.1.eq_ok rfl id

theorem atModule_moved (name : String) {tokens : Array Token} {t : Token}
    (ht : tokens.back? = some t) :
    (c.moved f).atModule name (tokens.map (Token.moved f)) = (c.atModule name tokens).moved f := by
  have hback : (tokens.map (Token.moved f)).back? = some (t.moved f) := by
    rw [Array.back?_map, ht]
    rfl
  simp only [atModule, hback, ht]
  rfl

/-- A module with moved tokens is compiled as the module is. -/
theorem addModule_moved {c' : Compiler} (name : String) {tokens : Array Token} {t : Token}
    (ht : tokens.back? = some t) (h : c.addModule name tokens = .ok c') :
    (c.moved f).addModule name (tokens.map (Token.moved f)) = .ok (c'.moved f) := by
  unfold addModule at h ⊢
  rw [c.atModule_moved name ht]
  split at h
  · contradiction
  · next c₁ hread =>
    cases h
    rw [readModule_moved _ hread]

@[simp] theorem build_moved : (c.moved f).build = c.build := rfl

theorem addModule_start_moved (name : String) (tokens : Array Token) :
    (start.moved f).addModule name tokens = start.addModule name tokens := by
  have h : (start.moved f).atModule name tokens = start.atModule name tokens := by
    simp [start, moved, TypeTable.moved, atModule]
  rw [addModule, addModule, h]

end Compiler

/-! ### Indented sources -/

/-- The program of a text comes from any text with the same tokens at other positions. -/
theorem compileSource_of_moved {moduleName source source' : String} {tokens : Array Token} {p : Program}
    (htokens : tokenize moduleName source = .ok tokens)
    (htokens' : tokenize moduleName source' = .ok (tokens.map (Token.moved f)))
    (h : compileSource moduleName source = .ok p) : compileSource moduleName source' = .ok p := by
  obtain ⟨ts, t, htoList, -, -⟩ := exists_eof_of_tokenize htokens
  have ht : tokens.back? = some t := by
    rw [← Array.getLast?_toList, htoList, List.getLast?_concat]
  simp only [compileSource, compileModules, addSources, addSource, htokens, htokens'] at h ⊢
  cases hc : Compiler.start.addModule moduleName tokens with
  | error e =>
    rw [hc] at h
    cases h
  | ok c =>
    have hmoved := Compiler.addModule_moved (f := f) _ moduleName ht hc
    rw [Compiler.addModule_start_moved] at hmoved
    rw [hc] at h
    rw [hmoved]
    exact h

/-- The position four columns further to the left. -/
def Position.outdented (p : Position) : Position :=
  ⟨p.line, p.col - Scanner.indentWidth⟩

theorem Token.moved_indented (t : Token) : t.indented.moved Position.outdented = t := by
  simp [Token.indented, Token.moved, Position.indented, Position.outdented, Position.right]

/-- Four spaces at the beginning of every line move the tokens, or the error, four columns to the
right and do nothing else.  So the program is the same. -/
theorem indentation_invisible (moduleName source : String) :
    tokenize moduleName (indented source) =
      ((tokenize moduleName source).map fun ts => ts.map Token.indented).mapError ScanError.indented ∧
    ∀ p, compileSource moduleName (indented source) = .ok p ↔ compileSource moduleName source = .ok p := by
  refine ⟨tokenize_indented moduleName source, fun p => ?_⟩
  have hindented := tokenize_indented moduleName source
  cases h : tokenize moduleName source with
  | error e =>
    rw [h] at hindented
    have hfails : ∀ {source e}, tokenize moduleName source = .error e →
        compileSource moduleName source ≠ .ok p := by
      intro source e he hp
      simp only [compileSource, compileModules, addSources, addSource, he] at hp
      cases hp
    exact ⟨fun hp => absurd hp (hfails hindented), fun hp => absurd hp (hfails h)⟩
  | ok tokens =>
    rw [h] at hindented
    have hback : (tokens.map Token.indented).map (Token.moved Position.outdented) = tokens := by
      rw [Array.map_map]
      exact Array.map_id'' Token.moved_indented tokens
    exact ⟨fun hp => compileSource_of_moved hindented (h.trans (congrArg Except.ok hback.symm)) hp,
      fun hp => compileSource_of_moved h hindented hp⟩

end WordScript
