/-
The lines of a cleaned token sequence.

A raw scan falls into lines, each ended by a line break or by the end of the file.
The cleaned sequence has one line for each of them that has content: indents, the
tokens that carry meaning, and one terminator.  The indents are those that led the
raw line, less the indentation that all lines with content share.

* `CleanLine.Of` — what a line of the cleaned sequence has to do with its raw line;
* `lines_of_scan` — the lines of the cleaned sequence of a text.
-/
import Mathlib.Data.List.Forall2
import WordScript.Proofs.LineLayout

namespace WordScript

/-! ### Raw lines -/

namespace RawLine

variable {l : RawLine}

/-- The tokens that carry meaning. -/
def content (l : RawLine) : List Token :=
  l.body.filter fun t => !t.isFormatting

theorem hasContent_iff (l : RawLine) : l.hasContent = true ↔ l.content ≠ [] := by
  rw [hasContent, content, List.any_eq_true, ne_eq, List.filter_eq_nil_iff]
  simp

end RawLine

/-! ### Clean lines -/

/-- A line of the cleaned sequence. -/
structure CleanLine where
  indents : List Token
  content : List Token
  terminator : Token

namespace CleanLine

/-- All tokens of a line. -/
def tokens (c : CleanLine) : List Token :=
  c.indents ++ c.content ++ [c.terminator]

/-- The cleaned form of a raw line, if `base` levels of indentation are shared by all lines. -/
structure Of (base : Nat) (l : RawLine) (c : CleanLine) : Prop where
  indents : ∀ t ∈ c.indents, t.kind = .indent
  depth : l.depth = base + c.indents.length
  content : c.content = l.content
  content_ne : c.content ≠ []
  terminator : c.terminator.kind = .statementTerminator
  position : c.terminator.position = l.ender.position

variable {l : RawLine} {base : Nat}

/-- The indents of a line are the only tokens in it without meaning. -/
theorem content_eq (hends : ∀ t ∈ l.body, Layout.ends t = false)
    (hkind : ∀ t ∈ l.body, t.kind ≠ .statementTerminator) :
    (l.body.dropWhile Layout.isIndent).filter (fun t => !Layout.isIndent t) = l.content := by
  have hformatting : ∀ t ∈ l.body, t.isFormatting = Layout.isIndent t := by
    intro t ht
    have hends := hends t ht
    have hkind := hkind t ht
    unfold Layout.ends at hends
    unfold Token.isFormatting Layout.isIndent TokenKind.isFormatting
    cases hk : t.kind <;> simp_all
  have hleading : (l.body.takeWhile Layout.isIndent).filter (fun t => !t.isFormatting) = [] := by
    refine List.filter_eq_nil_iff.mpr fun t ht => ?_
    rw [hformatting t (List.takeWhile_subset _ ht), List.mem_takeWhile_imp ht]
    decide
  calc (l.body.dropWhile Layout.isIndent).filter (fun t => !Layout.isIndent t)
      = (l.body.dropWhile Layout.isIndent).filter (fun t => !t.isFormatting) :=
        List.filter_congr fun t ht => by rw [hformatting t (List.dropWhile_subset _ ht)]
    _ = (l.body.takeWhile Layout.isIndent).filter (fun t => !t.isFormatting) ++
          (l.body.dropWhile Layout.isIndent).filter (fun t => !t.isFormatting) := by
        rw [hleading, List.nil_append]
    _ = l.content := by
        rw [← List.filter_append, List.takeWhile_append_dropWhile, RawLine.content]

/-- A line with content that is at least `base` levels deep has a cleaned form. -/
theorem exists_of_tidy (hends : ∀ t ∈ l.body, Layout.ends t = false)
    (hkind : ∀ t ∈ l.body, t.kind ≠ .statementTerminator) (hcontent : l.hasContent = true)
    (hbase : base ≤ l.depth) : ∃ c : CleanLine, c.Of base l ∧ c.tokens = l.tidy base := by
  refine ⟨⟨(l.body.takeWhile Layout.isIndent).drop base, l.content, l.terminator⟩,
    ⟨fun t ht => ?_, ?_, rfl, (RawLine.hasContent_iff l).mp hcontent, ?_, ?_⟩, ?_⟩
  · have ht : t ∈ l.body.takeWhile Layout.isIndent := List.mem_of_mem_drop ht
    exact beq_iff_eq.mp (List.mem_takeWhile_imp (p := Layout.isIndent) ht)
  · rw [List.length_drop]
    exact (Nat.add_sub_cancel' hbase).symm
  · unfold RawLine.terminator
    split <;> rfl
  · unfold RawLine.terminator
    split <;> rfl
  · rw [tokens, RawLine.tidy, content_eq hends hkind]

theorem Of.filter_tokens {c : CleanLine} (h : c.Of base l) :
    c.tokens.filter (fun t => !t.isFormatting) = l.content := by
  have hindents : c.indents.filter (fun t => !t.isFormatting) = [] := by
    refine List.filter_eq_nil_iff.mpr fun t ht => ?_
    simp [Token.isFormatting, h.indents t ht, TokenKind.isFormatting]
  have hterminator : [c.terminator].filter (fun t => !t.isFormatting) = [] := by
    simp [Token.isFormatting, h.terminator, TokenKind.isFormatting]
  rw [tokens, List.filter_append, List.filter_append, hindents, hterminator, h.content, RawLine.content,
    List.filter_filter, List.append_nil, List.nil_append]
  simp

end CleanLine

/-- Cleaned, lines with content stay in order. -/
theorem exists_cleanLines {base : Nat} {lines : List RawLine}
    (h : ∀ l ∈ lines, ∃ c : CleanLine, c.Of base l ∧ c.tokens = l.tidy base) :
    ∃ cleaned : List CleanLine, List.Forall₂ (fun l c => c.Of base l) lines cleaned ∧
      cleaned.flatMap CleanLine.tokens = lines.flatMap (RawLine.tidy base) := by
  induction lines with
  | nil => exact ⟨[], .nil, rfl⟩
  | cons l lines ih =>
    obtain ⟨⟨c, hc, htokens⟩, hlines⟩ := List.forall_mem_cons.mp h
    obtain ⟨cleaned, hcleaned, hall⟩ := ih hlines
    exact ⟨c :: cleaned, .cons hc hcleaned, by rw [List.flatMap_cons, List.flatMap_cons, htokens, hall]⟩

namespace RawLine.Lines

variable {raw : List Token} {lines : List RawLine} {l : RawLine}

/-- The tokens that carry meaning are those of the lines with content. -/
theorem filter_eq (h : Lines raw lines) :
    raw.filter (fun t => !t.isFormatting) = (lines.filter hasContent).flatMap content := by
  have hline : ∀ l ∈ lines, l.tokens.filter (fun t => !t.isFormatting) = l.content := by
    intro l hl
    have hender : [l.ender].filter (fun t => !t.isFormatting) = [] := by
      obtain hk | hk := h.kind_ender hl <;> simp [Token.isFormatting, hk, TokenKind.isFormatting]
    rw [RawLine.tokens, List.filter_append, hender, List.append_nil, content]
  have hdrop : ∀ lines : List RawLine, lines.flatMap content = (lines.filter hasContent).flatMap content := by
    intro lines
    induction lines with
    | nil => rfl
    | cons l lines ih =>
      rw [List.flatMap_cons, ih, List.filter_cons]
      split
      · rfl
      · next hnone =>
        rw [l.hasContent_iff, not_not] at hnone
        rw [hnone, List.nil_append]
  rw [← h.flatMap_tokens, List.filter_flatMap, ← hdrop]
  exact List.flatMap_congr hline

end RawLine.Lines

/-- Every line with content has a cleaned form. -/
theorem RawLine.Lines.exists_clean {raw : List Token} {lines : List RawLine} {l : RawLine}
    (h : Lines raw lines) (hraw : ∀ t ∈ raw, t.kind ≠ .statementTerminator)
    (hl : l ∈ lines.filter hasContent) : ∃ c : CleanLine,
      c.Of (baseDepth (lines.filter hasContent)) l ∧ c.tokens = l.tidy (baseDepth (lines.filter hasContent)) := by
  obtain ⟨hmem, hcontent⟩ := List.mem_filter.mp hl
  exact CleanLine.exists_of_tidy (fun t ht => h.ends_of_mem hmem ht)
    (fun t ht => hraw t (h.mem_of_mem hmem (List.mem_append_left _ ht))) hcontent ((baseDepth_spec (List.ne_nil_of_mem hl)).2 l hl)

section Clean

variable {base : Nat} {lines : List RawLine} {cleaned : List CleanLine} {l : RawLine}

theorem filter_flatMap_tokens (h : List.Forall₂ (fun l c => CleanLine.Of base l c) lines cleaned) :
    (cleaned.flatMap CleanLine.tokens).filter (fun t => !t.isFormatting) =
      lines.flatMap RawLine.content := by
  induction h with
  | nil => rfl
  | cons hc _ ih => rw [List.flatMap_cons, List.flatMap_cons, List.filter_append, hc.filter_tokens, ih]

theorem exists_outermost (h : List.Forall₂ (fun l c => CleanLine.Of base l c) lines cleaned)
    (hl : l ∈ lines) (hdepth : l.depth = base) : ∃ c ∈ cleaned, c.indents = [] := by
  induction h with
  | nil => exact absurd hl List.not_mem_nil
  | @cons _ c _ _ hc _ ih =>
    obtain rfl | hl := List.mem_cons.mp hl
    · refine ⟨c, List.mem_cons_self, List.eq_nil_of_length_eq_zero ?_⟩
      have := hc.depth
      omega
    · obtain ⟨c, hmem, hindents⟩ := ih hl
      exact ⟨c, List.mem_cons_of_mem _ hmem, hindents⟩

end Clean

/-- The cleaned tokens of a text that is scanned. -/
theorem lines_of_scan {moduleName source : String} {raw : Array Token}
    (h : scan moduleName source = .ok raw) :
    ∃ (found : Array Token) (lines : List RawLine) (base : Nat) (cleaned : List CleanLine) (eof : Token),
      tokenize moduleName source = .ok found ∧ RawLine.Lines raw.toList lines ∧
      List.Forall₂ (fun l c => CleanLine.Of base l c) (lines.filter RawLine.hasContent) cleaned ∧
      found.toList = cleaned.flatMap CleanLine.tokens ++ [eof] ∧
      raw.toList.getLast? = some eof ∧ eof.kind = .endOfFile ∧
      found.toList.filter (fun t => !t.isFormatting) = raw.toList.filter (fun t => !t.isFormatting) ∧
      (cleaned ≠ [] → ∃ c ∈ cleaned, c.indents = []) := by
  obtain ⟨ts, eof, hraw, heof, hts, -⟩ := exists_eof_of_scan h
  have hkinds : ∀ t ∈ raw.toList, t.kind ≠ .statementTerminator := by
    intro t ht
    rw [hraw, List.mem_append, List.mem_singleton] at ht
    obtain ht | rfl := ht
    · exact (hts t ht).2
    · simp [heof]
  have hlines : RawLine.Lines raw.toList (RawLine.split raw.toList) := by
    rw [hraw]
    exact RawLine.lines_split (fun t ht => (hts t ht).1) heof
  obtain ⟨cleaned, hcleaned, htokens⟩ := exists_cleanLines fun l hl => hlines.exists_clean hkinds hl
  have hfound : (layout raw).toList = cleaned.flatMap CleanLine.tokens ++ [eof] := by
    rw [toList_layout hraw heof fun t ht => (hts t ht).1, htokens]
  refine ⟨layout raw, _, _, cleaned, eof, by rw [tokenize_eq_layout, h]; rfl, hlines, hcleaned, hfound, ?_, heof, ?_,
    fun hne => ?_⟩
  · rw [hraw, List.getLast?_concat]
  · rw [hfound, List.filter_append, filter_flatMap_tokens hcleaned, hlines.filter_eq]
    simp [Token.isFormatting, heof, TokenKind.isFormatting]
  · have hcontents : (RawLine.split raw.toList).filter RawLine.hasContent ≠ [] := by
      intro hnil
      rw [hnil] at hcleaned
      cases hcleaned
      exact hne rfl
    obtain ⟨l, hl, hdepth⟩ := (baseDepth_spec hcontents).1
    exact exists_outermost hcleaned hl hdepth

/-- Two lines with content, both indented, with a blank one between them; the second one has spaces
within it and no line break behind it. -/
def indentedLines : String :=
  "    up\n\n\t    run     // twice"

theorem lines_of_indentedLines : ∃ (raw found : Array Token) (cleaned : List CleanLine) (eof : Token),
    scan "main" indentedLines = .ok raw ∧ tokenize "main" indentedLines = .ok found ∧
    raw.toList.map Token.kind =
      [.indent, .identifier, .newLine, .newLine, .indent, .indent, .identifier, .indent, .endOfFile] ∧
    found.toList.map Token.kind =
      [.identifier, .statementTerminator, .indent, .identifier, .statementTerminator, .endOfFile] ∧
    found.toList = cleaned.flatMap CleanLine.tokens ++ [eof] := by
  have hscan : ((scan "main" indentedLines).toOption.any fun raw =>
      decide (raw.toList.map Token.kind = [.indent, .identifier, .newLine, .newLine, .indent, .indent,
        .identifier, .indent, .endOfFile]) &&
      (tokenize "main" indentedLines).toOption.any fun found =>
        decide (found.toList.map Token.kind =
          [.identifier, .statementTerminator, .indent, .identifier, .statementTerminator, .endOfFile])) =
      true := by
    decide +kernel
  cases h : scan "main" indentedLines with
  | error e => rw [h] at hscan; cases hscan
  | ok raw =>
    obtain ⟨found, lines, base, cleaned, eof, htokenize, -, -, hfound, -⟩ := lines_of_scan h
    rw [h, htokenize] at hscan
    obtain ⟨hraw, hkinds⟩ := Bool.and_eq_true_iff.mp hscan
    exact ⟨raw, found, cleaned, eof, rfl, htokenize, of_decide_eq_true hraw, of_decide_eq_true hkinds, hfound⟩

end WordScript
