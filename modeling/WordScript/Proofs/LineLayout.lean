/-
The layout, line by line.

The three passes over the lines of a raw scan come to one change of each line that has
content: the first takes off its leading indents as far as all lines have them, the
second ends it, and the third, for which the end of a line is the beginning of the next
one, drops its other indents.

* `RawLine.Lines` — the lines that a raw scan falls into;
* `RawLine.lines_split` — they are found;
* `RawLine.tidy` — one line in its final form;
* `cleanFormatting_eq_layout` — the passes, one after the other, tidy every line;
* `tokenize_eq_layout` — so the tokens of a text are its tidy lines.
-/
import WordScript.Proofs.SourcePieces
import WordScript.Token.Layout

namespace WordScript

/-- A line of a raw scan: its tokens and the newline or end of file that ends it. -/
structure RawLine where
  body : List Token
  ender : Token

namespace RawLine

open Layout (ends isIndent)

/-- The lines of a raw scan; `line` holds the tokens of the current line, newest first, and `done`
the lines before it, newest first. -/
def splitFrom (done : List RawLine) (line : List Token) : List Token → List RawLine
  | [] => done.reverse
  | t :: ts =>
    if ends t then splitFrom (⟨line.reverse, t⟩ :: done) [] ts
    else splitFrom done (t :: line) ts

/-- The lines of a raw scan. -/
def split (tokens : List Token) : List RawLine :=
  splitFrom [] [] tokens

/-- All tokens of a line. -/
def tokens (l : RawLine) : List Token :=
  l.body ++ [l.ender]

/-- Whether the line holds a token that carries meaning. -/
def hasContent (l : RawLine) : Bool :=
  l.body.any fun t => !t.isFormatting

/-- The number of indents that lead the line. -/
def depth (l : RawLine) : Nat :=
  (l.body.takeWhile isIndent).length

/-- The token that ends a statement on this line.  A newline keeps its text; the end of the file
leaves an empty terminator in its place. -/
def terminator (l : RawLine) : Token :=
  if l.ender.kind = .newLine then { l.ender with kind := .statementTerminator }
  else ⟨.statementTerminator, "", l.ender.position, l.ender.moduleName⟩

/-- The line without `base` levels of indentation and without indents past the leading ones. -/
def tidy (base : Nat) (l : RawLine) : List Token :=
  (l.body.takeWhile isIndent).drop base
    ++ (l.body.dropWhile isIndent).filter (fun t => !isIndent t)
    ++ [l.terminator]

/-- A raw scan falls into these lines. -/
inductive Lines : List Token → List RawLine → Prop
  /-- the last line, which the end of the file ends -/
  | last {l : RawLine} : (∀ t ∈ l.body, ends t = false) → l.ender.kind = .endOfFile →
      Lines l.tokens [l]
  /-- a line that a line break ends -/
  | cons {l : RawLine} {ts : List Token} {ls : List RawLine} : (∀ t ∈ l.body, ends t = false) →
      l.ender.kind = .newLine → Lines ts ls → Lines (l.tokens ++ ts) (l :: ls)

variable {done : List RawLine} {line ts raw : List Token} {lines : List RawLine} {l : RawLine}
  {t eof : Token}

theorem splitFrom_eq_append (done : List RawLine) (line ts : List Token) :
    splitFrom done line ts = done.reverse ++ splitFrom [] line ts := by
  induction ts generalizing done line with
  | nil => simp [splitFrom]
  | cons t ts ih =>
    simp only [splitFrom]
    split
    · rw [ih (_ :: done), ih [_], List.reverse_cons, List.append_assoc]
      rfl
    · exact ih done (t :: line)

/-- The lines are found, by induction on the tokens behind those of the current line. -/
theorem lines_splitFrom (hline : ∀ t ∈ line, ends t = false) (hts : ∀ t ∈ ts, t.kind ≠ .endOfFile)
    (heof : eof.kind = .endOfFile) :
    Lines (line.reverse ++ ts ++ [eof]) (splitFrom [] line (ts ++ [eof])) := by
  have hbody : ∀ {line : List Token}, (∀ t ∈ line, ends t = false) → ∀ t ∈ line.reverse, ends t = false :=
    fun h t ht => h t (List.mem_reverse.mp ht)
  induction ts generalizing line with
  | nil =>
    have hends : ends eof = true := by simp [ends, heof]
    rw [List.append_nil, List.nil_append, splitFrom, if_pos hends]
    exact .last (l := ⟨line.reverse, eof⟩) (hbody hline) heof
  | cons t ts ih =>
    obtain ⟨ht, hts⟩ := List.forall_mem_cons.mp hts
    rw [List.cons_append, splitFrom]
    split
    · next hends =>
      have hrest := Lines.cons (l := ⟨line.reverse, t⟩) (hbody hline)
        (by simpa [ends, ht] using hends) (ih (List.forall_mem_nil _) hts)
      rw [splitFrom_eq_append]
      simpa [tokens] using hrest
    · next hends =>
      have hrest := ih (List.forall_mem_cons.mpr ⟨Bool.not_eq_true _ ▸ hends, hline⟩) hts
      rwa [List.reverse_cons, List.append_assoc _ [t]] at hrest

theorem lines_split (hts : ∀ t ∈ ts, t.kind ≠ .endOfFile) (heof : eof.kind = .endOfFile) :
    Lines (ts ++ [eof]) (split (ts ++ [eof])) :=
  lines_splitFrom (List.forall_mem_nil _) hts heof

namespace Lines

theorem flatMap_tokens (h : Lines raw lines) : lines.flatMap tokens = raw := by
  induction h with
  | last => simp
  | cons _ _ _ ih => rw [List.flatMap_cons, ih]

theorem ends_of_mem (h : Lines raw lines) (hl : l ∈ lines) (ht : t ∈ l.body) : ends t = false := by
  induction h with
  | last hbody => rw [List.mem_singleton.mp hl] at ht; exact hbody t ht
  | cons hbody _ _ ih =>
    obtain rfl | hl := List.mem_cons.mp hl
    · exact hbody t ht
    · exact ih hl

theorem mem_of_mem (h : Lines raw lines) (hl : l ∈ lines) (ht : t ∈ l.tokens) : t ∈ raw := by
  rw [← h.flatMap_tokens]
  exact List.mem_flatMap.mpr ⟨l, hl, ht⟩

theorem kind_ender (h : Lines raw lines) (hl : l ∈ lines) :
    l.ender.kind = .endOfFile ∨ l.ender.kind = .newLine := by
  induction h with
  | last _ hender => rw [List.mem_singleton.mp hl]; exact .inl hender
  | cons _ hender _ ih =>
    obtain rfl | hl := List.mem_cons.mp hl
    · exact .inr hender
    · exact ih hl

end Lines

end RawLine

/-- The least depth among lines, zero if there is none. -/
def baseDepth (lines : List RawLine) : Nat :=
  (lines.map RawLine.depth).min?.getD 0

/-- The base is the depth of a line, and no line is less deep. -/
theorem baseDepth_spec {lines : List RawLine} (h : lines ≠ []) :
    (∃ l ∈ lines, l.depth = baseDepth lines) ∧ ∀ l ∈ lines, baseDepth lines ≤ l.depth := by
  obtain ⟨d, hd⟩ : ∃ d, (lines.map RawLine.depth).min? = some d := by
    rw [← Option.ne_none_iff_exists', ne_eq, List.min?_eq_none_iff, List.map_eq_nil_iff]
    exact h
  obtain ⟨hmem, hle⟩ := List.min?_eq_some_iff.mp hd
  rw [baseDepth, hd]
  exact ⟨List.mem_map.mp hmem, fun l hl => hle _ (List.mem_map_of_mem hl)⟩

theorem baseDepth_le {lines : List RawLine} {l : RawLine} (hl : l ∈ lines) (h : l.hasContent = true) :
    baseDepth (lines.filter RawLine.hasContent) ≤ l.depth := by
  have hmem : l ∈ lines.filter RawLine.hasContent := List.mem_filter.mpr ⟨hl, h⟩
  exact (baseDepth_spec (List.ne_nil_of_mem hmem)).2 l hmem

/-- The tidy lines of a scan, then the end of the file. -/
def layout (raw : Array Token) : Array Token :=
  let lines := (RawLine.split raw.toList).filter RawLine.hasContent
  let base := baseDepth lines
  (lines.flatMap (RawLine.tidy base)).toArray ++ raw.filter (fun t => t.kind == .endOfFile)

theorem filter_endOfFile {raw : Array Token} {ts : List Token} {eof : Token} (hraw : raw.toList = ts ++ [eof])
    (heof : eof.kind = .endOfFile) (hts : ∀ t ∈ ts, t.kind ≠ .endOfFile) :
    (raw.filter fun t => t.kind == .endOfFile).toList = [eof] := by
  rw [Array.toList_filter, hraw, List.filter_append, List.filter_eq_nil_iff.mpr, List.nil_append]
  · simp [heof]
  · exact fun t ht => by simpa using hts t ht

/-- The tokens of the layout of a scan. -/
theorem toList_layout {raw : Array Token} {ts : List Token} {eof : Token} (hraw : raw.toList = ts ++ [eof])
    (heof : eof.kind = .endOfFile) (hts : ∀ t ∈ ts, t.kind ≠ .endOfFile) :
    (layout raw).toList = ((RawLine.split raw.toList).filter RawLine.hasContent).flatMap
      (RawLine.tidy (baseDepth ((RawLine.split raw.toList).filter RawLine.hasContent))) ++ [eof] := by
  rw [layout, Array.toList_append, filter_endOfFile hraw heof hts]

/-! ### The passes -/

namespace Layout

variable {raw line ts : List Token} {lines : List RawLine} {l : RawLine} {t eof : Token} {base : Nat}
  {cleaned : Array Token}

theorem splitFrom_eq (done : List RawLine) (line : List Token) (heof : ends eof = true) :
    splitFrom (done.map RawLine.tokens) line (ts ++ [eof]) =
      (RawLine.splitFrom done line (ts ++ [eof])).map RawLine.tokens := by
  induction ts generalizing done line with
  | nil => simp [splitFrom, RawLine.splitFrom, heof, RawLine.tokens]
  | cons t ts ih =>
    rw [List.cons_append, splitFrom, RawLine.splitFrom]
    split
    · rw [← ih (⟨line.reverse, t⟩ :: done), List.map_cons, RawLine.tokens, List.reverse_cons]
    · exact ih done (t :: line)

theorem isFormatting_ender (h : l.ender.kind = .endOfFile ∨ l.ender.kind = .newLine) :
    l.ender.isFormatting = true := by
  obtain h | h := h <;> rw [Token.isFormatting, h] <;> rfl

theorem hasContent_tokens (h : l.ender.kind = .endOfFile ∨ l.ender.kind = .newLine) :
    hasContent l.tokens = l.hasContent := by
  rw [hasContent, RawLine.tokens, List.any_append, List.any_cons, isFormatting_ender h]
  simp [RawLine.hasContent]

theorem leadingIndents_tokens (h : l.ender.kind = .endOfFile ∨ l.ender.kind = .newLine) :
    leadingIndents l.tokens = l.depth := by
  have hender : isIndent l.ender = false := by
    obtain h | h := h <;> rw [isIndent, h] <;> rfl
  rw [leadingIndents, RawLine.tokens, List.takeWhile_append, RawLine.depth]
  split
  · next hall => rw [List.takeWhile_cons_of_neg (by simp [hender]), List.append_nil, hall]
  · rfl

/-- A line that has lost its share of the indentation. -/
def shorten (base : Nat) (l : RawLine) : RawLine :=
  if l.hasContent then { l with body := l.body.drop base } else l

theorem ender_shorten (base : Nat) (l : RawLine) : (shorten base l).ender = l.ender := by
  rw [shorten]
  split <;> rfl

theorem mem_of_mem_shorten (ht : t ∈ (shorten base l).body) : t ∈ l.body := by
  rw [shorten] at ht
  split at ht
  · exact List.mem_of_mem_drop ht
  · exact ht

theorem depth_le_length (l : RawLine) : l.depth ≤ l.body.length :=
  (List.takeWhile_prefix _).length_le

/-- The rest of a line that has lost leading indents. -/
theorem drop_body (hbase : base ≤ l.depth) :
    l.body.drop base = (l.body.takeWhile isIndent).drop base ++ l.body.dropWhile isIndent := by
  conv_lhs => rw [← List.takeWhile_append_dropWhile (p := isIndent) (l := l.body)]
  exact List.drop_append_of_le_length hbase

theorem isIndent_of_mem_drop (ht : t ∈ (l.body.takeWhile isIndent).drop base) : isIndent t = true :=
  List.mem_takeWhile_imp (List.mem_of_mem_drop ht)

/-- Leading indents carry no meaning. -/
theorem hasContent_shorten (hbase : l.hasContent = true → base ≤ l.depth) :
    (shorten base l).hasContent = l.hasContent := by
  have hindents : ∀ is ts : List Token, (∀ t ∈ is, isIndent t = true) →
      (is ++ ts).any (fun t => !t.isFormatting) = ts.any fun t => !t.isFormatting := by
    intro is ts his
    have hnone : is.any (fun t => !t.isFormatting) = false := by
      refine List.any_eq_false.mpr fun t ht => ?_
      rw [Token.isFormatting, beq_iff_eq.mp (his t ht)]
      decide
    rw [List.any_append, hnone, Bool.false_or]
  rw [shorten]
  split
  · next hcontent =>
    show (l.body.drop base).any _ = l.body.any _
    rw [drop_body (hbase hcontent), hindents _ _ fun t ht => isIndent_of_mem_drop ht]
    conv_rhs => rw [← List.takeWhile_append_dropWhile (p := isIndent) (l := l.body)]
    exact (hindents _ _ fun t ht => List.mem_takeWhile_imp ht).symm
  · rfl

/-- In a line with content something stands behind the leading indents. -/
theorem exists_dropWhile (hcontent : l.hasContent = true) :
    ∃ u us, l.body.dropWhile isIndent = u :: us ∧ isIndent u = false := by
  have hhead := List.head?_dropWhile_not isIndent l.body
  cases hrest : l.body.dropWhile isIndent with
  | nil =>
    obtain ⟨t, ht, hmeaning⟩ := List.any_eq_true.mp hcontent
    have hindent := List.dropWhile_eq_nil_iff.mp hrest t ht
    rw [Token.isFormatting, beq_iff_eq.mp hindent] at hmeaning
    cases hmeaning
  | cons u us =>
    rw [hrest] at hhead
    exact ⟨u, us, rfl, hhead⟩

theorem tidy_shorten (hcontent : l.hasContent = true) (hbase : base ≤ l.depth) :
    (shorten base l).tidy 0 = l.tidy base := by
  have hindents : ∀ t ∈ (l.body.takeWhile isIndent).drop base, isIndent t = true :=
    fun t ht => isIndent_of_mem_drop ht
  obtain ⟨u, us, hrest, hu⟩ := exists_dropWhile hcontent
  have hu : ¬isIndent u = true := by simp [hu]
  rw [shorten, if_pos hcontent, RawLine.tidy, RawLine.tidy, List.drop_zero, drop_body hbase, hrest,
    List.takeWhile_append_of_pos hindents, List.takeWhile_cons_of_neg hu, List.append_nil,
    List.dropWhile_append_of_pos hindents, List.dropWhile_cons_of_neg hu]
  rfl

/-- The lines stay lines. -/
theorem lines_shorten (h : RawLine.Lines raw lines) (base : Nat) : ∃ raw',
    RawLine.Lines raw' (lines.map (shorten base)) ∧ raw' ⊆ raw ∧ raw'.getLast? = raw.getLast? := by
  have hsubset : ∀ l : RawLine, (shorten base l).tokens ⊆ l.tokens := by
    intro l t ht
    rw [RawLine.tokens, ender_shorten] at ht
    exact List.append_subset.mpr
      ⟨fun u hu => List.mem_append_left _ (mem_of_mem_shorten hu), List.subset_append_right _ _⟩ ht
  have hlast : ∀ l : RawLine, l.tokens.getLast? = some l.ender := fun l => List.getLast?_concat
  induction h with
  | @last l hends hender =>
    refine ⟨_, .last (fun t ht => hends t (mem_of_mem_shorten ht)) (by rwa [ender_shorten]), hsubset l, ?_⟩
    rw [hlast, hlast, ender_shorten]
  | @cons l ts ls hends hender hrest ih =>
    obtain ⟨raw', hlines, hraw', heq⟩ := ih
    refine ⟨_, .cons (fun t ht => hends t (mem_of_mem_shorten ht)) (by rwa [ender_shorten]) hlines,
      List.append_subset.mpr ⟨List.Subset.trans (hsubset l) (List.subset_append_left _ _),
        List.Subset.trans hraw' (List.subset_append_right _ _)⟩, ?_⟩
    rw [List.getLast?_append, List.getLast?_append, heq, hlast, hlast, ender_shorten]

/-- The first pass. -/
theorem outdent_tokens (h : ∀ l ∈ lines, l.ender.kind = .endOfFile ∨ l.ender.kind = .newLine) :
    outdent (lines.map RawLine.tokens) =
      (lines.map (shorten (baseDepth (lines.filter RawLine.hasContent)))).map RawLine.tokens := by
  have hfilter : (lines.map RawLine.tokens).filter hasContent =
      (lines.filter RawLine.hasContent).map RawLine.tokens := by
    rw [List.filter_map]
    exact congrArg _ (List.filter_congr fun l hl => hasContent_tokens (h l hl))
  have hbase : (((lines.map RawLine.tokens).filter hasContent).map leadingIndents).min?.getD 0 =
      baseDepth (lines.filter RawLine.hasContent) := by
    rw [hfilter, List.map_map, baseDepth]
    exact congrArg (·.min?.getD 0)
      (List.map_congr_left fun l hl => leadingIndents_tokens (h l (List.mem_filter.mp hl).1))
  rw [outdent, hbase, List.map_map, List.map_map]
  refine List.map_congr_left fun l hl => ?_
  show (if hasContent l.tokens then l.tokens.drop _ else l.tokens) = (shorten _ l).tokens
  rw [hasContent_tokens (h l hl), shorten]
  split
  · next hcontent =>
    rw [RawLine.tokens, List.drop_append_of_le_length ((baseDepth_le hl hcontent).trans (depth_le_length l)),
      RawLine.tokens]
  · rfl

/-- What the second pass makes of a line. -/
def terminated (l : RawLine) : List Token :=
  if l.hasContent then l.body ++ [l.terminator] else []

theorem addLine_newLine (out : Array Token) (h : l.ender.kind = .newLine) :
    addLine (out, none) l.tokens = (out ++ terminated l, none) := by
  have hlast : l.tokens.getLast? = some l.ender := List.getLast?_concat
  have hkind : l.ender.kind ≠ .endOfFile := by simp [h]
  simp only [addLine, hlast, if_neg hkind, hasContent_tokens (.inr h), terminated]
  split
  · rw [terminateLine, hlast]
    simp only [if_pos h]
    rw [RawLine.tokens, List.dropLast_concat, RawLine.terminator, if_pos h]
  · simp

/-- The terminator of the last line is in the module of that line. -/
theorem addLine_endOfFile (out : Array Token) (h : l.ender.kind = .endOfFile)
    (hends : ∀ t ∈ l.body, ends t = false) (hname : ∀ t ∈ l.body, t.moduleName = l.ender.moduleName) :
    addLine (out, none) l.tokens = (out ++ terminated l, some l.ender) := by
  have hlast : l.tokens.getLast? = some l.ender := List.getLast?_concat
  have hne : l.ender.kind ≠ .newLine := by simp [h]
  have hline : l.tokens.dropLast = l.body := List.dropLast_concat
  simp only [addLine, hlast, if_pos h, hline, terminated]
  show (if l.hasContent then _ else _, _) = _
  split
  · next hcontent =>
    obtain ⟨last, hbody⟩ : ∃ last, l.body.getLast? = some last := by
      rw [← Option.ne_none_iff_exists', ne_eq, List.getLast?_eq_none_iff]
      intro hnil
      rw [RawLine.hasContent, hnil] at hcontent
      cases hcontent
    have hmem := List.mem_of_getLast? hbody
    have hkind : last.kind ≠ .newLine := by
      intro hkind
      have hends := hends last hmem
      rw [ends, hkind] at hends
      cases hends
    rw [terminateLine, hbody]
    simp only [if_neg hkind, Option.map_some, Option.getD_some]
    rw [RawLine.terminator, if_neg hne, hname last hmem]
  · simp

/-- The second pass, by induction on the lines. -/
theorem foldl_addLine (moduleName : String) (h : RawLine.Lines raw lines)
    (hraw : ∀ t ∈ raw, t.moduleName = moduleName) (out : Array Token) :
    ∃ eof, raw.getLast? = some eof ∧
      (lines.map RawLine.tokens).foldl addLine (out, none) =
        (out ++ lines.flatMap terminated, some eof) := by
  induction h generalizing out with
  | @last l hends hender =>
    refine ⟨l.ender, List.getLast?_concat, ?_⟩
    have hname : ∀ t ∈ l.body, t.moduleName = l.ender.moduleName := fun t ht =>
      (hraw t (List.mem_append_left _ ht)).trans (hraw _ (by simp [RawLine.tokens])).symm
    rw [List.map_cons, List.foldl_cons, addLine_endOfFile out hender hends hname]
    simp only [List.map_nil, List.foldl_nil, List.flatMap_cons, List.flatMap_nil, List.append_nil]
  | @cons l ts ls hends hender hrest ih =>
    obtain ⟨eof, heof, hfold⟩ := ih (fun t ht => hraw t (List.mem_append_right _ ht)) (out ++ terminated l)
    refine ⟨eof, ?_, ?_⟩
    · rw [List.getLast?_append, heof]
      rfl
    · rw [List.map_cons, List.foldl_cons, addLine_newLine out hender, hfold, List.flatMap_cons]
      refine congrArg (·, some eof) (Array.toList_inj.mp ?_)
      simp only [Array.toList_appendList, List.append_assoc]

/-- Indents that lead a line are kept. -/
theorem foldl_keep_indents (hleads : leads cleaned.back? = true) (hts : ∀ t ∈ ts, isIndent t = true) :
    ts.foldl keep cleaned = cleaned ++ ts ∧ leads (cleaned ++ ts).back? = true := by
  induction ts generalizing cleaned with
  | nil => simpa using hleads
  | cons t ts ih =>
    obtain ⟨ht, hts⟩ := List.forall_mem_cons.mp hts
    have hpush : leads (cleaned.push t).back? = true := by
      rw [Array.back?_push, leads, ← isIndent, ht, Bool.or_true]
    have hkeep : keep cleaned t = cleaned.push t := by
      rw [keep, hleads, Bool.not_true, Bool.and_false]
      rfl
    rw [List.foldl_cons, hkeep, Array.appendList_cons]
    exact ih hpush hts

/-- Behind a token with meaning, indents are dropped. -/
theorem foldl_keep_content (hleads : leads cleaned.back? = false)
    (hts : ∀ t ∈ ts, t.kind ≠ .statementTerminator) :
    ts.foldl keep cleaned = cleaned ++ ts.filter (fun t => !isIndent t) := by
  induction ts generalizing cleaned with
  | nil => simp
  | cons t ts ih =>
    obtain ⟨ht, hts⟩ := List.forall_mem_cons.mp hts
    rw [List.foldl_cons, keep, hleads]
    cases hindent : isIndent t with
    | true =>
      rw [List.filter_cons_of_neg (by simp [hindent])]
      exact ih hleads hts
    | false =>
      have hpush : leads (cleaned.push t).back? = false := by
        rw [Array.back?_push, leads, ← isIndent, hindent, beq_eq_false_iff_ne.mpr ht]
        rfl
      rw [List.filter_cons_of_pos (by simp [hindent]), Array.appendList_cons]
      exact ih hpush hts

/-- The third pass makes a line tidy, and the next line begins behind it. -/
theorem foldl_keep_terminated (hleads : leads cleaned.back? = true) (hcontent : l.hasContent = true)
    (hkind : ∀ t ∈ l.body, t.kind ≠ .statementTerminator) :
    (terminated l).foldl keep cleaned = cleaned ++ l.tidy 0 ∧ leads (cleaned ++ l.tidy 0).back? = true := by
  have hterminator : l.terminator.kind = .statementTerminator := by
    rw [RawLine.terminator]
    split <;> rfl
  obtain ⟨u, us, hrest, hu⟩ := exists_dropWhile hcontent
  have hmem : ∀ t ∈ u :: us, t ∈ l.body := fun t ht => List.dropWhile_subset _ (hrest ▸ ht)
  -- the indents, the first token behind them, the other tokens and the terminator
  have his : ∀ t ∈ l.body.takeWhile isIndent, isIndent t = true := fun t ht => List.mem_takeWhile_imp ht
  have hindents := foldl_keep_indents hleads his
  generalize hstart : cleaned ++ l.body.takeWhile isIndent = start at hindents
  have hfirst : keep start u = start.push u := by
    rw [keep, hu]
    rfl
  have hpushed : leads (start.push u).back? = false := by
    rw [Array.back?_push, leads, ← isIndent, hu,
      beq_eq_false_iff_ne.mpr (hkind u (hmem u List.mem_cons_self))]
    rfl
  have hothers := foldl_keep_content hpushed fun t ht => hkind t (hmem t (List.mem_cons_of_mem u ht))
  have hlast : isIndent l.terminator = false := by
    rw [isIndent, hterminator]
    rfl
  have htidy : cleaned ++ l.tidy 0 =
      (start.push u ++ us.filter fun t => !isIndent t).push l.terminator := by
    rw [← hstart, RawLine.tidy, hrest, List.drop_zero, List.filter_cons_of_pos (by simp [hu])]
    apply Array.toList_inj.mp
    simp
  have hbody : l.body.foldl keep cleaned = start.push u ++ us.filter fun t => !isIndent t := by
    rw [← List.takeWhile_append_dropWhile (p := isIndent) (l := l.body), hrest, List.foldl_append,
      hindents.1, List.foldl_cons, hfirst, hothers]
  rw [htidy, terminated, if_pos hcontent, List.foldl_append, hbody, List.foldl_cons, List.foldl_nil, keep,
    hlast, Array.back?_push, leads, hterminator]
  exact ⟨rfl, rfl⟩

/-- The third pass, by induction on the lines. -/
theorem foldl_keep_lines (hleads : leads cleaned.back? = true)
    (hkind : ∀ l ∈ lines, ∀ t ∈ l.body, t.kind ≠ .statementTerminator) :
    (lines.flatMap terminated).foldl keep cleaned =
        cleaned ++ (lines.filter RawLine.hasContent).flatMap (RawLine.tidy 0) := by
  induction lines generalizing cleaned with
  | nil => rfl
  | cons l lines ih =>
    obtain ⟨hl, hlines⟩ := List.forall_mem_cons.mp hkind
    rw [List.flatMap_cons, List.foldl_append, List.filter_cons]
    split
    · next hcontent =>
      obtain ⟨hfold, hleads'⟩ := foldl_keep_terminated hleads hcontent hl
      rw [hfold, ih hleads' hlines, List.flatMap_cons]
      apply Array.toList_inj.mp
      simp
    · next hcontent =>
      rw [terminated, if_neg hcontent]
      exact ih hleads hlines

end Layout

open Layout

/-- The passes, one after the other, tidy every line of a scan. -/
theorem cleanFormatting_eq_layout {moduleName : String} {raw : Array Token} {ts : List Token} {eof : Token}
    (hraw : raw.toList = ts ++ [eof]) (heof : eof.kind = .endOfFile)
    (hkind : ∀ t ∈ ts, t.kind ≠ .endOfFile ∧ t.kind ≠ .statementTerminator)
    (hname : ∀ t ∈ raw.toList, t.moduleName = moduleName) : cleanFormatting raw = layout raw := by
  have hlines : RawLine.Lines raw.toList (RawLine.split raw.toList) := by
    rw [hraw]
    exact RawLine.lines_split (fun t ht => (hkind t ht).1) heof
  have hsplit : splitLines raw.toList = (RawLine.split raw.toList).map RawLine.tokens := by
    rw [hraw]
    exact splitFrom_eq [] [] (by simp [ends, heof])
  set lines := RawLine.split raw.toList
  set base := baseDepth (lines.filter RawLine.hasContent)
  obtain ⟨raw', hlines', hsubset, hlast⟩ := lines_shorten hlines base
  obtain ⟨eof', heof', hfold⟩ := foldl_addLine moduleName hlines' (fun t ht => hname t (hsubset ht)) #[]
  obtain rfl : eof = eof' := by
    rw [hlast, hraw, List.getLast?_concat] at heof'
    exact Option.some_inj.mp heof'
  have hbodies : ∀ l ∈ lines.map (shorten base), ∀ t ∈ l.body, t.kind ≠ .statementTerminator := by
    refine List.forall_mem_map.mpr fun l hl t ht => ?_
    have hmem := hlines.mem_of_mem hl (List.mem_append_left _ (mem_of_mem_shorten ht))
    rw [hraw, List.mem_append, List.mem_singleton] at hmem
    obtain hmem | rfl := hmem
    · exact (hkind t hmem).2
    · simp [heof]
  have hkeep := @foldl_keep_lines (lines.map (shorten base)) #[] rfl hbodies
  have htidy : ((lines.map (shorten base)).filter RawLine.hasContent).flatMap (RawLine.tidy 0) =
      (lines.filter RawLine.hasContent).flatMap (RawLine.tidy base) := by
    rw [List.filter_map, List.flatMap_map]
    have hfilter : lines.filter (RawLine.hasContent ∘ shorten base) = lines.filter RawLine.hasContent :=
      List.filter_congr fun l hl => hasContent_shorten (baseDepth_le hl)
    rw [hfilter]
    exact List.flatMap_congr fun l hl =>
      have hl := List.mem_filter.mp hl
      tidy_shorten hl.2 (baseDepth_le hl.1 hl.2)
  have hindent : isIndent eof = false := by
    rw [isIndent, heof]
    rfl
  rw [cleanFormatting, hsplit, outdent_tokens fun l hl => hlines.kind_ender hl, terminate, hfold, dropInner,
    ← Array.foldl_toList, Array.toList_push, List.foldl_concat, Array.toList_appendList, List.nil_append,
    hkeep, keep, hindent, htidy]
  apply Array.toList_inj.mp
  rw [toList_layout hraw heof fun t ht => (hkind t ht).1]
  simp [lines, base]

/-- The only end of the file in a scan is its last token, and there are no terminators yet. -/
theorem exists_eof_of_scan {moduleName source : String} {raw : Array Token}
    (h : scan moduleName source = .ok raw) : ∃ (ts : List Token) (eof : Token),
      raw.toList = ts ++ [eof] ∧ eof.kind = .endOfFile ∧
      (∀ t ∈ ts, t.kind ≠ .endOfFile ∧ t.kind ≠ .statementTerminator) ∧
      ∀ t ∈ raw.toList, t.moduleName = moduleName := by
  obtain ⟨s, pieces, hs, -, hname, hraw⟩ := Scanner.exists_of_scan h
  refine ⟨_, _, hraw, rfl, fun t ht => hs.kind_ne ht, fun t ht => ?_⟩
  rw [hraw, List.mem_append, List.mem_singleton] at ht
  obtain ht | rfl := ht
  · rw [← hname]
    exact (hs.fits_token ht).1
  · rfl

/-- The tokens of a text are its tidy lines. -/
theorem tokenize_eq_layout (moduleName source : String) :
    tokenize moduleName source = (scan moduleName source).map layout := by
  rw [tokenize]
  cases h : scan moduleName source with
  | error e => rfl
  | ok raw =>
    obtain ⟨ts, eof, hraw, heof, hkind, hname⟩ := exists_eof_of_scan h
    exact congrArg Except.ok (cleanFormatting_eq_layout hraw heof hkind hname)

theorem RawLine.kind_of_mem_tidy {l : RawLine} {base : Nat} {t : Token}
    (hends : ∀ t ∈ l.body, ends t = false) (ht : t ∈ l.tidy base) : t.kind ≠ .endOfFile := by
  have hbody : t ∈ l.body → t.kind ≠ .endOfFile := by
    intro hmem hkind
    have hends := hends t hmem
    rw [ends, hkind] at hends
    cases hends
  rw [tidy, List.mem_append, List.mem_append, List.mem_singleton] at ht
  obtain (ht | ht) | rfl := ht
  · exact hbody (List.takeWhile_subset _ (List.mem_of_mem_drop ht))
  · exact hbody (List.dropWhile_subset _ (List.mem_filter.mp ht).1)
  · rw [terminator]
    split <;> simp

/-- Nothing stands behind the end of the file. -/
theorem exists_eof_of_tokenize {moduleName source : String} {tokens : Array Token}
    (h : tokenize moduleName source = .ok tokens) : ∃ (ts : List Token) (eof : Token),
      tokens.toList = ts ++ [eof] ∧ eof.kind = .endOfFile ∧ ∀ t ∈ ts, t.kind ≠ .endOfFile := by
  rw [tokenize_eq_layout] at h
  cases hscan : scan moduleName source with
  | error e =>
    rw [hscan] at h
    cases h
  | ok raw =>
    rw [hscan] at h
    cases h
    obtain ⟨ts, eof, hraw, heof, hkind, -⟩ := exists_eof_of_scan hscan
    have hlines : RawLine.Lines raw.toList (RawLine.split raw.toList) := by
      rw [hraw]
      exact RawLine.lines_split (fun t ht => (hkind t ht).1) heof
    refine ⟨_, eof, toList_layout hraw heof fun t ht => (hkind t ht).1, heof, fun t ht => ?_⟩
    obtain ⟨l, hl, ht⟩ := List.mem_flatMap.mp ht
    exact RawLine.kind_of_mem_tidy (fun t ht => hlines.ends_of_mem (List.mem_filter.mp hl).1 ht) ht

end WordScript
