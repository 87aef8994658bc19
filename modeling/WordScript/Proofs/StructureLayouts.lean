/-
The layouts of structures, after any history of the table of types.

The size of a structure is written down when its fields are laid out, and from then on it is
looked up.  So it rests on the sizes that were written down before, and what has to be shown is
that it is the number of words that the structure expands to, fields within fields, whatever has
been entered meanwhile, and that no structure can come to lie within itself.

* `Expansion` — the words of a type, by the fields and elements that they belong to;
* `TypeTable.Expands` — what a type expands to;
* `TypeTable.Contains` — a structure has another within itself;
* `TypeTable.Laid` — the invariant; `TypeTable.Laid.perform` keeps it;
* `layouts_exact` — what holds after any operations.

Design notes: the invariant says of a complete structure that laying its fields out again would
give what has been written down, and that their types expand.  The first is about sizes and would
hold of a structure without words that lies within itself; the second rules that out, since the
expansion of a field is a smaller tree than that of its structure.
-/
import Mathlib.Data.List.Forall2
import WordScript.Proofs.Tiling
import WordScript.Proofs.TypeSizes

namespace WordScript

namespace Ty

/-- A value of the type is a single word. -/
def isWord : Ty → Bool
  | bool | int | float | string | list _ | pointer _ | reference _ => true
  | _ => false

/-- The structure that the values of a type are made of: itself, or that of the elements of a span. -/
def embedded? : Ty → Option Nat
  | structure_ id => some id
  | span element _ => embedded? element
  | _ => none

/-- What a word refers to lies somewhere else. -/
theorem embedded?_of_isWord {ty : Ty} (h : ty.isWord = true) : ty.embedded? = none := by
  cases ty <;> first | rfl | cases h

end Ty

/-- The words of a type, by the fields and elements that they belong to. -/
inductive Expansion where
  | nothing
  | word (ty : Ty)
  | span (element : Expansion) (length : UInt16)
  | structure_ (fields : List Expansion)

namespace Expansion

mutual

/-- The words one after the other. -/
def scalars : Expansion → List Ty
  | nothing => []
  | word ty => [ty]
  | span element length => (List.replicate length.toNat (scalars element)).flatten
  | structure_ fields => scalarsIn fields

/-- The words of some fields one after the other. -/
def scalarsIn : List Expansion → List Ty
  | [] => []
  | e :: es => scalars e ++ scalarsIn es

end

/-- The number of words. -/
def words (e : Expansion) : Nat :=
  e.scalars.length

mutual

/-- The words can be counted without a product or a sum that has more than 32 bits. -/
def Countable : Expansion → Prop
  | nothing | word _ => True
  | span element length => Countable element ∧ element.words * length.toNat < 4294967296
  | structure_ fields => CountableFrom 0 fields

/-- The words of some fields, with those that come before them. -/
def CountableFrom : Nat → List Expansion → Prop
  | _, [] => True
  | offset, e :: es =>
    Countable e ∧ offset + e.words < 4294967296 ∧ CountableFrom (offset + e.words) es

end

@[simp] theorem words_nothing : nothing.words = 0 := by
  rw [words, scalars, List.length_nil]

@[simp] theorem words_word (ty : Ty) : (word ty).words = 1 := by
  rw [words, scalars, List.length_singleton]

@[simp] theorem words_span (element : Expansion) (length : UInt16) :
    (span element length).words = element.words * length.toNat := by
  rw [words, scalars, List.length_flatten, List.map_replicate, List.sum_replicate_nat,
    Nat.mul_comm, words]

theorem words_structure (fields : List Expansion) :
    (structure_ fields).words = (fields.map words).sum := by
  rw [words, scalars]
  induction fields with
  | nil => rfl
  | cons e es ih => rw [scalarsIn, List.length_append, ih, List.map_cons, List.sum_cons, words]

end Expansion

namespace TypeTable

mutual

/-- What a type expands to.  A placeholder expands to nothing, and neither does a template that waits
for its arguments or a structure that is not complete. -/
inductive Expands (t : TypeTable) : Ty → Expansion → Prop
  | void : Expands t .void .nothing
  | word {ty : Ty} (h : ty.isWord = true) : Expands t ty (.word ty)
  | span {element : Ty} {e : Expansion} {length : UInt16} (h : Expands t element e) :
    Expands t (.span element length) (.span e length)
  | structure_ {id : Nat} {es : List Expansion} (hcomplete : (t.at_ id).complete = true)
      (h : ExpandsAll t ((t.at_ id).fields.map Field.ty) es) :
    Expands t (.structure_ id) (.structure_ es)

/-- What some types expand to, each for itself. -/
inductive ExpandsAll (t : TypeTable) : List Ty → List Expansion → Prop
  | nil : ExpandsAll t [] []
  | cons {ty : Ty} {e : Expansion} {tys : List Ty} {es : List Expansion} (h : Expands t ty e)
      (hs : ExpandsAll t tys es) :
    ExpandsAll t (ty :: tys) (e :: es)

end

/-- A complete structure has another within itself, as a field or as the elements of one. -/
def Contains (t : TypeTable) (a b : Nat) : Prop :=
  (t.at_ a).complete = true ∧ ∃ f ∈ (t.at_ a).fields, f.ty.embedded? = some b

end TypeTable

/-- A field as it was declared. -/
def Field.declared (f : Field) : String × Ty :=
  (f.name, f.ty)

namespace TypeTable

/-- A structure is as it would be laid out now, and the types of its fields expand. -/
structure LaidOut (t : TypeTable) (id : Nat) : Prop where
  layout : t.layoutFields 0 ((t.at_ id).fields.map Field.declared) =
    .ok ((t.at_ id).fields, (t.at_ id).wordLength)
  expanded : ∃ es, t.ExpandsAll ((t.at_ id).fields.map Field.ty) es

/-- Every complete structure is. -/
def Laid (t : TypeTable) : Prop :=
  ∀ id, (t.at_ id).complete = true → t.LaidOut id

variable {t t' : TypeTable}

/-! ### Fields in a line -/

/-- What has been laid out are the fields that were given, in a line. -/
theorem layoutFields_lined {fields : List (String × Ty)} :
    ∀ {a b : Nat} {laid : List Field}, t.layoutFields a fields = .ok (laid, b) →
      laid.map Field.declared = fields ∧ (∀ f ∈ laid, t.HasSize f.ty) ∧
        Segment.Lined a (laid.map fun f => ⟨f.offset, t.words f.ty⟩) b := by
  induction fields with
  | nil =>
    intro a b laid h
    cases h
    exact ⟨rfl, fun f hf => (nomatch hf), .nil a⟩
  | cons field rest ih =>
    obtain ⟨name, ty⟩ := field
    intro a b laid h
    rw [layoutFields] at h
    split at h
    · cases h
    · rename_i n hn
      split at h
      · split at h
        · cases h
        · rename_i laid' b' hrest
          cases h
          obtain ⟨hfields, hsizes, hlined⟩ := ih hrest
          have hwords := words_of_wordLength hn
          refine ⟨?_, ?_, ?_⟩
          · rw [List.map_cons, hfields, Field.declared]
          · exact List.forall_mem_cons.mpr ⟨hasSize_of_wordLength hn, hsizes⟩
          · rw [List.map_cons, hwords]
            exact .cons hlined
      · cases h

/-- The layout of fields rests on their sizes only. -/
theorem layoutFields_keep (hk : t.Keeps t') {fields : List (String × Ty)} :
    ∀ {a : Nat} {r : List Field × Nat}, t.layoutFields a fields = .ok r →
      t'.layoutFields a fields = .ok r := by
  induction fields with
  | nil => exact fun h => h
  | cons field rest ih =>
    obtain ⟨name, ty⟩ := field
    intro a r h
    rw [layoutFields] at h
    split at h
    · cases h
    · rename_i n hn
      rw [layoutFields, wordLength_keep hk hn]
      dsimp only
      split at h
      · rw [if_pos ‹_›]
        split at h
        · cases h
        · rw [ih ‹_›]
          exact h
      · cases h

/-! ### Expansions and sizes -/

mutual

/-- A type expands to the same when more structures are laid out. -/
theorem Expands.keep (hk : t.Keeps t') : ∀ {e : Expansion} {ty : Ty}, t.Expands ty e →
    t'.Expands ty e
  | .nothing, _, .void => .void
  | .word _, _, .word h => .word h
  | .span _ _, _, .span h => .span (Expands.keep hk h)
  | .structure_ _, .structure_ id, .structure_ hcomplete h => by
    have hlayout := hk.layout id hcomplete
    have hfields : (t'.at_ id).fields = (t.at_ id).fields := congrArg (fun l => l.1) hlayout
    refine .structure_ ((congrArg (fun l => l.2.2) hlayout).trans hcomplete) ?_
    rw [hfields]
    exact ExpandsAll.keep hk h

theorem ExpandsAll.keep (hk : t.Keeps t') : ∀ {es : List Expansion} {tys : List Ty},
    t.ExpandsAll tys es → t'.ExpandsAll tys es
  | [], _, .nil => .nil
  | _ :: _, _, .cons h hs => .cons (Expands.keep hk h) (ExpandsAll.keep hk hs)

end

theorem wordLength_of_isWord {ty : Ty} (h : ty.isWord = true) : t.wordLength ty = .ok 1 := by
  cases ty <;> first | rfl | cases h

theorem wordLength_span {element : Ty} {length : UInt16} {n : Nat} :
    t.wordLength (.span element length) = .ok n ↔
      ∃ m, t.wordLength element = .ok m ∧ m * length.toNat = n ∧ n < 4294967296 := by
  rw [wordLength]
  constructor
  · intro h
    split at h
    · cases h
    · rename_i m hm
      dsimp only at h
      split at h
      · cases h
        exact ⟨m, hm, rfl, ‹_›⟩
      · cases h
  · rintro ⟨m, hm, rfl, hlt⟩
    rw [hm]
    exact if_pos hlt

theorem wordLength_structure {id n : Nat} : t.wordLength (.structure_ id) = .ok n ↔
    (t.at_ id).complete = true ∧ (t.at_ id).wordLength = n := by
  rw [wordLength]
  constructor
  · intro h
    split at h
    · cases h
      exact ⟨‹_›, rfl⟩
    · cases h
  · rintro ⟨hcomplete, rfl⟩
    exact if_pos hcomplete

theorem layoutFields_cons {a b : Nat} {name : String} {ty : Ty} {rest : List (String × Ty)} :
    (∃ laid, t.layoutFields a ((name, ty) :: rest) = .ok (laid, b)) ↔
      ∃ n, t.wordLength ty = .ok n ∧ a + n < 4294967296 ∧
        ∃ laid, t.layoutFields (a + n) rest = .ok (laid, b) := by
  rw [layoutFields]
  constructor
  · rintro ⟨laid, h⟩
    split at h
    · cases h
    · split at h
      · split at h
        · cases h
        · cases h
          exact ⟨_, ‹_›, ‹_›, _, ‹_›⟩
      · cases h
  · rintro ⟨n, hn, hlt, laid, hlaid⟩
    rw [hn]
    dsimp only
    rw [if_pos hlt, hlaid]
    exact ⟨_, rfl⟩

/-- A type that has a size expands. -/
theorem Laid.exists_expands (h : t.Laid) : ∀ {ty : Ty} {n : Nat}, t.wordLength ty = .ok n →
    ∃ e, t.Expands ty e
  | .void, _, _ => ⟨_, .void⟩
  | .bool, _, _ | .int, _, _ | .float, _, _ | .string, _, _ | .list _, _, _ | .pointer _, _, _
  | .reference _, _, _ => ⟨_, .word rfl⟩
  | .span _ _, _, hn => by
    obtain ⟨m, hm, -⟩ := wordLength_span.mp hn
    obtain ⟨e, he⟩ := h.exists_expands hm
    exact ⟨_, .span he⟩
  | .structure_ id, _, hn => by
    have hcomplete := (wordLength_structure.mp hn).1
    obtain ⟨es, hes⟩ := (h id hcomplete).expanded
    exact ⟨_, .structure_ hcomplete hes⟩
  | .placeholder _, _, hn | .generic _ _, _, hn => nomatch hn

theorem Laid.exists_expandsAll (h : t.Laid) : ∀ {tys : List Ty}, (∀ ty ∈ tys, t.HasSize ty) →
    ∃ es, t.ExpandsAll tys es
  | [], _ => ⟨_, .nil⟩
  | _ :: _, hsizes => by
    obtain ⟨hty, htys⟩ := List.forall_mem_cons.mp hsizes
    obtain ⟨e, he⟩ := h.exists_expands hty
    obtain ⟨es, hes⟩ := h.exists_expandsAll htys
    exact ⟨_, .cons he hes⟩

mutual

/-- A type that expands has a size if its words can be counted, and the size is their number. -/
theorem Expands.wordLength_iff (h : t.Laid) : ∀ {e : Expansion} {ty : Ty} {n : Nat},
    t.Expands ty e → (t.wordLength ty = .ok n ↔ e.words = n ∧ e.Countable)
  | .nothing, _, n, .void => by
    rw [wordLength, Expansion.words_nothing, Expansion.Countable]
    simp
  | .word _, _, n, .word hword => by
    rw [wordLength_of_isWord hword, Expansion.words_word, Expansion.Countable]
    simp
  | .span e length, _, n, .span he => by
    rw [wordLength_span, Expansion.words_span, Expansion.Countable]
    constructor
    · rintro ⟨m, hm, rfl, hlt⟩
      obtain ⟨rfl, hcountable⟩ := (Expands.wordLength_iff h he).mp hm
      exact ⟨rfl, hcountable, hlt⟩
    · rintro ⟨rfl, hcountable, hlt⟩
      exact ⟨_, (Expands.wordLength_iff h he).mpr ⟨rfl, hcountable⟩, rfl, hlt⟩
  | .structure_ es, .structure_ id, n, .structure_ hcomplete hes => by
    -- the size that was written down is that of the fields as they would be laid out now
    obtain ⟨hwords, hcountable⟩ := (ExpandsAll.layoutFields_iff h
      (by rwa [List.map_map]) : _ ↔ 0 + (es.map Expansion.words).sum = _ ∧ _).mp
        ⟨_, (h id hcomplete).layout⟩
    rw [wordLength_structure, Expansion.words_structure, Expansion.Countable, ← hwords, Nat.zero_add]
    exact ⟨fun hn => ⟨hn.2, hcountable⟩, fun hn => ⟨hcomplete, hn.1⟩⟩

theorem ExpandsAll.layoutFields_iff (h : t.Laid) : ∀ {es : List Expansion}
    {fields : List (String × Ty)} {a b : Nat}, t.ExpandsAll (fields.map Prod.snd) es →
      ((∃ laid, t.layoutFields a fields = .ok (laid, b)) ↔
        a + (es.map Expansion.words).sum = b ∧ Expansion.CountableFrom a es)
  | [], [], a, b, _ => by
    rw [layoutFields, Expansion.CountableFrom]
    simp
  | e :: es, (name, ty) :: rest, a, b, .cons he hes => by
    rw [layoutFields_cons, Expansion.CountableFrom, List.map_cons, List.sum_cons, ← Nat.add_assoc]
    constructor
    · rintro ⟨n, hn, hlt, hrest⟩
      obtain ⟨rfl, hcountable⟩ := (Expands.wordLength_iff h he).mp hn
      obtain ⟨hsum, hcountables⟩ := (ExpandsAll.layoutFields_iff h hes).mp hrest
      exact ⟨hsum, hcountable, hlt, hcountables⟩
    · rintro ⟨hsum, hcountable, hlt, hcountables⟩
      exact ⟨_, (Expands.wordLength_iff h he).mpr ⟨rfl, hcountable⟩, hlt,
        (ExpandsAll.layoutFields_iff h hes).mpr ⟨hsum, hcountables⟩⟩

end

/-- A type has a size if it expands to words that can be counted, and the size is their number. -/
theorem Laid.wordLength_iff (h : t.Laid) {ty : Ty} {n : Nat} :
    t.wordLength ty = .ok n ↔ ∃ e, t.Expands ty e ∧ e.words = n ∧ e.Countable := by
  constructor
  · intro hn
    obtain ⟨e, he⟩ := h.exists_expands hn
    exact ⟨e, he, (he.wordLength_iff h).mp hn⟩
  · rintro ⟨e, he, hwords⟩
    exact (he.wordLength_iff h).mpr hwords

/-- Fields are laid out if their types expand to words that can be counted. -/
theorem Laid.setFields_iff (h : t.Laid) {id : Nat} {fields : List (String × Ty)} :
    (∃ t', t.setFields id fields = .ok t') ↔
      ∃ es, t.ExpandsAll (fields.map Prod.snd) es ∧ Expansion.CountableFrom 0 es := by
  constructor
  · rintro ⟨t', ht'⟩
    obtain ⟨laid, total, hlaid, -⟩ := setFields_eq_ok ht'
    obtain ⟨hfields, hsizes, -⟩ := layoutFields_lined hlaid
    have htys : laid.map Field.ty = fields.map Prod.snd := by
      rw [← hfields, List.map_map]
      rfl
    obtain ⟨es, hes⟩ := h.exists_expandsAll (List.forall_mem_map.mpr hsizes)
    rw [htys] at hes
    exact ⟨es, hes, ((hes.layoutFields_iff h).mp ⟨laid, hlaid⟩).2⟩
  · rintro ⟨es, hes, hcountable⟩
    obtain ⟨laid, hlaid⟩ := (hes.layoutFields_iff h).mpr ⟨rfl, hcountable⟩
    rw [setFields, hlaid]
    exact ⟨_, rfl⟩

/-! ### No structure within itself -/

/-- What lies within a type that expands is complete, and expands to no more. -/
theorem Expands.of_embedded {b : Nat} : ∀ {e : Expansion} {ty : Ty}, t.Expands ty e →
    ty.embedded? = some b → ∃ e', t.Expands (.structure_ b) e' ∧ sizeOf e' ≤ sizeOf e
  | .nothing, _, .void, hb => nomatch hb
  | .word _, _, .word hword, hb => by
    rw [Ty.embedded?_of_isWord hword] at hb
    cases hb
  | .span e length, _, .span he, hb => by
    obtain ⟨e', he', hle⟩ := he.of_embedded hb
    refine ⟨e', he', ?_⟩
    rw [Expansion.span.sizeOf_spec]
    omega
  | .structure_ es, _, .structure_ hcomplete hes, hb => by
    cases hb
    exact ⟨_, .structure_ hcomplete hes, Nat.le_refl _⟩

theorem ExpandsAll.exists_mem {ty : Ty} {es : List Expansion} {tys : List Ty}
    (h : t.ExpandsAll tys es) (hty : ty ∈ tys) : ∃ e ∈ es, t.Expands ty e := by
  induction es generalizing tys with
  | nil =>
    cases h
    cases hty
  | cons _ es ih =>
    cases h with
    | cons he hes =>
      cases hty with
      | head => exact ⟨_, List.mem_cons_self, he⟩
      | tail _ hty =>
        obtain ⟨e, hmem, he⟩ := ih hes hty
        exact ⟨e, List.mem_cons_of_mem _ hmem, he⟩

/-- What lies within a structure expands to less than the structure. -/
theorem Expands.of_contains {a b : Nat} {e : Expansion} (he : t.Expands (.structure_ a) e)
    (h : t.Contains a b) : ∃ e', t.Expands (.structure_ b) e' ∧ sizeOf e' < sizeOf e := by
  obtain ⟨-, f, hf, hb⟩ := h
  cases he with
  | word hword => cases hword
  | structure_ hcomplete hes =>
    obtain ⟨e', hmem, he'⟩ := hes.exists_mem (List.mem_map_of_mem hf)
    obtain ⟨e'', he'', hle⟩ := he'.of_embedded hb
    refine ⟨e'', he'', ?_⟩
    have hlt := List.sizeOf_lt_of_mem hmem
    rw [Expansion.structure_.sizeOf_spec]
    omega

theorem Expands.of_transGen {a b : Nat} {e : Expansion} (he : t.Expands (.structure_ a) e)
    (h : Relation.TransGen t.Contains a b) :
    ∃ e', t.Expands (.structure_ b) e' ∧ sizeOf e' < sizeOf e := by
  induction h with
  | single h => exact he.of_contains h
  | tail _ h ih =>
    obtain ⟨e', he', hlt⟩ := ih
    obtain ⟨e'', he'', hlt'⟩ := he'.of_contains h
    exact ⟨e'', he'', Nat.lt_trans hlt' hlt⟩

/-- Otherwise it would have smaller and smaller expansions. -/
theorem Expands.not_transGen {a : Nat} {e : Expansion} (he : t.Expands (.structure_ a) e) :
    ¬ Relation.TransGen t.Contains a a := by
  intro h
  obtain ⟨e', he', hlt⟩ := he.of_transGen h
  exact he'.not_transGen h
termination_by sizeOf e

theorem Expands.complete {id : Nat} {e : Expansion} (h : t.Expands (.structure_ id) e) :
    (t.at_ id).complete = true := by
  cases h with
  | word hword => cases hword
  | structure_ hcomplete _ => exact hcomplete

/-- Only a structure that expands contains another. -/
theorem Laid.expands_of_transGen (h : t.Laid) {a b : Nat}
    (hab : Relation.TransGen t.Contains a b) : ∃ e, t.Expands (.structure_ a) e := by
  obtain ⟨c, hc, -⟩ := Relation.TransGen.head'_iff.mp hab
  obtain ⟨es, hes⟩ := (h a hc.1).expanded
  exact ⟨_, .structure_ hc.1 hes⟩

theorem Laid.acyclic (h : t.Laid) (a : Nat) : ¬ Relation.TransGen t.Contains a a := by
  intro ha
  obtain ⟨e, he⟩ := h.expands_of_transGen ha
  exact he.not_transGen ha

theorem Laid.complete_of_transGen (h : t.Laid) {a b : Nat}
    (hab : Relation.TransGen t.Contains a b) : (t.at_ b).complete = true := by
  obtain ⟨e, he⟩ := h.expands_of_transGen hab
  obtain ⟨e', he', -⟩ := he.of_transGen hab
  exact he'.complete

/-! ### The invariant -/

/-- In a later table every complete structure is laid out if its fields were laid out before. -/
theorem Laid.of_keeps (h : t.Laid) (hk : t.Keeps t')
    (hlaid : ∀ id, (t'.at_ id).complete = true →
      ∃ fields, t.layoutFields 0 fields = .ok ((t'.at_ id).fields, (t'.at_ id).wordLength)) :
    t'.Laid := by
  intro id hcomplete
  obtain ⟨fields, hfields⟩ := hlaid id hcomplete
  obtain ⟨hdeclared, hsizes, -⟩ := layoutFields_lined hfields
  obtain ⟨es, hes⟩ := h.exists_expandsAll (List.forall_mem_map.mpr hsizes)
  refine ⟨?_, es, hes.keep hk⟩
  rw [hdeclared]
  exact layoutFields_keep hk hfields

/-- A structure that was complete keeps its layout. -/
theorem Laid.layout_of_eq (h : t.Laid) {id : Nat} (heq : t'.layoutAt id = t.layoutAt id)
    (hcomplete : (t'.at_ id).complete = true) :
    ∃ fields, t.layoutFields 0 fields = .ok ((t'.at_ id).fields, (t'.at_ id).wordLength) := by
  have hfields : (t'.at_ id).fields = (t.at_ id).fields := congrArg (fun l => l.1) heq
  have hwords : (t'.at_ id).wordLength = (t.at_ id).wordLength := congrArg (fun l => l.2.1) heq
  have hcomplete' : (t'.at_ id).complete = (t.at_ id).complete := congrArg (fun l => l.2.2) heq
  rw [hfields, hwords]
  exact ⟨_, (h id (hcomplete'.symm.trans hcomplete)).layout⟩

theorem Laid.of_layoutAt (h : t.Laid) (hk : t.Keeps t')
    (heq : ∀ id, (t'.at_ id).complete = true → t'.layoutAt id = t.layoutAt id) : t'.Laid :=
  h.of_keeps hk fun id hcomplete => h.layout_of_eq (heq id hcomplete) hcomplete

theorem Laid.addStructure (h : t.Laid) (name : String) (register : Bool) :
    (t.addStructure name register).2.Laid := by
  refine h.of_layoutAt (addStructure_le t name register).keeps fun id hcomplete => ?_
  rw [at_addStructure] at hcomplete
  split at hcomplete
  · cases hcomplete
  · rw [layoutAt, at_addStructure, if_neg ‹_›, layoutAt]

theorem Laid.setFields (h : t.Laid) {id : Nat} {fields : List (String × Ty)}
    (hid : id < t.structures.size) (hnew : (t.at_ id).complete = false)
    (hok : t.setFields id fields = .ok t') : t'.Laid := by
  refine h.of_keeps (setFields_keeps hid hnew hok) fun j hcomplete => ?_
  by_cases hj : j = id
  · obtain ⟨laid, total, hlaid, rfl⟩ := setFields_eq_ok hok
    rw [at_modifyStructure t hid, if_pos hj]
    exact ⟨fields, hlaid⟩
  · exact h.layout_of_eq (layoutAt_setFields hid hok hj) hcomplete

/-- An operation keeps every complete structure laid out. -/
theorem Laid.perform (h : t.Laid) {op : TypeOperation} (hop : t.Admits op) :
    (t.perform op).Laid := by
  cases op with
  | addStructure name register => exact h.addStructure name register
  | addTemplate template => exact h.of_layoutAt (addTemplate_le t template).keeps fun _ _ => rfl
  | fillTemplate id fields methods =>
    exact h.of_layoutAt (modifyTemplate_le t id _).keeps fun _ _ => rfl
  | recordInstance template arguments id =>
    exact h.of_layoutAt (recordInstance_le t template arguments id).keeps fun _ _ => rfl
  | addMethod id header =>
    exact h.of_layoutAt (addMethod_le t hop header).keeps fun j _ =>
      layoutAt_addMethod t hop header j
  | setFields id fields =>
    obtain ⟨hid, honce⟩ := hop
    rw [TypeTable.perform]
    split
    · exact h
    · rename_i t' hok
      exact h.setFields hid (Bool.eq_false_iff.mpr fun hcomplete => honce hcomplete t' hok) hok

/-- There is no structure at the beginning. -/
theorem Laid.start : Laid {} :=
  fun _ h => nomatch h

theorem Laid.of_reached (h : t.Reached) : t.Laid := by
  induction h with
  | refl => exact start
  | tail _ hstep ih =>
    obtain ⟨op, hop, rfl⟩ := hstep
    exact ih.perform hop

end TypeTable

open TypeTable in
/-- After any operations that lay out no structure twice, the fields of a complete structure tile its
words, each behind those before it.  No structure lies within itself, and what lies within a complete
one is complete.  A type has a size if it expands to words that can be counted with 32 bits, and the
size is their number.  Fields are laid out if their types expand so, and a layout that is refused
changes nothing. -/
theorem layouts_exact {t : TypeTable} (h : t.Reached) :
    (∀ id, (t.at_ id).complete = true → ∃ sizes : List Nat,
      List.Forall₂ (fun f n => t.wordLength f.ty = .ok n) (t.at_ id).fields sizes ∧
      (∀ (i : Nat) (f : Field), (t.at_ id).fields[i]? = some f → f.offset = (sizes.take i).sum) ∧
      (t.at_ id).wordLength = sizes.sum ∧
      Segment.Tiles (List.zipWith (fun f n => ⟨f.offset, n⟩) (t.at_ id).fields sizes)
        (t.at_ id).wordLength) ∧
    (∀ a, ¬ Relation.TransGen t.Contains a a) ∧
    (∀ a b, Relation.TransGen t.Contains a b → (t.at_ b).complete = true) ∧
    (∀ (ty : Ty) (n : Nat), t.wordLength ty = .ok n ↔
      ∃ e, t.Expands ty e ∧ e.scalars.length = n ∧ e.Countable) ∧
    (∀ (id : Nat) (fields : List (String × Ty)), (∃ t', t.setFields id fields = .ok t') ↔
      ∃ es, t.ExpandsAll (fields.map Prod.snd) es ∧ Expansion.CountableFrom 0 es) ∧
    (∀ (id : Nat) (fields : List (String × Ty)) (e : LayoutError),
      t.setFields id fields = .error e → t.perform (.setFields id fields) = t) := by
  have hlaid := Laid.of_reached h
  refine ⟨fun id hcomplete => ?_, hlaid.acyclic, fun a b => hlaid.complete_of_transGen,
    fun ty n => hlaid.wordLength_iff, fun id fields => hlaid.setFields_iff, fun id fields e he => ?_⟩
  · obtain ⟨-, hsizes, hlined⟩ := layoutFields_lined (hlaid id hcomplete).layout
    have hsegments : List.zipWith (fun f n => Segment.mk f.offset n) (t.at_ id).fields
        ((t.at_ id).fields.map fun f => t.words f.ty) =
          (t.at_ id).fields.map fun f => ⟨f.offset, t.words f.ty⟩ := by
      rw [List.zipWith_map_right, List.zipWith_self]
    refine ⟨(t.at_ id).fields.map fun f => t.words f.ty, ?_, fun i f hf => ?_, ?_, ?_⟩
    · rw [List.forall₂_map_right_iff, List.forall₂_same]
      exact hsizes
    · have hoffset := hlined.offset_eq i ⟨f.offset, t.words f.ty⟩ (by rw [List.getElem?_map, hf]; rfl)
      rw [← List.map_take, List.map_map, Nat.zero_add] at hoffset
      rw [← List.map_take]
      exact hoffset
    · have hend := hlined.end_eq
      rw [List.map_map, Nat.zero_add] at hend
      exact hend
    · rw [hsegments]
      exact hlined.tiles
  · rw [TypeTable.perform, he]

/-- A structure with two points within it and a pointer to itself, while a third one is still open. -/
def pointsAndLines : TypeTable :=
  [.addStructure "Line" true, .addStructure "Point" true,
    .setFields 1 [("x", .int), ("y", .float)],
    .addStructure "Open" true,
    .setFields 2 [("self", .structure_ 2)],
    .setFields 0 [("next", .pointer (.structure_ 0)), ("ends", .span (.structure_ 1) 2)]].foldl
      TypeTable.perform {}

theorem layouts_exact_of_pointsAndLines :
    pointsAndLines.Reached ∧ pointsAndLines.Contains 0 1 ∧
      ¬ Relation.TransGen pointsAndLines.Contains 0 0 ∧
      (pointsAndLines.at_ 0).fields.map Field.offset = [0, 1] ∧
      (∃ sizes, Segment.Tiles (List.zipWith (fun f n => ⟨f.offset, n⟩)
        (pointsAndLines.at_ 0).fields sizes) 5) ∧
      (∃ e, pointsAndLines.Expands (.span (.structure_ 0) 3) e ∧ e.scalars.length = 15 ∧
        e.Countable) ∧
      ¬ ∃ t, pointsAndLines.setFields 2 [("self", .structure_ 2)] = .ok t := by
  have hreached : pointsAndLines.Reached := by
    refine .tail (.tail (.tail (.tail (.tail (.tail .refl
      ⟨.addStructure "Line" true, trivial, rfl⟩) ⟨.addStructure "Point" true, trivial, rfl⟩)
      ⟨.setFields 1 [("x", .int), ("y", .float)], ?_, rfl⟩) ⟨.addStructure "Open" true, trivial, rfl⟩)
      ⟨.setFields 2 [("self", .structure_ 2)], ?_, rfl⟩)
      ⟨.setFields 0 [("next", .pointer (.structure_ 0)), ("ends", .span (.structure_ 1) 2)], ?_, rfl⟩
    all_goals exact ⟨by decide +kernel, fun hcomplete => absurd hcomplete (by decide +kernel)⟩
  obtain ⟨htiles, hacyclic, -, hsizes, -⟩ := layouts_exact hreached
  have hfive : (pointsAndLines.at_ 0).wordLength = 5 := by decide +kernel
  obtain ⟨sizes, -, -, -, hline⟩ := htiles 0 (by decide +kernel)
  rw [hfive] at hline
  refine ⟨hreached, ⟨by decide +kernel, ⟨"ends", .span (.structure_ 1) 2, 1⟩, ?_, rfl⟩, hacyclic 0,
    by decide +kernel, ⟨sizes, hline⟩, (hsizes _ _).mp rfl, ?_⟩
  · decide +kernel
  · rintro ⟨t, ht⟩
    cases ht

end WordScript
