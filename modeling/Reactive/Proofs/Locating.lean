import Mathlib.Tactic.Common
import Reactive.FileReport
import Reactive.Proofs.Pointing
import Reactive.Proofs.Positions

/-!
# Reactive.Proofs.Locating — the labels of diagnostics are on the text

The lexer counts bytes, lines and columns as it goes, and a diagnostic counts lines and columns again from the bytes of
its labels.  Both give the same, for every label of every diagnostic of a text.

* `Span.Exact.through`: a span that joins two parts of a text is that of a part of the text.
* `Position.atOffset_after`: counting again from the bytes.
* `DiagnosticLabel.Located file text l j`: the label `l` is on the text, and `j` says where.
* `labels_located`: no label of a diagnostic is dropped, and each says where the lexer has found it.
-/

namespace Reactive

/-! ### Parts of a text -/

/-- From the start of a part of a text to the end of another one is a part of the text. -/
theorem Span.Exact.through {text : List Char} {a b : Span} (ha : a.Exact text) (hb : b.Exact text) :
    (a.through b).Exact text := by
  unfold Span.through
  split
  · exact ha
  · rename_i hlt
    obtain ⟨before, part, rest, htext, rfl⟩ := ha
    obtain ⟨before', part', rest', htext', rfl⟩ := hb
    rw [htext, List.append_assoc] at htext'
    obtain ⟨between, hstop, -⟩ | ⟨between, hstart, -⟩ := List.append_eq_append_iff.mp htext'
    · refine ⟨before, between, rest', ?_, by rw [hstop]⟩
      rw [htext, List.append_assoc, htext', hstop]
    · refine absurd ?_ hlt
      show Text.size (before' ++ part') ≤ Text.size before
      rw [hstart, Text.size_append (before' ++ part')]
      exact Nat.le_add_right _ _

/-- Where so many bytes have been read, one is behind the characters that they are. -/
theorem Position.atOffset_after (rest : List Char) : ∀ (before : List Char) (p : Position),
    p.atOffset (p.after before).offset (before ++ rest) = some (p.after before)
  | [], p => by
    cases rest <;> exact if_pos rfl
  | c :: cs, p => by
    have hoffset := (p.step c).offset_after cs
    have hstep := p.offset_step c
    have hpos := c.utf8Size_pos
    rw [after_cons, List.cons_append, atOffset, if_neg (by omega), if_neg (by omega)]
    exact atOffset_after rest cs (p.step c)

/-- At the start of a part of a text its span has the line and the column. -/
theorem Span.Exact.atOffset_start {text : List Char} {s : Span} (h : s.Exact text) :
    Position.origin.atOffset s.start text = some ⟨s.start, s.line, s.column⟩ := by
  obtain ⟨before, part, rest, rfl, rfl⟩ := h
  have hat := Position.atOffset_after (part ++ rest) before .origin
  rw [Position.after_origin, ← List.append_assoc] at hat
  exact hat

theorem Span.Exact.atOffset_stop {text : List Char} {s : Span} (h : s.Exact text) :
    ∃ p, Position.origin.atOffset s.stop text = some p := by
  obtain ⟨before, part, rest, rfl, rfl⟩ := h
  have hat := Position.atOffset_after rest (before ++ part) .origin
  rw [Position.after_origin] at hat
  exact ⟨_, hat⟩

/-! ### Labels -/

/-- A label is on the text, where its line and its column are those that are counted from its bytes, and the form of
the label says so. -/
structure DiagnosticLabel.Located (file : String) (text : List Char) (l : DiagnosticLabel) (j : Json) : Prop where
  exact : l.span.Exact text
  start : Position.origin.atOffset l.span.start text = some ⟨l.span.start, l.span.line, l.span.column⟩
  form : ∃ stop, Position.origin.atOffset l.span.stop text = some stop ∧ j = .object
    [("file", .string file), ("start_line", .nat l.span.line), ("start_column", .nat l.span.column),
      ("end_line", .nat stop.line), ("end_column", .nat stop.column),
      ("message", if l.message.isEmpty then .null else .string l.message),
      ("style", .string (if l.isPrimary then "primary" else "secondary"))]

theorem DiagnosticLabel.toJson?_of_exact (file : String) {text : List Char} {l : DiagnosticLabel}
    (h : l.span.Exact text) : ∃ j, l.toJson? file text = some j ∧ l.Located file text j := by
  obtain ⟨stop, hstop⟩ := h.atOffset_stop
  refine ⟨_, ?_, h, h.atOffset_start, stop, hstop, rfl⟩
  unfold toJson?
  rw [h.atOffset_start, hstop]
  rfl

/-- Labels on the text, and what is said of them, one by one. -/
theorem DiagnosticLabel.located_of_exact {file : String} {text : List Char} : ∀ {labels : List DiagnosticLabel},
    (∀ l ∈ labels, l.span.Exact text) →
      List.Forall₂ (Located file text) labels (labels.filterMap (toJson? file text))
  | [], _ => .nil
  | l :: labels, h => by
    obtain ⟨hl, hlabels⟩ := List.forall_mem_cons.mp h
    obtain ⟨j, hj, hlocated⟩ := toJson?_of_exact file hl
    rw [List.filterMap_cons_some hj]
    exact .cons hlocated (located_of_exact hlabels)

/-- All labels have the property. -/
def Diagnostic.Sited (P : Span → Prop) (d : Diagnostic) : Prop := ∀ l ∈ d.labels, P l.span

theorem Finding.Sited.diagnostic {P : Span → Prop} {f : Finding} (h : f.Sited P) : f.diagnostic.Sited P := by
  refine List.forall_mem_cons.mpr ⟨h.span, fun l hl => ?_⟩
  obtain ⟨other, hother, rfl⟩ := List.mem_map.mp hl
  exact h.others other hother

/-! ### Texts -/

/-- The spans of a cursor are those of parts of the text. -/
structure Cursor.OnText (text : List Char) (c : Cursor) : Prop where
  tokens : ∀ t ∈ c.tokens, t.2.Exact text
  previous : ∀ s ∈ c.previous, s.Exact text
  stop : c.stop.Exact text

theorem Cursor.site_onText (text : List Char) : Site (Cursor.OnText text) (Span.Exact text) where
  advance {c} h := by
    obtain ⟨previous, tokens, stop⟩ := c
    cases tokens with
    | nil => exact h
    | cons t ts =>
      obtain ⟨ht, hts⟩ := List.forall_mem_cons.mp h.tokens
      exact ⟨hts, forall_mem_some ht, h.stop⟩
  currentSpan {c} h := by
    obtain ⟨previous, tokens, stop⟩ := c
    cases tokens with
    | nil => exact h.stop
    | cons t ts => exact h.tokens t List.mem_cons_self
  previousSpan {c} h := by
    obtain ⟨previous, tokens, stop⟩ := c
    cases previous with
    | some s => exact h.previous s rfl
    | none =>
      cases tokens with
      | nil => exact h.stop
      | cons t ts => exact h.tokens t List.mem_cons_self
  through := Span.Exact.through

theorem TokenStream.Placed.onText {text : List Char} {stream : TokenStream} (h : stream.Placed text) :
    stream.cursor.OnText text where
  tokens t ht := h.exact t (List.mem_append_left _ ht)
  previous := forall_mem_none
  stop := h.exact _ (List.mem_append_right _ List.mem_cons_self)

/-- The spans of a file are those of parts of its text; so are the places of its errors. -/
theorem SourceFile.sited_parse (text : String) :
    match SourceFile.parse text with
    | .ok file => ∀ c ∈ file.classes, c.Sited (Span.Exact text.toList)
    | .error e => ∀ d ∈ e.diagnostics, d.Sited (Span.Exact text.toList) := by
  unfold SourceFile.parse
  cases htokens : tokenize text with
  | error errors =>
    intro d hd
    obtain ⟨location, hlocation, rfl⟩ := List.mem_map.mp hd
    obtain ⟨e, he, rfl⟩ := List.mem_map.mp hlocation
    exact List.forall_mem_singleton.mpr ((LexError.placed_of_tokenize htokens).exact e he)
  | ok stream =>
    have hplaced := TokenStream.placed_of_tokenize htokens
    have hfile := Parse.sited_file (Cursor.site_onText text.toList) hplaced.onText
    rcases hrun : Parse.file stream.cursor with ⟨file, _ | ⟨e, errors⟩⟩
    · rw [hrun] at hfile
      simp only [hrun]
      exact hfile.1
    · rw [hrun] at hfile
      simp only [hrun]
      intro d hd
      obtain ⟨location, hlocation, rfl⟩ := List.mem_map.mp hd
      obtain ⟨e', he, rfl⟩ := List.mem_map.mp hlocation
      exact List.forall_mem_singleton.mpr (hfile.2 e' he)

namespace FileReport

/-- Generating something for classes in the text adds diagnostics on the text. -/
theorem sited_addModels {P : Span → Prop} (backend : Backend) (set : DeclarationSet) :
    ∀ {models : List ClassModel} {r : FileReport}, (∀ m ∈ models, P m.span) → (∀ d ∈ r.diagnostics, d.Sited P) →
      ∀ d ∈ (models.foldl (addModel backend set) r).diagnostics, d.Sited P
  | [], _, _, hr => hr
  | m :: models, r, h, hr => by
    obtain ⟨hm, hmodels⟩ := List.forall_mem_cons.mp h
    refine sited_addModels backend set hmodels (r := addModel backend set r m) ?_
    unfold addModel
    split
    · exact hr
    · exact List.forall_mem_append.mpr ⟨hr, List.forall_mem_singleton.mpr (List.forall_mem_singleton.mpr hm)⟩

theorem sited_ofText (conventions : Conventions) (mode : Mode) (path text : String) :
    ∀ d ∈ (ofText conventions mode path text).diagnostics, d.Sited (Span.Exact text.toList) := by
  have hparse := SourceFile.sited_parse text
  unfold ofText DeclarationSet.parse
  cases hfile : SourceFile.parse text with
  | error e =>
    rw [hfile] at hparse
    exact hparse
  | ok file =>
    rw [hfile] at hparse
    obtain ⟨hmodels, hfindings⟩ := DeclarationSet.sited_analyze (s := ⟨path, text, file, conventions⟩) hparse
    have hdiagnostics : ∀ d ∈ (DeclarationSet.analyze ⟨path, text, file, conventions⟩).findings.map Finding.diagnostic,
        d.Sited (Span.Exact text.toList) := by
      intro d hd
      obtain ⟨f, hf, rfl⟩ := List.mem_map.mp hd
      exact (hfindings f hf).diagnostic
    cases mode with
    | check => exact hdiagnostics
    | emit backend => exact sited_addModels backend _ hmodels hdiagnostics

/-- No label of a diagnostic of a text is dropped: each is on the text, from the start of a character to the end of
another or the same place, and says the line and the column at which the lexer has found its start. -/
theorem labels_located (conventions : Conventions) (mode : Mode) (path text : String) :
    ∀ d ∈ (ofText conventions mode path text).diagnostics,
      List.Forall₂ (DiagnosticLabel.Located path text.toList) d.labels
        (d.labels.filterMap (DiagnosticLabel.toJson? path text.toList)) :=
  fun d hd => DiagnosticLabel.located_of_exact (sited_ofText conventions mode path text d hd)

/-- Both labels of a cycle are located, the second one at the other member of the cycle. -/
theorem labels_located_cycle :
    let text := "partial class A : IReactiveObject \x7b\n  [Derived(\"D\")] int B => 1;\n  [Derived(\"B\")] int D => 2; \x7d"
    let d : Diagnostic :=
      ⟨"RX0006", true, "Derived properties form a cycle: B -> D -> B",
        [⟨true, ⟨57, 58, 2, 22⟩, "cycle starts here"⟩, ⟨false, ⟨86, 87, 3, 22⟩, "'D' is part of the cycle"⟩],
        ["none of these properties will be generated"]⟩
    d ∈ (ofText default .check "a.cs" text).diagnostics ∧
      List.Forall₂ (DiagnosticLabel.Located "a.cs" text.toList) d.labels
        (d.labels.filterMap (DiagnosticLabel.toJson? "a.cs" text.toList)) := by
  intro text d
  have hmem : d ∈ (ofText default .check "a.cs" text).diagnostics := by decide +kernel
  exact ⟨hmem, labels_located default .check "a.cs" text d hmem⟩

end FileReport

end Reactive
