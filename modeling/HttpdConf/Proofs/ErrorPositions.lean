import HttpdConf.Diagnostic
import HttpdConf.Proofs.StrayCharacters
import HttpdConf.Proofs.Tokenization

/-!
# Where errors point

An error of the reader points at the start of a lexeme or at the end of the text: it is raised at
the lexeme that cannot stand there, at the end, or at the open tag of a block that was never closed,
whose start the reader kept. An error of the scanner points at the character that starts no token.
Each of these places is between two characters, so the diagnostic of an error in its own text can
always be drawn.

## Main definitions

* `SourceFile.IsBoundary`: a place between the characters of a file
* `Reader.OpensAt`: what is still open starts at offsets with a property

## Main results

* `Reader.OpensAt.run`: the reader opens, and its errors point at, starts of lexemes only
* `Fragment.isBoundary_of_read`: errors point between characters
* `Fragment.marks_of_read`: the diagnostic of an error marks one character, or the end
-/

namespace HttpdConf

/-- The offset is in the text or at its end, and splits no character. -/
structure SourceFile.IsBoundary (source : SourceFile) (n : Nat) : Prop where
  le_length : n ≤ source.length
  isValid : String.Pos.Raw.isValid source.text ⟨n⟩ = true

/-- The open blocks and the open tag start at offsets with a property. -/
structure Reader.OpensAt (P : Nat → Prop) (r : Reader) : Prop where
  blocks : ∀ b ∈ r.blocks, P b.header.start
  tag : ∀ t, r.pending = .tag t → P t.start

/-- What is open starts at offsets with a property, or the error points at one. -/
def Reader.PointsAt (P : Nat → Prop) : Except SyntaxError Reader → Prop
  | .ok r => r.OpensAt P
  | .error e => P e.position

variable {source : SourceFile} {e : SyntaxError} {P : Nat → Prop} {n : Nat}

/-! ## Steps of the reader -/

namespace Reader

variable {r : Reader} {x : Lexeme} {xs : List Lexeme}

theorem OpensAt.start : Reader.start.OpensAt P := ⟨by simp [Reader.start], by simp [Reader.start]⟩

namespace OpensAt

theorem addLeaf (h : r.OpensAt P) (kind : FragmentKind) (span : Span) :
    (r.addLeaf source kind span).OpensAt P :=
  ⟨h.blocks, by simp [Reader.addLeaf]⟩

theorem endLine (h : r.OpensAt P) : (r.endLine source).OpensAt P := by
  unfold Reader.endLine
  split
  · exact h.addLeaf ..
  · exact h

/-- A directive has been begun or goes on. -/
theorem setDirective (h : r.OpensAt P) (d : OpenDirective) :
    OpensAt P { r with pending := .directive d } :=
  ⟨h.blocks, by simp⟩

theorem setTag (h : r.OpensAt P) {t : OpenTag} (ht : P t.start) :
    OpensAt P { r with pending := .tag t } :=
  ⟨h.blocks, by rintro _ ⟨⟩; exact ht⟩

/-- The block of an open tag starts where the tag does. -/
theorem openBlock (h : r.OpensAt P) {t : OpenTag} (ht : P t.start) (stop : Nat) :
    (r.openBlock t stop).OpensAt P :=
  ⟨List.forall_mem_cons.2 ⟨ht, h.blocks⟩, by simp [Reader.openBlock]⟩

theorem closeBlock (h : r.OpensAt P) {b : OpenBlock} {outer : List OpenBlock}
    (hblocks : r.blocks = b :: outer) (span : Span) :
    (r.closeBlock source b outer span).OpensAt P :=
  ⟨(List.forall_mem_cons.1 (hblocks ▸ h.blocks)).2, by simp [Reader.closeBlock]⟩

theorem stepBetween (h : r.OpensAt P) (hx : P x.span.start) :
    PointsAt P (r.stepBetween source x) := by
  unfold Reader.stepBetween
  split
  · exact h
  · exact h.addLeaf ..
  · exact h.setDirective _
  · exact h.setTag hx
  · split
    · exact hx
    · rename_i b outer hblocks
      split
      · exact h.closeBlock hblocks _
      · exact hx
  · exact hx

theorem stepDirective (h : r.OpensAt P) (d : OpenDirective) (hx : P x.span.start) :
    PointsAt P (r.stepDirective source d x) := by
  unfold Reader.stepDirective
  split
  · exact h.setDirective _
  · split
    · exact h.addLeaf ..
    · exact hx

theorem stepTag (h : r.OpensAt P) {t : OpenTag} (ht : P t.start) (hx : P x.span.start) :
    PointsAt P (r.stepTag t x) := by
  unfold Reader.stepTag
  split
  · exact h.setTag ht
  · split
    · exact h.openBlock ht _
    · exact hx

/-- One lexeme opens at most what starts with it, and an error points at it. -/
theorem step (h : r.OpensAt P) (hx : P x.span.start) : PointsAt P (r.step source x) := by
  unfold Reader.step
  split
  · exact h.stepBetween hx
  · exact h.stepDirective _ hx
  · rename_i t ht
    exact h.stepTag (h.tag t ht) hx

/-- All that the reader opens starts with a lexeme, and it fails at one. -/
theorem run (h : r.OpensAt P) (hxs : ∀ x ∈ xs, P x.span.start) :
    PointsAt P (xs.foldlM (Reader.step source) r) := by
  induction xs generalizing r with
  | nil => exact h
  | cons x xs ih =>
    rw [List.forall_mem_cons] at hxs
    have hstep : PointsAt P (r.step source x) := h.step hxs.1
    rw [List.foldlM_cons]
    cases hr : r.step source x with
    | error e => rwa [hr] at hstep
    | ok r' =>
      rw [hr] at hstep
      exact ih hstep hxs.2

/-- At the end, the reader fails there or at what is open. -/
theorem finish (h : r.OpensAt P) (hend : P source.length) (herror : r.finish source = .error e) :
    P e.position := by
  have hblocks : ∀ b ∈ (r.endLine source).blocks, P b.header.start := h.endLine.blocks
  unfold Reader.finish at herror
  simp only at herror
  split at herror
  · obtain rfl := Except.error.inj herror
    exact hend
  · rename_i b outer hopen _
    obtain rfl := Except.error.inj herror
    exact hblocks b (hopen ▸ List.mem_cons_self ..)
  · simp at herror

end OpensAt

end Reader

/-- An error points at the start of a lexeme or at the end of the text. -/
theorem Fragment.position_of_ofLexemes {xs : List Lexeme} (hxs : ∀ x ∈ xs, P x.span.start)
    (hend : P source.length) (h : Fragment.ofLexemes source xs = .error e) : P e.position := by
  have hrun : Reader.PointsAt P (xs.foldlM (Reader.step source) Reader.start) :=
    Reader.OpensAt.start.run hxs
  unfold Fragment.ofLexemes at h
  cases hr : xs.foldlM (Reader.step source) Reader.start with
  | error e' =>
    rw [hr] at hrun h
    obtain rfl := Except.error.inj h
    exact hrun
  | ok r =>
    rw [hr] at hrun h
    exact Reader.OpensAt.finish hrun hend h

/-! ## Places between characters -/

namespace SourceFile

theorem isBoundary_iff : source.IsBoundary n ↔
    ∃ before after, source.text.toList = before ++ after ∧ Text.byteLength before = n := by
  rw [← Text.isValid_iff]
  refine ⟨fun h => h.isValid, fun h => ⟨?_, h⟩⟩
  obtain ⟨before, after, htext, rfl⟩ := (Text.isValid_iff ..).1 h
  rw [SourceFile.length, ← Text.byteLength_toList, htext, Text.byteLength_append]
  exact Nat.le_add_right ..

theorem isBoundary_length : source.IsBoundary source.length :=
  isBoundary_iff.2 ⟨source.text.toList, [], by simp, Text.byteLength_toList _⟩

theorem isBoundary_start_of_scan {xs : List Lexeme} (hscan : scan source.text = .ok xs)
    {x : Lexeme} (hx : x ∈ xs) : source.IsBoundary x.span.start := by
  obtain ⟨ks, -, htext, rfl⟩ := scanFrom_eq_ok_iff.1 hscan
  obtain ⟨_, _, _, -, -, hcovers, -⟩ := exists_covers_of_mem_lexemesAt htext hx
  have hfits := hcovers.fits
  exact ⟨hfits.start_le_stop.trans hfits.stop_le_length, hfits.isValid_start⟩

theorem isBoundary_of_stray {c : StrayCharacter} (hscan : scan source.text = .error c) :
    source.IsBoundary c.position := by
  obtain ⟨ks, rest, -, htext, -, -, hposition⟩ := exists_of_scanFrom_eq_error hscan
  exact isBoundary_iff.2 ⟨textOf ks, rest, htext, by rw [hposition, Nat.zero_add, extent]⟩

end SourceFile

/-- An error points between two characters of the text, or at its end. -/
theorem Fragment.isBoundary_of_read (h : Fragment.read source = .error e) :
    source.IsBoundary e.position := by
  unfold Fragment.read at h
  cases hscan : scan source.text with
  | error c =>
    rw [hscan] at h
    obtain rfl := Except.error.inj h
    exact SourceFile.isBoundary_of_stray hscan
  | ok xs =>
    rw [hscan] at h
    exact Fragment.position_of_ofLexemes (fun x hx => SourceFile.isBoundary_start_of_scan hscan hx)
      SourceFile.isBoundary_length h

/-! ## The marked character -/

/-- What is marked between two parts of a text is the first character of the second one. -/
theorem markedSpan?_append (before after : List Char) :
    markedSpan? (Text.byteLength before) (before ++ after) =
      some ⟨Text.byteLength before, Text.byteLength before + Text.byteLength (after.take 1)⟩ := by
  have hmin : min (Text.byteLength before) (Text.byteLength (before ++ after)) =
      Text.byteLength before := by
    rw [Text.byteLength_append]
    exact Nat.min_eq_left (Nat.le_add_right ..)
  rw [markedSpan?, hmin, Text.dropBytes?_append]
  cases after <;> rfl

/-- The span is that of one character, or empty at the end of the text. -/
inductive Span.MarksIn (source : SourceFile) (s : Span) : Prop where
  | character (c : Char) (hlt : s.start < source.length)
      (hslice : source.slice s = String.singleton c)
  | ending (hstart : s.start = source.length) (hstop : s.stop = source.length)

/-- At a boundary, the character after it can be marked, or the end. -/
theorem SourceFile.IsBoundary.exists_markedSpan? (h : source.IsBoundary n) :
    ∃ s, markedSpan? n source.text.toList = some s ∧ s.start = n ∧ s.Fits source ∧
      s.MarksIn source := by
  obtain ⟨before, after, htext, rfl⟩ := SourceFile.isBoundary_iff.1 h
  rw [htext, markedSpan?_append]
  -- the marked text is a chunk like those that the scanner cuts out
  have hcovers : Span.Covers source
      ⟨Text.byteLength before, Text.byteLength before + Text.byteLength (after.take 1)⟩
      [⟨none, after.take 1⟩] := by
    refine ⟨before, after.drop 1, ?_, by simp⟩
    rw [textOf_cons, textOf_nil, List.append_nil, List.take_append_drop, htext]
  refine ⟨_, rfl, rfl, hcovers.fits, ?_⟩
  have hlength : source.length = Text.byteLength before + Text.byteLength after := by
    rw [SourceFile.length, ← Text.byteLength_toList, htext, Text.byteLength_append]
  cases after with
  | nil => exact .ending hlength.symm hlength.symm
  | cons c after =>
    refine .character c ?_ (by rw [hcovers.slice_eq]; simp)
    rw [hlength]
    exact Nat.lt_add_of_pos_right (Nat.add_pos_left c.utf8Size_pos _)

/-- An error of a text points into it, between two characters or at the end, so its diagnostic can
be drawn: it marks the one character that it points at, or the end. -/
theorem Fragment.marks_of_read (h : Fragment.read source = .error e) :
    e.position ≤ source.length ∧ String.Pos.Raw.isValid source.text ⟨e.position⟩ = true ∧
      (∃ s, markedSpan? e.position source.text.toList = some s ∧ s.start = e.position ∧
        s.Fits source ∧ s.MarksIn source) ∧
      ∀ path, (e.report? path source.text).isSome = true := by
  have hboundary := Fragment.isBoundary_of_read h
  obtain ⟨s, hs, hmarks⟩ := hboundary.exists_markedSpan?
  refine ⟨hboundary.le_length, hboundary.isValid, ⟨s, hs, hmarks⟩, fun path => ?_⟩
  rw [SyntaxError.report?, hs]
  rfl

/-- A close tag after characters of two bytes does not fit, a literal is not closed, and a text ends
in an open tag. -/
theorem Fragment.marks_of_read_wide :
    ∃ e₁ e₂ e₃ s₁ s₂ s₃,
      Fragment.read ⟨⟨"site.conf"⟩, "é 1\n<A ü>\n</B>\n"⟩ = .error e₁ ∧ e₁.position = 12 ∧
      Fragment.read ⟨⟨"site.conf"⟩, "ü \"ö"⟩ = .error e₂ ∧ e₂.position = 3 ∧
      Fragment.read ⟨⟨"site.conf"⟩, "ü\n<A ö"⟩ = .error e₃ ∧ e₃.position = 8 ∧
      markedSpan? 12 "é 1\n<A ü>\n</B>\n".toList = some s₁ ∧
      s₁.MarksIn ⟨⟨"site.conf"⟩, "é 1\n<A ü>\n</B>\n"⟩ ∧
      markedSpan? 3 "ü \"ö".toList = some s₂ ∧ s₂.MarksIn ⟨⟨"site.conf"⟩, "ü \"ö"⟩ ∧
      markedSpan? 8 "ü\n<A ö".toList = some s₃ ∧ s₃.MarksIn ⟨⟨"site.conf"⟩, "ü\n<A ö"⟩ := by
  have hfails : ∀ text position,
      (match Fragment.read ⟨⟨"site.conf"⟩, text⟩ with
        | .ok _ => false
        | .error e => e.position == position) = true →
      ∃ e s, Fragment.read ⟨⟨"site.conf"⟩, text⟩ = .error e ∧ e.position = position ∧
        markedSpan? position text.toList = some s ∧ s.MarksIn ⟨⟨"site.conf"⟩, text⟩ := by
    intro text position hposition
    cases hread : Fragment.read ⟨⟨"site.conf"⟩, text⟩ with
    | ok document => simp [hread] at hposition
    | error e =>
      obtain rfl : e.position = position := by simpa [hread] using hposition
      obtain ⟨-, -, ⟨s, hs, -, -, hmarks⟩, -⟩ := Fragment.marks_of_read hread
      exact ⟨e, s, rfl, rfl, hs, hmarks⟩
  obtain ⟨e₁, s₁, h₁, hp₁, hs₁, hm₁⟩ := hfails "é 1\n<A ü>\n</B>\n" 12 (by decide +kernel)
  obtain ⟨e₂, s₂, h₂, hp₂, hs₂, hm₂⟩ := hfails "ü \"ö" 3 (by decide +kernel)
  obtain ⟨e₃, s₃, h₃, hp₃, hs₃, hm₃⟩ := hfails "ü\n<A ö" 8 (by decide +kernel)
  exact ⟨e₁, e₂, e₃, s₁, s₂, s₃, h₁, hp₁, h₂, hp₂, h₃, hp₃, hs₁, hm₁, hs₂, hm₂, hs₃, hm₃⟩

end HttpdConf
