import HttpdConf.Proofs.Reading

/-!
# Fragments tile their file

The fragments of a file that was read show the page it was laid out from: every span covers the
chunks it stands for. So no byte of the file is lost between two fragments or counted twice, and
between the statements there is nothing but blanks, line breaks and joined lines.

## Main definitions

* `Span.Fits`: a span whose ends are character boundaries in order
* `Span.Covers`: a span with just the text of some chunks
* `Layout.Shows`: a fragment whose spans cover the parts of a layout
* `Fragment.Tiled`: a fragment that is made up of its parts and gaps
* `GapText`: a text without statements

## Main results

* `Fragment.exists_page_of_read`: a document shows a legible page with the text of the file
* `Fragment.tiled_of_read`: all fragments of a file are tiled
-/

namespace HttpdConf

/-! ## What a span covers -/

namespace Span

variable {source : SourceFile} {s : Span} {ks as bs : List Chunk} {start stop : Nat}

/-- The span lies in the file, and its ends are character boundaries in order. -/
structure Fits (s : Span) (source : SourceFile) : Prop where
  start_le_stop : s.start ≤ s.stop
  stop_le_length : s.stop ≤ source.length
  isValid_start : String.Pos.Raw.isValid source.text ⟨s.start⟩ = true
  isValid_stop : String.Pos.Raw.isValid source.text ⟨s.stop⟩ = true

/-- The text of some chunks stands at the span. -/
def Covers (source : SourceFile) (s : Span) (ks : List Chunk) : Prop :=
  ∃ before after, source.text.toList = before ++ (textOf ks ++ after) ∧
    s = ⟨Text.byteLength before, Text.byteLength before + extent ks⟩

namespace Covers

theorem slice_eq (h : s.Covers source ks) : source.slice s = String.ofList (textOf ks) := by
  obtain ⟨before, after, htext, rfl⟩ := h
  rw [SourceFile.slice, Text.slice_eq, htext, extent, Text.slice?_append, Option.getD_some]

/-- What is covered is cut out whole. -/
theorem utf8ByteSize_slice (h : s.Covers source ks) :
    (source.slice s).utf8ByteSize = s.stop - s.start := by
  rw [h.slice_eq, Text.utf8ByteSize_ofList]
  obtain ⟨before, after, -, rfl⟩ := h
  exact (Nat.add_sub_cancel_left ..).symm

theorem fits (h : s.Covers source ks) : s.Fits source := by
  obtain ⟨before, after, htext, rfl⟩ := h
  have hlength : source.length = Text.byteLength before + (extent ks + Text.byteLength after) := by
    rw [SourceFile.length, ← Text.byteLength_toList, htext, Text.byteLength_append,
      Text.byteLength_append, extent]
  refine ⟨Nat.le_add_right .., by simp only [hlength]; omega, ?_, ?_⟩
  · exact (Text.isValid_iff ..).2 ⟨before, _, htext, rfl⟩
  · exact (Text.isValid_iff ..).2 ⟨before ++ textOf ks, after, by simp [htext], by simp [extent]⟩

/-- A span over two parts is cut where the first one ends. -/
theorem append (h : Covers source ⟨start, stop⟩ (as ++ bs)) :
    Covers source ⟨start, start + extent as⟩ as ∧ Covers source ⟨start + extent as, stop⟩ bs := by
  obtain ⟨before, after, htext, hspan⟩ := h
  obtain ⟨rfl, rfl⟩ := Span.mk.inj hspan
  refine ⟨⟨before, textOf bs ++ after, by simpa using htext, rfl⟩,
    ⟨before ++ textOf as, after, by simpa using htext, ?_⟩⟩
  simp [extent, Nat.add_assoc]

theorem stop_eq (h : Covers source ⟨start, stop⟩ ks) : stop = start + extent ks := by
  obtain ⟨before, after, -, hspan⟩ := h
  obtain ⟨rfl, rfl⟩ := Span.mk.inj hspan
  rfl

/-- Nothing stands between a place and itself. -/
theorem emptyAt (h : Covers source ⟨start, stop⟩ ks) : Covers source (.emptyAt stop) [] := by
  have hstop := h.stop_eq
  rw [← List.append_nil ks] at h
  have hend := h.append.2
  rwa [← hstop] at hend

end Covers

end Span

/-! ## What a fragment shows -/

/-- The spans of a fragment cover the given chunks. -/
structure Fragment.Parts (source : SourceFile) (gap own header trailing footer : List Chunk)
    (f : Fragment) : Prop where
  source_eq : f.source = source
  leading : f.leading.Covers source gap
  span : f.span.Covers source own
  header : f.header.Covers source header
  trailing : f.trailing.Covers source trailing
  footer : f.footer.Covers source footer

namespace Layout

mutual
/-- The fragment is one of the layout, and its spans cover the layout's parts. -/
def Shows (source : SourceFile) : Layout → Fragment → Prop
  | comment gap text, f =>
    f.kind = .comment (commentText text) ∧ f.children = [] ∧ f.header = f.span ∧
      f.Parts source gap [.comment text] [.comment text] [] []
  | directive gap name arguments, f =>
    f.kind = .directive name (gatherArguments false [] arguments) ∧ f.children = [] ∧
      f.header = f.span ∧
      f.Parts source gap (.word name :: arguments) (.word name :: arguments) [] []
  | block gap name arguments inside trailing closing blanks, f =>
    f.kind = .block name (tagArguments arguments) ∧ ShowsAll source inside f.children ∧
      f.Parts source gap
        (openTagChunks name arguments ++
          (ownAll inside ++ (trailing ++ [.closeTag closing blanks])))
        (openTagChunks name arguments) trailing [.closeTag closing blanks]

def ShowsAll (source : SourceFile) : List Layout → List Fragment → Prop
  | [], fs => fs = []
  | l :: ls, fs => ∃ f rest, fs = f :: rest ∧ l.Shows source f ∧ ShowsAll source ls rest
end

variable {source : SourceFile} {gap text : List Chunk} {offset stop : Nat} {f : Fragment}
  {l : Layout}

theorem parts_placeLeaf {kind : FragmentKind}
    (h : Span.Covers source ⟨offset, stop⟩ (gap ++ text)) :
    (placeLeaf source offset gap kind text).Parts source gap text text [] [] := by
  obtain ⟨hgap, htext⟩ := h.append
  obtain rfl := htext.stop_eq
  exact ⟨rfl, hgap, htext, htext, htext.emptyAt, htext.emptyAt⟩

mutual
/-- A layout that stands in the file at an offset is shown by its fragment there. -/
theorem shows_place {source : SourceFile} {offset stop : Nat} (l : Layout)
    (h : Span.Covers source ⟨offset, stop⟩ (l.gap ++ l.own)) :
    l.Shows source (l.place source offset) := by
  match l with
  | .comment gap text =>
    simp only [Layout.gap, own] at h
    rw [place, Shows]
    exact ⟨rfl, rfl, rfl, parts_placeLeaf h⟩
  | .directive gap name arguments =>
    simp only [Layout.gap, own] at h
    rw [place, Shows]
    exact ⟨rfl, rfl, rfl, parts_placeLeaf h⟩
  | .block gap name arguments inside trailing closing blanks =>
    simp only [Layout.gap, own] at h
    -- the span is cut four times: after the gap, the open tag, what is inside and the gap after it
    obtain ⟨hgap, hown⟩ := h.append
    obtain ⟨hhead, hbody⟩ := hown.append
    obtain ⟨hinside, htail⟩ := hbody.append
    obtain ⟨htrailing, hfoot⟩ := htail.append
    obtain rfl := hfoot.stop_eq
    rw [place, Shows]
    exact ⟨rfl, showsAll_placeAll inside hinside, rfl, hgap, hown, hhead, htrailing, hfoot⟩

theorem showsAll_placeAll {source : SourceFile} {offset stop : Nat} (ls : List Layout)
    (h : Span.Covers source ⟨offset, stop⟩ (ownAll ls)) :
    ShowsAll source ls (placeAll source offset ls) := by
  match ls with
  | [] => rw [placeAll, ShowsAll]
  | l :: ls =>
    rw [ownAll_cons, ← List.append_assoc] at h
    obtain ⟨hl, hls⟩ := h.append
    rw [extent_append] at hls
    rw [placeAll, ShowsAll]
    exact ⟨_, _, rfl, shows_place l hl, showsAll_placeAll ls hls⟩
end

end Layout

/-- The document is one of the page, and its spans cover the page's parts. -/
structure Page.Shows (source : SourceFile) (p : Page) (document : Fragment) : Prop where
  kind_eq : document.kind = .document
  parts : document.Parts source [] p.chunks [] p.trailing []
  children : Layout.ShowsAll source p.statements document.children

/-- A document that was read shows a legible page with the text of the file. -/
theorem Fragment.exists_page_of_read {source : SourceFile} {document : Fragment}
    (h : Fragment.read source = .ok document) :
    ∃ p : Page, p.Legible ∧ textOf p.chunks = source.text.toList ∧ p.Shows source document := by
  obtain ⟨p, hp, htext, rfl⟩ := Fragment.read_eq_ok_iff.1 h
  -- the page starts at the first byte and has the text of the file, so it ends at the last one
  have hlength : source.length = extent p.chunks := by
    rw [SourceFile.length, ← Text.byteLength_toList, extent, htext]
  have hall : Span.Covers source ⟨0, source.length⟩ p.chunks :=
    ⟨[], [], by simp [htext], by simp [hlength]⟩
  have hstart : Span.Covers source (.emptyAt 0) [] := ⟨[], source.text.toList, by simp, rfl⟩
  obtain ⟨hstatements, htrailing⟩ := Span.Covers.append hall
  rw [Nat.zero_add] at hstatements htrailing
  exact ⟨p, hp, htext, rfl, ⟨rfl, hstart, hall, hstart, htrailing, hall.emptyAt⟩,
    Layout.showsAll_placeAll _ hstatements⟩

/-! ## Gaps -/

/-- A text of blanks, line breaks and joined lines only. -/
inductive GapText : List Char → Prop
  | nil : GapText []
  | blank {c : Char} {cs : List Char} (hc : c = ' ' ∨ c = '\t' ∨ c = '\x0c') (hcs : GapText cs) :
      GapText (c :: cs)
  | lineBreak {br cs : List Char} (hbr : IsBreak br) (hcs : GapText cs) : GapText (br ++ cs)
  | join {br cs : List Char} (hbr : IsBreak br) (hcs : GapText cs) : GapText ('\\' :: (br ++ cs))

theorem gapText_textOf {ks : List Chunk} (hks : ks.all Chunk.isGap = true)
    (hlex : ∀ k ∈ ks, k.IsLexical) : GapText (textOf ks) := by
  induction ks with
  | nil => exact .nil
  | cons k ks ih =>
    obtain ⟨hk, hks⟩ := Bool.and_eq_true_iff.1 ((List.all_cons ..).symm.trans hks)
    have hrest := ih hks fun x hx => hlex x (by simp [hx])
    have hform := hlex k (by simp)
    rw [textOf_cons]
    cases hform with
    | blank hc =>
      refine .blank ?_ hrest
      simp only [isSeparator, Bool.or_eq_true, beq_iff_eq] at hc
      rcases hc with (hc | hc) | hc
      · exact .inl hc
      · exact .inr (.inl hc)
      · exact .inr (.inr hc)
    | join hbr => exact .join hbr hrest
    | newline hbr => exact .lineBreak hbr hrest
    -- all other forms have a token that no gap may hold
    | _ => simp [Chunk.isGap] at hk

/-! ## Tilings -/

namespace Fragment

theorem descendants_eq (f : Fragment) : f.descendants = descendantsOfAll f.children := by
  cases f
  rw [descendants]

/-- All spans that a fragment keeps. -/
def spans (f : Fragment) : List Span := [f.span, f.leading, f.header, f.trailing, f.footer]

/-- The texts of some fragments, each after the gap before it. -/
def concat : List Fragment → String
  | [] => ""
  | f :: rest => f.slice f.leading ++ f.text ++ concat rest

/-- The parts of the fragment make up its text. -/
def IsWhole (f : Fragment) : Prop :=
  match f.kind with
  | .document => concat f.children ++ f.slice f.trailing = f.source.text
  | .block _ _ =>
    f.slice f.header ++ concat f.children ++ f.slice f.trailing ++ f.slice f.footer = f.text
  | .comment _ | .directive _ _ => f.header = f.span

/-- The spans of a fragment are cut out of the file whole, they make up its text, and no gap
hides a statement. -/
structure Tiled (source : SourceFile) (f : Fragment) : Prop where
  source_eq : f.source = source
  fits : ∀ s ∈ f.spans, s.Fits source ∧ (f.slice s).utf8ByteSize = s.stop - s.start
  isWhole : f.IsWhole
  leading : GapText (f.slice f.leading).toList
  trailing : GapText (f.slice f.trailing).toList

namespace Parts

variable {source : SourceFile} {gap own header trailing footer : List Chunk} {f : Fragment}

theorem slice_eq (h : f.Parts source gap own header trailing footer) (s : Span) :
    f.slice s = source.slice s := by
  rw [slice, h.source_eq]

/-- Tilings follow from what the parts cover. -/
theorem tiled (h : f.Parts source gap own header trailing footer) (hwhole : f.IsWhole)
    (hgap : gap.all Chunk.isGap = true) (htrailing : trailing.all Chunk.isGap = true)
    (hlexGap : ∀ k ∈ gap, k.IsLexical) (hlexTrailing : ∀ k ∈ trailing, k.IsLexical) :
    f.Tiled source := by
  have hfits : ∀ s ∈ f.spans, ∃ ks, s.Covers source ks := by
    simpa [spans] using ⟨⟨_, h.span⟩, ⟨_, h.leading⟩, ⟨_, h.header⟩, ⟨_, h.trailing⟩, ⟨_, h.footer⟩⟩
  refine ⟨h.source_eq, fun s hs => ?_, hwhole, ?_, ?_⟩
  · obtain ⟨ks, hks⟩ := hfits s hs
    exact ⟨hks.fits, by rw [h.slice_eq, hks.utf8ByteSize_slice]⟩
  · rw [h.slice_eq, h.leading.slice_eq, String.toList_ofList]
    exact gapText_textOf hgap hlexGap
  · rw [h.slice_eq, h.trailing.slice_eq, String.toList_ofList]
    exact gapText_textOf htrailing hlexTrailing

end Parts

end Fragment

namespace Layout

theorem Shows.leading_text {source : SourceFile} {l : Layout} {f : Fragment}
    (h : l.Shows source f) : f.slice f.leading = String.ofList (textOf l.gap) := by
  cases l <;> rw [Shows] at h
  · rw [h.2.2.2.slice_eq, h.2.2.2.leading.slice_eq, gap]
  · rw [h.2.2.2.slice_eq, h.2.2.2.leading.slice_eq, gap]
  · rw [h.2.2.slice_eq, h.2.2.leading.slice_eq, gap]

theorem Shows.text {source : SourceFile} {l : Layout} {f : Fragment} (h : l.Shows source f) :
    f.text = String.ofList (textOf l.own) := by
  cases l <;> rw [Shows] at h <;> rw [Fragment.text, own]
  · rw [h.2.2.2.slice_eq, h.2.2.2.span.slice_eq]
  · rw [h.2.2.2.slice_eq, h.2.2.2.span.slice_eq]
  · rw [h.2.2.slice_eq, h.2.2.span.slice_eq]

/-- The fragments of some statements have the text of the statements. -/
theorem ShowsAll.concat {source : SourceFile} {ls : List Layout} {fs : List Fragment}
    (h : ShowsAll source ls fs) : Fragment.concat fs = String.ofList (textOf (ownAll ls)) := by
  induction ls generalizing fs with
  | nil =>
    rw [ShowsAll] at h
    simp [h, Fragment.concat]
  | cons l ls ih =>
    rw [ShowsAll] at h
    obtain ⟨f, rest, rfl, hf, hrest⟩ := h
    rw [Fragment.concat, hf.leading_text, hf.text, ih hrest]
    simp [String.ofList_append, String.append_assoc]

mutual
/-- The fragments of a grammatical layout are tiled. -/
theorem tiled_of_shows {source : SourceFile} (l : Layout) {f : Fragment} (h : l.Shows source f)
    (hl : l.Grammatical) (hlex : ∀ k ∈ l.gap ++ l.own, k.IsLexical) :
    ∀ g ∈ f :: f.descendants, g.Tiled source := by
  intro g hg
  rw [Fragment.descendants_eq] at hg
  match l with
  | .comment gap text =>
    rw [Shows] at h
    obtain ⟨hkind, hchildren, hheader, hparts⟩ := h
    obtain rfl : g = f := by simpa [hchildren, Fragment.descendantsOfAll] using hg
    have hwhole : g.IsWhole := by simpa [Fragment.IsWhole, hkind] using hheader
    exact hparts.tiled hwhole hl rfl (fun k hk => hlex k (by simp [Layout.gap, hk])) (by simp)
  | .directive gap name arguments =>
    rw [Shows] at h
    obtain ⟨hkind, hchildren, hheader, hparts⟩ := h
    obtain rfl : g = f := by simpa [hchildren, Fragment.descendantsOfAll] using hg
    have hwhole : g.IsWhole := by simpa [Fragment.IsWhole, hkind] using hheader
    exact hparts.tiled hwhole hl.1 rfl (fun k hk => hlex k (by simp [Layout.gap, hk])) (by simp)
  | .block gap name arguments inside trailing closing blanks =>
    rw [Shows] at h
    obtain ⟨hkind, hchildren, hparts⟩ := h
    obtain ⟨hgap, -, hinside, -⟩ := hl
    rcases List.mem_cons.1 hg with rfl | hg
    · -- the block itself: its chunks are those of its four parts
      have hwhole : g.IsWhole := by
        simp only [Fragment.IsWhole, hkind, Fragment.text, hparts.slice_eq, hparts.header.slice_eq,
          hparts.trailing.slice_eq, hparts.footer.slice_eq, hparts.span.slice_eq,
          ShowsAll.concat hchildren, ← String.ofList_append, textOf_append, List.append_assoc]
      exact hparts.tiled hwhole hgap hinside.trailing
        (fun k hk => hlex k (by simp [Layout.gap, hk])) (fun k hk => hlex k (by simp [own, hk]))
    · exact tiled_of_showsAll inside hchildren hinside
        (fun k hk => hlex k (by simp [own, hk])) g hg

theorem tiled_of_showsAll {source : SourceFile} {last : Bool} {trailing : List Chunk}
    (ls : List Layout) {fs : List Fragment} (h : ShowsAll source ls fs)
    (hls : GrammaticalAll last trailing ls) (hlex : ∀ k ∈ ownAll ls, k.IsLexical) :
    ∀ g ∈ Fragment.descendantsOfAll fs, g.Tiled source := by
  intro g hg
  match ls with
  | [] =>
    rw [ShowsAll] at h
    simp [h, Fragment.descendantsOfAll] at hg
  | l :: ls =>
    rw [ShowsAll] at h
    obtain ⟨f, rest, rfl, hf, hrest⟩ := h
    obtain ⟨hl, -, hls⟩ := hls
    rw [Fragment.descendantsOfAll, ← List.cons_append] at hg
    rcases List.mem_append.1 hg with hg | hg
    · exact tiled_of_shows l hf hl (fun k hk => hlex k (by simp at hk ⊢; tauto)) g hg
    · exact tiled_of_showsAll ls hrest hls (fun k hk => hlex k (by simp [hk])) g hg
end

end Layout

/-- The fragments of a file tile it: every span is cut out of the file whole, the parts of every
fragment make up its text, those of the document the text of the file, and gaps are blank. -/
theorem Fragment.tiled_of_read {source : SourceFile} {document : Fragment}
    (h : Fragment.read source = .ok document) :
    document.kind = .document ∧ ∀ f ∈ document :: document.descendants, f.Tiled source := by
  obtain ⟨p, ⟨hwritten, hgrammatical⟩, htext, hkind, hparts, hchildren⟩ :=
    Fragment.exists_page_of_read h
  refine ⟨hkind, fun f hf => ?_⟩
  rcases List.mem_cons.1 hf with rfl | hf
  · -- the document: the chunks of its statements and of the last gap are all chunks of the page
    have hwhole : f.IsWhole := by
      simp only [IsWhole, hkind, hparts.slice_eq, hparts.trailing.slice_eq,
        hchildren.concat, ← String.ofList_append, ← textOf_append, hparts.source_eq]
      rw [← Page.chunks, htext, String.ofList_toList]
    exact hparts.tiled hwhole rfl hgrammatical.trailing (by simp)
      (fun k hk => hwritten.isLexical k (by simp [Page.chunks, hk]))
  · rw [descendants_eq] at hf
    exact Layout.tiled_of_showsAll _ hchildren hgrammatical
      (fun k hk => hwritten.isLexical k (by simp [Page.chunks, hk])) f hf

/-- A file with a nested block, a joined line and characters of several bytes is tiled. -/
theorem Fragment.tiled_of_read_nested :
    ∃ document, Fragment.read ⟨⟨"site.conf"⟩, "# é\n<A é>\r\n\tB 1 \\\n 2\n</A>\n"⟩ = .ok document ∧
      document.kind = .document ∧
      ∀ f ∈ document :: document.descendants,
        f.Tiled ⟨⟨"site.conf"⟩, "# é\n<A é>\r\n\tB 1 \\\n 2\n</A>\n"⟩ := by
  obtain ⟨document, hread⟩ := Fragment.exists_read
    ⟨⟨"site.conf"⟩, "# é\n<A é>\r\n\tB 1 \\\n 2\n</A>\n"⟩ (by decide +kernel)
  exact ⟨document, hread, Fragment.tiled_of_read hread⟩

end HttpdConf
