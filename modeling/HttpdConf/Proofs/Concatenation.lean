import HttpdConf.Proofs.Rendering

/-!
# One file after another

A file that is put on a new line after another one keeps what it says, and so does the other. No
statement goes on over the line break: a directive or comment ends there, and all blocks are closed
by then. So the statements of both are those of the whole, and only the gap between them is new.

## Main definitions

* `Fragment.moved`: a fragment that stands in another file, some bytes further on
* `Page.join`: a page with another one after it

## Main results

* `Layout.moved_place`: what a layout is laid out to does not depend on where it stands
* `Page.Legible.join`: legible pages make a legible one
* `read_append_newline`: a file with another one after it has the statements of both
-/

namespace HttpdConf

/-- The span some bytes further on. -/
def Span.shift (n : Nat) (s : Span) : Span := ⟨s.start + n, s.stop + n⟩

mutual
/-- The fragment as it stands in another file, some bytes further on. It says the same. -/
def Fragment.moved (source : SourceFile) (n : Nat) : Fragment → Fragment
  | ⟨_, kind, span, leading, header, trailing, footer, children⟩ =>
    ⟨source, kind, span.shift n, leading.shift n, header.shift n, trailing.shift n, footer.shift n,
      Fragment.movedAll source n children⟩

def Fragment.movedAll (source : SourceFile) (n : Nat) : List Fragment → List Fragment
  | [] => []
  | f :: rest => f.moved source n :: Fragment.movedAll source n rest
end

/-- The fragment with a gap before it that starts at an offset. -/
def Fragment.leadFrom (start : Nat) (f : Fragment) : Fragment :=
  { f with leading := ⟨start, f.leading.stop⟩ }

variable {source source' : SourceFile} {as bs : List Layout} {gap trailing lead : List Chunk}
  {last : Bool} {p q : Page}

namespace Layout

/-! ## Layouts at other places -/

mutual
/-- A layout is laid out in the same way wherever it stands. -/
theorem moved_place (source source' : SourceFile) (offset n : Nat) (l : Layout) :
    (l.place source offset).moved source' n = l.place source' (offset + n) := by
  match l with
  | .comment gap text =>
    simp [place, placeLeaf, Fragment.moved, Fragment.movedAll, Span.shift, Span.emptyAt,
      Nat.add_right_comm]
  | .directive gap name arguments =>
    simp [place, placeLeaf, Fragment.moved, Fragment.movedAll, Span.shift, Span.emptyAt,
      Nat.add_right_comm]
  | .block gap name arguments inside trailing closing blanks =>
    simp [place, Fragment.moved, movedAll_placeAll source source' _ n inside, Span.shift,
      Nat.add_right_comm]

theorem movedAll_placeAll (source source' : SourceFile) (offset n : Nat) (ls : List Layout) :
    Fragment.movedAll source' n (placeAll source offset ls) = placeAll source' (offset + n) ls := by
  match ls with
  | [] => simp [placeAll, Fragment.movedAll]
  | l :: ls =>
    rw [placeAll, Fragment.movedAll, moved_place source source' offset n l,
      movedAll_placeAll source source' _ n ls, placeAll, Nat.add_right_comm]
end

/-- A longer gap before a statement leaves the rest of it where it was. -/
theorem place_withGap (offset : Nat) (lead : List Chunk) (l : Layout) :
    (l.withGap (lead ++ l.gap)).place source offset =
      (l.place source (offset + extent lead)).leadFrom offset := by
  cases l <;> simp [withGap, place, placeLeaf, Fragment.leadFrom, Layout.gap, Nat.add_assoc]

/-! ## Statements after a line break -/

/-- Statements may come after those of a whole file when a line break stands between them. -/
theorem GrammaticalAll.append (has : GrammaticalAll true gap as)
    (hbs : GrammaticalAll last trailing bs) (hbreak : breaksLine (nextGap trailing bs) = true) :
    GrammaticalAll last trailing (as ++ bs) := by
  induction as with
  | nil => exact hbs
  | cons l as ih =>
    obtain ⟨hl, hend, hrest⟩ := has
    refine ⟨hl, fun hdir => .inl ?_, ih hrest⟩
    cases as with
    | nil => exact hbreak
    | cons m as => exact (hend hdir).resolve_right (by simp)

end Layout

namespace Page

/-- The page with another one after it, on a new line. -/
def join (p q : Page) : Page :=
  match q.statements with
  | [] => ⟨p.statements, p.trailing ++ (.newline ['\n'] :: q.trailing)⟩
  | l :: ls =>
    ⟨p.statements ++ l.withGap (p.trailing ++ [.newline ['\n']] ++ l.gap) :: ls, q.trailing⟩

theorem join_chunks (p q : Page) :
    (p.join q).chunks = p.chunks ++ (.newline ['\n'] :: q.chunks) := by
  obtain ⟨bs, trailing⟩ := q
  cases bs <;> simp [join, chunks]

/-- A text that does not end in a backslash ends before a line break. -/
theorem Legible.meets_newline (hp : p.Legible) (hback : (textOf p.chunks).getLast? ≠ some '\\') :
    ∀ x ∈ p.chunks.getLast?, x.meets (.newline ['\n']) = true := by
  intro x hx
  by_cases hcomment : ∃ text, x.token = some (.comment text)
  · obtain ⟨text, htoken⟩ := hcomment
    simp [Chunk.meets, htoken]
  · refine Chunk.meets_gap (fun text htoken => hcomment ⟨text, htoken⟩) (fun _ _ hlast => ?_)
      (.newline (.inl rfl)) rfl
    have hlex := hp.written.isLexical x (List.mem_of_getLast? hx)
    exact absurd ((getLast?_textOf hx hlex.text_ne_nil).trans hlast) hback

/-- Two legible pages make a legible one, unless the first one ends in a backslash. -/
theorem Legible.join (hp : p.Legible) (hq : q.Legible)
    (hback : (textOf p.chunks).getLast? ≠ some '\\') : (p.join q).Legible := by
  constructor
  · rw [join_chunks, Written.append_iff, Written.cons_iff]
    refine ⟨hp.written, ⟨.newline (.inl rfl), hq.written, fun _ _ => rfl⟩, fun x hx y hy => ?_⟩
    obtain rfl : Chunk.newline ['\n'] = y := by simpa using hy
    exact hp.meets_newline hback x hx
  · have htrailing := hp.grammatical.trailing
    obtain ⟨bs, trailing⟩ := q
    cases bs with
    | nil =>
      -- without statements after it, the line break is in the last gap
      have hgap : (p.trailing ++ .newline ['\n'] :: trailing).all Chunk.isGap = true := by
        rw [List.all_append, htrailing, List.all_cons, hq.grammatical.trailing]
        rfl
      have hall := @Layout.GrammaticalAll.append _ [] _ _ true hp.grammatical hgap
        (by simp [Layout.nextGap, breaksLine])
      simpa [Page.join] using hall
    | cons l ls =>
      obtain ⟨hl, hend, hls⟩ := hq.grammatical
      change Layout.GrammaticalAll true trailing (p.statements ++ l.withGap _ :: ls)
      refine hp.grammatical.append ⟨hl.withGap ?_, by simpa using hend, hls⟩ ?_
      · rw [List.all_append, List.all_append, htrailing, hl.all_isGap]
        rfl
      · simp [Layout.nextGap, breaksLine]

/-- The statements of two pages that are put together stay as they are, but for the gap between
them. -/
theorem place_join (source source' source'' : SourceFile) (p q : Page) :
    ((p.join q).place source).children =
      Fragment.movedAll source 0 (p.place source').children ++
        (Fragment.movedAll source (extent p.chunks + 1) (q.place source'').children).modifyHead
          (Fragment.leadFrom (p.place source').trailing.start) := by
  obtain ⟨as, trailing⟩ := p
  obtain ⟨bs, trailing'⟩ := q
  simp only [place, Layout.movedAll_placeAll, Nat.zero_add]
  cases bs with
  | nil => simp [join, Layout.placeAll]
  | cons l ls =>
    have hstart : extent (Layout.ownAll as) + extent (trailing ++ [.newline ['\n']]) =
        extent (chunks ⟨as, trailing⟩) + 1 := by
      simp only [chunks, extent_append, extent_cons, extent_nil, Chunk.newline_text, Nat.add_assoc]
      rfl
    have hgap : extent (Layout.ownAll as) + extent (trailing ++ [.newline ['\n']] ++ l.gap) =
        extent (chunks ⟨as, trailing⟩) + 1 + extent l.gap := by
      rw [extent_append, ← Nat.add_assoc, hstart]
    rw [join, Layout.placeAll_append, Layout.placeAll, Layout.place_withGap, Nat.zero_add, hstart,
      Layout.withGap_gap, Layout.withGap_own, ← Nat.add_assoc, hgap, Nat.add_assoc _ (extent l.gap)]
    rfl

end Page

/-- A file with another one after it, on a new line, has the statements of both, with what they say.
Those of the second one stand further on, and the gap before the first of them starts where the last
gap of the first file did. -/
theorem read_append_newline {path path' path'' : Path} {a b : String}
    {document document' : Fragment} (ha : Fragment.read ⟨path, a⟩ = .ok document)
    (hb : Fragment.read ⟨path', b⟩ = .ok document') (hback : a.toList.getLast? ≠ some '\\') :
    ∃ joined, Fragment.read ⟨path'', a ++ "\n" ++ b⟩ = .ok joined ∧
      joined.children =
        Fragment.movedAll ⟨path'', a ++ "\n" ++ b⟩ 0 document.children ++
          (Fragment.movedAll ⟨path'', a ++ "\n" ++ b⟩ (a.utf8ByteSize + 1)
            document'.children).modifyHead (Fragment.leadFrom document.trailing.start) := by
  obtain ⟨p, hp, htext, rfl⟩ := Fragment.read_eq_ok_iff.1 ha
  obtain ⟨q, hq, htext', rfl⟩ := Fragment.read_eq_ok_iff.1 hb
  have hlegible := hp.join hq (by rwa [htext])
  have hjoined : textOf (p.join q).chunks = (a ++ "\n" ++ b).toList := by
    rw [Page.join_chunks, textOf_append, textOf_cons, htext, htext']
    simp
  have hlength : a.utf8ByteSize = extent p.chunks := by
    rw [extent, htext, Text.byteLength_toList]
  refine ⟨_, Fragment.read_eq_ok_iff.2 ⟨p.join q, hlegible, hjoined, rfl⟩, ?_⟩
  rw [hlength]
  exact Page.place_join ..

/-- The first file has a quoted line break and a joined line, and ends in two blocks on one line and
a blank; the second one starts with a blank. -/
theorem read_append_newline_sameLine :
    ∃ (a b : String) (document document' joined : Fragment),
      a = "<A>\nB \"x\ny\" \\\n z\n</A> <C é></C>\t" ∧ b = " D 1\n<E>\n</E>\n" ∧
      Fragment.read ⟨⟨"a.conf"⟩, a⟩ = .ok document ∧
      Fragment.read ⟨⟨"b.conf"⟩, b⟩ = .ok document' ∧
      Fragment.read ⟨⟨"site.conf"⟩, a ++ "\n" ++ b⟩ = .ok joined ∧
      joined.children =
        Fragment.movedAll ⟨⟨"site.conf"⟩, a ++ "\n" ++ b⟩ 0 document.children ++
          (Fragment.movedAll ⟨⟨"site.conf"⟩, a ++ "\n" ++ b⟩ (a.utf8ByteSize + 1)
            document'.children).modifyHead (Fragment.leadFrom document.trailing.start) := by
  obtain ⟨document, ha⟩ := Fragment.exists_read
    ⟨⟨"a.conf"⟩, "<A>\nB \"x\ny\" \\\n z\n</A> <C é></C>\t"⟩ (by decide +kernel)
  obtain ⟨document', hb⟩ := Fragment.exists_read ⟨⟨"b.conf"⟩, " D 1\n<E>\n</E>\n"⟩
    (by decide +kernel)
  obtain ⟨joined, hjoined, hchildren⟩ :=
    @read_append_newline _ _ ⟨"site.conf"⟩ _ _ _ _ ha hb (by decide +kernel)
  exact ⟨_, _, document, document', joined, rfl, rfl, ha, hb, hjoined, hchildren⟩

end HttpdConf
