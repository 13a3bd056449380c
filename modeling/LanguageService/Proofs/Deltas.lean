import LanguageService.Proofs.Highlighting
import LanguageService.Proofs.LineIndex

/-!
What is sent of the marks of a file tells where they are: whoever adds up the deltas finds the
marks that are on one line, and no number that is taken from another is larger than that.
-/
namespace LanguageService

theorem MarkKind.getElem?_index (k : MarkKind) : MarkKind.all[k.index]? = some k := by
  cases k <;> rfl

def Text.LineColumn.Precedes (p q : Text.LineColumn) : Prop :=
  p.line ≤ q.line ∧ (p.line = q.line → p.column ≤ q.column)

theorem Text.precedes_of_le {start stop : Nat} (h : start ≤ stop) (cs : List Char) :
    (lineColumn cs start).Precedes (lineColumn cs stop) := by
  obtain ⟨hline, hcolumn⟩ := lineColumn_le h cs
  exact ⟨hline, fun hsame => hcolumn hsame ▸ Nat.le_add_right _ _⟩

namespace Site

def positions? (s : Site) : Option (Text.LineColumn × Text.LineColumn) := do
  let cs := s.file.text.toList
  let start ← (Text.LineIndex.new cs).lineColumn? cs s.start
  let stop ← (Text.LineIndex.new cs).lineColumn? cs s.stop
  return (start, stop)

theorem positions?_eq_mod (s : Site) : s.positions? =
    some (⟨s.startPosition.line % 2 ^ 32, s.startPosition.column % 2 ^ 32⟩,
      ⟨s.stopPosition.line % 2 ^ 32, s.stopPosition.column % 2 ^ 32⟩) := by
  simp only [positions?, Text.LineIndex.lineColumn?_eq_mod, bind, pure, Option.bind_some]
  rfl

theorem positions?_eq {s : Site} (h : Text.bytes s.file.text.toList < 2 ^ 32) :
    s.positions? = some (s.startPosition, s.stopPosition) := by
  simp only [positions?, Text.LineIndex.lineColumn?_eq h, bind, pure, Option.bind_some]
  rfl

end Site

namespace Highlight

structure Received where
  position : Text.LineColumn
  length : Nat
  kind : Option MarkKind
  modifiers : Nat
  deriving DecidableEq

def Delta.position (before : Text.LineColumn) (d : Delta) : Text.LineColumn :=
  if d.line = 0 then ⟨before.line, before.column + d.start⟩ else ⟨before.line + d.line, d.start⟩

def decodeFrom (before : Text.LineColumn) : List Delta → List Received
  | [] => []
  | d :: ds =>
      ⟨d.position before, d.length, MarkKind.all[d.kind]?, d.modifiers⟩ ::
        decodeFrom (d.position before) ds

def decode (ds : List Delta) : List Received := decodeFrom .origin ds

def exactSub (a b : Nat) : Option Nat := if b ≤ a then some (a - b) else none

def exactDelta (before start stop : Text.LineColumn) (m : Mark) : Option Delta := do
  let line ← exactSub start.line before.line
  let column ← exactSub start.column (if line = 0 then before.column else 0)
  let length ← exactSub stop.column start.column
  return ⟨line, column, length, m.kind.index, m.modifiers⟩

def encodeWordsFrom (before : Text.LineColumn) : List Mark → Option (List Delta)
  | [] => some []
  | m :: ms => do
      let (start, stop) ← m.site.positions?
      if start.line ≠ stop.line then encodeWordsFrom before ms
      else do
        let d ← exactDelta before start stop m
        let ds ← encodeWordsFrom start ms
        return d :: ds

def encodeWords (ms : List Mark) : Option (List Delta) := encodeWordsFrom .origin ms

def deltaOf (before : Text.LineColumn) (m : Mark) : Delta :=
  let start := m.site.startPosition
  ⟨start.line - before.line,
    if start.line - before.line = 0 then start.column - before.column else start.column,
    m.site.stopPosition.column - start.column, m.kind.index, m.modifiers⟩

variable {before : Text.LineColumn} {m : Mark} {ms : List Mark}

theorem encodeFrom_cons_of_onOneLine (h : m.onOneLine = true) :
    encodeFrom before (m :: ms) = deltaOf before m :: encodeFrom m.site.startPosition ms := by
  have hline : m.site.startPosition.line = m.site.stopPosition.line := eq_of_beq h
  rw [encodeFrom]
  exact if_neg (not_not_intro hline)

theorem encodeWordsFrom_cons_of_onOneLine {d : Delta} {ds : List Delta} (h : m.onOneLine = true)
    (hsmall : Text.bytes m.site.file.text.toList < 2 ^ 32)
    (hd : exactDelta before m.site.startPosition m.site.stopPosition m = some d)
    (hds : encodeWordsFrom m.site.startPosition ms = some ds) :
    encodeWordsFrom before (m :: ms) = some (d :: ds) := by
  have hline : m.site.startPosition.line = m.site.stopPosition.line := eq_of_beq h
  rw [encodeWordsFrom, Site.positions?_eq hsmall]
  simp only [bind, Option.bind_some, if_neg (not_not_intro hline), hd, hds]
  rfl

theorem encodeWordsFrom_cons_of_not_onOneLine (h : m.onOneLine = false)
    (hsmall : Text.bytes m.site.file.text.toList < 2 ^ 32) :
    encodeWordsFrom before (m :: ms) = encodeWordsFrom before ms := by
  have hlines : m.site.startPosition.line ≠ m.site.stopPosition.line := by
    simpa [Mark.onOneLine] using h
  rw [encodeWordsFrom, Site.positions?_eq hsmall]
  simp only [bind, Option.bind_some, if_pos hlines]

theorem exactSub_of_le {a b : Nat} (h : b ≤ a) : exactSub a b = some (a - b) := if_pos h

theorem position_deltaOf (h : before.Precedes m.site.startPosition) :
    (deltaOf before m).position before = m.site.startPosition := by
  obtain ⟨hline, hcolumn⟩ := h
  rw [Delta.position, deltaOf]
  dsimp only
  split
  · next hzero =>
      have hsame : before.line = m.site.startPosition.line := by omega
      rw [Nat.add_sub_cancel' (hcolumn hsame), hsame]
  · rw [Nat.add_sub_cancel' hline]

theorem exactDelta_eq_some (h : before.Precedes m.site.startPosition)
    (hwidth : m.site.startPosition.column ≤ m.site.stopPosition.column) :
    exactDelta before m.site.startPosition m.site.stopPosition m = some (deltaOf before m) := by
  obtain ⟨hline, hcolumn⟩ := h
  rw [exactDelta, deltaOf, exactSub_of_le hline, exactSub_of_le hwidth]
  by_cases hzero : m.site.startPosition.line - before.line = 0
  · have hsame : before.line = m.site.startPosition.line := by omega
    simp [hzero, exactSub_of_le (hcolumn hsame)]
  · simp [hzero, exactSub]

end Highlight

/-- What is to be received of a mark: where it starts, the length of the characters in it, its
kind and its modifiers. -/
def Mark.received (m : Mark) : Highlight.Received :=
  ⟨m.site.startPosition,
    Text.units (Text.between m.site.start m.site.stop m.site.file.text.toList), some m.kind,
    m.modifiers⟩

namespace Highlight

variable {f : File} {before : Text.LineColumn} {m : Mark} {ms : List Mark}

theorem column_of_onOneLine (hspan : m.site.start ≤ m.site.stop) (h : m.onOneLine = true) :
    m.site.stopPosition.column = m.site.startPosition.column +
      Text.units (Text.between m.site.start m.site.stop m.site.file.text.toList) :=
  (Text.lineColumn_le hspan m.site.file.text.toList).2 (eq_of_beq h)

theorem decodeFrom_encodeFrom {o : Nat} (hsmall : Text.bytes f.text.toList < 2 ^ 32)
    (hfile : ∀ m ∈ ms, m.site.file = f) (hspan : ∀ m ∈ ms, m.site.start ≤ m.site.stop)
    (hsorted : ms.Pairwise fun m m' => m.site.start ≤ m'.site.start)
    (hbefore : ∀ m ∈ ms, o ≤ m.site.start) :
    decodeFrom (f.lineColumn o) (encodeFrom (f.lineColumn o) ms) =
        (ms.filter Mark.onOneLine).map Mark.received ∧
      encodeWordsFrom (f.lineColumn o) ms = some (encodeFrom (f.lineColumn o) ms) := by
  induction ms generalizing o with
  | nil => exact ⟨rfl, rfl⟩
  | cons m ms ih =>
      rw [List.forall_mem_cons] at hfile hspan hbefore
      rw [List.pairwise_cons] at hsorted
      have hsmall' : Text.bytes m.site.file.text.toList < 2 ^ 32 := hfile.1 ▸ hsmall
      have hstart : m.site.startPosition = f.lineColumn m.site.start := by
        rw [Site.startPosition, hfile.1]
      cases hone : m.onOneLine with
      | false =>
          have hlines : m.site.startPosition.line ≠ m.site.stopPosition.line := by
            simpa [Mark.onOneLine] using hone
          rw [encodeFrom, if_pos hlines, encodeWordsFrom_cons_of_not_onOneLine hone hsmall',
            List.filter_cons_of_neg (by simp [hone])]
          exact ih hfile.2 hspan.2 hsorted.2 hbefore.2
      | true =>
          obtain ⟨hrest, hexact⟩ := ih hfile.2 hspan.2 hsorted.2 hsorted.1
          rw [← hstart] at hrest hexact
          have hprecedes : (f.lineColumn o).Precedes m.site.startPosition :=
            hstart ▸ Text.precedes_of_le hbefore.1 f.text.toList
          have hwidth := column_of_onOneLine hspan.1 hone
          have hlength : (deltaOf (f.lineColumn o) m).length = m.received.length :=
            Nat.sub_eq_of_eq_add' hwidth
          constructor
          · rw [encodeFrom_cons_of_onOneLine hone, decodeFrom, position_deltaOf hprecedes, hrest,
              hlength, List.filter_cons_of_pos hone, List.map_cons, Mark.received, deltaOf,
              MarkKind.getElem?_index]
          · rw [encodeFrom_cons_of_onOneLine hone]
            refine encodeWordsFrom_cons_of_onOneLine hone hsmall' ?_ hexact
            exact exactDelta_eq_some hprecedes (hwidth ▸ Nat.le_add_right _ _)

/-- Of marks in one file that are sorted by their starts, whatever their ranges, those on one line
are received as they are, and no number is taken from a smaller one when they are sent. -/
theorem decode_encode (hsmall : Text.bytes f.text.toList < 2 ^ 32)
    (hfile : ∀ m ∈ ms, m.site.file = f) (hspan : ∀ m ∈ ms, m.site.start ≤ m.site.stop)
    (hsorted : ms.Pairwise fun m m' => m.site.start ≤ m'.site.start) :
    decode (encode ms) = (ms.filter Mark.onOneLine).map Mark.received ∧
      encodeWords ms = some (encode ms) := by
  have horigin : f.lineColumn 0 = .origin := by
    rw [File.lineColumn, Text.lineColumn]
    cases f.text.toList with
    | nil => rfl
    | cons c cs => exact if_neg (Nat.not_le.mpr c.utf8Size_pos)
  rw [decode, encode, encodeWords, ← horigin]
  exact decodeFrom_encodeFrom hsmall hfile hspan hsorted fun _ _ => Nat.zero_le _

/-- A file with a clef, which takes two units, and marks that overlap, are empty, start inside the
clef, go on to the next line or past the end. -/
def clefFile : File := .document "file:///main.orca" "a𝄞é\nb"

def clefMarks : List Mark :=
  [⟨⟨clefFile, 0, 7⟩, .var, 1⟩, ⟨⟨clefFile, 1, 1⟩, .keyword, 0⟩, ⟨⟨clefFile, 3, 7⟩, .type, 2⟩,
    ⟨⟨clefFile, 5, 9⟩, .string, 0⟩, ⟨⟨clefFile, 8, 40⟩, .number, 3⟩]

theorem decode_encode_clefMarks :
    Text.bytes clefFile.text.toList < 2 ^ 32 ∧
    decode (encode clefMarks) = [⟨⟨0, 0⟩, 4, some .var, 1⟩, ⟨⟨0, 1⟩, 0, some .keyword, 0⟩,
      ⟨⟨0, 1⟩, 3, some .type, 2⟩, ⟨⟨1, 0⟩, 1, some .number, 3⟩] ∧
    encodeWords clefMarks = some (encode clefMarks) := by
  have hsmall : Text.bytes clefFile.text.toList < 2 ^ 32 := by decide +kernel
  have hfile : ∀ m ∈ clefMarks, m.site.file = clefFile := by simp [clefMarks]
  obtain ⟨hdecode, hexact⟩ := decode_encode hsmall hfile (by simp [clefMarks]) (by simp [clefMarks])
  refine ⟨hsmall, hdecode.trans ?_, hexact⟩
  decide +kernel

section Long

def longFile (n : Nat) : File :=
  .document "file:///main.orca" (String.ofList (List.replicate n 'a'))

def longMark (n o : Nat) : Mark := ⟨⟨longFile n, o, n⟩, .var, 0⟩

theorem lineColumn_longFile {n o : Nat} (h : o ≤ n) : (longFile n).lineColumn o = ⟨0, o⟩ := by
  have hsize (k : Nat) : Text.bytes (List.replicate k 'a') = k ∧
      Text.units (List.replicate k 'a') = k := by
    induction k with
    | zero => exact ⟨rfl, rfl⟩
    | succ k ih =>
        have hchar : 'a'.utf8Size = 1 ∧ Text.charUnits 'a' = 1 := by decide
        rw [List.replicate_succ, Text.bytes, Text.units, ih.1, ih.2, hchar.1, hchar.2]
        omega
  have htext : (longFile n).text.toList =
      [] ++ (List.replicate o 'a' ++ List.replicate (n - o) 'a') := by
    simp [longFile, File.text, Nat.add_sub_cancel' h]
  have hline : '\n' ∉ List.replicate o 'a' := by simp
  have hcomplete : Text.Complete [] := by simp [Text.Complete]
  have hposition := Text.lineColumn_of_line hcomplete hline (List.replicate (n - o) 'a')
  rw [File.lineColumn, htext]
  simpa [hsize] using hposition

theorem encodeWords_longMark {o : Nat} (hpos : 0 < o) (h : o < 2 ^ 32) :
    encodeWords [longMark (2 ^ 32) o] = none := by
  have hstart : (longMark (2 ^ 32) o).site.startPosition = ⟨0, o⟩ :=
    lineColumn_longFile (Nat.le_of_lt h)
  have hstop : (longMark (2 ^ 32) o).site.stopPosition = ⟨0, 2 ^ 32⟩ :=
    lineColumn_longFile (Nat.le_refl _)
  have hlength : exactSub 0 o = none := if_neg (Nat.not_le.mpr hpos)
  rw [encodeWords, encodeWordsFrom, Site.positions?_eq_mod, hstart, hstop, Nat.mod_eq_of_lt h,
    Nat.mod_self]
  simp [exactDelta, exactSub_of_le, Text.LineColumn.origin, hlength]

end Long

def cutMark : Mark := ⟨⟨.document "file:///main.orca" "é", 1, 2⟩, .var, 0⟩

theorem deltas_inexact :
    (decode (encode [cutMark])).map Received.length = [1] ∧ cutMark.site.text = "" ∧
    ¬ ∀ (f : File) (ms : List Mark), (∀ m ∈ ms, m.site.file = f) →
      (∀ m ∈ ms, m.site.start ≤ m.site.stop) →
      ms.Pairwise (fun m m' => m.site.start ≤ m'.site.start) → encodeWords ms ≠ none := by
  refine ⟨by decide +kernel, by decide +kernel, fun h => ?_⟩
  refine h (longFile (2 ^ 32)) [longMark (2 ^ 32) (2 ^ 32 - 1)] ?_ ?_ ?_
    (encodeWords_longMark (by decide) (by decide))
  · simp [longMark]
  · simp [longMark]
  · simp

end Highlight

end LanguageService
