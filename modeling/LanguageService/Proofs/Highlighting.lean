import LanguageService.Proofs.Positions
import LanguageService.Proofs.ShownTokens

/-!
A document is highlighted word by word: each token that is shown and each comment has one mark, and
a mark takes up just its word. Only a literal is marked with the parentheses around it, and then
the mark may reach over a comment, or over the end of a line.
-/
namespace LanguageService

namespace Lexer

variable {f : File} {x y : Lexeme}

theorem StandsIn.line_eq (h : StandsIn f.text.toList x) :
    (f.lineColumn x.start).line = (f.lineColumn x.stop).line := by
  obtain ⟨before, w, after, htext, hstart, hstop, hpicks⟩ := h
  rw [Nat.zero_add] at hstart
  have hend : x.stop = Text.bytes (before ++ w) := by rw [hstop, hstart, Text.bytes_append]
  have hline := List.count_eq_zero.mpr hpicks.newline_notMem
  rw [File.lineColumn, File.lineColumn, htext, hstart, Text.line_append, hend, ← List.append_assoc,
    Text.line_append, List.count_append, hline, Nat.add_zero]

theorem line_lt_of_comment (hx : x ∈ comments f.text.toList) (hy : StandsIn f.text.toList y)
    (hle : x.stop ≤ y.start) : (f.lineColumn x.start).line < (f.lineColumn y.stop).line := by
  obtain ⟨hscan, hcomment⟩ := List.mem_filter.mp hx
  obtain ⟨before, w, after, htext, hstart, hstop, hpicks⟩ := standsIn_of_mem_scan hscan
  obtain ⟨before', w', after', htext', hstart', hstop', hpicks'⟩ := hy
  rw [Nat.zero_add] at hstart hstart'
  have hend : x.stop = Text.bytes (before ++ w) := by rw [hstop, hstart, Text.bytes_append]
  have hend' : y.stop = Text.bytes (before' ++ w') := by rw [hstop', hstart', Text.bytes_append]
  obtain ⟨gap, rfl⟩ : before ++ w <+: before' := by
    refine Text.prefix_of_bytes_le ⟨after, ?_⟩ ⟨w' ++ after', htext'.symm⟩ (by omega)
    rw [htext, List.append_assoc]
  -- What follows a comment starts with a line feed, and a word has none.
  have hafter : after = gap ++ (w' ++ after') := by
    have hsame := htext.symm.trans htext'
    simpa [List.append_assoc] using hsame
  have hhead : (gap ++ (w' ++ after')).head? = some '\n' := by
    rw [← hafter]
    refine (hpicks.comment hcomment).2.resolve_left fun hnil => ?_
    simp [hnil, hpicks'.ne_nil] at hafter
  have hfeed : '\n' ∈ gap := by
    cases gap with
    | nil =>
        obtain ⟨c, cs, rfl⟩ := List.exists_cons_of_ne_nil hpicks'.ne_nil
        have hc : c = '\n' := by simpa using hhead
        exact absurd hpicks'.newline_notMem (by simp [hc])
    | cons c cs =>
        have hc : c = '\n' := by simpa using hhead
        simp [hc]
  have hpos := List.count_pos_iff.mpr hfeed
  have hcount : (f.lineColumn y.stop).line = (before ++ w ++ gap ++ w').count '\n' := by
    rw [File.lineColumn, htext', hend', ← List.append_assoc, Text.line_append]
  rw [File.lineColumn, htext, hstart, Text.line_append, hcount]
  simp only [List.count_append]
  omega

theorem line_le_of_start_le (hx : StandsIn f.text.toList x) (hy : StandsIn f.text.toList y)
    (hle : x.start ≤ y.start) : (f.lineColumn x.start).line ≤ (f.lineColumn y.start).line := by
  obtain ⟨before, w, after, htext, hstart, -, -⟩ := hx
  obtain ⟨before', w', after', htext', hstart', -, -⟩ := hy
  rw [Nat.zero_add] at hstart hstart'
  obtain ⟨gap, rfl⟩ : before <+: before' :=
    Text.prefix_of_bytes_le ⟨_, htext.symm⟩ ⟨_, htext'.symm⟩ (by omega)
  have hline : (f.lineColumn y.start).line = (before ++ gap).count '\n' := by
    rw [File.lineColumn, htext', hstart', Text.line_append]
  rw [File.lineColumn, htext, hstart, Text.line_append, hline, List.count_append]
  exact Nat.le_add_right _ _

theorem apart_of_comment {text : List Char} (hx : x ∈ comments text) (hy : y ∈ tokens text) :
    x.stop ≤ y.start ∨ y.stop ≤ x.start := by
  obtain ⟨hxs, hcomment⟩ := List.mem_filter.mp hx
  obtain ⟨hys, hplain⟩ := List.mem_filter.mp hy
  have hne : x ≠ y := by
    rintro rfl
    simp [hcomment] at hplain
  have : Std.Symm fun x y : Lexeme => x.stop ≤ y.start ∨ y.stop ≤ x.start := ⟨fun _ _ => Or.symm⟩
  have hapart : (scan text).Pairwise fun x y => x.stop ≤ y.start ∨ y.stop ≤ x.start :=
    (scan_pairwise text).imp .inl
  exact hapart.forall hxs hys hne

end Lexer

namespace Mark

def onOneLine (m : Mark) : Bool := m.site.startPosition.line == m.site.stopPosition.line

def Contains (x : Lexeme) (m : Mark) : Prop := m.site.start ≤ x.start ∧ x.stop ≤ m.site.stop

namespace IsOn

variable {f : File} {x c : Lexeme} {m : Mark}

theorem contains (h : m.IsOn f x) : Contains x m := by
  rcases h.tight with ⟨hstart, hstop⟩ | ⟨-, hwraps⟩
  · exact ⟨Nat.le_of_eq hstart, Nat.le_of_eq hstop.symm⟩
  · exact ⟨Nat.le_of_lt hwraps.start_lt, Nat.le_of_lt hwraps.lt_stop⟩

theorem apart_of_comment (h : m.IsOn f x) (hc : c ∈ Lexer.comments f.text.toList) :
    c.stop ≤ m.site.start ∨ m.site.stop ≤ c.start ∨
      (m.site.start ≤ c.start ∧ c.stop ≤ m.site.stop) ∧ m.onOneLine = false := by
  obtain ⟨y, hy, hopens⟩ := h.opens
  obtain ⟨z, hz, hcloses⟩ := h.closes
  have hstands := Lexer.standsIn_of_mem_scan (List.mem_of_mem_filter hc)
  have hystands := Lexer.standsIn_of_mem_tokens hy
  have hzstands := Lexer.standsIn_of_mem_tokens hz
  have hylt := hystands.start_lt_stop
  have hzlt := hzstands.start_lt_stop
  rcases Lexer.apart_of_comment hc hy with hbefore | hyc
  · exact .inl (hopens ▸ hbefore)
  rcases Lexer.apart_of_comment hc hz with hcz | hbehind
  · have hstart := Lexer.line_le_of_start_le hystands hstands (by omega)
    have hstop := Lexer.line_lt_of_comment hc hzstands hcz
    rw [hopens] at hstart
    rw [hcloses] at hstop
    refine .inr (.inr ⟨⟨by omega, by omega⟩, ?_⟩)
    rw [onOneLine, Site.startPosition, Site.stopPosition, h.file, beq_eq_false_iff_ne]
    exact Nat.ne_of_lt (Nat.lt_of_le_of_lt hstart hstop)
  · exact .inr (.inl (hcloses ▸ hbehind))

end IsOn

end Mark

theorem forall₂_merge {α β : Type} {R R' : α → β → Prop} {le : α → α → Bool} {le' : β → β → Bool}
    {xs xs' : List α} {ys ys' : List β} (h : List.Forall₂ R xs ys) (h' : List.Forall₂ R' xs' ys')
    (hle : ∀ x y x' y', R x y → R' x' y' → le x x' = le' y y') :
    List.Forall₂ (fun x y => R x y ∨ R' x y) (xs.merge xs' le) (ys.merge ys' le') := by
  induction h generalizing xs' ys' with
  | nil =>
      rw [List.nil_merge, List.nil_merge]
      exact h'.imp fun _ _ => .inr
  | cons hxy hrest ih =>
      induction h' with
      | nil =>
          rw [List.merge_right, List.merge_right]
          exact (hrest.cons hxy).imp fun _ _ => .inl
      | cons hxy' hrest' ih' =>
          rw [List.cons_merge_cons, List.cons_merge_cons, hle _ _ _ _ hxy hxy']
          split
          · exact .cons (.inl hxy) (ih (hrest'.cons hxy'))
          · exact .cons (.inr hxy') ih'

theorem exists_of_forall₂ {α β : Type} {R : α → β → Prop} {xs : List α} {ys : List β}
    (h : List.Forall₂ R xs ys) : ∀ y ∈ ys, ∃ x ∈ xs, R x y := by
  induction h with
  | nil => exact List.forall_mem_nil _
  | cons hxy _ ih =>
      refine List.forall_mem_cons.mpr ⟨⟨_, List.mem_cons_self, hxy⟩, fun y hy => ?_⟩
      obtain ⟨x, hx, hxy⟩ := ih y hy
      exact ⟨x, List.mem_cons_of_mem _ hx, hxy⟩

namespace Highlight

theorem encodeFrom_filter (before : Text.LineColumn) (ms : List Mark) :
    encodeFrom before (ms.filter Mark.onOneLine) = encodeFrom before ms ∧
      (encodeFrom before ms).length = (ms.filter Mark.onOneLine).length := by
  induction ms generalizing before with
  | nil => exact ⟨rfl, rfl⟩
  | cons m ms ih =>
      by_cases hline : m.site.startPosition.line = m.site.stopPosition.line
      · have hkept : m.onOneLine = true := beq_iff_eq.mpr hline
        obtain ⟨heq, hlength⟩ := ih m.site.startPosition
        simp [encodeFrom, List.filter_cons_of_pos hkept, hline, heq, hlength]
      · have hdropped : ¬ m.onOneLine = true := fun h => hline (beq_iff_eq.mp h)
        rw [List.filter_cons_of_neg hdropped, encodeFrom]
        simpa [hline] using ih before

theorem stop_le_of_start_lt {ms : List Mark} {m m' : Mark}
    (h : ms.Pairwise fun m m' => m.site.stop ≤ m'.site.start)
    (hnonempty : ∀ m ∈ ms, m.site.start < m.site.stop) (hm : m ∈ ms) (hm' : m' ∈ ms)
    (hlt : m.site.start < m'.site.start) : m.site.stop ≤ m'.site.start := by
  have : Std.Symm fun m m' : Mark => m.site.stop ≤ m'.site.start ∨ m'.site.stop ≤ m.site.start :=
    ⟨fun _ _ => Or.symm⟩
  have hapart : ms.Pairwise fun m m' => m.site.stop ≤ m'.site.start ∨ m'.site.stop ≤ m.site.start :=
    h.imp .inl
  have hne : m ≠ m' := fun heq => Nat.ne_of_lt hlt (congrArg (·.site.start) heq)
  have hlt' := hnonempty m' hm'
  rcases hapart.forall hm hm' hne with hle | hle
  · exact hle
  · omega

def walk (t : Tree) (u : NodeId) : List Mark := marksAt t (t.size + 1) ⟨false, false, .value⟩ u

end Highlight

def File.words (f : File) : List Lexeme :=
  f.shown.merge (Lexer.comments f.text.toList) fun x y => x.start ≤ y.start

def File.Uncommented (f : File) (ms : List Mark) : Prop :=
  ∀ m ∈ ms, ∀ c ∈ Lexer.comments f.text.toList, ¬ Mark.Contains c m

def Lexeme.place (x : Lexeme) : Nat × Nat := (x.start, x.stop)

def Mark.place (m : Mark) : Nat × Nat := (m.site.start, m.site.stop)

theorem File.places_words (f : File) : f.words.map Lexeme.place = (f.shown.map Lexeme.place).merge
    ((Lexer.comments f.text.toList).map Lexeme.place) fun p q => p.1 ≤ q.1 :=
  List.map_merge fun _ _ _ _ => rfl

namespace Highlight

/-- The marks `found` on the tokens of a file in the order of the walk, and with the comments among
them, `ms`, as they are sent. -/
structure Follows (f : File) (found ms : List Mark) : Prop where
  angles : ∀ i ∈ f.angles, ∃ x, (Lexer.tokens f.text.toList)[i]? = some x ∧
    (x.token = .op "<" ∨ x.token = .op ">")
  increasing : found.Pairwise fun m m' => m.site.start < m'.site.start
  shown : List.Forall₂ (Mark.IsOn f) f.shown found
  merged : ms = found.merge (comments f) fun m m' => m.site.start ≤ m'.site.start
  starts : ms.Pairwise fun m m' => m.site.start < m'.site.start
  words : f.Uncommented found → List.Forall₂ Mark.Contains f.words ms
  apart : (ms.filter Mark.onOneLine).Pairwise fun m m' => m.site.stop ≤ m'.site.start
  sent : encode (ms.filter Mark.onOneLine) = encode ms ∧
    (encode ms).length = (ms.filter Mark.onOneLine).length

section Document

variable {t : Tree} {uri : String} {u : NodeId} (h : t.Parsed) (hu : t.unitOf? uri = some u)

include h hu

theorem walk_standing : Standing (t.site u) (walk t u) :=
  unit_standing h (h.mem_units_of_unitOf? hu) ⟨false, false, .value⟩

theorem walk_shown : List.Forall₂ (Mark.IsOn (t.site u).file) (t.site u).file.shown (walk t u) := by
  have hunit := h.mem_units_of_unitOf? hu
  exact Tree.marksAt_shown h hunit
    (Nat.lt_succ_of_lt (Tree.lt_size_of_mem_units h.wellFormed hunit))
    ⟨false, false, .value⟩

theorem walk_increasing : (walk t u).Pairwise fun m m' => m.site.start < m'.site.start :=
  starts_of_stops (walk_standing h hu).inOrder (walk_standing h hu).nonempty

theorem marks_starts : (marks t uri).Pairwise fun m m' => m.site.start < m'.site.start := by
  rw [marks_eq_mergeSort h hu]
  exact mergeSort_starts (found_starts (walk_standing h hu))

theorem marks_eq_merge : marks t uri = (walk t u).merge (comments (t.site u).file) fun m m' =>
    m.site.start ≤ m'.site.start := by
  have hle : ((walk t u).merge (comments (t.site u).file) fun m m' =>
      m.site.start ≤ m'.site.start).Pairwise fun m m' =>
        decide (m.site.start ≤ m'.site.start) = true :=
    List.pairwise_merge (by simpa using fun a b c => Nat.le_trans)
      (by simpa using fun a b => Nat.le_total _ _) _ _
      ((walk_increasing h hu).imp fun hlt => by simpa using Nat.le_of_lt hlt)
      ((comments_standing _).2.imp fun hlt => by simpa using Nat.le_of_lt hlt)
  have hmerged := starts_of_perm hle (List.merge_perm_append _) (found_starts (walk_standing h hu))
  refine List.Perm.eq_of_pairwise (fun m m' _ _ hlt hgt => absurd hlt (Nat.lt_asymm hgt))
    (marks_starts h hu) hmerged ?_
  rw [marks_eq_mergeSort h hu]
  exact (List.mergeSort_perm _ _).trans (List.merge_perm_append _).symm

theorem places_marks : (marks t uri).map Mark.place = ((walk t u).map Mark.place).merge
    ((Lexer.comments (t.site u).file.text.toList).map Lexeme.place) fun p q => p.1 ≤ q.1 := by
  have hcomments : (comments (t.site u).file).map Mark.place =
      (Lexer.comments (t.site u).file.text.toList).map Lexeme.place := by
    rw [comments, List.map_map]
    rfl
  rw [marks_eq_merge h hu, ← hcomments]
  exact List.map_merge fun _ _ _ _ => rfl

theorem exists_of_mem_walk {m : Mark} (hm : m ∈ walk t u) :
    ∃ x ∈ (t.site u).file.shown, m.IsOn (t.site u).file x :=
  exists_of_forall₂ (walk_shown h hu) m hm

theorem mem_marks {m : Mark} : m ∈ marks t uri ↔ m ∈ walk t u ∨
    ∃ c ∈ Lexer.comments (t.site u).file.text.toList,
      (⟨⟨(t.site u).file, c.start, c.stop⟩, .comment, 0⟩ : Mark) = m := by
  rw [marks_eq_merge h hu, List.mem_merge, comments, List.mem_map]

theorem stop_le_of_onOneLine {m m' : Mark} (hm : m ∈ marks t uri) (hm' : m' ∈ marks t uri)
    (hline : m.onOneLine = true) (hline' : m'.onOneLine = true)
    (hlt : m.site.start < m'.site.start) : m.site.stop ≤ m'.site.start := by
  have hstanding := walk_standing h hu
  rcases (mem_marks h hu).mp hm with hm | ⟨c, hc, rfl⟩ <;>
    rcases (mem_marks h hu).mp hm' with hm' | ⟨c', hc', rfl⟩
  · exact stop_le_of_start_lt hstanding.inOrder hstanding.nonempty hm hm' hlt
  · obtain ⟨x, -, hx⟩ := exists_of_mem_walk h hu hm
    have hpos := (Lexer.standsIn_of_mem_scan (List.mem_of_mem_filter hc')).start_lt_stop
    rcases hx.apart_of_comment hc' with hbefore | hbehind | ⟨-, hbroken⟩
    · exact absurd hlt (Nat.not_lt.mpr (Nat.le_trans (Nat.le_of_lt hpos) hbefore))
    · exact hbehind
    · simp [hline] at hbroken
  · obtain ⟨x, -, hx⟩ := exists_of_mem_walk h hu hm'
    have hpos := hstanding.nonempty m' hm'
    rcases hx.apart_of_comment hc with hbefore | hbehind | ⟨-, hbroken⟩
    · exact hbefore
    · exact absurd hlt (Nat.not_lt.mpr (Nat.le_trans (Nat.le_of_lt hpos) hbehind))
    · simp [hline'] at hbroken
  · have hcomments : (comments (t.site u).file).Pairwise fun m m' => m.site.stop ≤ m'.site.start :=
      List.pairwise_map.mpr ((Lexer.scan_pairwise _).filter _)
    exact stop_le_of_start_lt hcomments (fun m hm => ((comments_standing _).1 m hm).2.1)
      (List.mem_map_of_mem hc) (List.mem_map_of_mem hc') hlt

theorem marks_contain_words (hfree : (t.site u).file.Uncommented (walk t u)) :
    List.Forall₂ Mark.Contains (t.site u).file.words (marks t uri) := by
  have hshown := (List.forall₂_and_left _ _).mpr ⟨fun x hx => hx, walk_shown h hu⟩
  have hfound := ((List.forall₂_and_left _ _).mpr ⟨fun m hm => hm, hshown.flip⟩).flip
  have hcomments : List.Forall₂ (fun c m => c ∈ Lexer.comments (t.site u).file.text.toList ∧
      (⟨⟨(t.site u).file, c.start, c.stop⟩, .comment, 0⟩ : Mark) = m)
      (Lexer.comments (t.site u).file.text.toList) (comments (t.site u).file) := by
    rw [comments, List.forall₂_map_right_iff, List.forall₂_same]
    exact fun c hc => ⟨hc, rfl⟩
  rw [marks_eq_merge h hu]
  refine (forall₂_merge hfound hcomments ?_).imp fun x m hx => ?_
  · rintro x m c _ ⟨hm, hx, hon⟩ ⟨hc, rfl⟩
    have hpos := (Lexer.standsIn_of_mem_tokens (File.mem_tokens_of_shown hx).1).start_lt_stop
    have hpos' := (Lexer.standsIn_of_mem_scan (List.mem_of_mem_filter hc)).start_lt_stop
    obtain ⟨hstart, hstop⟩ := hon.contains
    rw [decide_eq_decide]
    rcases hon.apart_of_comment hc with hbefore | hbehind | ⟨hinside, -⟩
    · simp only
      omega
    · simp only
      omega
    · exact absurd hinside (hfree m hm c hc)
  · rcases hx with ⟨-, -, hon⟩ | ⟨-, rfl⟩
    · exact hon.contains
    · exact ⟨Nat.le_refl _, Nat.le_refl _⟩

end Document

theorem site_of_alone {t : Tree} {name : String} {f : File}
    (h : Tree.parseModule .empty name [f] = .ok t) {u : NodeId} (hu : u ∈ t.units) :
    t.site u = .whole f := by
  have ht : t.Parsed := .module .empty h
  obtain ⟨m, hparsed⟩ := Tree.parseModule_parsedAs h
  obtain ⟨m', hadds⟩ := Tree.parseModule_addsModule h
  have hmem : m' ∈ t.modules := by simp [hadds.modules]
  have hlast : m' = m := by
    refine hparsed.eq_last (ht.wellFormed.modules_lt m' hmem) (Nat.le_of_not_lt fun hlt => ?_)
    have hplain := (hparsed.placed m' (Nat.zero_le m') hlt).notModule
    simp [hadds.isModule] at hplain
  have hchild : u ∈ t.children m := by
    rw [← hlast, ht.children_of_module hmem]
    simpa [Tree.units, show t.modules = [m'] from hadds.modules] using hu
  simpa [hparsed.units] using List.mem_map_of_mem (f := t.site) hchild

def walkPlaces (f : File) : Option (List (Nat × Nat)) :=
  match Tree.parseModule .empty "main" [f] with
  | .error _ => none
  | .ok t => (t.unitOf? f.uri).map fun u => (walk t u).map Mark.place

theorem exists_of_walkPlaces {f : File} {ps : List (Nat × Nat)} (h : walkPlaces f = some ps) :
    ∃ t u, Tree.parseModule .empty "main" [f] = .ok t ∧ t.Parsed ∧ t.unitOf? f.uri = some u ∧
      t.site u = .whole f ∧ (walk t u).map Mark.place = ps := by
  rw [walkPlaces] at h
  cases hparse : Tree.parseModule .empty "main" [f] with
  | error e => simp [hparse] at h
  | ok t =>
      rw [hparse] at h
      obtain ⟨u, hu, hplaces⟩ := Option.map_eq_some_iff.mp h
      have ht : t.Parsed := .module .empty hparse
      exact ⟨t, u, rfl, ht, hu, site_of_alone hparse (ht.mem_units_of_unitOf? hu), hplaces⟩

/-- The walk over a document comes to each token that is highlighted once, in the order of the text,
and sorting puts the comments among these. -/
theorem marks_follow_words {t : Tree} (h : t.Parsed) {uri : String} {u : NodeId}
    (hu : t.unitOf? uri = some u) : Follows (t.site u).file (walk t u) (marks t uri) where
  angles := Tree.angle_of_mem_angles h (h.mem_units_of_unitOf? hu)
  increasing := walk_increasing h hu
  shown := walk_shown h hu
  merged := marks_eq_merge h hu
  starts := marks_starts h hu
  words := marks_contain_words h hu
  apart := by
    refine ((marks_starts h hu).filter _).imp_of_mem fun hm hm' hlt => ?_
    obtain ⟨hmem, hline⟩ := List.mem_filter.mp hm
    obtain ⟨hmem', hline'⟩ := List.mem_filter.mp hm'
    exact stop_le_of_onOneLine h hu hmem hmem' hline hline' hlt
  sent := encodeFrom_filter .origin (marks t uri)

/-- Generic parameters and an operator that is spelled like a bracket, a comment, a pattern that
binds nothing, and numbers in parentheses on one line and on two. -/
def genericDocument : File := .document "file:///main.orca" "type Box<T> \x7b var w: (T, Int) \x7d
// a box
let _ = Box(w: (1)) < (
2)
"

set_option maxRecDepth 4000 in
theorem genericDocument_followed : ∃ t u,
    Tree.parseModule .empty "main" [genericDocument] = .ok t ∧
      t.unitOf? genericDocument.uri = some u ∧ t.site u = .whole genericDocument ∧
      (walk t u).map Mark.place = [(0, 4), (5, 8), (9, 10), (14, 17), (18, 19), (22, 23), (25, 28),
        (41, 44), (49, 52), (53, 54), (56, 59), (61, 62), (63, 67)] ∧
      genericDocument.Uncommented (walk t u) ∧
      Follows (t.site u).file (walk t u) (marks t genericDocument.uri) := by
  have hrun : walkPlaces genericDocument = some [(0, 4), (5, 8), (9, 10), (14, 17), (18, 19),
      (22, 23), (25, 28), (41, 44), (49, 52), (53, 54), (56, 59), (61, 62), (63, 67)] := by
    rw [walkPlaces, Tree.parseModule, Tree.parseUnits, Tree.parseUnit,
      Layout.ofFile_of_text genericDocument rfl]
    decide +kernel
  have hcomments : (Lexer.comments genericDocument.text.toList).map Lexeme.place = [(32, 40)] := by
    rw [show genericDocument.text = String.ofList _ from rfl, String.toList_ofList]
    decide +kernel
  obtain ⟨t, u, hparse, ht, hu, hsite, hplaces⟩ := exists_of_walkPlaces hrun
  refine ⟨t, u, hparse, hu, hsite, hplaces, fun m hm c hc => ?_, marks_follow_words ht hu⟩
  have hm := List.mem_map_of_mem (f := Mark.place) hm
  have hc := List.mem_map_of_mem (f := Lexeme.place) hc
  have hapart : ∀ p ∈ (walk t u).map Mark.place,
      ∀ q ∈ (Lexer.comments genericDocument.text.toList).map Lexeme.place,
        ¬ (p.1 ≤ q.1 ∧ q.2 ≤ p.2) := by
    rw [hplaces, hcomments]
    decide
  exact hapart _ hm _ hc

def commentedDocument : File := .document "file:///main.orca" "let x = ( // c\n1)\n"

set_option maxRecDepth 4000 in
theorem walkPlaces_commented :
    walkPlaces commentedDocument = some [(0, 3), (4, 5), (8, 17)] := by
  rw [walkPlaces, Tree.parseModule, Tree.parseUnits, Tree.parseUnit,
    Layout.ofFile_of_text commentedDocument rfl]
  decide +kernel

theorem commentedDocument_disordered : ∃ t u,
    Tree.parseModule .empty "main" [commentedDocument] = .ok t ∧
      t.unitOf? commentedDocument.uri = some u ∧
      ¬ List.Forall₂ Mark.Contains commentedDocument.words (marks t commentedDocument.uri) := by
  obtain ⟨t, u, hparse, ht, hu, hsite, hplaces⟩ := exists_of_walkPlaces walkPlaces_commented
  have hshown : commentedDocument.shown.map Lexeme.place = [(0, 3), (4, 5), (15, 16)] := by
    rw [File.shown, File.angles, Layout.ofFile_of_text commentedDocument rfl,
      show commentedDocument.text = String.ofList _ from rfl, String.toList_ofList]
    decide +kernel
  have hcomments : (Lexer.comments commentedDocument.text.toList).map Lexeme.place = [(10, 14)] := by
    rw [show commentedDocument.text = String.ofList _ from rfl, String.toList_ofList]
    decide +kernel
  refine ⟨t, u, hparse, hu, fun hcontains => ?_⟩
  have hplaces' : List.Forall₂ (fun p q => q.1 ≤ p.1 ∧ p.2 ≤ q.2)
      (commentedDocument.words.map Lexeme.place)
      ((marks t commentedDocument.uri).map Mark.place) :=
    List.forall₂_map_left_iff.mpr (List.forall₂_map_right_iff.mpr hcontains)
  have hfile : (Site.whole commentedDocument).file = commentedDocument := rfl
  rw [File.places_words, places_marks ht hu, hsite, hfile, hshown, hplaces, hcomments] at hplaces'
  simp at hplaces'

/-- A mark is on one token or comment and on one line, or else it is on a literal in parentheses. -/
theorem marks_on_words {t : Tree} (h : t.Parsed) {uri : String} {u : NodeId}
    (hu : t.unitOf? uri = some u) : ∀ m ∈ marks t uri, m.site.file = (t.site u).file ∧
      ((∃ x ∈ (t.site u).file.words, m.site.start = x.start ∧ m.site.stop = x.stop ∧
        m.onOneLine = true) ∨
          ∃ x ∈ (t.site u).file.shown, x.token.isLiteral = true ∧ m.site.Wraps x) := by
  intro m hm
  rcases (mem_marks h hu).mp hm with hm | ⟨c, hc, rfl⟩
  · obtain ⟨x, hx, hon⟩ := exists_of_mem_walk h hu hm
    refine ⟨hon.file, ?_⟩
    rcases hon.tight with ⟨hstart, hstop⟩ | hliteral
    · have hstands := Lexer.standsIn_of_mem_tokens (File.mem_tokens_of_shown hx).1
      refine .inl ⟨x, List.mem_merge.mpr (.inl hx), hstart, hstop, ?_⟩
      rw [Mark.onOneLine, Site.startPosition, Site.stopPosition, hon.file, hstart, hstop]
      exact beq_iff_eq.mpr hstands.line_eq
    · exact .inr ⟨x, hx, hliteral⟩
  · have hstands := Lexer.standsIn_of_mem_scan (List.mem_of_mem_filter hc)
    exact ⟨rfl, .inl ⟨c, List.mem_merge.mpr (.inr hc), rfl, rfl, beq_iff_eq.mpr hstands.line_eq⟩⟩

theorem commentedDocument_marked : ∃ t u,
    Tree.parseModule .empty "main" [commentedDocument] = .ok t ∧
      t.unitOf? commentedDocument.uri = some u ∧
      (∃ m ∈ marks t commentedDocument.uri, m.place = (8, 17)) ∧
      ∀ m ∈ marks t commentedDocument.uri, m.site.file = (t.site u).file ∧
        ((∃ x ∈ (t.site u).file.words, m.site.start = x.start ∧ m.site.stop = x.stop ∧
          m.onOneLine = true) ∨
            ∃ x ∈ (t.site u).file.shown, x.token.isLiteral = true ∧ m.site.Wraps x) := by
  obtain ⟨t, u, hparse, ht, hu, -, hplaces⟩ := exists_of_walkPlaces walkPlaces_commented
  obtain ⟨m, hm, hplace⟩ := List.mem_map.mp
    (show (8, 17) ∈ (walk t u).map Mark.place by simp [hplaces])
  exact ⟨t, u, hparse, hu, ⟨m, (mem_marks ht hu).mpr (.inl hm), hplace⟩, marks_on_words ht hu⟩

def parenthesizedDocument : File := .document "file:///main.orca" "let x = (1)\n"

set_option maxRecDepth 4000 in
/-- The mark of the number takes up the parentheses as well, which is the place of no token and of
no comment. -/
theorem parenthesizedDocument_overreached : ∃ t u,
    Tree.parseModule .empty "main" [parenthesizedDocument] = .ok t ∧
      t.unitOf? parenthesizedDocument.uri = some u ∧
      ∃ m ∈ marks t parenthesizedDocument.uri, m.site.file = parenthesizedDocument ∧
        ∀ x ∈ Lexer.scan parenthesizedDocument.text.toList,
          ¬ (m.site.start = x.start ∧ m.site.stop = x.stop) := by
  have hrun : walkPlaces parenthesizedDocument = some [(0, 3), (4, 5), (8, 11)] := by
    rw [walkPlaces, Tree.parseModule, Tree.parseUnits, Tree.parseUnit,
      Layout.ofFile_of_text parenthesizedDocument rfl]
    decide +kernel
  obtain ⟨t, u, hparse, ht, hu, hsite, hplaces⟩ := exists_of_walkPlaces hrun
  obtain ⟨m, hm, hplace⟩ := List.mem_map.mp
    (show (8, 11) ∈ (walk t u).map Mark.place by simp [hplaces])
  refine ⟨t, u, hparse, hu, m, (mem_marks ht hu).mpr (.inl hm), ?_, ?_⟩
  · rw [((walk_standing ht hu).inside m hm).file, hsite]
    rfl
  · obtain ⟨hstart, hstop⟩ := Prod.mk.inj hplace
    rw [hstart, hstop, show parenthesizedDocument.text = String.ofList _ from rfl,
      String.toList_ofList]
    decide +kernel

end Highlight

end LanguageService
