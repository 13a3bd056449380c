import LanguageService.Document
import LanguageService.Proofs.Positions

/-!
Where an edit at a position puts a text, and where a query at the position looks. In texts whose
lines all end in a line feed, with or without a carriage return, the two differ only inside a
character of two units and past the end of a line that is not the last.
-/
namespace LanguageService.Text

variable {cs before content ending after line s t : List Char} {n k : Nat}

def OnlyFeeds : List Char → Prop
  | [] => True
  | c :: cs =>
      (c ∈ lineBreaks → c = '\n' ∨ c = '\r' ∧ cs.head? = some '\n') ∧ OnlyFeeds cs

instance OnlyFeeds.decidable : DecidablePred OnlyFeeds
  | [] => inferInstanceAs (Decidable True)
  | _ :: cs => have := OnlyFeeds.decidable cs; inferInstanceAs (Decidable (_ ∧ _))

def Splits (content : List Char) (k : Nat) : Prop :=
  ∃ s c t, content = s ++ c :: t ∧ units s < k ∧ k < units s + charUnits c

def LooksAfter (text : String) (p : LineColumn) (pre : List Char) : Prop :=
  ∃ post, text.toList = pre ++ post ∧ offset text.toList p = some (bytes pre)

theorem OnlyFeeds.right (h : OnlyFeeds (s ++ t)) : OnlyFeeds t := by
  induction s with
  | nil => exact h
  | cons c cs ih => exact ih h.2

theorem endsLine_eq {c : Char} (h : OnlyFeeds (c :: cs)) : endsLine c cs.head? = (c == '\n') := by
  by_cases hc : c = '\n'
  · subst hc
    simp [endsLine, lineBreaks]
  · have hnot : (c == '\n') = false := by simpa using hc
    rw [hnot, endsLine]
    by_cases hmem : c ∈ lineBreaks
    · obtain ⟨rfl, hfeed⟩ := (h.1 hmem).resolve_left hc
      simp [hfeed]
    · simp [hmem]

theorem skipBreaks_append (h : OnlyFeeds (before ++ t)) (hbefore : Complete before) (start : Nat) :
    skipBreaks (before.count '\n') start (before ++ t) = some (start + before.length, t) := by
  induction before generalizing start with
  | nil => simp [skipBreaks]
  | cons c before ih =>
      have hrest : OnlyFeeds (before ++ t) := h.2
      by_cases hc : c = '\n'
      · rw [hc, List.count_cons_self, List.cons_append, skipBreaks, if_pos, ih hrest hbefore.tail,
          List.length_cons]
        · congr 2
          omega
        · rw [endsLine_eq (hc ▸ h)]
          rfl
      · obtain ⟨n, hn⟩ := Nat.exists_eq_add_one.mpr (hbefore.count_pos hc)
        rw [List.count_cons_of_ne hc, hn, List.cons_append, skipBreaks, if_neg, ← hn,
          ih hrest hbefore.tail, List.length_cons]
        · congr 2
          omega
        · rw [← List.append_eq, endsLine_eq h]
          simpa using hc

theorem brokenLine_append (h : OnlyFeeds (line ++ t)) (hline : '\n' ∉ line) :
    brokenLine (line ++ t) = line ++ brokenLine t := by
  induction line with
  | nil => rfl
  | cons c cs ih =>
      rw [List.mem_cons, not_or] at hline
      rw [List.cons_append, brokenLine, if_neg, ih h.2 hline.2, List.cons_append]
      rw [← List.append_eq, endsLine_eq h]
      simpa using Ne.symm hline.1

theorem charsWithin_append (s t : List Char) (k : Nat) :
    charsWithin (units s + k) (s ++ t) = s.length + charsWithin k t := by
  induction s with
  | nil => simp [units]
  | cons c cs ih =>
      have hrest : units (c :: cs) + k - charUnits c = units cs + k := by
        rw [units]
        omega
      rw [List.cons_append, charsWithin, if_pos, hrest, ih, List.length_cons]
      · omega
      · rw [units, Nat.add_assoc]
        exact Nat.le_add_right _ _

theorem charsWithin_of_lt {c : Char} (h : k < charUnits c) : charsWithin k (c :: t) = 0 :=
  if_neg (Nat.not_le.mpr h)

theorem charsWithin_zero (s : List Char) : charsWithin 0 s = 0 := by
  cases s with
  | nil => rfl
  | cons c cs => exact charsWithin_of_lt (charUnits_pos c)

theorem columnBytes_of_lt {c : Char} (hpos : 0 < k) (h : k < charUnits c) :
    columnBytes k (c :: t) = c.utf8Size := by
  obtain ⟨k, rfl⟩ := Nat.exists_eq_add_one.mpr hpos
  rw [columnBytes, Nat.sub_eq_zero_of_le (Nat.le_of_lt h), columnBytes, Nat.add_zero]

namespace LineAt

theorem onlyFeeds_ending (h : LineAt cs n before content ending after) (hfeeds : OnlyFeeds cs) :
    ending = ['\n'] ∨ ending = ['\r', '\n'] ∨ ending = [] ∧ after = [] := by
  rcases h.ends with hending | hending | ⟨hafter, hending | rfl⟩
  · exact .inl hending
  · exact .inr (.inl hending)
  · exact .inr (.inr ⟨hending, hafter⟩)
  · have hlast : OnlyFeeds ('\r' :: after) := by
      rw [h.text, ← List.append_assoc] at hfeeds
      exact hfeeds.right
    simp [hafter, OnlyFeeds, lineBreaks] at hlast

theorem charIndex (h : LineAt cs n before content ending after) (hfeeds : OnlyFeeds cs) (k : Nat) :
    charIndex cs ⟨n, k⟩ = before.length + charsWithin k (content ++ ending) := by
  have hbroken : brokenLine (content ++ (ending ++ after)) = content ++ ending := by
    have hrest : OnlyFeeds (content ++ (ending ++ after)) := .right (s := before) (h.text ▸ hfeeds)
    rw [brokenLine_append hrest h.unbroken]
    rcases h.onlyFeeds_ending hfeeds with rfl | rfl | ⟨rfl, rfl⟩
    · simp [brokenLine, endsLine, lineBreaks]
    · simp [brokenLine, endsLine, lineBreaks]
    · simp [brokenLine]
  rw [Text.charIndex]
  dsimp only
  rw [h.text, ← h.number, skipBreaks_append (h.text ▸ hfeeds) h.complete]
  dsimp only
  rw [hbroken, Nat.zero_add]

theorem units_ending (h : LineAt cs n before content ending after) (hfeeds : OnlyFeeds cs)
    (k : Nat) : units (ending.take k) = min k (units ending) ∧
      charsWithin k ending = (ending.take k).length := by
  have hfeed : charUnits '\n' = 1 := by decide
  have hreturn : charUnits '\r' = 1 := by decide
  rcases h.onlyFeeds_ending hfeeds with rfl | rfl | ⟨rfl, rfl⟩
  · rcases k with _ | k <;> simp [units, charsWithin, hfeed]
  · rcases k with _ | _ | k <;> simp [units, charsWithin, hfeed, hreturn]
  · simp [units, charsWithin]

theorem ending_eq_nil_iff (h : LineAt cs n before content ending after) (hfeeds : OnlyFeeds cs) :
    ending = [] ↔ n + 1 = lineCount cs := by
  have hcount : lineCount cs = n + (ending ++ after).count '\n' + 1 := by
    rw [lineCount, h.text, List.count_append, List.count_append, h.number,
      List.count_eq_zero.mpr h.unbroken, Nat.zero_add]
  rcases h.onlyFeeds_ending hfeeds with rfl | rfl | ⟨rfl, rfl⟩
  · simp at hcount ⊢
    omega
  · simp at hcount ⊢
    omega
  · simpa using hcount.symm

end LineAt

theorem exists_units (h : k ≤ units content) :
    (∃ s t, content = s ++ t ∧ units s = k) ∨ Splits content k := by
  induction content generalizing k with
  | nil => exact .inl ⟨[], [], rfl, (Nat.le_zero.mp h).symm⟩
  | cons c cs ih =>
      rw [units] at h
      rcases Nat.eq_zero_or_pos k with rfl | hpos
      · exact .inl ⟨[], c :: cs, rfl, rfl⟩
      · by_cases hin : k < charUnits c
        · exact .inr ⟨[], c, cs, rfl, hpos, by simpa [units] using hin⟩
        · rcases ih (k := k - charUnits c) (by omega) with ⟨s, t, rfl, hs⟩ | ⟨s, d, t, rfl, hs, hd⟩
          · exact .inl ⟨c :: s, t, rfl, by rw [units]; omega⟩
          · exact .inr ⟨c :: s, d, t, rfl, by rw [units]; omega, by rw [units]; omega⟩

theorem not_splits (s t : List Char) : ¬ Splits (s ++ t) (units s) := by
  rintro ⟨s', c, t', heq, hlt, hgt⟩
  rcases List.append_eq_append_iff.mp heq with ⟨d, hd, -⟩ | ⟨d, hd, hrest⟩
  · rw [hd, units_append] at hlt
    omega
  · cases d with
    | nil =>
        rw [List.append_nil] at hd
        rw [hd] at hlt
        exact absurd hlt (Nat.lt_irrefl _)
    | cons c' d =>
        obtain ⟨rfl, -⟩ := List.cons.inj hrest
        rw [hd, units_append, units] at hgt
        omega

theorem not_splits_of_units_lt (h : units content < k) : ¬ Splits content k := by
  rintro ⟨s, c, t, rfl, -, hgt⟩
  rw [units_append, units] at h
  omega

end LanguageService.Text

namespace LanguageService

open Text

def Change.PutsAfter (text : String) (p : LineColumn) (pre : List Char) : Prop :=
  ∃ post, text.toList = pre ++ post ∧
    ∀ new, (Change.mk (some (p, p)) new).apply text = String.ofList (pre ++ new.toList ++ post)

namespace Change

variable {text : String} {p : LineColumn} {pre pre' : List Char}

theorem putsAfter_of_charIndex (post : List Char) (htext : text.toList = pre ++ post)
    (hp : charIndex text.toList p = pre.length) : PutsAfter text p pre := by
  refine ⟨post, htext, fun new => ?_⟩
  rw [apply]
  dsimp only
  rw [hp, htext, splice, Nat.max_self, List.take_left, List.drop_left]

theorem PutsAfter.isPrefix (h : PutsAfter text p pre) : pre <+: text.toList := by
  obtain ⟨post, htext, -⟩ := h
  exact ⟨post, htext.symm⟩

theorem eq_nil_of_putsAfter {d : List Char} (h : PutsAfter text p pre)
    (h' : PutsAfter text p (pre ++ d)) : d = [] := by
  obtain ⟨post, htext, hput⟩ := h
  obtain ⟨post', htext', hput'⟩ := h'
  obtain rfl : post = d ++ post' := by
    rw [htext, List.append_assoc] at htext'
    exact List.append_cancel_left htext'
  cases d with
  | nil => rfl
  | cons c d =>
      -- A text that starts with another character tells the two places apart.
      obtain ⟨x, hx⟩ : ∃ x : Char, x ≠ c := by
        by_cases hc : c = 'a'
        · exact ⟨'b', by simp [hc]⟩
        · exact ⟨'a', Ne.symm hc⟩
      have hboth := congrArg String.toList ((hput (.ofList [x])).symm.trans (hput' (.ofList [x])))
      simp at hboth
      exact absurd hboth.1 hx

theorem PutsAfter.unique (h : PutsAfter text p pre) (h' : PutsAfter text p pre') : pre = pre' := by
  rcases List.prefix_or_prefix_of_prefix h.isPrefix h'.isPrefix with ⟨d, rfl⟩ | ⟨d, rfl⟩
  · rw [eq_nil_of_putsAfter h h', List.append_nil]
  · rw [eq_nil_of_putsAfter h' h, List.append_nil]

end Change

theorem Text.LooksAfter.unique {text : String} {p : LineColumn} {pre pre' : List Char}
    (h : LooksAfter text p pre) (h' : LooksAfter text p pre') : pre = pre' := by
  obtain ⟨post, htext, hoffset⟩ := h
  obtain ⟨post', htext', hoffset'⟩ := h'
  have hbytes : bytes pre = bytes pre' := Option.some.inj (hoffset.symm.trans hoffset')
  have hle := prefix_of_bytes_le ⟨post, htext.symm⟩ ⟨post', htext'.symm⟩ (Nat.le_of_eq hbytes)
  have hge := prefix_of_bytes_le ⟨post', htext'.symm⟩ ⟨post, htext.symm⟩ (Nat.le_of_eq hbytes.symm)
  exact hle.eq_of_length_le hge.length_le

section Places

variable {text : String} {p : LineColumn} {before content ending after : List Char}

def Text.Meet (text : String) (p : LineColumn) : Prop :=
  ∃ pre, Change.PutsAfter text p pre ∧ LooksAfter text p pre

theorem Text.meet_iff {pre pre' : List Char} (h : Change.PutsAfter text p pre)
    (h' : LooksAfter text p pre') : Meet text p ↔ pre = pre' := by
  constructor
  · rintro ⟨q, hq, hq'⟩
    rw [h.unique hq, h'.unique hq']
  · rintro rfl
    exact ⟨pre, h, h'⟩

variable (h : LineAt text.toList p.line before content ending after)
  (hfeeds : OnlyFeeds text.toList)

include h hfeeds

theorem Text.LineAt.putsAfter {s t : List Char} (hline : content ++ ending = s ++ t)
    (hcolumn : charsWithin p.column (content ++ ending) = s.length) :
    Change.PutsAfter text p (before ++ s) := by
  refine Change.putsAfter_of_charIndex (t ++ after) ?_ ?_
  · rw [h.text, ← List.append_assoc content, hline]
    simp
  · rw [List.length_append, ← hcolumn]
    exact h.charIndex hfeeds p.column

omit hfeeds in
theorem Text.LineAt.looksAfter {s t : List Char} (hline : content = s ++ t)
    (hcolumn : columnBytes p.column content = bytes s) : LooksAfter text p (before ++ s) := by
  refine ⟨t ++ (ending ++ after), ?_, ?_⟩
  · rw [h.text, hline]
    simp
  · rw [bytes_append, ← hcolumn]
    exact h.offset p.column

theorem Text.LineAt.meet {s t : List Char} (hcontent : content = s ++ t)
    (hcolumn : units s = p.column) : Meet text p := by
  refine ⟨before ++ s, h.putsAfter hfeeds (t := t ++ ending) (by simp [hcontent]) ?_,
    h.looksAfter hcontent ?_⟩
  · rw [hcontent, List.append_assoc, ← hcolumn]
    simpa [charsWithin_zero] using charsWithin_append s (t ++ ending) 0
  · rw [hcontent, ← hcolumn]
    simpa [columnBytes] using columnBytes_append s t 0

theorem Text.LineAt.split {s t : List Char} {c : Char} (hcontent : content = s ++ c :: t)
    (hlt : units s < p.column) (hgt : p.column < units s + charUnits c) :
    Change.PutsAfter text p (before ++ s) ∧ LooksAfter text p (before ++ (s ++ [c])) := by
  obtain ⟨k, hk⟩ := Nat.exists_eq_add_of_le (Nat.le_of_lt hlt)
  have hin : k < charUnits c := by omega
  refine ⟨h.putsAfter hfeeds (t := c :: (t ++ ending)) (by simp [hcontent]) ?_,
    h.looksAfter (t := t) (by simp [hcontent]) ?_⟩
  · rw [hcontent, List.append_assoc, hk, charsWithin_append, List.cons_append,
      charsWithin_of_lt hin, Nat.add_zero]
  · rw [hcontent, hk, columnBytes_append, columnBytes_of_lt (by omega) hin, bytes_append, bytes,
      bytes, Nat.add_zero]

theorem Text.LineAt.past (hlt : units content < p.column) :
    Change.PutsAfter text p (before ++ (content ++ ending.take (p.column - units content))) ∧
      LooksAfter text p (before ++ content) := by
  obtain ⟨k, hk⟩ := Nat.exists_eq_add_of_le (Nat.le_of_lt hlt)
  have hover : p.column - units content = k := by omega
  refine ⟨h.putsAfter hfeeds (t := ending.drop (p.column - units content)) ?_ ?_,
    h.looksAfter (t := []) (by simp) (columnBytes_of_units_le (Nat.le_of_lt hlt))⟩
  · rw [List.append_assoc, List.take_append_drop]
  · rw [hover, hk, charsWithin_append, (h.units_ending hfeeds k).2, List.length_append]

end Places

/-- In a text whose only line breaks are line feeds, alone or after a carriage return, an edit and a
query at a position in a line meet exactly if the column splits no character, and is not past the
content of the line unless this is the last. Where the column splits a character, the edit is before
it and the query after it. Past the content, the edit goes on into the break of the line, and the
query stays at its end. -/
theorem edits_meet_queries {text : String} (hfeeds : OnlyFeeds text.toList) {p : LineColumn}
    (hp : p.line < lineCount text.toList) :
    ∃ before content ending after, LineAt text.toList p.line before content ending after ∧
      (Meet text p ↔ ¬ Splits content p.column ∧
        (p.column ≤ units content ∨ p.line + 1 = lineCount text.toList)) ∧
      (∀ s c t, content = s ++ c :: t → units s < p.column → p.column < units s + charUnits c →
        Change.PutsAfter text p (before ++ s) ∧ LooksAfter text p (before ++ (s ++ [c]))) ∧
      (units content < p.column →
        (∃ passed, passed <+: ending ∧
          units passed = min p.column (units (content ++ ending)) - units content ∧
          Change.PutsAfter text p (before ++ (content ++ passed))) ∧
        LooksAfter text p (before ++ content)) := by
  obtain ⟨before, content, ending, after, h⟩ := exists_lineAt hp
  refine ⟨before, content, ending, after, h, ?_, fun s c t => h.split hfeeds, fun hlt => ?_⟩
  · rcases Nat.lt_or_ge (units content) p.column with hlt | hle
    · obtain ⟨hputs, hlooks⟩ := h.past hfeeds hlt
      have hover : ending.take (p.column - units content) = [] ↔ ending = [] := by
        rw [List.take_eq_nil_iff]
        exact or_iff_right (by omega)
      rw [meet_iff hputs hlooks, List.append_cancel_left_eq, List.append_right_eq_self, hover,
        h.ending_eq_nil_iff hfeeds, or_iff_right (Nat.not_le.mpr hlt)]
      exact (and_iff_right (not_splits_of_units_lt hlt)).symm
    · rcases exists_units hle with ⟨s, t, hcontent, hs⟩ | hsplits
      · refine iff_of_true (h.meet hfeeds hcontent hs) ⟨?_, .inl hle⟩
        rw [hcontent, ← hs]
        exact not_splits s t
      · obtain ⟨s, c, t, hcontent, hlt, hgt⟩ := hsplits
        obtain ⟨hputs, hlooks⟩ := h.split hfeeds hcontent hlt hgt
        rw [meet_iff hputs hlooks]
        refine iff_of_false (by simp) fun hno => hno.1 ⟨s, c, t, hcontent, hlt, hgt⟩
  · obtain ⟨hputs, hlooks⟩ := h.past hfeeds hlt
    refine ⟨⟨_, List.take_prefix _ _, ?_, hputs⟩, hlooks⟩
    rw [(h.units_ending hfeeds _).1, units_append]
    omega

theorem Text.LineAt.units_content_le {cs before content ending after : List Char} {n : Nat}
    (h : LineAt cs n before content ending after) : units content ≤ units cs := by
  rw [h.text, units_append, units_append]
  omega

theorem edits_meet_queries_clef : ¬ Meet "𝄞a\r\nb" ⟨0, 9⟩ ∧ Meet "𝄞a\r\nb" ⟨1, 9⟩ := by
  have hfeeds : OnlyFeeds "𝄞a\r\nb".toList := by decide
  have hlines : lineCount "𝄞a\r\nb".toList = 2 := by decide
  have hunits : units "𝄞a\r\nb".toList = 6 := by decide
  obtain ⟨_, content, _, _, h, hmeet, -⟩ :=
    edits_meet_queries hfeeds (p := ⟨0, 9⟩) (by rw [hlines]; decide)
  obtain ⟨_, content', _, _, h', hmeet', -⟩ :=
    edits_meet_queries hfeeds (p := ⟨1, 9⟩) (by rw [hlines]; decide)
  have hle := h.units_content_le
  have hle' := h'.units_content_le
  rw [hmeet, hmeet', hlines]
  refine ⟨fun hboth => ?_, not_splits_of_units_lt ?_, .inr rfl⟩
  · rcases hboth.2 with hshort | hlast
    · dsimp only at hshort
      omega
    · cases hlast
  · dsimp only
    omega

end LanguageService
