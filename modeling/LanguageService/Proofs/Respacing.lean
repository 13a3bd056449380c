import LanguageService.Proofs.Lexemes

/-!
Tokens read from a text are read again, the same ones, when they are written out in order with
blanks between them: no word but a string or a comment holds a blank, so that the longest match of a
word ends before the blank that follows it.
-/
namespace LanguageService.Lexer

section Blanks

variable {c : Char} (h : isBlank c)

include h

theorem blank_cases : c = ' ' ∨ c = '\t' ∨ c = '\r' ∨ c = '\n' ∨ c = '\x0c' := by
  simpa [isBlank, or_assoc] using h

theorem headOf_of_isBlank : headOf c = .unknown := by
  rcases blank_cases h with rfl | rfl | rfl | rfl | rfl <;> decide

theorem not_isDigit_of_isBlank : isDigit c = false := by
  rcases blank_cases h with rfl | rfl | rfl | rfl | rfl <;> decide

theorem not_isWordPart_of_isBlank : isWordPart c = false := by
  rcases blank_cases h with rfl | rfl | rfl | rfl | rfl <;> decide

theorem not_isOperatorChar_of_isBlank : isOperatorChar c = false := by
  rcases blank_cases h with rfl | rfl | rfl | rfl | rfl <;> decide

end Blanks

theorem not_blank_of_all {p : Char → Bool} {w : List Char}
    (hp : ∀ {c}, isBlank c → p c = false) (hw : w.all p) : ∀ c ∈ w, isBlank c = false := by
  intro c hc
  by_contra hblank
  have hpc := List.all_eq_true.mp hw c hc
  rw [hp (by simpa using hblank)] at hpc
  cases hpc

namespace Rule

variable {r s : Rule} {v w : List Char}

theorem Matches.head_eq (hr : r.Matches w) (hs : s.Matches v) (h : w <+: v) : s.head = r.head := by
  obtain ⟨c, w, rfl⟩ := List.exists_cons_of_ne_nil hr.ne_nil
  obtain ⟨rest, rfl⟩ := h
  exact hs.headOf_eq.symm.trans hr.headOf_eq

theorem Matches.not_blank (h : r.Matches v) (hcomment : r ≠ .comment) (hstring : r ≠ .string) :
    ∀ c ∈ v, isBlank c = false := by
  have hword {w : List Char} (hw : ident.Matches w) : ∀ c ∈ w, isBlank c = false := by
    obtain ⟨d, ds, rfl, hd, hds⟩ := hw
    exact not_blank_of_all not_isWordPart_of_isBlank (by simp [hds, isWordPart, hd])
  cases r with
  | comment => exact absurd rfl hcomment
  | string => exact absurd rfl hstring
  | float =>
      obtain ⟨whole, part, rfl, -, -, hwhole, hpart⟩ := h
      have hdigits {w : List Char} (hw : w.all isDigit) : ∀ c ∈ w, isBlank c = false :=
        not_blank_of_all not_isDigit_of_isBlank hw
      exact List.forall_mem_append.mpr ⟨hdigits hwhole,
        List.forall_mem_cons.mpr ⟨by decide, hdigits hpart⟩⟩
  | int => exact not_blank_of_all not_isDigit_of_isBlank h.2
  | keyword k =>
      cases h
      exact hword (ident_matches k)
  | punct p =>
      cases h
      cases p <;> simp [Punct.spelling, isBlank]
  | op => exact not_blank_of_all not_isOperatorChar_of_isBlank h.2
  | ident => exact hword h

end Rule

namespace Chosen

variable {r s : Rule} {text v w after rest : List Char}

theorem unique (hr : Chosen text r w) (hs : Chosen text s v) : s = r ∧ v = w := by
  rcases hr.best s v hs.isMatch hs.isPrefix with hlt | ⟨rfl, heq⟩
  · rcases hs.best r w hr.isMatch hr.isPrefix with hgt | ⟨rfl, -⟩
    · exact absurd hlt (Nat.lt_asymm hgt)
    · exact absurd hlt (Nat.lt_irrefl _)
  · rcases heq with rfl | hlt
    · exact ⟨rfl, rfl⟩
    · rcases hs.best r v hr.isMatch hr.isPrefix with hgt | ⟨-, rfl | hgt⟩
      · exact absurd hgt (Nat.lt_irrefl _)
      · exact absurd hlt (Nat.lt_irrefl _)
      · exact absurd hlt (Nat.lt_asymm hgt)

theorem not_slashes (h : Chosen text r w) (hr : r ≠ .comment) : ¬ ['/', '/'] <+: w := by
  rintro ⟨body, rfl⟩
  have hline := h.isMatch.newline_notMem
  have hcomment : Rule.comment.Matches (['/', '/'] ++ body) := ⟨body, rfl, by simpa using hline⟩
  rcases h.best _ _ hcomment h.isPrefix with hlt | ⟨-, heq | hlt⟩
  · exact absurd hlt (Nat.lt_irrefl _)
  · exact hr heq.symm
  · have hhead := h.isMatch.headOf_eq
    rw [show headOf '/' = .operator by decide] at hhead
    rcases Rule.of_head_operator hhead.symm with rfl | rfl | rfl | rfl <;>
      exact absurd hlt (by decide)

theorem not_longer {c : Char} (h : Chosen (w ++ after) r w) (hr : r ≠ .comment)
    (hc : isBlank c) : ¬ s.Matches (w ++ c :: rest) := by
  intro hs
  have hhead := h.isMatch.head_eq hs (List.prefix_append _ _)
  by_cases hcomment : s = .comment
  · subst hcomment
    obtain ⟨body, hbody, -⟩ := hs
    -- a single slash is followed by the blank, and two would have made a comment of the word
    rcases w with _ | ⟨d, _ | ⟨e, w⟩⟩
    · exact h.isMatch.ne_nil rfl
    · cases hbody
      exact absurd hc (by decide)
    · cases hbody
      exact h.not_slashes hr (by simp)
  · by_cases hstring : s = .string
    · subst hstring
      cases Rule.of_head_quote hhead.symm
      obtain ⟨body, rfl, -⟩ := id h.isMatch
      have hv : body ++ ['"'] ++ c :: rest = stringBody (body ++ ['"'] ++ c :: rest) ++ ['"'] :=
        (stringBody_eq_of_matches hs (List.prefix_refl _)).2
      have hw : body ++ ['"'] = stringBody (body ++ ['"'] ++ c :: rest) ++ ['"'] :=
        (stringBody_eq_of_matches h.isMatch (List.prefix_append _ _)).2
      have hlength := congrArg List.length (hv.trans hw.symm)
      simp at hlength
    · have hblank := hs.not_blank hcomment hstring c (by simp)
      rw [hc] at hblank
      cases hblank

theorem before_blank (h : Chosen (w ++ after) r w) (hr : r ≠ .comment)
    (hrest : ∀ c ∈ rest.head?, isBlank c) : Chosen (w ++ rest) r w := by
  refine ⟨List.prefix_append _ _, h.isMatch, fun s v hs hv => ?_⟩
  rcases List.prefix_or_prefix_of_prefix hv (List.prefix_append w rest) with hvw | ⟨u, rfl⟩
  · exact h.best s v hs (hvw.trans (List.prefix_append _ _))
  · cases u with
    | nil => exact h.best s _ hs (by simp)
    | cons c u =>
        obtain ⟨more, rfl⟩ := (List.prefix_append_right_inj w).mp hv
        exact absurd hs (h.not_longer hr (hrest c rfl))

end Chosen

theorem Picks.head_not_blank {c : Char} {cs w : List Char} {t : Token}
    (h : Picks (c :: cs) t w) : isBlank c = false := by
  cases h with
  | @rule r w hr =>
      obtain ⟨d, w, rfl⟩ := List.exists_cons_of_ne_nil hr.isMatch.ne_nil
      obtain ⟨rfl, -⟩ := List.cons_prefix_cons.mp hr.isPrefix
      by_contra hblank
      refine Rule.head_ne_unknown (hr.isMatch.headOf_eq.symm.trans ?_)
      exact headOf_of_isBlank (by simpa using hblank)
  | character hd hprefix _ =>
      obtain ⟨rfl, -⟩ := List.cons_prefix_cons.mp hprefix
      exact hd
  | unterminated hprefix _ _ _ =>
      obtain ⟨rfl, -⟩ := List.cons_prefix_cons.mp hprefix
      decide

theorem Picks.chosen {text w : List Char} {t : Token} (h : Picks text t w)
    (ht : t.isError = false) : ∃ r : Rule, t = r.token w ∧ Chosen text r w := by
  cases h with
  | @rule r w hr => exact ⟨r, rfl, hr⟩
  | character _ _ _ => cases ht
  | unterminated _ _ _ _ => cases ht

theorem Chosen.picks_eq {text v w : List Char} {r : Rule} {t : Token} (h : Chosen text r w)
    (hpicks : Picks text t v) : t = r.token w ∧ v = w := by
  cases hpicks with
  | rule hs =>
      obtain ⟨rfl, rfl⟩ := h.unique hs
      exact ⟨rfl, rfl⟩
  | character _ _ hno => exact absurd h.isPrefix (hno _ _ h.isMatch)
  | unterminated _ _ _ hno => exact absurd h.isPrefix (hno _ _ h.isMatch)

namespace Lexes

variable {start : Nat} {text : List Char} {xs ys : List Lexeme}

theorem unique (h : Lexes start text xs) (hxs : ∀ x ∈ xs, x.token.isError = false)
    (hys : Lexes start text ys) : ys = xs := by
  induction h generalizing ys with
  | nil =>
      generalize hnil : ([] : List Char) = text at hys
      cases hys with
      | nil => rfl
      | blank _ _ => cases hnil
      | word hpicks _ => exact absurd (List.append_eq_nil_iff.mp hnil.symm).1 hpicks.ne_nil
  | @blank start c cs xs hc _ ih =>
      generalize htext : c :: cs = text at hys
      cases hys with
      | nil => cases htext
      | blank _ hrest =>
          cases htext
          exact ih hxs hrest
      | word hpicks _ =>
          rw [← htext] at hpicks
          exact absurd hc (by simp [hpicks.head_not_blank])
  | @word start t w cs xs hpicks _ ih =>
      obtain ⟨ht, hrest⟩ := List.forall_mem_cons.mp hxs
      obtain ⟨r, rfl, hchosen⟩ := hpicks.chosen ht
      generalize htext : w ++ cs = text at hys hpicks hchosen
      cases hys with
      | nil => exact absurd (List.append_eq_nil_iff.mp htext).1 hpicks.ne_nil
      | blank hc _ => exact absurd hc (by simp [hpicks.head_not_blank])
      | word hpicks' hys =>
          obtain ⟨rfl, rfl⟩ := hchosen.picks_eq hpicks'
          cases List.append_cancel_left htext
          rw [ih hrest hys]

theorem blanks {gap : List Char} (hgap : gap.all isBlank)
    (h : Lexes (start + Text.bytes gap) text xs) : Lexes start (gap ++ text) xs := by
  induction gap generalizing start with
  | nil => simpa [Text.bytes] using h
  | cons c gap ih =>
      simp only [List.all_cons, Bool.and_eq_true] at hgap
      exact .blank hgap.1 (ih hgap.2 (by simpa [Text.bytes, Nat.add_assoc] using h))

end Lexes

/-- Tokens written out in order, with a gap after each but the last. Gaps are counted from the
end. -/
def spaced (gap : Nat → List Char) : List Token → List Char
  | [] => []
  | [t] => t.display.toList
  | t :: ts => t.display.toList ++ (gap ts.length ++ spaced gap ts)

def Written (t : Token) : Prop :=
  t.isError = false ∧ t.isComment = false ∧ ∃ w after, Picks (w ++ after) t w

theorem written_of_mem_tokens {text : List Char} {x : Lexeme} (hx : x ∈ tokens text)
    (herror : x.token.isError = false) : Written x.token := by
  obtain ⟨before, w, after, hs⟩ := standsIn_of_mem_tokens hx
  exact ⟨herror, by simpa using List.of_mem_filter hx, w, after, hs.picks⟩

theorem Written.picks {t : Token} (h : Written t) {rest : List Char}
    (hrest : ∀ c ∈ rest.head?, isBlank c) :
    Picks (t.display.toList ++ rest) t t.display.toList := by
  obtain ⟨herror, hcomment, w, after, hpicks⟩ := h
  have hdisplay : t.display.toList = w := by rw [hpicks.display herror, String.toList_ofList]
  obtain ⟨r, rfl, hchosen⟩ := hpicks.chosen herror
  have hr : r ≠ .comment := by
    rintro rfl
    cases hcomment
  rw [hdisplay]
  exact .rule (hchosen.before_blank hr hrest)

section Spacing

variable {gap : Nat → List Char} (hgap : ∀ n, gap n ≠ [] ∧ (gap n).all isBlank)

include hgap

theorem lexes_spaced {ts : List Token} (hts : ∀ t ∈ ts, Written t) (start : Nat) :
    ∃ xs, Lexes start (spaced gap ts) xs ∧ xs.map (·.token) = ts := by
  fun_induction spaced gap ts generalizing start with
  | case1 => exact ⟨[], .nil, rfl⟩
  | case2 t =>
      have hpicks : Picks (t.display.toList ++ []) t t.display.toList :=
        (hts t List.mem_cons_self).picks (by simp)
      refine ⟨[⟨t, start, start + Text.bytes t.display.toList⟩], ?_, rfl⟩
      simpa using Lexes.word hpicks .nil
  | case3 t ts _ ih =>
      obtain ⟨ht, hrest⟩ := List.forall_mem_cons.mp hts
      obtain ⟨hne, hblank⟩ := hgap ts.length
      obtain ⟨c, more, hmore⟩ := List.exists_cons_of_ne_nil hne
      obtain ⟨xs, hxs, htokens⟩ := ih hrest
        (start + Text.bytes t.display.toList + Text.bytes (gap ts.length))
      have hhead : ∀ d ∈ (gap ts.length ++ spaced gap ts).head?, isBlank d := by
        rw [hmore] at hblank ⊢
        simp_all
      exact ⟨_, .word (ht.picks hhead) (.blanks hblank hxs), congrArg _ htokens⟩

theorem scan_spaced {ts : List Token} (hts : ∀ t ∈ ts, Written t) :
    (scan (spaced gap ts)).map (·.token) = ts := by
  obtain ⟨xs, hxs, htokens⟩ := lexes_spaced hgap hts 0
  have herror : ∀ x ∈ xs, x.token.isError = false := fun x hx =>
    (hts x.token (htokens ▸ List.mem_map_of_mem hx)).1
  rw [hxs.unique herror (scan_lexes _), htokens]

theorem tokens_spaced {text : List Char} (htext : ∀ x ∈ tokens text, x.token.isError = false) :
    (tokens (spaced gap ((tokens text).map (·.token)))).map (·.token) =
        (tokens text).map (·.token) ∧
      comments (spaced gap ((tokens text).map (·.token))) = [] := by
  have hts : ∀ t ∈ (tokens text).map (·.token), Written t := by
    intro t ht
    obtain ⟨x, hx, rfl⟩ := List.mem_map.mp ht
    exact written_of_mem_tokens hx (htext x hx)
  have hscan := scan_spaced hgap hts
  have hplain : ∀ x ∈ scan (spaced gap ((tokens text).map (·.token))),
      x.token.isComment = false := fun x hx =>
    (hts x.token (hscan ▸ List.mem_map_of_mem hx)).2.1
  constructor
  · rw [tokens, List.filter_eq_self.mpr (by simpa using hplain), hscan]
  · exact List.filter_eq_nil_iff.mpr (by simpa using hplain)

end Spacing

def crowdedText : List Char :=
  "let x_1=1.//c\n.2+//y\nletter->\"a // \\\" b\"=/ /_ _a 3.4.5//".toList

def raggedGap (n : Nat) : List Char := if n % 2 = 0 then [' ', '\x0c'] else ['\n', '\t', '\r']

theorem crowdedText_spaced :
    (∀ x ∈ tokens crowdedText, x.token.isError = false) ∧
    (comments crowdedText).length = 2 ∧
    (∀ n, raggedGap n ≠ [] ∧ (raggedGap n).all isBlank) ∧
    (tokens (spaced raggedGap ((tokens crowdedText).map (·.token)))).map (·.token) =
        (tokens crowdedText).map (·.token) ∧
      comments (spaced raggedGap ((tokens crowdedText).map (·.token))) = [] := by
  have hgap (n : Nat) : raggedGap n ≠ [] ∧ (raggedGap n).all isBlank := by
    unfold raggedGap
    split <;> decide
  have htext : ∀ x ∈ tokens crowdedText, x.token.isError = false := by decide +kernel
  exact ⟨htext, by decide +kernel, hgap, tokens_spaced hgap htext⟩

end LanguageService.Lexer
